set_option autoImplicit false

/-!
# Events

Containers report what they do to their storage as they do it, in order.
-/

namespace LinearProbing

inductive Level where
  | trace
  | debug
  deriving DecidableEq, Repr

def Level.name : Level → String
  | .trace => "TRACE"
  | .debug => "DEBUG"

inductive Event where
  /-- A table is about to move from one capacity to a larger one. -/
  | grow (old new : Nat)
  /-- A pool is about to let go of all its sets. -/
  | reset (sets : Nat)
  deriving DecidableEq, Repr

namespace Event

def level : Event → Level
  | .grow _ _ => .trace
  | .reset _ => .debug

def text : Event → String
  | .grow old new => "hash table grow: " ++ toString old ++ " -> " ++ toString new ++ " buckets"
  | .reset sets => "immutable set pool reset: releasing " ++ toString sets ++ " sets"

def line (e : Event) : String := e.level.name ++ " " ++ e.text

end Event

end LinearProbing
