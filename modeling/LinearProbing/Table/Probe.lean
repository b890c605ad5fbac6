import LinearProbing.Table.Basic

set_option autoImplicit false

/-!
# Probing

The probe path of a hash starts at its home and follows the cycle. A probe walks along it, asks a
predicate about the key of each entry with the same stored hash, and lands on the first bucket that
is empty or whose key the predicate accepts. The predicate runs in a monad of the caller's choice, so
it may keep a record of what it was asked, or stop the probe with a fault.
-/

namespace LinearProbing

inductive Landing where
  /-- The bucket holds a matching key. -/
  | found (bucket : Nat)
  /-- No key on the path matches, and the bucket is the first empty one. -/
  | vacant (bucket : Nat)
  /-- No key matches, and no bucket is empty. -/
  | exhausted
  deriving DecidableEq, Repr

namespace Table

variable {K V : Type} {m : Type → Type} [Monad m]

@[specialize] def probeFrom (t : Table K V) (stored : UInt32) (accept : K → m Bool) :
    (steps i : Nat) → m Landing
  | 0, _ => pure .exhausted
  | steps + 1, i =>
    match t.peek i with
    | none => pure (.vacant i)
    | some e =>
      if e.hash = stored then do
        if ← accept e.key then
          pure (.found i)
        else
          t.probeFrom stored accept steps (t.next i)
      else
        t.probeFrom stored accept steps (t.next i)

/-- Walks the probe path of a hash once around the table. -/
@[specialize] def probe (t : Table K V) (hash : UInt32) (accept : K → m Bool) : m Landing :=
  t.probeFrom (markHash hash) accept t.capacity (t.home hash)

/-- Puts a new entry where its probe landed, and answers whether it did. A matching key is left
alone. -/
def settle (t : Table K V) (landing : Landing) (hash : UInt32) (key : K) (value : V) :
    Outcome (Table K V) Bool :=
  match landing with
  | .found _ => .ok false t
  | .vacant i => (t.write i ⟨markHash hash, key, value⟩).map fun _ => true
  | .exhausted => .fail .tableFull t

/-- Adds an entry unless an equal key is stored, and answers whether it did. The predicate is asked
about a stored key first and the new key second. The table never grows here. -/
@[specialize] def insert (t : Table K V) (hash : UInt32) (key : K) (value : V)
    (eq : K → K → m Bool) : m (Outcome (Table K V) Bool) := do
  let landing ← t.probe hash fun stored => eq stored key
  return t.settle landing hash key value

@[specialize] def find (t : Table K V) (hash : UInt32) (accept : K → m Bool) : m (Option Nat) := do
  match ← t.probe hash accept with
  | .found i => return some i
  | .vacant _ | .exhausted => return none

end Table

end LinearProbing
