import LinearProbing.Fnv.Basic
import LinearProbing.Store.Basic

set_option autoImplicit false

/-!
# Pools of strings

A pool keeps each string once and hands out one symbol for it, which is its position in the order of
first appearance. Symbols are found through an index that is hashed and compared by the strings they
stand for.
-/

namespace LinearProbing

/-- The position of a string in its pool. -/
structure Symbol where
  number : UInt32
  deriving DecidableEq, Ord

def Symbol.index (s : Symbol) : Nat := s.number.toNat

/-- The distinct strings in the order of first appearance, and the index of their symbols. -/
structure StringPool where
  index : Store Symbol Unit
  strings : Array String

namespace StringPool

def empty : StringPool := ⟨.withCapacity Capacity.standard, #[]⟩

def len (p : StringPool) : Nat := p.strings.size

def isEmpty (p : StringPool) : Bool := p.strings.isEmpty

def toList (p : StringPool) : List (Symbol × String) :=
  p.strings.toList.mapIdx fun i s => (⟨UInt32.ofNat i⟩, s)

/-- The string of a symbol, unless the pool has not reached it. -/
def resolve (p : StringPool) (symbol : Symbol) : Option String := p.strings[symbol.index]?

def maxLen : Nat := UInt32.size - 1

/-- The string at the position of a symbol, which has to be reached. -/
def stringOf (strings : Array String) (symbol : Symbol) : Except Fault String :=
  match strings[symbol.index]? with
  | some s => .ok s
  | none => .error (.outOfBounds strings.size symbol.index)

def lookup (hash : UInt32) (s : String) : StringPool → Outcome StringPool (Option Symbol)
  | ⟨index, strings⟩ =>
    let found : Outcome (Store Symbol Unit) (Option (Symbol × Unit)) :=
      Id.run (index.findWithHash hash fun _ symbol =>
        ExceptT.mk (pure ((stringOf strings symbol).map (· == s))))
    (found.map (·.map Prod.fst)).within (⟨·, strings⟩)

/-- Puts a new string behind the others and then its symbol into the index. -/
def store (hash : UInt32) (s : String) : StringPool → Outcome StringPool Symbol
  | ⟨index, strings⟩ =>
    if strings.size < maxLen then
      let symbol : Symbol := ⟨UInt32.ofNat strings.size⟩
      let strings := strings.push s
      let added : Outcome (Store Symbol Unit) Bool :=
        Id.run (index.insertWithHash hash symbol () fun _ stored new => ExceptT.mk (pure do
          let old ← stringOf strings stored
          let fresh ← stringOf strings new
          return old == fresh))
      (added.within (⟨·, strings⟩)).bind fun isNew p =>
        if isNew then .ok symbol p else .fail (.broken .contentIsNew) p
    else
      .fail .symbolsExhausted ⟨index, strings⟩

/-- The symbol of a string, which is put into the pool if it is not there yet. -/
def intern (s : String) (p : StringPool) : Outcome StringPool Symbol :=
  let hash := Fnv.addString Fnv.seed s
  (p.lookup hash s).bind fun found p =>
    match found with
    | some symbol => .ok symbol p
    | none => p.store hash s

def get (s : String) (p : StringPool) : Outcome StringPool (Option Symbol) :=
  p.lookup (Fnv.addString Fnv.seed s) s

end StringPool

end LinearProbing
