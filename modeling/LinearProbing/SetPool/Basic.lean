import LinearProbing.SetPool.Arena
import LinearProbing.SetPool.Canonical
import LinearProbing.Store.Basic

set_option autoImplicit false

/-!
# Pools of sets

A pool keeps each set once and hands out one handle for it, so equal handles mean equal sets and the
other way round. The sets lie in the slots of an arena. An index finds the handle of a content: it is a
store of handles, hashed and compared by the sets they stand for.
-/

namespace LinearProbing

/-- An arena of sets, an index of their handles, and the hash function of their contents. -/
structure SlotPool (A H α : Type) where
  contentHash : List α → UInt64
  index : Store H Unit
  arena : A

abbrev SetPool (α : Type) : Type := SlotPool (Arena (PooledSet α)) Handle α

namespace SlotPool

variable {A H α : Type} [Slots A H (PooledSet α)]

def empty (contentHash : List α → UInt64) : SlotPool A H α :=
  ⟨contentHash, .withCapacity Capacity.standard, Slots.empty⟩

def len (p : SlotPool A H α) : Nat := Slots.len p.arena

def isEmpty (p : SlotPool A H α) : Bool := p.len == 0

/-- The set of a handle, unless the pool was reset since the handle was made. -/
def get? (p : SlotPool A H α) (h : H) : Option (PooledSet α) := Slots.get? p.arena h

def elems? (p : SlotPool A H α) (h : H) : Option (List α) := (p.get? h).map PooledSet.toList

def find [Ord α] (p : SlotPool A H α) (h : H) (x : α) : Option α := (p.get? h).bind (·.find x)

def toList (p : SlotPool A H α) : List (H × List α) :=
  (Slots.toList p.arena).map fun entry => (entry.1, entry.2.toList)

def indexHash (p : SlotPool A H α) (elems : List α) : UInt32 := (p.contentHash elems).toUInt32

/-- The elements of the set of a handle, which has to be alive. -/
def contentOf (arena : A) (h : H) : Except Fault (List α) :=
  match Slots.get? arena h with
  | some set => .ok set.toList
  | none => .error .deadHandle

def reset : SlotPool A H α → Outcome (SlotPool A H α) Unit
  | ⟨contentHash, index, arena⟩ =>
    ((index.clear.within (⟨contentHash, ·, arena⟩)).bind fun _ p =>
      .ok () ⟨p.contentHash, p.index, Slots.clear p.arena⟩).after (.reset (Slots.len arena))

section Interning

variable [BEq α]

def lookup (hash : UInt32) (elems : List α) : SlotPool A H α → Outcome (SlotPool A H α) (Option H)
  | ⟨contentHash, index, arena⟩ =>
    let found : Outcome (Store H Unit) (Option (H × Unit)) :=
      Id.run (index.findWithHash hash fun _ h =>
        ExceptT.mk (pure ((contentOf arena h).map (· == elems))))
    (found.map (·.map Prod.fst)).within (⟨contentHash, ·, arena⟩)

/-- Puts a new content into the arena and then its handle into the index. -/
def store (hash : UInt32) (elems : List α) : SlotPool A H α → Outcome (SlotPool A H α) H
  | ⟨contentHash, index, arena⟩ =>
    match Slots.add arena ⟨elems.toArray⟩ with
    | none => .fail .slotsExhausted ⟨contentHash, index, arena⟩
    | some (h, arena) =>
      let added : Outcome (Store H Unit) Bool :=
        Id.run (index.insertWithHash hash h () fun _ stored new => ExceptT.mk (pure do
          let old ← contentOf arena stored
          let fresh ← contentOf arena new
          return old == fresh))
      (added.within (⟨contentHash, ·, arena⟩)).bind fun isNew p =>
        if isNew then .ok h p else .fail .contentPooledTwice p

variable [Ord α]

/-- The handle of a canonical list, which is put into the pool if it is not there yet. -/
def insertSorted (elems : List α) (p : SlotPool A H α) : Outcome (SlotPool A H α) H :=
  if Canonical.isCanonical elems then
    let hash := p.indexHash elems
    (p.lookup hash elems).bind fun found p =>
      match found with
      | some h => .ok h p
      | none => p.store hash elems
  else
    .fail .notCanonical p

def insert (elems : List α) (p : SlotPool A H α) : Outcome (SlotPool A H α) H :=
  p.insertSorted (Canonical.ofList elems)

/-- The handle of the set of the elements of a buffer, and the buffer with its distinct elements in
front, ascending. -/
def insertBuffer (buffer : Array α) (p : SlotPool A H α) : Outcome (SlotPool A H α) H × Array α :=
  let compacted := Canonical.compact buffer
  let pooled : Outcome (SlotPool A H α) H :=
    match compacted.result.bind fun distinct => Canonical.front compacted.state distinct with
    | .error fault => .fail fault p
    | .ok elems => p.insertSorted elems
  (pooled, compacted.state)

/-- The handle of the union of two sets of the pool. Of two equal elements the one of the first set is
taken. -/
def merge (a b : H) (p : SlotPool A H α) : Outcome (SlotPool A H α) H :=
  match contentOf p.arena a, contentOf p.arena b with
  | .error fault, _ => .fail fault p
  | .ok _, .error fault => .fail fault p
  | .ok left, .ok right => p.insertSorted (Canonical.merge left right)

end Interning

end SlotPool

end LinearProbing
