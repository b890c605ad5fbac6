import LinearProbing.Map.Basic

set_option autoImplicit false

/-!
# Sets of keys

A set of keys is a map whose values say nothing.
-/

namespace LinearProbing

structure KeySet (K : Type) where
  map : Map K Unit

namespace KeySet

variable {K : Type} {m : Type → Type} [Monad m]

def withCapacity (n : Nat) (hashOf : K → UInt64) : KeySet K := ⟨.withCapacity n hashOf⟩

def empty (hashOf : K → UInt64) : KeySet K := ⟨.empty hashOf⟩

def len (s : KeySet K) : Nat := s.map.len

def isEmpty (s : KeySet K) : Bool := s.map.isEmpty

def capacity (s : KeySet K) : Nat := s.map.capacity

def toList (s : KeySet K) : List K := s.map.keys

def clear (s : KeySet K) : Outcome (KeySet K) Unit := s.map.clear.within mk

@[specialize] def insertWithHash (hash : UInt32) (key : K)
    (eq : Store K Unit → K → K → ExceptT Fault m Bool) : KeySet K → m (Outcome (KeySet K) Bool)
  | ⟨store, hashOf⟩ =>
    (·.within fun store => ⟨store, hashOf⟩) <$> store.insertWithHash hash key () eq

@[specialize] def findWithHash (hash : UInt32)
    (accept : Store K Unit → K → ExceptT Fault m Bool) :
    KeySet K → m (Outcome (KeySet K) (Option K))
  | ⟨store, hashOf⟩ =>
    (fun o => (o.map (·.map Prod.fst)).within fun store => ⟨store, hashOf⟩) <$>
      store.findWithHash hash accept

@[specialize] def removeWithHash (hash : UInt32)
    (accept : Store K Unit → K → ExceptT Fault m Bool) :
    KeySet K → m (Outcome (KeySet K) (Option K))
  | ⟨store, hashOf⟩ =>
    (fun o => (o.map (·.map Prod.fst)).within fun store => ⟨store, hashOf⟩) <$>
      store.removeWithHash hash accept

section Keyed

variable [BEq K]

def insert (key : K) (s : KeySet K) : Outcome (KeySet K) Bool := (s.map.insert key ()).within mk

def find (key : K) (s : KeySet K) : Outcome (KeySet K) (Option K) :=
  ((s.map.findEntry key).map (·.map Prod.fst)).within mk

def contains (key : K) (s : KeySet K) : Outcome (KeySet K) Bool := (s.map.contains key).within mk

def remove (key : K) (s : KeySet K) : Outcome (KeySet K) Bool := (s.map.remove key).within mk

def take (key : K) (s : KeySet K) : Outcome (KeySet K) (Option K) :=
  ((s.map.removeEntry key).map (·.map Prod.fst)).within mk

def extend (keys : List K) (s : KeySet K) : Outcome (KeySet K) Unit :=
  Outcome.fold (fun _ key s => (s.insert key).map fun _ => ()) keys () s

/-- A set with the given members. Of equal keys the first one is kept. -/
def ofList (hashOf : K → UInt64) (keys : List K) : Outcome (KeySet K) Unit :=
  (empty hashOf).extend keys

end Keyed

structure Cursor (K : Type) where
  inner : Store.Cursor K Unit

def cursor (s : KeySet K) : Cursor K := ⟨s.map.cursor⟩

namespace Cursor

def next (c : Cursor K) : Outcome (Cursor K) (Option K) :=
  (c.inner.next.map (·.map Prod.fst)).within mk

def take : Nat → Cursor K → Outcome (Cursor K) (List (Option K))
  | 0, c => .ok [] c
  | n + 1, c => c.next.bind fun item c => (take n c).map (item :: ·)

def bounds (c : Cursor K) : Nat × Nat := c.inner.bounds

def rest (c : Cursor K) : List K := c.inner.rest.map Prod.fst

end Cursor

end KeySet

end LinearProbing
