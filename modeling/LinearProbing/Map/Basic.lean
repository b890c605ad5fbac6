import LinearProbing.Store.Cursor

set_option autoImplicit false

/-!
# Maps

A map is a store together with the function that hashes its keys. Of a hash it uses the low 32 bits.
-/

namespace LinearProbing

structure Map (K V : Type) extends Store K V where
  hashOf : K → UInt64

namespace Map

variable {K V α : Type} {m : Type → Type} [Monad m]

def withCapacity (n : Nat) (hashOf : K → UInt64) : Map K V := ⟨Store.withCapacity n, hashOf⟩

def empty (hashOf : K → UInt64) : Map K V := withCapacity Capacity.standard hashOf

/-- The hash under which the map looks for a key. -/
def bucketHash (hashOf : K → UInt64) (key : K) : UInt32 := (hashOf key).toUInt32

def clear : Map K V → Outcome (Map K V) Unit
  | ⟨store, hashOf⟩ => store.clear.within (⟨·, hashOf⟩)

/-- Adds an entry under the hash of its key unless `eq` accepts a stored key. -/
@[specialize] def insertBy (eq : Store K V → K → K → ExceptT Fault m Bool) (key : K) (value : V) :
    Map K V → m (Outcome (Map K V) Bool)
  | ⟨store, hashOf⟩ =>
    (·.within (⟨·, hashOf⟩)) <$> store.insertWithHash (bucketHash hashOf key) key value eq

@[specialize] def findBy (eq : Store K V → K → K → ExceptT Fault m Bool) (key : K) :
    Map K V → m (Outcome (Map K V) (Option (K × V)))
  | ⟨store, hashOf⟩ =>
    (·.within (⟨·, hashOf⟩)) <$>
      store.findWithHash (bucketHash hashOf key) fun busy stored => eq busy stored key

@[specialize] def updateBy (eq : Store K V → K → K → ExceptT Fault m Bool) (key : K)
    (f : V → α × V) : Map K V → m (Outcome (Map K V) (Option α))
  | ⟨store, hashOf⟩ =>
    (·.within (⟨·, hashOf⟩)) <$>
      store.updateWithHash (bucketHash hashOf key) (fun busy stored => eq busy stored key) f

@[specialize] def removeBy (eq : Store K V → K → K → ExceptT Fault m Bool) (key : K) :
    Map K V → m (Outcome (Map K V) (Option (K × V)))
  | ⟨store, hashOf⟩ =>
    (·.within (⟨·, hashOf⟩)) <$>
      store.removeWithHash (bucketHash hashOf key) fun busy stored => eq busy stored key

section Keyed

variable [BEq K]

/-- The equality of keys as a predicate that asks nothing of the store. -/
def sameKey : Store K V → K → K → ExceptT Fault Id Bool := fun _ stored key => pure (stored == key)

/-- Adds an entry unless the key is present, and answers whether it did. A present entry is left as it
is. -/
def insert (key : K) (value : V) (s : Map K V) : Outcome (Map K V) Bool :=
  (s.insertBy sameKey key value).run

def findEntry (key : K) (s : Map K V) : Outcome (Map K V) (Option (K × V)) :=
  (s.findBy sameKey key).run

def find (key : K) (s : Map K V) : Outcome (Map K V) (Option V) :=
  (s.findEntry key).map (·.map Prod.snd)

def contains (key : K) (s : Map K V) : Outcome (Map K V) Bool :=
  (s.findEntry key).map Option.isSome

/-- Replaces the value of a key, and answers what `f` makes of the old one. -/
def update (key : K) (f : V → α × V) (s : Map K V) : Outcome (Map K V) (Option α) :=
  (s.updateBy sameKey key f).run

def removeEntry (key : K) (s : Map K V) : Outcome (Map K V) (Option (K × V)) :=
  (s.removeBy sameKey key).run

def remove (key : K) (s : Map K V) : Outcome (Map K V) Bool :=
  (s.removeEntry key).map Option.isSome

/-- Adds entries in turn, each one unless its key is present by then. -/
def extend (pairs : List (K × V)) (s : Map K V) : Outcome (Map K V) Unit :=
  Outcome.fold (fun _ pair s => (s.insert pair.1 pair.2).map fun _ => ()) pairs () s

/-- A map with the given entries. Of entries with equal keys the first one is kept. -/
def ofList (hashOf : K → UInt64) (pairs : List (K × V)) : Outcome (Map K V) Unit :=
  (empty hashOf).extend pairs

end Keyed

def rewrite (fs : List (K → V → α × V)) : Map K V → Outcome (Map K V) (List (Option α))
  | ⟨store, hashOf⟩ => (store.rewrite fs).within (⟨·, hashOf⟩)

end Map

end LinearProbing
