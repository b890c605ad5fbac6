import LinearProbing.Table.Grow
import LinearProbing.Table.Remove

set_option autoImplicit false

/-!
# Stores

A store is a table that counts its entries, grows when it gets crowded, and refuses to be entered
while it is probing. The caller supplies the hash and the equality with every call, so keys may be
handles whose content lies elsewhere.

A predicate is given the store as it stands during the probe, which is marked busy. Whatever the
predicate reads from it, or stops with because of it, is what a call from inside the probe would see.
-/

namespace LinearProbing

/-- A table with a count of its entries and a mark that is set while it is probing. -/
structure Store (K V : Type) where
  table : Table K V
  len : Nat
  busy : Bool

namespace Store

variable {K V α : Type} {m : Type → Type} [Monad m]

def withCapacity (n : Nat) : Store K V := ⟨Table.withCapacity n, 0, false⟩

def capacity (s : Store K V) : Nat := s.table.capacity

def isEmpty (s : Store K V) : Bool := s.len == 0

def toList (s : Store K V) : List (K × V) := s.table.toList

def keys (s : Store K V) : List K := s.toList.map Prod.fst

def values (s : Store K V) : List V := s.toList.map Prod.snd

def enter : Store K V → Store K V
  | ⟨table, len, _⟩ => ⟨table, len, true⟩

def leave : Store K V → Store K V
  | ⟨table, len, _⟩ => ⟨table, len, false⟩

def clear (s : Store K V) : Outcome (Store K V) Unit :=
  if s.busy then .fail .reentrant s else .ok () ⟨s.table.clear, 0, false⟩

/-- Probes with the busy mark set and goes on from the landing. The mark is taken away on every way
out, and a store that is busy already is not touched. A fault of the predicate ends the call before
anything has changed. -/
@[specialize] def probing (s : Store K V) (hash : UInt32)
    (accept : Store K V → K → ExceptT Fault m Bool)
    (commit : Landing → Store K V → Outcome (Store K V) α) : m (Outcome (Store K V) α) :=
  if s.busy then
    pure (.fail .reentrant s)
  else do
    let s := s.enter
    match ← (s.table.probe hash (accept s)).run with
    | .error fault => return .fail fault s.leave
    | .ok landing => return (commit landing s).within leave

def countUp : Store K V → Outcome (Store K V) Unit
  | ⟨table, len, busy⟩ =>
    match Size.add len 1 with
    | .error fault => .fail fault ⟨table, len, busy⟩
    | .ok len => .ok () ⟨table, len, busy⟩

def countDown : Store K V → Outcome (Store K V) Unit
  | ⟨table, len, busy⟩ =>
    match Size.sub len 1 with
    | .error fault => .fail fault ⟨table, len, busy⟩
    | .ok len => .ok () ⟨table, len, busy⟩

def relieve : Store K V → Outcome (Store K V) Unit
  | ⟨table, len, busy⟩ =>
    match table.isCrowded len with
    | .error fault => .fail fault ⟨table, len, busy⟩
    | .ok false => .ok () ⟨table, len, busy⟩
    | .ok true => table.grow.within (⟨·, len, busy⟩)

/-- Puts a new entry where its probe landed, counts it, and grows if the table is crowded then. -/
def settle (landing : Landing) (hash : UInt32) (key : K) (value : V) :
    Store K V → Outcome (Store K V) Bool
  | ⟨table, len, busy⟩ =>
    ((table.settle landing hash key value).within (⟨·, len, busy⟩)).bind fun added s =>
      if added then
        s.countUp.bind fun _ s => s.relieve.map fun _ => true
      else
        .ok false s

def read (landing : Landing) (s : Store K V) : Outcome (Store K V) (Option (K × V)) :=
  match landing with
  | .found i => .ofExcept ((s.table.entryAt i).map fun e => some e.pair) s
  | .vacant _ | .exhausted => .ok none s

def revise (f : V → α × V) (landing : Landing) : Store K V → Outcome (Store K V) (Option α)
  | ⟨table, len, busy⟩ =>
    match landing with
    | .found i => ((table.updateAt i f).map some).within (⟨·, len, busy⟩)
    | .vacant _ | .exhausted => .ok none ⟨table, len, busy⟩

def evict (landing : Landing) : Store K V → Outcome (Store K V) (Option (K × V))
  | ⟨table, len, busy⟩ =>
    ((table.evict landing).within (⟨·, len, busy⟩)).bind fun taken s =>
      match taken with
      | some pair => s.countDown.map fun _ => some pair
      | none => .ok none s

/-- Adds an entry unless an equal key is stored under this hash, and answers whether it did. The
equality is asked about a stored key first and the new key second. -/
@[specialize] def insertWithHash (s : Store K V) (hash : UInt32) (key : K) (value : V)
    (eq : Store K V → K → K → ExceptT Fault m Bool) : m (Outcome (Store K V) Bool) :=
  s.probing hash (fun busy stored => eq busy stored key)
    fun landing s => s.settle landing hash key value

@[specialize] def findWithHash (s : Store K V) (hash : UInt32)
    (accept : Store K V → K → ExceptT Fault m Bool) : m (Outcome (Store K V) (Option (K × V))) :=
  s.probing hash accept read

/-- Replaces the value of the first entry under this hash whose key the predicate accepts, and answers
what `f` makes of the old value. -/
@[specialize] def updateWithHash (s : Store K V) (hash : UInt32)
    (accept : Store K V → K → ExceptT Fault m Bool) (f : V → α × V) :
    m (Outcome (Store K V) (Option α)) :=
  s.probing hash accept (revise f)

@[specialize] def removeWithHash (s : Store K V) (hash : UInt32)
    (accept : Store K V → K → ExceptT Fault m Bool) : m (Outcome (Store K V) (Option (K × V))) :=
  s.probing hash accept evict

end Store

end LinearProbing
