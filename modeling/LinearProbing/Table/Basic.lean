import LinearProbing.Capacity
import LinearProbing.Cycle
import LinearProbing.Outcome

set_option autoImplicit false

/-!
# Hash tables

A table is a cycle of buckets. A bucket is empty or holds one entry: a key, its value, and the hash
of the key with the occupancy mark set. The home of a hash is its remainder modulo the capacity.
-/

namespace LinearProbing

/-- The bit that is set in every stored hash. -/
def occupancyMark : UInt32 := 0x80000000

/-- The form in which a hash is stored and compared. -/
def markHash (hash : UInt32) : UInt32 := hash ||| occupancyMark

structure Entry (K V : Type) where
  hash : UInt32
  key : K
  value : V

def Entry.pair {K V : Type} (e : Entry K V) : K × V := (e.key, e.value)

/-- A cycle of buckets. -/
structure Table (K V : Type) where
  slots : Array (Option (Entry K V))

namespace Table

variable {K V α : Type}

/-- An empty table with room for `n` buckets, rounded up to a capacity. Memory for them is taken to be
there, however many they are. -/
def withCapacity (n : Nat) : Table K V := ⟨Array.replicate (Capacity.roundUp n) none⟩

def capacity (t : Table K V) : Nat := t.slots.size

@[inline] def peek (t : Table K V) (i : Nat) : Option (Entry K V) := t.slots[i]?.join

/-- The bucket where the search for a hash starts. -/
def home (t : Table K V) (hash : UInt32) : Nat := (markHash hash).toNat % t.capacity

def home? (t : Table K V) (hash : UInt32) : Except Fault Nat :=
  Capacity.reduce (markHash hash).toNat t.capacity

def next (t : Table K V) (i : Nat) : Nat := Cycle.next t.capacity i

def occupied (t : Table K V) : Nat := t.slots.countP Option.isSome

def entries (t : Table K V) : List (Entry K V) := t.slots.toList.filterMap id

def toList (t : Table K V) : List (K × V) := t.entries.map Entry.pair

def isCrowded (t : Table K V) (count : Nat) : Except Fault Bool :=
  Capacity.isCrowded t.capacity count

/-- The contents of bucket `i`, which has to be one of the table. -/
def bucket (t : Table K V) (i : Nat) : Except Fault (Option (Entry K V)) :=
  match t.slots[i]? with
  | some slot => .ok slot
  | none => .error (.outOfBounds t.capacity i)

def isOccupied (t : Table K V) (i : Nat) : Except Fault Bool := (t.bucket i).map Option.isSome

/-- The stored hash in bucket `i`, zero if the bucket is empty. -/
def hashAt (t : Table K V) (i : Nat) : Except Fault UInt32 :=
  (t.bucket i).map fun slot => (slot.map Entry.hash).getD 0

/-- The entry in bucket `i`, which has to be occupied. -/
def entryAt (t : Table K V) (i : Nat) : Except Fault (Entry K V) :=
  (t.bucket i).bind fun slot =>
    match slot with
    | some e => .ok e
    | none => .error (.emptyBucket i)

def keyAt (t : Table K V) (i : Nat) : Except Fault K := (t.entryAt i).map Entry.key

def valueAt (t : Table K V) (i : Nat) : Except Fault V := (t.entryAt i).map Entry.value

/-- Replaces the value in bucket `i`, which has to be occupied, and answers what `f` makes of the old
value. -/
def updateAt (t : Table K V) (i : Nat) (f : V → α × V) : Outcome (Table K V) α :=
  match t.entryAt i with
  | .error fault => .fail fault t
  | .ok ⟨hash, key, value⟩ =>
    let (answer, value) := f value
    .ok answer ⟨t.slots.setIfInBounds i (some ⟨hash, key, value⟩)⟩

def clear (t : Table K V) : Table K V := ⟨Array.replicate t.capacity none⟩

/-- Puts an entry into bucket `i`, which has to be empty. -/
def write (t : Table K V) (i : Nat) (e : Entry K V) : Outcome (Table K V) Unit :=
  if e.hash &&& occupancyMark = 0 then .fail (.broken .markedHash) t
  else
    match t.isOccupied i with
    | .error fault => .fail fault t
    | .ok true => .fail (.broken .emptyTarget) t
    | .ok false => .ok () ⟨t.slots.setIfInBounds i (some e)⟩

@[simp] theorem capacity_withCapacity (n : Nat) :
    (withCapacity n : Table K V).capacity = Capacity.roundUp n := by
  simp [withCapacity, capacity]

@[simp] theorem peek_withCapacity (n i : Nat) : (withCapacity n : Table K V).peek i = none := by
  simp only [peek, withCapacity, Array.getElem?_replicate]
  split <;> rfl

@[simp] theorem capacity_clear (t : Table K V) : t.clear.capacity = t.capacity := by
  simp [clear, capacity]

@[simp] theorem peek_clear (t : Table K V) (i : Nat) : t.clear.peek i = none := by
  simp only [peek, clear, Array.getElem?_replicate]
  split <;> rfl

theorem home_lt {t : Table K V} (h : 0 < t.capacity) (hash : UInt32) : t.home hash < t.capacity :=
  Nat.mod_lt _ h

@[simp] theorem home_markHash (t : Table K V) (hash : UInt32) :
    t.home (markHash hash) = t.home hash := by
  simp [home, markHash, UInt32.or_assoc]

theorem lt_capacity_of_peek {t : Table K V} {i : Nat} {e : Entry K V} (h : t.peek i = some e) :
    i < t.capacity := by
  simp only [peek, Option.join_eq_some_iff] at h
  exact (Array.getElem?_eq_some_iff.1 h).1

@[simp] theorem capacity_updateAt (t : Table K V) (i : Nat) (f : V → α × V) :
    (t.updateAt i f).state.capacity = t.capacity := by
  unfold updateAt
  split <;> simp [capacity]

@[simp] theorem capacity_write (t : Table K V) (i : Nat) (e : Entry K V) :
    (t.write i e).state.capacity = t.capacity := by
  unfold write
  split
  · rfl
  · split
    · rfl
    · rfl
    · simp [capacity]

end Table

theorem markHash_and_occupancyMark (hash : UInt32) : markHash hash &&& occupancyMark = occupancyMark := by
  apply UInt32.toBitVec_inj.1
  ext i
  simp only [markHash, UInt32.toBitVec_and, UInt32.toBitVec_or, BitVec.getElem_and,
    BitVec.getElem_or]
  cases hash.toBitVec[i] <;> simp

end LinearProbing
