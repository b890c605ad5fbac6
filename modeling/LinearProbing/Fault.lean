set_option autoImplicit false

/-!
# Faults

A call either answers or stops with a fault. A fault names its cause; the wording that is shown
for it is `Fault.message`.
-/

namespace LinearProbing

/-- A condition that every operation relies on and asserts where it relies on it. -/
inductive Check where
  /-- A hash that is written to a bucket carries the occupancy mark. -/
  | markedHash
  /-- A bucket that is written to is empty. -/
  | emptyTarget
  /-- A bucket that is emptied holds an entry. -/
  | filledSource
  /-- An entry moves from an occupied bucket to an empty one. -/
  | freeMove
  /-- The bucket left over when a gap has been closed is empty. -/
  | gapLeftEmpty
  /-- A content that no lookup found is new to the index. -/
  | contentIsNew
  deriving DecidableEq, Repr

/-- What stopped a call. -/
inductive Fault where
  | zeroModulus
  | sumTooLarge
  | differenceNegative
  | productTooLarge
  /-- An index points past the last of `size` places. -/
  | outOfBounds (size index : Nat)
  /-- A range ends behind the last of `size` places. -/
  | rangeTooLong (size stop : Nat)
  | emptyBucket (index : Nat)
  | tableFull
  /-- The requested capacity cannot hold the present entries. -/
  | targetTooSmall
  /-- A container was entered while it was probing. -/
  | reentrant
  | notCanonical
  | slotsExhausted
  /-- The handle was made before the last reset. -/
  | deadHandle
  /-- The same content is in the index under two handles. -/
  | contentPooledTwice
  | symbolsExhausted
  | endless
  /-- One of the conditions that the operations keep does not hold. -/
  | broken (check : Check)
  deriving DecidableEq, Repr

def Check.expression : Check → String
  | .markedHash => "stored_hash & OCCUPIED != 0"
  | .emptyTarget => "!self.is_occupied(idx)"
  | .filledSource => "self.is_occupied(idx)"
  | .freeMove => "self.is_occupied(src) && !self.is_occupied(dst)"
  | .gapLeftEmpty => "!self.is_occupied(freed)"
  | .contentIsNew => "inserted"

def Fault.message : Fault → String
  | .zeroModulus => "modulo by zero capacity"
  | .sumTooLarge => "attempt to add with overflow"
  | .differenceNegative => "attempt to subtract with overflow"
  | .productTooLarge => "attempt to multiply with overflow"
  | .outOfBounds size index =>
    "index out of bounds: the len is " ++ toString size ++ " but the index is " ++ toString index
  | .rangeTooLong size stop =>
    "range end index " ++ toString stop ++ " out of range for slice of length " ++ toString size
  | .emptyBucket index => "bucket " ++ toString index ++ " is empty"
  | .tableFull => "insert into a full hash table"
  | .targetTooSmall => "rehash target too small"
  | .reentrant => "reentrant call into a container while it is probing"
  | .notCanonical => "set elements are not sorted and unique"
  | .slotsExhausted => "SlotMap number of elements overflow"
  | .deadHandle => "invalid SlotMap key used"
  | .contentPooledTwice => "set content already pooled under another key"
  | .symbolsExhausted => "string pool is full"
  | .endless => "the search does not end"
  | .broken check => "assertion failed: " ++ check.expression

end LinearProbing
