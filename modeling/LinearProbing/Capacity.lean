import LinearProbing.Size

set_option autoImplicit false

/-!
# Capacities

The capacities of tables come from a short ascending list of primes, so that a remainder spreads
hashes well. Above the largest listed prime every number is a capacity.
-/

namespace LinearProbing.Capacity

def least : Nat := 7

def greatest : Nat := 1048583

def primes : List Nat :=
  [least, 17, 31, 67, 257, 1031, 4093, 8191, 16381, 32381, 65539, 131071, 262147, 524287, greatest]

def standard : Nat := 4

/-- A table is crowded once this many per cent of its buckets are occupied. -/
def maxLoad : Nat := 70

/-- The least listed capacity that is not below `n`, or `n` itself above all of them. -/
def roundUp (n : Nat) : Nat := (primes.find? fun p => decide (n ≤ p)).getD n

/-- The remainder of `n`, which needs a capacity that is not zero. -/
def reduce (n capacity : Nat) : Except Fault Nat :=
  if capacity = 0 then .error .zeroModulus else .ok (n % capacity)

/-- The capacity that a table of `capacity` buckets grows to: the next listed one, and half as much
again from the largest listed one on. -/
def next (capacity : Nat) : Except Fault Nat :=
  if capacity < greatest then (Size.add capacity 1).map roundUp
  else Size.add capacity (capacity / 2)

/-- Whether `count` entries reach the maximum load of `capacity` buckets. -/
def isCrowded (capacity count : Nat) : Except Fault Bool := do
  let load ← Size.mul count 100
  let bound ← Size.mul capacity maxLoad
  return decide (bound ≤ load)

theorem reduce_eq_ok {capacity : Nat} (h : 0 < capacity) (n : Nat) :
    reduce n capacity = .ok (n % capacity) :=
  if_neg (Nat.ne_of_gt h)

theorem le_roundUp (n : Nat) : n ≤ roundUp n := by
  unfold roundUp
  cases h : primes.find? fun p => decide (n ≤ p) with
  | none => exact Nat.le_refl n
  | some p => simpa using List.find?_some h

theorem roundUp_of_greatest_lt {n : Nat} (h : greatest < n) : roundUp n = n := by
  have hall : primes.find? (fun p => decide (n ≤ p)) = none := by
    rw [List.find?_eq_none]
    intro p hp
    have hle : ∀ q ∈ primes, q ≤ greatest := by decide
    have := hle p hp
    simp only [decide_eq_true_eq]
    omega
  simp [roundUp, hall]

theorem least_le_roundUp (n : Nat) : least ≤ roundUp n := by
  unfold roundUp
  cases h : primes.find? fun p => decide (n ≤ p) with
  | none =>
    rw [List.find?_eq_none] at h
    have := h greatest (by decide)
    have hlt : least ≤ greatest := by decide
    simp only [decide_eq_true_eq] at this
    simp only [Option.getD_none]
    omega
  | some p =>
    have hle : ∀ q ∈ primes, least ≤ q := by decide
    exact hle p (List.mem_of_find?_eq_some h)

end LinearProbing.Capacity
