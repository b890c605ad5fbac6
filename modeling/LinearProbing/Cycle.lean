import LinearProbing.Size

set_option autoImplicit false

/-!
# Cycles of buckets

The buckets of a table form a cycle: the successor of the last bucket is the first one.
-/

namespace LinearProbing.Cycle

/-- The bucket after bucket `i` on a cycle of `n` buckets. -/
def next (n i : Nat) : Nat := if i + 1 < n then i + 1 else 0

/-- The bucket after bucket `i`, if `i + 1` is a size. -/
def next? (n i : Nat) : Except Fault Nat :=
  (Size.add i 1).map fun j => if j < n then j else 0

/-- The number of steps that lead from bucket `i` to bucket `j` on a cycle of `n` buckets. -/
def distance (n i j : Nat) : Nat := (j + n - i) % n

/-- Whether an entry in bucket `scan` whose home is `home` may move back into the gap: it may unless
its home lies after the gap and not after `scan` on the cycle. -/
def mayFill (gap scan home : Nat) : Bool :=
  (decide (gap < scan) && (decide (home ≤ gap) || decide (scan < home))) ||
    (decide (scan < gap) && (decide (home ≤ gap) && decide (scan < home)))

theorem next?_eq_ok {n i : Nat} (hi : i < n) (hn : n < Size.limit) : next? n i = .ok (next n i) := by
  have hadd : Size.add i 1 = .ok (i + 1) := Size.add_eq_ok_iff.2 ⟨Nat.lt_of_le_of_lt hi hn, rfl⟩
  rw [next?, hadd]
  rfl

theorem next_lt {n i : Nat} (h : 0 < n) : next n i < n := by
  unfold next
  split <;> omega

theorem next_eq_mod {n i : Nat} (h : i < n) : next n i = (i + 1) % n := by
  unfold next
  split
  · rw [Nat.mod_eq_of_lt (by omega)]
  · rw [show i + 1 = n by omega, Nat.mod_self]

theorem distance_lt {n : Nat} (h : 0 < n) (i j : Nat) : distance n i j < n := Nat.mod_lt _ h

@[simp] theorem distance_self (n i : Nat) : distance n i i = 0 := by
  simp [distance]

theorem add_distance_mod {n i j : Nat} (hi : i < n) (hj : j < n) :
    (i + distance n i j) % n = j := by
  unfold distance
  rw [Nat.add_mod_mod, show i + (j + n - i) = j + n by omega, Nat.add_mod_right,
    Nat.mod_eq_of_lt hj]

end LinearProbing.Cycle
