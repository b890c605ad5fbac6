import LinearProbing.Capacity
import Mathlib.Algebra.Group.Nat.Defs

set_option autoImplicit false

/-!
# The load test and the next capacity

Below a capacity of `2 ^ 57` the test for crowding stays within the sizes, and so does the next
capacity.
-/

namespace LinearProbing.Capacity

theorem roundUp_pos (n : Nat) : 0 < roundUp n :=
  Nat.lt_of_lt_of_le (by decide) (least_le_roundUp n)

theorem mem_primes_of_le {n : Nat} (hn : n ≤ greatest) : roundUp n ∈ primes := by
  unfold roundUp
  cases hfind : primes.find? fun p => decide (n ≤ p) with
  | some p => exact List.mem_of_find?_eq_some hfind
  | none =>
    rw [List.find?_eq_none] at hfind
    have := hfind greatest (by decide)
    simp [hn] at this

theorem roundUp_roundUp (n : Nat) : roundUp (roundUp n) = roundUp n := by
  by_cases hn : n ≤ greatest
  · have hfixed : ∀ p ∈ primes, roundUp p = p := by decide
    exact hfixed _ (mem_primes_of_le hn)
  · rw [roundUp_of_greatest_lt (n := n) (by omega), roundUp_of_greatest_lt (by omega)]

/-- The least capacity that the load test cannot take. -/
def loadLimit : Nat := 2 ^ 57

theorem isCrowded_eq {capacity count : Nat} (hcount : count ≤ capacity) (hcap : capacity < loadLimit) :
    isCrowded capacity count = .ok (decide (capacity * maxLoad ≤ count * 100)) := by
  have hload : Size.mul count 100 = .ok (count * 100) := by
    rw [Size.mul_eq_ok_iff]
    unfold loadLimit at hcap
    exact ⟨by unfold Size.limit UInt64.size; omega, rfl⟩
  have hbound : Size.mul capacity maxLoad = .ok (capacity * maxLoad) := by
    rw [Size.mul_eq_ok_iff]
    unfold loadLimit at hcap
    exact ⟨by unfold Size.limit UInt64.size maxLoad; omega, rfl⟩
  rw [isCrowded, hload, hbound]
  rfl

theorem roundUp_le {n : Nat} (hn : n ≤ greatest) : roundUp n ≤ greatest := by
  have hle : ∀ p ∈ primes, p ≤ greatest := by decide
  exact hle _ (mem_primes_of_le hn)

theorem next_spec {capacity : Nat} (hfixed : roundUp capacity = capacity)
    (hcap : capacity < loadLimit) :
    ∃ n, next capacity = .ok n ∧ capacity + 2 ≤ n ∧ roundUp n = n ∧
      n ≤ greatest + (capacity + capacity / 2) := by
  unfold loadLimit at hcap
  have hleast : least ≤ capacity := hfixed ▸ least_le_roundUp capacity
  have hseven : least = 7 := rfl
  unfold next
  split
  · rename_i hsmall
    have hadd : Size.add capacity 1 = .ok (capacity + 1) := by
      rw [Size.add_eq_ok_iff]
      exact ⟨by unfold Size.limit UInt64.size; omega, rfl⟩
    have hmem : capacity ∈ primes := hfixed ▸ mem_primes_of_le (Nat.le_of_lt hsmall)
    have hgap : ∀ p ∈ primes, p < greatest → p + 2 ≤ roundUp (p + 1) := by decide
    rw [hadd]
    exact ⟨_, rfl, hgap capacity hmem hsmall, roundUp_roundUp _,
      Nat.le_trans (roundUp_le hsmall) (Nat.le_add_right _ _)⟩
  · rename_i hlarge
    have hadd : Size.add capacity (capacity / 2) = .ok (capacity + capacity / 2) := by
      rw [Size.add_eq_ok_iff]
      exact ⟨by unfold Size.limit UInt64.size; omega, rfl⟩
    have hgreatest : greatest = 1048583 := rfl
    rw [hadd]
    exact ⟨_, rfl, by omega, roundUp_of_greatest_lt (by omega), Nat.le_add_left _ _⟩

theorem le_next {capacity n : Nat} (h : next capacity = .ok n) : capacity ≤ n := by
  unfold next at h
  split at h
  · cases hadd : Size.add capacity 1 with
    | error fault =>
      rw [hadd] at h
      cases h
    | ok m =>
      obtain ⟨-, rfl⟩ := Size.add_eq_ok_iff.1 hadd
      rw [hadd] at h
      cases h
      exact Nat.le_trans (Nat.le_succ _) (le_roundUp _)
  · obtain ⟨-, rfl⟩ := Size.add_eq_ok_iff.1 h
    exact Nat.le_add_right _ _

end LinearProbing.Capacity
