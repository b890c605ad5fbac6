import LinearProbing.Cycle

set_option autoImplicit false

/-!
# Paths on the cycle of buckets

The path of an entry runs from its home to the bucket where it lies. How far a bucket is along a path
is its distance from the home, so a bucket lies on the path before another one exactly when its
distance is smaller.
-/

namespace LinearProbing.Cycle

/-- The bucket that lies `d` steps after bucket `i` on a cycle of `n` buckets. -/
def ahead (n i d : Nat) : Nat := (i + d) % n

theorem ahead_lt {n : Nat} (h : 0 < n) (i d : Nat) : ahead n i d < n := Nat.mod_lt _ h

theorem ahead_zero {n i : Nat} (hi : i < n) : ahead n i 0 = i := Nat.mod_eq_of_lt hi

theorem next_ahead {n i : Nat} (hi : i < n) (d : Nat) : next n (ahead n i d) = ahead n i (d + 1) := by
  have hlt : ahead n i d < n := ahead_lt (by omega) i d
  rw [next_eq_mod hlt, ahead, Nat.mod_add_mod]
  rfl

theorem next_eq_ahead {n i : Nat} (hi : i < n) : next n i = ahead n i 1 := by
  rw [next_eq_mod hi]
  rfl

theorem ahead_eq_ite {n i d : Nat} (hi : i < n) (hd : d ≤ n) :
    ahead n i d = if i + d < n then i + d else i + d - n := by
  unfold ahead
  split
  · rw [Nat.mod_eq_of_lt (by omega)]
  · rw [Nat.mod_eq_sub_mod (by omega), Nat.mod_eq_of_lt (by omega)]

theorem distance_eq_ite {n i j : Nat} (hi : i < n) (hj : j < n) :
    distance n i j = if i ≤ j then j - i else j + n - i := by
  unfold distance
  split
  · rw [Nat.mod_eq_sub_mod (by omega), Nat.mod_eq_of_lt (by omega)]
    omega
  · rw [Nat.mod_eq_of_lt (by omega)]

theorem distance_ahead {n i d : Nat} (hi : i < n) (hd : d < n) : distance n i (ahead n i d) = d := by
  rw [distance_eq_ite hi (ahead_lt (by omega) i d), ahead_eq_ite hi (by omega)]
  split <;> split <;> omega

theorem ahead_distance {n i j : Nat} (hi : i < n) (hj : j < n) : ahead n i (distance n i j) = j :=
  add_distance_mod hi hj

theorem distance_inj {n i j k : Nat} (hi : i < n) (hj : j < n) (hk : k < n)
    (h : distance n i j = distance n i k) : j = k := by
  rw [← ahead_distance hi hj, h, ahead_distance hi hk]

theorem distance_pos {n i j : Nat} (hi : i < n) (hj : j < n) (hne : i ≠ j) : 0 < distance n i j := by
  rw [distance_eq_ite hi hj]
  split <;> omega

theorem distance_add {n h i j : Nat} (hh : h < n) (hi : i < n) (hj : j < n)
    (hlt : distance n h i + distance n i j < n) :
    distance n h j = distance n h i + distance n i j := by
  have hmid : i = ahead n h (distance n h i) := (ahead_distance hh hi).symm
  have hend : j = ahead n i (distance n i j) := (ahead_distance hi hj).symm
  have hj' : j = ahead n h (distance n h i + distance n i j) := by
    calc j = ahead n (ahead n h (distance n h i)) (distance n i j) := by rw [← hmid, ← hend]
      _ = ahead n h (distance n h i + distance n i j) := by
        unfold ahead
        rw [Nat.mod_add_mod, Nat.add_assoc]
  calc distance n h j = distance n h (ahead n h (distance n h i + distance n i j)) := by rw [← hj']
    _ = distance n h i + distance n i j := distance_ahead hh hlt

theorem distance_split {n h i j : Nat} (hh : h < n) (hi : i < n) (hj : j < n)
    (hle : distance n h i ≤ distance n h j) : distance n h j = distance n h i + distance n i j := by
  rw [distance_eq_ite hh hi, distance_eq_ite hh hj] at hle
  rw [distance_eq_ite hh hi, distance_eq_ite hh hj, distance_eq_ite hi hj]
  split <;> split <;> split <;> simp_all <;> omega

theorem distance_lt_of_between {n h i j k : Nat} (hh : h < n) (hi : i < n) (hj : j < n) (hk : k < n)
    (hij : distance n h i ≤ distance n h j) (hkj : distance n i k < distance n i j) :
    distance n h k < distance n h j := by
  have hsplit := distance_split hh hi hj hij
  have hlt : distance n h j < n := distance_lt (by omega) h j
  have hadd := distance_add hh hi hk (by omega)
  omega

/-- An entry may fill a gap exactly if the gap lies on its path, before its own bucket. -/
theorem mayFill_iff {n gap scan home : Nat} (hg : gap < n) (hs : scan < n) (hh : home < n) :
    mayFill gap scan home = true ↔ distance n home gap < distance n home scan := by
  rw [distance_eq_ite hh hg, distance_eq_ite hh hs]
  simp only [mayFill, Bool.or_eq_true, Bool.and_eq_true, decide_eq_true_eq]
  split <;> split <;> omega

end LinearProbing.Cycle
