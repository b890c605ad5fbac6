import LinearProbing.Proofs.Occupancy
import LinearProbing.Proofs.Sweep

set_option autoImplicit false

/-!
# Which entries may fill a gap

An entry may fill a gap unless its home lies after the gap and not after its own bucket. In terms of
walks on the cycle: the walk that starts behind the gap comes to the entry without meeting its home, or,
which is the same, the walk from the home meets the gap before it comes to the entry. So an entry that
moves comes nearer to its home.
-/

namespace LinearProbing

namespace Cycle

/-- The walk from a bucket to bucket `stop`, both included, meets bucket `k`. -/
inductive Meets (n stop k : Nat) : Nat → Prop
  | here : Meets n stop k k
  | step {i : Nat} : i ≠ stop → Meets n stop k (next n i) → Meets n stop k i

theorem distance_next {n i j : Nat} (hi : i < n) (hj : j < n) (hne : i ≠ j) :
    distance n i j = distance n (next n i) j + 1 := by
  have hnext : next n i < n := next_lt (by omega)
  rw [distance_eq_ite hi hj, distance_eq_ite hnext hj]
  unfold next at hnext ⊢
  split <;> split <;> split <;> omega

theorem distance_next_self {n i : Nat} (hi : i < n) : distance n (next n i) i + 1 = n := by
  have hnext : next n i < n := next_lt (by omega)
  rw [distance_eq_ite hnext hi]
  unfold next at hnext ⊢
  split <;> split <;> omega

theorem meets_iff {n stop k i : Nat} (hi : i < n) (hk : k < n) (hstop : stop < n) :
    Meets n stop k i ↔ distance n i k ≤ distance n i stop := by
  constructor
  · intro h
    induction h with
    | here =>
      rw [distance_self]
      exact Nat.zero_le _
    | @step i hne _ ih =>
      by_cases heq : i = k
      · rw [heq, distance_self]
        exact Nat.zero_le _
      · rw [distance_next hi hk heq, distance_next hi hstop hne]
        exact Nat.succ_le_succ (ih (next_lt (by omega)))
  · intro hle
    -- one step on from bucket `i`, the way to bucket `k` is shorter by one
    induction hd : distance n i k generalizing i with
    | zero =>
      have heq : i = k := distance_inj hi hi hk (by rw [distance_self, hd])
      rw [heq]
      exact .here
    | succ d ih =>
      have hne : i ≠ stop := by
        rintro rfl
        rw [distance_self] at hle
        omega
      have hne' : i ≠ k := by
        rintro rfl
        rw [distance_self] at hd
        omega
      have hk' := distance_next hi hk hne'
      have hstop' := distance_next hi hstop hne
      exact .step hne (ih (next_lt (by omega)) (by omega) (by omega))

theorem meets_next_iff {n z i j : Nat} (hz : z < n) (hi : i < n) (hj : j < n) (hne : z ≠ i) :
    Meets n i j (next n z) ↔ Within n z i j := by
  have hend := distance_next hz hi hne
  rw [meets_iff (next_lt (by omega)) hj hi, Within]
  by_cases heq : z = j
  · -- the walk ends before it comes back to bucket `z`
    subst heq
    have hround := distance_next_self hz
    have hlt := distance_lt (show 0 < n by omega) z i
    rw [distance_self]
    omega
  · have hstep := distance_next hz hj heq
    omega

theorem mayFill_iff_not_within {n gap scan home : Nat} (hgap : gap < n) (hscan : scan < n)
    (hhome : home < n) (hne : gap ≠ scan) :
    mayFill gap scan home = true ↔ ¬ Within n gap scan home := by
  rw [mayFill_iff hgap hscan hhome]
  constructor
  · intro hnear hwithin
    have hself : Within n gap scan gap :=
      hwithin.stay hgap hscan hhome hgap (Nat.not_lt_of_gt hnear)
    rw [Within, distance_self] at hself
    exact absurd hself.1 (Nat.lt_irrefl 0)
  · intro hout
    by_contra hfar
    exact hout (within_of_not_through hgap hhome hscan hne hfar)

theorem mayFill_iff_meets {n gap scan home : Nat} (hgap : gap < n) (hscan : scan < n)
    (hhome : home < n) (hne : gap ≠ scan) :
    mayFill gap scan home = true ↔ Meets n scan gap home := by
  rw [mayFill_iff hgap hscan hhome, meets_iff hhome hgap hscan]
  constructor
  · exact Nat.le_of_lt
  · intro hle
    exact Nat.lt_of_le_of_ne hle fun heq => hne (distance_inj hhome hgap hscan heq)

theorem natCast_distance {n i : Nat} (hi : i < n) (j : Nat) :
    (distance n i j : Int) = ((j : Int) - i) % n := by
  have hround : ((j + n : Nat) : Int) - i = j - i + n := by omega
  rw [distance, Int.natCast_emod, Int.natCast_sub (by omega), hround, Int.add_emod_right]

end Cycle

namespace Table

open LinearProbing.Cycle

variable {K V : Type}

theorem relocate_nearer {t : Table K V} {gap scan : Nat} {e : Entry K V} (hgap : gap < t.capacity)
    (he : t.peek scan = some e) (hempty : t.peek gap = none)
    (hfill : mayFill gap scan (t.home e.hash) = true) :
    ∃ t', t.relocate scan gap = .ok () t' ∧ t'.peek gap = some e ∧ t'.peek scan = none ∧
      t'.stray gap < t.stray scan := by
  have hscan := lt_capacity_of_peek he
  have hne : gap ≠ scan := (ne_of_peek he hempty).symm
  have hnew : (t.shifted scan gap e).peek gap = some e := by
    rw [peek_shifted hscan hgap, if_neg hne, if_pos rfl]
  refine ⟨_, relocate_eq he hgap hempty, hnew, ?_, ?_⟩
  · rw [peek_shifted hscan hgap, if_pos rfl]
  · have hnear := (mayFill_iff hgap hscan (home_lt (by omega) e.hash)).1 hfill
    simpa [stray, hnew, he, home] using hnear

end Table

/-- An entry may fill a gap exactly if its home is not among the buckets after the gap up to its own,
that is, if its path leads through the gap before it comes to its own bucket, so that the gap is fewer
steps from the home. Whatever entry is moved comes nearer to its home. -/
theorem Cycle.mayFill_exact {n gap scan home : Nat} (hgap : gap < n) (hscan : scan < n)
    (hhome : home < n) (hne : gap ≠ scan) :
    (mayFill gap scan home = true ↔ ¬ Meets n scan home (next n gap)) ∧
    (mayFill gap scan home = true ↔ Meets n scan gap home) ∧
    (mayFill gap scan home = true ↔ ((gap : Int) - home) % n < ((scan : Int) - home) % n) ∧
    ∀ {K V : Type} (t : Table K V) (e : Entry K V), t.capacity = n → t.home e.hash = home →
      t.peek scan = some e → t.peek gap = none → mayFill gap scan home = true →
      ∃ t', t.relocate scan gap = .ok () t' ∧ t'.peek gap = some e ∧ t'.peek scan = none ∧
        t'.stray gap < t.stray scan := by
  refine ⟨?_, mayFill_iff_meets hgap hscan hhome hne, ?_, ?_⟩
  · rw [meets_next_iff hgap hscan hhome hne]
    exact mayFill_iff_not_within hgap hscan hhome hne
  · rw [mayFill_iff hgap hscan hhome, ← natCast_distance hhome, ← natCast_distance hhome,
      Int.ofNat_lt]
  · rintro K V t e rfl rfl he hempty hfill
    exact Table.relocate_nearer hgap he hempty hfill

/-- The gap is the sixth of seven buckets, and the entry in the second one is at home in the fifth. -/
theorem Cycle.mayFill_exact_wrapped :
    ∃ t t' : Table Nat Nat, t.toList = [(10, 100)] ∧ ¬ Meets 7 1 4 (next 7 5) ∧ Meets 7 1 5 4 ∧
      ((5 : Int) - 4) % 7 < ((1 : Int) - 4) % 7 ∧
      t.relocate 1 5 = .ok () t' ∧ t'.stray 5 < t.stray 1 := by
  let e : Entry Nat Nat := ⟨markHash 2, 10, 100⟩
  let t : Table Nat Nat := (Table.withCapacity 7).put 1 (some e)
  obtain ⟨hinterval, hpath, hsteps, hmove⟩ :=
    mayFill_exact (show 5 < 7 by decide) (show 1 < 7 by decide) (show 4 < 7 by decide) (by decide)
  have hfill : mayFill 5 1 4 = true := by decide
  obtain ⟨t', hrun, -, -, hnearer⟩ := hmove t e (by decide) (by decide) (by rfl) (by rfl) hfill
  exact ⟨t, t', by rfl, hinterval.1 hfill, hpath.1 hfill, hsteps.1 hfill, hrun, hnearer⟩

end LinearProbing
