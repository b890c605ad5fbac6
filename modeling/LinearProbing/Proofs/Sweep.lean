import LinearProbing.Proofs.Bucket
import LinearProbing.Proofs.Path
import Mathlib.Algebra.BigOperators.Group.Finset.Basic
import Mathlib.Algebra.Group.Action.Defs
import Mathlib.Algebra.Order.BigOperators.Group.Finset

set_option autoImplicit false

/-!
# Closing a gap

The scan behind a gap either passes an entry or moves it into the gap. A move takes the entry nearer to
its home, and between two moves the scan goes around at most once, so it ends. What holds at the start
and is kept by both kinds of step holds at the end, where the scan has met an empty bucket.
-/

namespace LinearProbing.Table

open LinearProbing.Cycle

variable {K V : Type}

def shifted (t : Table K V) (source target : Nat) (e : Entry K V) : Table K V :=
  (t.put target (some e)).put source none

@[simp] theorem capacity_shifted (t : Table K V) (source target : Nat) (e : Entry K V) :
    (t.shifted source target e).capacity = t.capacity := by
  simp [shifted]

theorem peek_shifted {t : Table K V} {source target : Nat} (hs : source < t.capacity)
    (ht : target < t.capacity) (e : Entry K V) (j : Nat) :
    (t.shifted source target e).peek j =
      if j = source then none else if j = target then some e else t.peek j := by
  rw [shifted, peek_put (by simpa using hs), peek_put ht]

theorem relocate_eq {t : Table K V} {source target : Nat} {e : Entry K V}
    (he : t.peek source = some e) (ht : target < t.capacity) (hempty : t.peek target = none) :
    t.relocate source target = .ok () (t.shifted source target e) := by
  simp [relocate, bucket_of_peek he, isOccupied_eq ht, hempty, shifted, put]

theorem entries_shifted {t : Table K V} {source target : Nat} {e : Entry K V}
    (he : t.peek source = some e) (ht : target < t.capacity) (hempty : t.peek target = none) :
    (t.shifted source target e).entries.Perm t.entries := by
  have hne : source ≠ target := ne_of_peek he hempty
  have hsource : (t.put target (some e)).peek source = some e := by
    rw [peek_put_of_ne ht _ hne, he]
  have hfill := entries_fill ht hempty (e := e)
  have htake := entries_empty hsource
  exact (List.perm_cons e).1 (htake.symm.trans hfill)

def stray (t : Table K V) (i : Nat) : Nat :=
  match t.peek i with
  | some e => distance t.capacity (t.home e.hash) i
  | none => 0

/-- The distances of all entries from their homes, taken together. -/
def totalStray (t : Table K V) : Nat := ∑ i ∈ Finset.range t.capacity, t.stray i

theorem totalStray_le (t : Table K V) : t.totalStray ≤ t.capacity * t.capacity := by
  have hbound : ∀ i ∈ Finset.range t.capacity, t.stray i ≤ t.capacity := by
    intro i hi
    have hlt : i < t.capacity := Finset.mem_range.1 hi
    unfold stray
    split
    · exact Nat.le_of_lt (distance_lt (by omega) _ i)
    · exact Nat.zero_le _
  have hsum := Finset.sum_le_card_nsmul _ _ _ hbound
  rwa [Finset.card_range, smul_eq_mul] at hsum

/-- A move along the path towards the home takes the entries nearer to their homes. -/
theorem totalStray_shifted_lt {t : Table K V} {source target : Nat} {e : Entry K V}
    (he : t.peek source = some e) (ht : target < t.capacity) (hempty : t.peek target = none)
    (hnear : distance t.capacity (t.home e.hash) target <
      distance t.capacity (t.home e.hash) source) :
    (t.shifted source target e).totalStray < t.totalStray := by
  have hs : source < t.capacity := lt_capacity_of_peek he
  have hne : target ≠ source := by
    intro heq
    rw [heq] at hnear
    omega
  have hmem : source ∈ Finset.range t.capacity := Finset.mem_range.2 hs
  have hmem' : target ∈ (Finset.range t.capacity).erase source :=
    Finset.mem_erase.2 ⟨hne, Finset.mem_range.2 ht⟩
  have hrest : ∑ i ∈ ((Finset.range t.capacity).erase source).erase target,
        (t.shifted source target e).stray i =
      ∑ i ∈ ((Finset.range t.capacity).erase source).erase target, t.stray i := by
    apply Finset.sum_congr rfl
    intro i hi
    have hit : i ≠ target := Finset.ne_of_mem_erase hi
    have his : i ≠ source := Finset.ne_of_mem_erase (Finset.mem_of_mem_erase hi)
    simp [stray, peek_shifted hs ht, hit, his, home]
  have hold : t.stray source = distance t.capacity (t.home e.hash) source := by
    simp [stray, he]
  have hold' : t.stray target = 0 := by
    simp [stray, hempty]
  have hnew : (t.shifted source target e).stray source = 0 := by
    simp [stray, peek_shifted hs ht]
  have hnew' : (t.shifted source target e).stray target =
      distance t.capacity (t.home e.hash) target := by
    simp [stray, peek_shifted hs ht, hne, home]
  unfold totalStray
  rw [capacity_shifted, ← Finset.add_sum_erase _ _ hmem, ← Finset.add_sum_erase _ _ hmem',
    ← Finset.add_sum_erase _ _ hmem, ← Finset.add_sum_erase _ _ hmem', hrest, hold, hold', hnew,
    hnew']
  omega

/-- The scan stands `k` buckets after the gap, which is empty. -/
structure Sweeping (t : Table K V) (gap k : Nat) : Prop where
  lt : gap < t.capacity
  empty : t.peek gap = none
  pos : 0 < k
  le : k ≤ t.capacity

namespace Sweeping

variable {t : Table K V} {gap k : Nat}

theorem scan_lt (h : t.Sweeping gap k) : ahead t.capacity gap k < t.capacity :=
  ahead_lt (Nat.lt_of_le_of_lt (Nat.zero_le _) h.lt) gap k

theorem scan_eq_gap (h : t.Sweeping gap t.capacity) : ahead t.capacity gap t.capacity = gap := by
  rw [ahead_eq_ite h.lt (Nat.le_refl _)]
  split <;> omega

theorem lt_of_peek (h : t.Sweeping gap k) {e : Entry K V}
    (he : t.peek (ahead t.capacity gap k) = some e) : k < t.capacity := by
  rcases Nat.lt_or_eq_of_le h.le with hlt | heq
  · exact hlt
  · subst heq
    rw [h.scan_eq_gap, h.empty] at he
    cases he

theorem distance_scan (h : t.Sweeping gap k) {e : Entry K V}
    (he : t.peek (ahead t.capacity gap k) = some e) :
    distance t.capacity gap (ahead t.capacity gap k) = k :=
  distance_ahead h.lt (h.lt_of_peek he)

theorem skip (h : t.Sweeping gap k) {e : Entry K V}
    (he : t.peek (ahead t.capacity gap k) = some e) : t.Sweeping gap (k + 1) :=
  ⟨h.lt, h.empty, Nat.succ_pos k, h.lt_of_peek he⟩

theorem move (h : t.Sweeping gap k) (e : Entry K V) :
    (t.shifted (ahead t.capacity gap k) gap e).Sweeping (ahead t.capacity gap k) 1 := by
  refine ⟨by simpa using h.scan_lt, ?_, Nat.one_pos, ?_⟩
  · rw [peek_shifted h.scan_lt h.lt, if_pos rfl]
  · have := h.lt
    rw [capacity_shifted]
    omega

end Sweeping

theorem closeGapFrom_rule {P : Table K V → Nat → Nat → Prop}
    (skip : ∀ {t gap k e}, Sweeping t gap k → P t gap k →
      t.peek (ahead t.capacity gap k) = some e →
      ¬ distance t.capacity (t.home e.hash) gap <
        distance t.capacity (t.home e.hash) (ahead t.capacity gap k) →
      P t gap (k + 1))
    (move : ∀ {t gap k e}, Sweeping t gap k → P t gap k →
      t.peek (ahead t.capacity gap k) = some e →
      distance t.capacity (t.home e.hash) gap <
        distance t.capacity (t.home e.hash) (ahead t.capacity gap k) →
      P (t.shifted (ahead t.capacity gap k) gap e) (ahead t.capacity gap k) 1)
    {steps : Nat} {t : Table K V} {gap k : Nat} (hsweep : t.Sweeping gap k) (hP : P t gap k)
    (hsteps : t.totalStray * t.capacity + (t.capacity - k) < steps) :
    ∃ t' gap' k', t.closeGapFrom steps gap (ahead t.capacity gap k) = .ok () t' ∧
      t'.Sweeping gap' k' ∧ P t' gap' k' ∧ t'.peek (ahead t'.capacity gap' k') = none := by
  induction steps generalizing t gap k with
  | zero => omega
  | succ steps ih =>
    have hle := hsweep.le
    cases he : t.peek (ahead t.capacity gap k) with
    | none =>
      refine ⟨t, gap, k, ?_, hsweep, hP, he⟩
      simp [closeGapFrom, bucket_eq hsweep.scan_lt, he, isOccupied_eq hsweep.lt, hsweep.empty]
    | some e =>
      have hlt := hsweep.lt_of_peek he
      have hpos : 0 < t.capacity := by omega
      have hhome : t.home e.hash < t.capacity := home_lt hpos e.hash
      have hfill := mayFill_iff hsweep.lt hsweep.scan_lt hhome
      by_cases hnear : distance t.capacity (t.home e.hash) gap <
          distance t.capacity (t.home e.hash) (ahead t.capacity gap k)
      · -- the entry moves and leaves a gap of its own
        have hless := totalStray_shifted_lt he hsweep.lt hsweep.empty hnear
        have hround : (t.shifted (ahead t.capacity gap k) gap e).totalStray * t.capacity +
            t.capacity ≤ t.totalStray * t.capacity := by
          calc _ = ((t.shifted (ahead t.capacity gap k) gap e).totalStray + 1) * t.capacity :=
                (Nat.succ_mul _ _).symm
            _ ≤ t.totalStray * t.capacity := Nat.mul_le_mul_right _ hless
        have hrest := ih (hsweep.move e) (move hsweep hP he hnear) (by
          rw [capacity_shifted]
          omega)
        rw [capacity_shifted, ← next_eq_ahead hsweep.scan_lt] at hrest
        simpa [closeGapFrom, bucket_of_peek he, home?_eq hpos, hfill.2 hnear,
          relocate_eq he hsweep.lt hsweep.empty, next] using hrest
      · -- the entry stays where it is
        have hrest := ih (hsweep.skip he) (skip hsweep hP he hnear) (by omega)
        rw [← next_ahead hsweep.lt k] at hrest
        have hstay : mayFill gap (ahead t.capacity gap k) (t.home e.hash) = false := by
          rw [← Bool.not_eq_true, hfill]
          exact hnear
        simpa [closeGapFrom, bucket_of_peek he, home?_eq hpos, hstay, next] using hrest

/-- Closing a gap always ends, and keeps what both kinds of step keep. -/
theorem closeGap_rule {P : Table K V → Nat → Nat → Prop}
    (skip : ∀ {t gap k e}, Sweeping t gap k → P t gap k →
      t.peek (ahead t.capacity gap k) = some e →
      ¬ distance t.capacity (t.home e.hash) gap <
        distance t.capacity (t.home e.hash) (ahead t.capacity gap k) →
      P t gap (k + 1))
    (move : ∀ {t gap k e}, Sweeping t gap k → P t gap k →
      t.peek (ahead t.capacity gap k) = some e →
      distance t.capacity (t.home e.hash) gap <
        distance t.capacity (t.home e.hash) (ahead t.capacity gap k) →
      P (t.shifted (ahead t.capacity gap k) gap e) (ahead t.capacity gap k) 1)
    {t : Table K V} {gap : Nat} (hgap : gap < t.capacity) (hempty : t.peek gap = none)
    (hP : P t gap 1) :
    ∃ t' gap' k', t.closeGap gap = .ok () t' ∧ t'.Sweeping gap' k' ∧ P t' gap' k' ∧
      t'.peek (ahead t'.capacity gap' k') = none := by
  have hsweep : t.Sweeping gap 1 := ⟨hgap, hempty, Nat.one_pos, by omega⟩
  have hsteps : t.totalStray * t.capacity + (t.capacity - 1) <
      t.capacity * (t.capacity * t.capacity + 1) := by
    have hle := Nat.mul_le_mul_right t.capacity t.totalStray_le
    calc t.totalStray * t.capacity + (t.capacity - 1)
        < t.totalStray * t.capacity + t.capacity := by omega
      _ ≤ t.capacity * t.capacity * t.capacity + t.capacity := Nat.add_le_add_right hle _
      _ = t.capacity * (t.capacity * t.capacity + 1) := by
        rw [Nat.mul_add, Nat.mul_one, Nat.mul_comm t.capacity (t.capacity * t.capacity)]
  have hrule := closeGapFrom_rule skip move hsweep hP hsteps
  rwa [← next_eq_ahead hgap] at hrule

end LinearProbing.Table
