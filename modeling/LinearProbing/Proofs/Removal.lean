import LinearProbing.Proofs.Search
import Mathlib.Logic.Equiv.Basic

set_option autoImplicit false

/-!
# What a removal leaves

While a gap is closed, every entry that has moved lies nearer to its home, and all moves stay between
the bucket that was vacated and the next empty one. A permutation of the buckets records the moves; each
move exchanges the gap with the bucket of the entry that fills it.
-/

namespace LinearProbing.Table

open LinearProbing.Cycle

variable {K V : Type}

/-- On the way from bucket `i`, bucket `j` comes before every empty bucket. -/
def InRun (t : Table K V) (i j : Nat) : Prop :=
  j < t.capacity ∧
    ∀ z < t.capacity, t.peek z = none → distance t.capacity i j < distance t.capacity i z

theorem InRun.occupied {t : Table K V} {i j : Nat} (h : t.InRun i j) : (t.peek j).isSome := by
  rw [Option.isSome_iff_ne_none]
  intro hempty
  exact absurd (h.2 j h.1 hempty) (Nat.lt_irrefl _)

theorem inRun_self {t : Table K V} {i : Nat} {e : Entry K V} (he : t.peek i = some e) :
    t.InRun i i := by
  have hi := lt_capacity_of_peek he
  refine ⟨hi, fun z hz hempty => ?_⟩
  rw [distance_self]
  exact distance_pos hi hz (ne_of_peek he hempty)

/-- Bucket `i` of table `t` was vacated, and table `u` is what moving entries then led to: each entry
moved along with its bucket, within the run of bucket `i` and not away from its home. -/
structure Moved (t : Table K V) (i : Nat) (move : Equiv.Perm Nat) (u : Table K V) : Prop where
  capacity : u.capacity = t.capacity
  peek : ∀ j, u.peek (move j) = (t.put i none).peek j
  nearer : ∀ {j : Nat} {a : Entry K V}, j ≠ i → t.peek j = some a →
    distance t.capacity (t.home a.hash) (move j) ≤ distance t.capacity (t.home a.hash) j
  within : ∀ {j : Nat}, ¬ t.InRun i j → move j = j

namespace Moved

variable {t u : Table K V} {i : Nat} {move : Equiv.Perm Nat}

theorem vacated (t : Table K V) (i : Nat) : t.Moved i (Equiv.refl Nat) (t.put i none) :=
  ⟨capacity_put .., fun _ => rfl, fun _ _ => Nat.le_refl _, fun _ => rfl⟩

theorem origin (h : t.Moved i move u) (hi : i < t.capacity) {j : Nat} {a : Entry K V}
    (ha : u.peek j = some a) : ∃ l, l ≠ i ∧ move l = j ∧ t.peek l = some a := by
  have hput := h.peek (move.symm j)
  rw [Equiv.apply_symm_apply, ha, peek_put hi] at hput
  split at hput
  · cases hput
  · rename_i hne
    exact ⟨move.symm j, hne, move.apply_symm_apply j, hput.symm⟩

theorem inRun_move_iff (h : t.Moved i move u) (j : Nat) : t.InRun i (move j) ↔ t.InRun i j := by
  constructor
  · intro hmoved
    by_contra hout
    exact hout (h.within hout ▸ hmoved)
  · intro hrun
    by_contra hout
    have hfix : move j = j := move.injective (h.within hout)
    exact hout (hfix.symm ▸ hrun)

theorem peek_of_not_inRun (h : t.Moved i move u) {e : Entry K V} (he : t.peek i = some e) {j : Nat}
    (hj : ¬ t.InRun i j) : u.peek j = t.peek j := by
  have hne : j ≠ i := by
    rintro rfl
    exact hj (inRun_self he)
  have hpeek := h.peek j
  rwa [h.within hj, peek_put_of_ne (lt_capacity_of_peek he) _ hne] at hpeek

theorem isSome_iff (h : t.Moved i move u) {e : Entry K V} (he : t.peek i = some e) (j : Nat) :
    (u.peek j).isSome ↔ (t.peek j).isSome ∧ j ≠ move i := by
  have hi : i < t.capacity := lt_capacity_of_peek he
  obtain ⟨l, rfl⟩ := move.surjective j
  rw [move.injective.ne_iff]
  by_cases hrun : t.InRun i l
  · have hocc := ((h.inRun_move_iff l).2 hrun).occupied
    rw [h.peek, peek_put hi]
    split
    · simp_all
    · simp_all [hrun.occupied]
  · have hne : l ≠ i := by
      rintro rfl
      exact hrun (inRun_self he)
    have hout : ¬ t.InRun i (move l) := by rwa [h.inRun_move_iff]
    rw [h.peek_of_not_inRun he hout]
    simp [hne]

theorem shift (h : t.Moved i move u) {scan : Nat} {a : Entry K V} (hi : t.InRun i i)
    (ha : u.peek scan = some a) (hgap : t.InRun i (move i)) (hscan : t.InRun i scan)
    (hnear : distance u.capacity (u.home a.hash) (move i) <
      distance u.capacity (u.home a.hash) scan) :
    t.Moved i (move.trans (Equiv.swap (move i) scan)) (u.shifted scan (move i) a) := by
  have hgap' : move i < u.capacity := by
    rw [h.capacity]
    exact hgap.1
  have hscan' : scan < u.capacity := lt_capacity_of_peek ha
  have hhome : ∀ hash, u.home hash = t.home hash := fun hash => by rw [home, home, h.capacity]
  have hempty : u.peek (move i) = none := by rw [h.peek, peek_put_self hi.1]
  obtain ⟨l, hli, rfl, hl⟩ := h.origin hi.1 ha
  refine ⟨by rw [capacity_shifted, h.capacity], ?_, ?_, ?_⟩
  · intro j
    rw [peek_shifted hscan' hgap', Equiv.trans_apply]
    by_cases hji : j = i
    · rw [hji, Equiv.swap_apply_left, if_pos rfl, peek_put_self hi.1]
    · by_cases hjl : j = l
      · rw [hjl, Equiv.swap_apply_right, if_neg (move.injective.ne hli.symm), if_pos rfl,
          peek_put_of_ne hi.1 _ hli, hl]
      · have hstay := Equiv.swap_apply_of_ne_of_ne (move.injective.ne hji) (move.injective.ne hjl)
        rw [hstay, if_neg (move.injective.ne hjl), if_neg (move.injective.ne hji), h.peek]
  · intro j b hji hb
    rw [Equiv.trans_apply]
    by_cases hjl : j = l
    · subst hjl
      rw [hl] at hb
      cases hb
      rw [Equiv.swap_apply_right]
      rw [h.capacity, hhome] at hnear
      exact Nat.le_trans (Nat.le_of_lt hnear) (h.nearer hji hl)
    · rw [Equiv.swap_apply_of_ne_of_ne (move.injective.ne hji) (move.injective.ne hjl)]
      exact h.nearer hji hb
  · intro j hj
    have hji : j ≠ move i := fun heq => hj (heq ▸ hgap)
    have hjl : j ≠ move l := fun heq => hj (heq ▸ hscan)
    rw [Equiv.trans_apply, h.within hj, Equiv.swap_apply_of_ne_of_ne hji hjl]

end Moved

/-- What is kept while the gap at the vacated bucket is closed: the gap goes where the moves take it,
and the scan has not passed an empty bucket. -/
structure Closing (t : Table K V) (i : Nat) (u : Table K V) (gap k : Nat) : Prop where
  moved : ∃ move, t.Moved i move u ∧ move i = gap
  ahead : ∀ z < t.capacity, t.peek z = none → distance t.capacity i gap + k ≤ distance t.capacity i z

namespace Closing

variable {t u : Table K V} {i gap k : Nat} {e : Entry K V}

theorem inRun_gap (h : t.Closing i u gap k) (hgap : gap < t.capacity) (hk : 0 < k) :
    t.InRun i gap := by
  refine ⟨hgap, fun z hz hempty => ?_⟩
  have := h.ahead z hz hempty
  omega

theorem scan (h : t.Closing i u gap k) (he : t.peek i = some e) (hsweep : u.Sweeping gap k)
    {a : Entry K V} (ha : u.peek (Cycle.ahead u.capacity gap k) = some a) :
    ∀ z < t.capacity, t.peek z = none →
      distance t.capacity i (Cycle.ahead u.capacity gap k) = distance t.capacity i gap + k ∧
        distance t.capacity i (Cycle.ahead u.capacity gap k) < distance t.capacity i z := by
  intro z hz hempty
  obtain ⟨move, hmoved, hmove⟩ := h.moved
  have hi := lt_capacity_of_peek he
  have hgap := hsweep.lt
  have hscan := hsweep.scan_lt
  have hfrom := hsweep.distance_scan ha
  have hocc : (t.peek (Cycle.ahead u.capacity gap k)).isSome := by
    refine ((hmoved.isSome_iff he _).1 ?_).1
    rw [ha]
    rfl
  rw [hmoved.capacity] at hgap hscan hfrom hocc ⊢
  have hle := h.ahead z hz hempty
  have hlt := distance_lt (show 0 < t.capacity by omega) i z
  have hsum : distance t.capacity i (Cycle.ahead t.capacity gap k) = distance t.capacity i gap + k := by
    rw [distance_add hi hgap hscan (by omega), hfrom]
  refine ⟨hsum, Nat.lt_of_le_of_ne (by omega) fun heq => ?_⟩
  rw [distance_inj hi hscan hz heq, hempty] at hocc
  cases hocc

theorem skip (h : t.Closing i u gap k) (he : t.peek i = some e) (hsweep : u.Sweeping gap k)
    {a : Entry K V} (ha : u.peek (Cycle.ahead u.capacity gap k) = some a) :
    t.Closing i u gap (k + 1) := by
  refine ⟨h.moved, fun z hz hempty => ?_⟩
  have := h.scan he hsweep ha z hz hempty
  omega

theorem move (h : t.Closing i u gap k) (he : t.peek i = some e) (hsweep : u.Sweeping gap k)
    {a : Entry K V} (ha : u.peek (Cycle.ahead u.capacity gap k) = some a)
    (hnear : distance u.capacity (u.home a.hash) gap <
      distance u.capacity (u.home a.hash) (Cycle.ahead u.capacity gap k)) :
    t.Closing i (u.shifted (Cycle.ahead u.capacity gap k) gap a) (Cycle.ahead u.capacity gap k) 1 := by
  have hscan := h.scan he hsweep ha
  obtain ⟨move, hmoved, rfl⟩ := h.moved
  have hgap : move i < t.capacity := hmoved.capacity ▸ hsweep.lt
  have hrun : t.InRun i (Cycle.ahead u.capacity (move i) k) :=
    ⟨hmoved.capacity ▸ hsweep.scan_lt, fun z hz hempty => (hscan z hz hempty).2⟩
  refine ⟨⟨_, hmoved.shift (inRun_self he) ha (h.inRun_gap hgap hsweep.pos) hrun hnear, ?_⟩, ?_⟩
  · rw [Equiv.trans_apply, Equiv.swap_apply_left]
  · intro z hz hempty
    have := hscan z hz hempty
    omega

end Closing

/-- Taking out an entry ends, and moves entries only within its run and only towards their homes. -/
theorem evict_moved {t : Table K V} {i : Nat} {e : Entry K V} (he : t.peek i = some e) :
    ∃ t' move, t.evict (.found i) = .ok (some e.pair) t' ∧ t.Moved i move t' := by
  have hi := lt_capacity_of_peek he
  have hstart : t.Closing i (t.put i none) i 1 := by
    refine ⟨⟨Equiv.refl Nat, .vacated t i, rfl⟩, fun z hz hempty => ?_⟩
    have := (inRun_self he).2 z hz hempty
    omega
  obtain ⟨t', gap, k, hrun, -, hclosing, -⟩ := closeGap_rule (P := t.Closing i)
    (fun hsweep h ha _ => h.skip he hsweep ha) (fun hsweep h ha hnear => h.move he hsweep ha hnear)
    (t := t.put i none) (by simpa using hi) (peek_put_self hi none) hstart
  obtain ⟨move, hmoved, -⟩ := hclosing.moved
  have hvacate : t.vacate i = t.put i none := rfl
  exact ⟨t', move, by simp [evict, bucket_of_peek he, hvacate, hrun], hmoved⟩

/-- What is left of table `t` when the entry `e` of bucket `i` is taken out. -/
structure Removed (t : Table K V) (i : Nat) (e : Entry K V) (t' : Table K V) : Prop where
  capacity : t'.capacity = t.capacity
  /-- The entries are the old ones, less the one that was taken out. -/
  entries : t.entries.Perm (e :: t'.entries)
  /-- One bucket that was occupied is empty. -/
  emptied : ∃ gap, (t.peek gap).isSome ∧ ∀ j, (t'.peek j).isSome ↔ (t.peek j).isSome ∧ j ≠ gap
  /-- Outside the run of the bucket nothing changes. -/
  elsewhere : ∀ j, ¬ t.InRun i j → t'.peek j = t.peek j
  /-- Every other entry goes to a bucket that is not farther from its home, and stays if it is at
  home. -/
  nearer : ∃ move : Equiv.Perm Nat, (∀ j ≠ i, t'.peek (move j) = t.peek j) ∧
    ∀ j a, j ≠ i → t.peek j = some a →
      distance t.capacity (t.home a.hash) (move j) ≤ distance t.capacity (t.home a.hash) j ∧
        (j = t.home a.hash → move j = j)

theorem Moved.removed {t t' : Table K V} {i : Nat} {move : Equiv.Perm Nat} {e : Entry K V}
    (h : t.Moved i move t') (he : t.peek i = some e) (hentries : t.entries.Perm (e :: t'.entries)) :
    t.Removed i e t' := by
  have hi := lt_capacity_of_peek he
  refine ⟨h.capacity, hentries, ⟨move i, ?_, h.isSome_iff he⟩, fun j => h.peek_of_not_inRun he,
    move, ?_, ?_⟩
  · have hrun := (h.inRun_move_iff i).2 (inRun_self he)
    exact hrun.occupied
  · intro j hj
    rw [h.peek, peek_put_of_ne hi _ hj]
  · intro j a hj ha
    have hle := h.nearer hj ha
    refine ⟨hle, ?_⟩
    intro hhome
    have hto : move j < t.capacity := by
      have hpeek := h.peek j
      rw [peek_put_of_ne hi _ hj, ha] at hpeek
      exact h.capacity ▸ lt_capacity_of_peek hpeek
    rw [← hhome, distance_self, Nat.le_zero, ← distance_self t.capacity j] at hle
    exact distance_inj (lt_capacity_of_peek ha) hto (lt_capacity_of_peek ha) hle

/-- A removal always ends. It takes out the first match on the probe path and leaves the rest of the
table in place as far as it can, or it finds no match and changes nothing. -/
theorem Reachable.remove_exact {t : Table K V} (h : t.Reachable) (hash : UInt32)
    (accept : K → Bool) :
    ((∀ i, ¬ t.Matches hash accept i) ∧
        Id.run (t.remove hash fun key => pure (accept key)) = .ok none t) ∨
      ∃ i e t', t.peek i = some e ∧ t.Matches hash accept i ∧
        (∀ j, t.Matches hash accept j →
          distance t.capacity (t.home hash) i ≤ distance t.capacity (t.home hash) j) ∧
        Id.run (t.remove hash fun key => pure (accept key)) = .ok (some e.pair) t' ∧
        t.Removed i e t' := by
  have hsound := h.sound
  have hremove : Id.run (t.remove hash fun key => pure (accept key)) =
      t.evict (t.landing hash ((t.candidates hash).find? fun x => accept x.2.key)) := by
    rw [remove_eq, List.findM?_pure]
    rfl
  rw [hremove]
  cases hfound : (t.candidates hash).find? fun x => accept x.2.key with
  | none =>
    refine .inl ⟨fun i hi => ?_, ?_⟩
    · obtain ⟨e, hmem, haccept⟩ := hsound.matches_iff.1 hi
      exact List.find?_eq_none.1 hfound _ hmem haccept
    · rw [landing]
      cases t.firstVacant t.capacity (t.home hash) <;> rfl
  | some x =>
    obtain ⟨i, e⟩ := x
    have hfind : Id.run (t.find hash fun key => pure (accept key)) = some i := by
      rw [find_pure, hfound]
      rfl
    obtain ⟨hmatch, hfirst⟩ := hsound.find_first hfind
    have he := (hsound.mem_candidates_iff.1 (List.mem_of_find?_eq_some hfound)).1
    obtain ⟨t', move, hrun, hmoved⟩ := evict_moved he
    obtain ⟨t'', hrun', -, -, hentries⟩ := hsound.evict_found he
    rw [hrun] at hrun'
    cases hrun'
    exact .inr ⟨i, e, t', he, hmatch, hfirst, hrun, hmoved.removed he hentries⟩

/-- All seven buckets are occupied, and the run of the entry that goes leads once around. Only the gap
itself stops the scan. -/
theorem Reachable.remove_exact_of_full :
    ∃ t t' : Table Nat Nat, ∃ i e, t.Reachable ∧ t.occupied = t.capacity ∧
      t.toList = [(3, 30), (4, 40), (5, 50), (6, 60), (7, 70), (1, 10), (2, 20)] ∧
      t'.toList = [(4, 40), (5, 50), (6, 60), (7, 70), (2, 20), (3, 30)] ∧ t.Removed i e t' := by
  have hinsert : ∀ (t : Table Nat Nat) (hash : UInt32) (key : Nat), t.Reachable →
      (attempt (t.call (.edit (.insert hash key (10 * key) fun a b => pure (a == b)))) t
        ()).1.state.Reachable := fun _ _ _ h => h.step _ ()
  have hone := hinsert _ 3 1 (.fresh 0)
  have hfour := hinsert _ 4 4 (hinsert _ 3 3 (hinsert _ 3 2 hone))
  have hfull := hinsert _ 0 7 (hinsert _ 6 6 (hinsert _ 6 5 hfour))
  rcases Reachable.remove_exact hfull 3 (· == 1) with ⟨hnone, -⟩ | ⟨i, e, t', -, -, -, hrun, hremoved⟩
  · exact absurd ⟨⟨markHash 3, 1, 10⟩, by rfl, rfl, rfl⟩ (hnone 5)
  · refine ⟨_, t', i, e, hfull, by decide, by decide, ?_, hremoved⟩
    have hlist := congrArg (fun o => o.state.toList) hrun
    exact hlist.symm.trans (by decide)

end LinearProbing.Table
