import LinearProbing.Proofs.ProbePath
import LinearProbing.Proofs.Sweep
import Mathlib.Logic.Function.Basic

set_option autoImplicit false

/-!
# Seniority

Give every entry the moment of its birth in the table. Whatever lies before an entry on its path is
older, because the path was occupied when the entry came. Closing a gap keeps this: an entry that moves
into the gap is older than every entry whose path goes through the gap and through its old bucket.
-/

namespace LinearProbing.Table

open LinearProbing.Cycle

variable {K V : Type}

/-- No two entries have the same birth, and all buckets before an entry on its path hold older entries.
While a gap is open nothing is said about it. -/
structure Seniority (t : Table K V) (birth : Nat → Nat) (gap : Option Nat) : Prop where
  distinct : ∀ {i j : Nat}, (t.peek i).isSome → (t.peek j).isSome → birth i = birth j → i = j
  older : ∀ {i : Nat} {e : Entry K V}, t.peek i = some e → ∀ j < t.capacity,
    distance t.capacity (t.home e.hash) j < distance t.capacity (t.home e.hash) i →
    gap ≠ some j → (t.peek j).isSome ∧ birth j < birth i

/-- The log names exactly the entries of the table, each one with its birth. -/
def Lists (t : Table K V) (birth : Nat → Nat) (log : List (Nat × Entry K V)) : Prop :=
  ∀ stamp e, (stamp, e) ∈ log ↔ ∃ i, t.peek i = some e ∧ birth i = stamp

/-- No path of an entry between the gap and the scan goes through the gap. -/
def Swept (t : Table K V) (gap k : Nat) : Prop :=
  ∀ {i : Nat} {e : Entry K V}, t.peek i = some e → distance t.capacity gap i < k →
    ¬ distance t.capacity (t.home e.hash) gap < distance t.capacity (t.home e.hash) i

theorem seniority_of_vacant {t : Table K V} (h : ∀ i, t.peek i = none) (birth : Nat → Nat)
    (gap : Option Nat) : t.Seniority birth gap := by
  constructor
  · intro i j hi
    simp [h i] at hi
  · intro i e he
    simp [h i] at he

theorem lists_nil_of_vacant {t : Table K V} (h : ∀ i, t.peek i = none) (birth : Nat → Nat) :
    t.Lists birth [] := by
  intro stamp e
  simp [h]

namespace Seniority

variable {t : Table K V} {birth : Nat → Nat}

theorem before (h : t.Seniority birth none) {i j : Nat} {e : Entry K V} (he : t.peek i = some e)
    (hj : j < t.capacity)
    (hbefore : distance t.capacity (t.home e.hash) j < distance t.capacity (t.home e.hash) i) :
    (t.peek j).isSome ∧ birth j < birth i :=
  h.older he j hj hbefore (Option.some_ne_none j).symm

theorem fill (h : t.Seniority birth none) {i stamp : Nat} {e : Entry K V}
    (hi : t.FirstVacant (t.home e.hash) i)
    (hyoung : ∀ j, (t.peek j).isSome → birth j < stamp) :
    (t.put i (some e)).Seniority (Function.update birth i stamp) none := by
  have hother : ∀ {j : Nat}, j ≠ i → (t.put i (some e)).peek j = t.peek j :=
    fun hj => peek_put_of_ne hi.lt _ hj
  constructor
  · intro j k hj hk hbirth
    by_cases hji : j = i
    · by_cases hki : k = i
      · rw [hji, hki]
      · rw [hji, Function.update_self, Function.update_of_ne hki] at hbirth
        have := hyoung k (by rwa [hother hki] at hk)
        omega
    · by_cases hki : k = i
      · rw [hki, Function.update_self, Function.update_of_ne hji] at hbirth
        have := hyoung j (by rwa [hother hji] at hj)
        omega
      · rw [Function.update_of_ne hji, Function.update_of_ne hki] at hbirth
        exact h.distinct (by rwa [hother hji] at hj) (by rwa [hother hki] at hk) hbirth
  · intro j a ha k hk hbefore _
    rw [capacity_put] at hk
    rw [capacity_put, home_put] at hbefore
    by_cases hji : j = i
    · rw [hji, peek_put_self hi.lt] at ha
      cases ha
      rw [hji] at hbefore ⊢
      have hki : k ≠ i := by
        rintro rfl
        omega
      have hocc := hi.before k hk hbefore
      rw [hother hki, Function.update_self, Function.update_of_ne hki]
      exact ⟨hocc, hyoung k hocc⟩
    · -- bucket `i` was empty, so it lies on the path of no other entry
      rw [hother hji] at ha
      obtain ⟨hocc, hlt⟩ := h.before ha hk hbefore
      have hki : k ≠ i := by
        rintro rfl
        simp [hi.empty] at hocc
      rw [hother hki, Function.update_of_ne hki, Function.update_of_ne hji]
      exact ⟨hocc, hlt⟩

theorem vacate (h : t.Seniority birth none) {i : Nat} (hi : i < t.capacity) :
    (t.put i none).Seniority birth (some i) := by
  have hsome : ∀ {j : Nat}, ((t.put i none).peek j).isSome → j ≠ i ∧ (t.peek j).isSome := by
    intro j hj
    rw [peek_put hi] at hj
    split at hj
    · cases hj
    · exact ⟨‹_›, hj⟩
  constructor
  · intro j k hj hk
    exact h.distinct (hsome hj).2 (hsome hk).2
  · intro j a ha k hk hbefore hgap
    have hki : k ≠ i := by
      rintro rfl
      exact hgap rfl
    rw [capacity_put] at hk
    rw [capacity_put, home_put] at hbefore
    have hji : j ≠ i := (hsome (by rw [ha]; rfl)).1
    rw [peek_put_of_ne hi _ hji] at ha
    rw [peek_put_of_ne hi _ hki]
    exact h.before ha hk hbefore

theorem vacate_youngest (h : t.Seniority birth none) {i : Nat} (hi : i < t.capacity)
    (hyoung : ∀ j, (t.peek j).isSome → birth j ≤ birth i) :
    (t.put i none).Seniority birth none := by
  have hopen := h.vacate hi
  constructor
  · exact hopen.distinct
  · intro j a ha k hk hbefore _
    by_cases hki : k = i
    · have hji : j ≠ i := by
        rintro rfl
        rw [peek_put_self hi] at ha
        cases ha
      rw [peek_put_of_ne hi _ hji] at ha
      rw [capacity_put] at hk
      rw [capacity_put, home_put, hki] at hbefore
      have holder := (h.before ha hi hbefore).2
      have := hyoung j (by rw [ha]; rfl)
      omega
    · exact hopen.older ha k hk hbefore (by simpa using Ne.symm hki)

theorem swept_skip {gap k : Nat} {e : Entry K V} (hsweep : t.Sweeping gap k)
    (hswept : t.Swept gap k) (he : t.peek (ahead t.capacity gap k) = some e)
    (hstay : ¬ distance t.capacity (t.home e.hash) gap <
      distance t.capacity (t.home e.hash) (ahead t.capacity gap k)) :
    t.Swept gap (k + 1) := by
  intro i a ha hdist
  rcases Nat.lt_or_eq_of_le (Nat.le_of_lt_succ hdist) with hlt | heq
  · exact hswept ha hlt
  · -- the entry that is passed stays, because the gap is not on its path
    have hi : i = ahead t.capacity gap k :=
      distance_inj hsweep.lt (lt_capacity_of_peek ha) hsweep.scan_lt
        (by rw [heq, hsweep.distance_scan he])
    rw [hi, he] at ha
    cases ha
    rw [hi]
    exact hstay

theorem shifted_distinct {gap scan : Nat} {e : Entry K V} (h : t.Seniority birth (some gap))
    (he : t.peek scan = some e) (hscan : scan < t.capacity) (hgap : gap < t.capacity) {i j : Nat}
    (hi : ((t.shifted scan gap e).peek i).isSome) (hj : ((t.shifted scan gap e).peek j).isSome)
    (hbirth : Function.update birth gap (birth scan) i = Function.update birth gap (birth scan) j) :
    i = j := by
  have hpeek := peek_shifted hscan hgap e
  -- every bucket has the birth of the bucket that its entry comes from
  have hfrom : ∀ {i : Nat}, ((t.shifted scan gap e).peek i).isSome →
      i ≠ scan ∧ ∃ i', (t.peek i').isSome ∧ Function.update birth gap (birth scan) i = birth i' ∧
        i' = if i = gap then scan else i := by
    intro i hi
    rw [hpeek] at hi
    have his : i ≠ scan := by
      intro heq
      rw [if_pos heq] at hi
      cases hi
    rw [if_neg his] at hi
    refine ⟨his, ?_⟩
    by_cases hig : i = gap
    · refine ⟨scan, by rw [he]; rfl, ?_, by rw [if_pos hig]⟩
      rw [hig, Function.update_self]
    · rw [if_neg hig] at hi
      exact ⟨i, hi, Function.update_of_ne hig _ _, by rw [if_neg hig]⟩
  obtain ⟨his, i', hi', hbi, hii'⟩ := hfrom hi
  obtain ⟨hjs, j', hj', hbj, hjj'⟩ := hfrom hj
  have hij' : i' = j' := h.distinct hi' hj' (by rw [← hbi, hbirth, hbj])
  rw [hii', hjj'] at hij'
  by_cases hig : i = gap
  · by_cases hjg : j = gap
    · rw [hig, hjg]
    · rw [if_pos hig, if_neg hjg] at hij'
      exact absurd hij'.symm hjs
  · by_cases hjg : j = gap
    · rw [if_neg hig, if_pos hjg] at hij'
      exact absurd hij' his
    · rwa [if_neg hig, if_neg hjg] at hij'

/-- When an entry moves into the gap, every entry whose path goes through the gap is younger. -/
theorem move {gap k : Nat} {e : Entry K V} (h : t.Seniority birth (some gap))
    (hsweep : t.Sweeping gap k) (hswept : t.Swept gap k)
    (he : t.peek (ahead t.capacity gap k) = some e)
    (hnear : distance t.capacity (t.home e.hash) gap <
      distance t.capacity (t.home e.hash) (ahead t.capacity gap k)) :
    (t.shifted (ahead t.capacity gap k) gap e).Seniority
      (Function.update birth gap (birth (ahead t.capacity gap k)))
      (some (ahead t.capacity gap k)) := by
  have hscan := hsweep.scan_lt
  have hk := hsweep.distance_scan he
  generalize ahead t.capacity gap k = scan at he hnear hscan hk ⊢
  have hpeek := peek_shifted hscan hsweep.lt e
  have hne : gap ≠ scan := by
    rintro rfl
    omega
  constructor
  · exact h.shifted_distinct he hscan hsweep.lt
  · intro i a ha j hj hbefore hgap
    rw [capacity_shifted] at hj
    have hjs : j ≠ scan := by
      rintro rfl
      exact hgap rfl
    have hhome : (t.shifted scan gap e).home a.hash = t.home a.hash := by
      simp [home]
    rw [capacity_shifted, hhome] at hbefore
    have hhome_lt : t.home a.hash < t.capacity := home_lt (by omega) a.hash
    rw [hpeek, if_neg hjs]
    rw [hpeek] at ha
    split at ha
    · cases ha
    · rename_i his
      split at ha
      · -- the moved entry itself
        rename_i hig
        cases ha
        rw [hig] at hbefore ⊢
        have hjg : j ≠ gap := by
          rintro rfl
          omega
        rw [if_neg hjg, Function.update_of_ne hjg, Function.update_self]
        exact h.older he j hj (by omega) (by simpa using Ne.symm hjg)
      · rename_i hig
        rw [Function.update_of_ne hig]
        by_cases hjg : j = gap
        · -- the path of the entry goes through the gap, and so through the old bucket as well
          rw [hjg] at hbefore
          rw [if_pos hjg, hjg, Function.update_self]
          refine ⟨rfl, ?_⟩
          have hfar : k ≤ distance t.capacity gap i := by
            by_contra hlt
            exact hswept ha (by omega) hbefore
          have hi := lt_capacity_of_peek ha
          have hnot : distance t.capacity gap scan ≠ distance t.capacity gap i := by
            intro heq
            exact his (distance_inj hsweep.lt hscan hi heq).symm
          have hbetween := distance_lt_of_between hhome_lt hsweep.lt hi hscan
            (Nat.le_of_lt hbefore) (by omega)
          exact (h.older ha scan hscan hbetween (by simpa using hne)).2
        · rw [if_neg hjg, Function.update_of_ne hjg]
          exact h.older ha j hj hbefore (by simpa using Ne.symm hjg)

theorem close {gap k : Nat} (h : t.Seniority birth (some gap)) (hsweep : t.Sweeping gap k)
    (hswept : t.Swept gap k) (hend : t.peek (ahead t.capacity gap k) = none) :
    t.Seniority birth none := by
  constructor
  · exact h.distinct
  · intro i a ha j hj hbefore _
    by_cases hjg : j = gap
    · rw [hjg] at hbefore
      have hi := lt_capacity_of_peek ha
      have hfar : k ≤ distance t.capacity gap i := by
        by_contra hlt
        exact hswept ha (by omega) hbefore
      have hk : k < t.capacity := by
        have := distance_lt (show 0 < t.capacity by omega) gap i
        omega
      have hscan := hsweep.scan_lt
      have hdist := distance_ahead hsweep.lt hk
      generalize ahead t.capacity gap k = scan at hend hscan hdist
      have hnot : distance t.capacity gap scan ≠ distance t.capacity gap i := by
        intro heq
        rw [distance_inj hsweep.lt hscan hi heq, ha] at hend
        cases hend
      have hbetween := distance_lt_of_between (home_lt (by omega) a.hash) hsweep.lt hi hscan
        (Nat.le_of_lt hbefore) (by omega)
      have hne : gap ≠ scan := by
        rintro rfl
        have := hsweep.pos
        simp at hdist
        omega
      have hocc := (h.older ha scan hscan hbetween (by simpa using hne)).1
      simp [hend] at hocc
    · exact h.older ha j hj hbefore (by simpa using Ne.symm hjg)

end Seniority

namespace Lists

variable {t : Table K V} {birth : Nat → Nat} {log : List (Nat × Entry K V)}

theorem fill (h : t.Lists birth log) {i stamp : Nat} {e : Entry K V} (hi : i < t.capacity)
    (hempty : t.peek i = none) :
    (t.put i (some e)).Lists (Function.update birth i stamp) (log ++ [(stamp, e)]) := by
  intro stamp' a
  rw [List.mem_append, h, List.mem_singleton, Prod.mk.injEq]
  constructor
  · rintro (⟨j, hj, hbirth⟩ | ⟨hstamp, ha⟩)
    · have hji : j ≠ i := by
        rintro rfl
        rw [hempty] at hj
        cases hj
      exact ⟨j, by rw [peek_put_of_ne hi _ hji, hj], by rw [Function.update_of_ne hji, hbirth]⟩
    · exact ⟨i, by rw [peek_put_self hi, ha], by rw [Function.update_self, hstamp]⟩
  · rintro ⟨j, hj, hbirth⟩
    by_cases hji : j = i
    · rw [hji, peek_put_self hi] at hj
      rw [hji, Function.update_self] at hbirth
      exact .inr ⟨hbirth.symm, (Option.some.inj hj).symm⟩
    · rw [peek_put_of_ne hi _ hji] at hj
      rw [Function.update_of_ne hji] at hbirth
      exact .inl ⟨j, hj, hbirth⟩

theorem vacate (h : t.Lists birth log) (hold : t.Seniority birth none) {i : Nat}
    (hi : (t.peek i).isSome) :
    (t.put i none).Lists birth (log.filter fun x => decide (x.1 ≠ birth i)) := by
  have hlt := lt_capacity_of_isSome hi
  intro stamp a
  simp only [List.mem_filter, h stamp a, decide_eq_true_eq]
  constructor
  · rintro ⟨⟨j, hj, hbirth⟩, hne⟩
    have hji : j ≠ i := by
      rintro rfl
      exact hne hbirth.symm
    exact ⟨j, by rw [peek_put_of_ne hlt _ hji, hj], hbirth⟩
  · rintro ⟨j, hj, hbirth⟩
    have hji : j ≠ i := by
      rintro rfl
      rw [peek_put_self hlt] at hj
      cases hj
    rw [peek_put_of_ne hlt _ hji] at hj
    refine ⟨⟨j, hj, hbirth⟩, fun heq => hji ?_⟩
    exact hold.distinct (by rw [hj]; rfl) hi (by rw [hbirth, heq])

theorem move (h : t.Lists birth log) {source target : Nat} {e : Entry K V}
    (he : t.peek source = some e) (ht : target < t.capacity) (hempty : t.peek target = none) :
    (t.shifted source target e).Lists (Function.update birth target (birth source)) log := by
  have hs := lt_capacity_of_peek he
  have hne : target ≠ source := (ne_of_peek he hempty).symm
  have hpeek := peek_shifted hs ht e
  intro stamp a
  rw [h stamp a]
  constructor
  · rintro ⟨j, hj, hbirth⟩
    by_cases hjs : j = source
    · rw [hjs] at hj hbirth
      refine ⟨target, ?_, by rw [Function.update_self, hbirth]⟩
      rw [hpeek, if_neg hne, if_pos rfl, ← he, hj]
    · have hjt : j ≠ target := by
        rintro rfl
        rw [hempty] at hj
        cases hj
      exact ⟨j, by rw [hpeek, if_neg hjs, if_neg hjt, hj], by rw [Function.update_of_ne hjt, hbirth]⟩
  · rintro ⟨j, hj, hbirth⟩
    rw [hpeek] at hj
    split at hj
    · cases hj
    · split at hj
      · rename_i hjt
        rw [hjt, Function.update_self] at hbirth
        exact ⟨source, by rw [he, hj], hbirth⟩
      · rename_i hjt
        rw [Function.update_of_ne hjt] at hbirth
        exact ⟨j, hj, hbirth⟩

end Lists

/-- Closing a gap ends, restores seniority, and keeps the entries and their births. -/
theorem closeGap_seniority {t : Table K V} {birth : Nat → Nat} {gap : Nat} (hgap : gap < t.capacity)
    (hempty : t.peek gap = none) (hsenior : t.Seniority birth (some gap)) :
    ∃ t' birth', t.closeGap gap = .ok () t' ∧ t'.capacity = t.capacity ∧
      t'.entries.Perm t.entries ∧ t'.Seniority birth' none ∧
      ∀ log, t.Lists birth log → t'.Lists birth' log := by
  let P (u : Table K V) (gap k : Nat) : Prop :=
    u.capacity = t.capacity ∧ u.entries.Perm t.entries ∧ u.Swept gap k ∧
      ∃ birth', u.Seniority birth' (some gap) ∧ ∀ log, t.Lists birth log → u.Lists birth' log
  have hstart : P t gap 1 := by
    refine ⟨rfl, .refl _, ?_, birth, hsenior, fun _ h => h⟩
    intro i e he hdist
    have hi : i = gap := by
      by_contra hne
      have := distance_pos hgap (lt_capacity_of_peek he) (Ne.symm hne)
      omega
    rw [hi, hempty] at he
    cases he
  obtain ⟨t', gap', k', hrun, hsweep, ⟨hcap, hperm, hswept, birth', hsenior', hlists'⟩, hend⟩ :=
    closeGap_rule (P := P)
      (fun {u gap k e} hsweep hP he hstay => by
        obtain ⟨hcap, hperm, hswept, birth', hsenior, hlists⟩ := hP
        exact ⟨hcap, hperm, Seniority.swept_skip hsweep hswept he hstay, birth', hsenior, hlists⟩)
      (fun {u gap k e} hsweep hP he hnear => by
        obtain ⟨hcap, hperm, hswept, birth', hsenior, hlists⟩ := hP
        refine ⟨by rw [capacity_shifted, hcap],
          (entries_shifted he hsweep.lt hsweep.empty).trans hperm, ?_, _,
          hsenior.move hsweep hswept he hnear,
          fun log hlog => (hlists log hlog).move he hsweep.lt hsweep.empty⟩
        -- nothing lies between the new gap and the bucket after it
        intro i a ha hdist
        have hmoved := hsweep.move e
        have hi : i = ahead u.capacity gap k := by
          by_contra hne
          have := distance_pos hmoved.lt (lt_capacity_of_peek ha) (Ne.symm hne)
          omega
        rw [hi, hmoved.empty] at ha
        cases ha)
      hgap hempty hstart
  exact ⟨t', birth', hrun, hcap, hperm, hsenior'.close hsweep hswept hend, hlists'⟩

theorem evict_seniority {t : Table K V} {birth : Nat → Nat} (h : t.Seniority birth none) {i : Nat}
    {e : Entry K V} (he : t.peek i = some e) :
    ∃ t' birth', t.evict (.found i) = .ok (some e.pair) t' ∧ t'.capacity = t.capacity ∧
      t.entries.Perm (e :: t'.entries) ∧ t'.Seniority birth' none ∧
      ∀ log, t.Lists birth log → t'.Lists birth' (log.filter fun x => decide (x.1 ≠ birth i)) := by
  have hi := lt_capacity_of_peek he
  obtain ⟨t', birth', hrun, hcap, hperm, hsenior, hlists⟩ :=
    closeGap_seniority (by simpa using hi) (peek_put_self hi none) (h.vacate hi)
  refine ⟨t', birth', ?_, by rw [hcap, capacity_put], (entries_empty he).trans (hperm.symm.cons e),
    hsenior, fun log hlog => hlists _ (hlog.vacate h (by rw [he]; rfl))⟩
  have hvacate : t.vacate i = t.put i none := rfl
  simp [evict, bucket_of_peek he, hvacate, hrun]

end LinearProbing.Table
