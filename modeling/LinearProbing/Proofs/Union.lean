import LinearProbing.Proofs.HashConsing

set_option autoImplicit false

/-!
# Merging is a join

Merging two live handles pools the union of their sets. Since a set has one handle for as long as it is
in the pool, the laws of the union of sets become laws of handles, whatever else was pooled between the
merges that they compare.
-/

namespace LinearProbing.SlotPool

open Canonical

variable {A H α : Type} [Slots A H (PooledSet α)]

/-- A way to merge handles into one. -/
inductive Merging (H : Type) where
  | handle (h : H)
  | merge (left right : Merging H)

namespace Merging

def count : Merging H → Nat
  | .handle _ => 0
  | .merge left right => left.count + right.count + 1

def elems? (p : SlotPool A H α) : Merging H → Option (List α)
  | .handle h => p.elems? h
  | .merge left right =>
    match left.elems? p, right.elems? p with
    | some l, some l' => some (l ++ l')
    | _, _ => none

theorem exists_elems {p : SlotPool A H α} {left right : Merging H} {elems : List α}
    (h : (merge left right).elems? p = some elems) :
    ∃ l l', left.elems? p = some l ∧ right.elems? p = some l' ∧ l ++ l' = elems := by
  rw [elems?] at h
  split at h
  · rename_i l l' hleft hright
    exact ⟨l, l', hleft, hright, Option.some.inj h⟩
  · cases h

end Merging

/-- The handles that are live in `p` have the same sets in `q`. -/
def Keeps (p q : SlotPool A H α) : Prop :=
  ∀ ⦃handle elems⦄, p.elems? handle = some elems → q.elems? handle = some elems

theorem Keeps.merging {p q : SlotPool A H α} (h : Keeps p q) {m : Merging H} {l : List α}
    (hm : m.elems? p = some l) : m.elems? q = some l := by
  induction m generalizing l with
  | handle a => exact h hm
  | merge left right ihleft ihright =>
    obtain ⟨l₁, l₂, hleft, hright, rfl⟩ := Merging.exists_elems hm
    rw [Merging.elems?, ihleft hleft, ihright hright]

variable [BEq α] [Ord α]

/-- Makes the merges one after the other, the left ones first. -/
def Merging.run : Merging H → SlotPool A H α → Outcome (SlotPool A H α) H
  | .handle h, p => .ok h p
  | .merge left right, p =>
    (left.run p).bind fun a p => (right.run p).bind fun b p => p.merge a b

/-- The states that a pool comes to by calls, as long as it is not reset. -/
inductive Onward (p : SlotPool A H α) : SlotPool A H α → Prop where
  | refl : Onward p p
  | call {q : SlotPool A H α} (c : PoolCall H α) : Onward p q → Onward p (q.call c).state

/-- On the way from `p` to `q` the merge of `a` and `b` answered `ab`. -/
def Merged (p q : SlotPool A H α) (a b ab : H) : Prop :=
  ∃ r, Onward p r ∧ (r.merge a b).result = .ok ab ∧ Onward (r.merge a b).state q

/-- Merging makes a semilattice of the live handles of a pool. -/
structure MergeJoins (p : SlotPool A H α) : Prop where
  canonical : ∀ {a b la lb}, p.elems? a = some la → p.elems? b = some lb →
    isCanonical (Canonical.merge la lb) = true
  /-- A merge fails only if the pool lacks the union and has no slot for it. -/
  pools : ∀ {a b la lb}, p.elems? a = some la → p.elems? b = some lb →
    Pooling p (la ++ lb) (p.merge a b)
  grows : ∀ {a b ab la lb}, p.elems? a = some la → p.elems? b = some lb →
    (p.merge a b).result = .ok ab →
      ((p.merge a b).state.len = p.len + 1 ↔ p.Lacks (la ++ lb)) ∧
      ((p.merge a b).state = p ↔ ¬ p.Lacks (la ++ lb))
  union : ∀ {a b ab la lb}, p.elems? a = some la → p.elems? b = some lb →
    (p.merge a b).result = .ok ab → ∃ lab, (p.merge a b).state.elems? ab = some lab ∧
      Ascending lab ∧ ∀ x, lab.contains x = (la.contains x || lb.contains x)
  /-- A merge and the insertion of all elements answer the same, whichever comes first. -/
  inserts : ∀ {a b ab la lb q}, p.elems? a = some la → p.elems? b = some lb →
    (Merged p q a b ab → q.insert (la ++ lb) = .ok ab q) ∧
    ((p.insert (la ++ lb)).result = .ok ab → Onward (p.insert (la ++ lb)).state q →
      q.merge a b = .ok ab q)
  comm : ∀ {a b ab q}, Merged p q a b ab → q.merge b a = .ok ab q
  assoc : ∀ {a b c ab bc x y q}, Merged p q a b ab → Merged p q ab c x → Merged p q b c bc →
    Merged p q a bc y → x = y
  /-- Ways to merge the same elements, such as those of associativity, come to the same handle one after
  the other, as long as there is room for the sets on the way. -/
  ways : ∀ {m m' : Merging H} {l l'}, m.elems? p = some l → m'.elems? p = some l' →
    SameElements l l' → p.len + m.count + m'.count ≤ Arena.maxLen →
      ∃ x, (m.run p).result = .ok x ∧ (m'.run (m.run p).state).result = .ok x
  self : ∀ {a la}, p.elems? a = some la → p.merge a a = .ok a p
  empty : ∀ {a e la}, p.elems? a = some la → p.elems? e = some [] →
    p.merge a e = .ok a p ∧ p.merge e a = .ok a p
  le_iff : ∀ {a b la lb}, p.elems? a = some la → p.elems? b = some lb →
    ((p.merge a b).result = .ok a ↔ ∀ x, lb.contains x = true → la.contains x = true)

/-- The index of a pool is in step with its sets. -/
def Indexed (contentHash : List α → UInt64)
    (hhash : ∀ xs ys : List α, (xs == ys) = true → contentHash xs = contentHash ys)
    (p : SlotPool A H α) : Prop :=
  ∃ d, p.Indexes contentHash hhash d

theorem Onward.trans {p q r : SlotPool A H α} (hpq : Onward p q) (hqr : Onward q r) : Onward p r := by
  induction hqr with
  | refl => exact hpq
  | call c _ ih => exact ih.call c

theorem Merged.onward {p q : SlotPool A H α} {a b ab : H} (h : Merged p q a b ab) : Onward p q := by
  obtain ⟨r, hbefore, -, hafter⟩ := h
  exact (hbefore.call (.merge a b)).trans hafter

namespace Indexed

variable [LawfulSlots A] [Std.TransOrd α] [Std.LawfulBEqOrd α] {contentHash : List α → UInt64}
  {hhash : ∀ xs ys : List α, (xs == ys) = true → contentHash xs = contentHash ys}
  {p q : SlotPool A H α} {a b c ab : H} {la lb lc : List α}

theorem call (h : p.Indexed contentHash hhash) (c : PoolCall H α) :
    (p.call c).state.Indexed contentHash hhash ∧ Keeps p (p.call c).state := by
  obtain ⟨d, hindexes⟩ := h
  cases hwanted : p.wanted? c with
  | none =>
    rw [call_of_wanted?_eq_none hwanted]
    exact ⟨⟨d, hindexes⟩, fun _ _ => id⟩
  | some elems =>
    obtain ⟨hpooling, hindexes'⟩ := hindexes.call hwanted
    refine ⟨hindexes', fun handle elems' hlive => ?_⟩
    obtain ⟨set, hget, rfl⟩ := Option.map_eq_some_iff.1 hlive
    exact Option.map_eq_some_iff.2 ⟨set, hpooling.keeps hget, rfl⟩

theorem onward (h : p.Indexed contentHash hhash) (hway : Onward p q) :
    q.Indexed contentHash hhash ∧ Keeps p q := by
  induction hway with
  | refl => exact ⟨h, fun _ _ => id⟩
  | call c _ ih =>
    obtain ⟨hindexed, hkeeps⟩ := ih
    obtain ⟨hindexed', hkeeps'⟩ := hindexed.call c
    exact ⟨hindexed', fun _ _ hlive => hkeeps' (hkeeps hlive)⟩

theorem call_eq (h : p.Indexed contentHash hhash) {c : PoolCall H α} {elems : List α}
    (hwanted : p.wanted? c = some elems) (ha : p.elems? a = some la)
    (hsame : SameElements la elems) : p.call c = .ok a p := by
  obtain ⟨d, hindexes⟩ := h
  obtain ⟨hpooling, -⟩ := hindexes.call hwanted
  obtain ⟨set, hget, rfl⟩ := Option.map_eq_some_iff.1 ha
  generalize p.call c = o at hpooling
  cases hpooling with
  | @found handle set' hget' hsame' =>
    have hlive : p.elems? handle = some set'.toList := Option.map_eq_some_iff.2 ⟨set', hget', rfl⟩
    rw [hindexes.eq_of_sameElements ha hlive (hsame.trans hsame'.symm)]
  | full hlacks => exact absurd hsame (hlacks a set hget)
  | added hlacks => exact absurd hsame (hlacks a set hget)

theorem pooling_merge (h : p.Indexed contentHash hhash) (ha : p.elems? a = some la)
    (hb : p.elems? b = some lb) : Pooling p (la ++ lb) (p.merge a b) := by
  obtain ⟨d, hindexes⟩ := h
  exact (hindexes.call (wanted?_merge ha hb)).1

theorem merge_eq_ok (h : p.Indexed contentHash hhash) (ha : p.elems? a = some la)
    (hb : p.elems? b = some lb) (hc : p.elems? c = some lc) (hsame : SameElements lc (la ++ lb)) :
    p.merge a b = .ok c p := by
  have hwanted : p.wanted? (.merge a b) = some (la ++ lb) := by rw [wanted?, ha, hb]
  exact h.call_eq hwanted hc hsame

theorem of_merged (h : p.Indexed contentHash hhash) (hmerged : Merged p q a b ab) :
    q.Indexed contentHash hhash ∧ ∃ la lb lab, q.elems? a = some la ∧ q.elems? b = some lb ∧
      q.elems? ab = some lab ∧ SameElements lab (la ++ lb) := by
  obtain ⟨r, hbefore, hresult, hafter⟩ := hmerged
  obtain ⟨hr, -⟩ := h.onward hbefore
  obtain ⟨la, lb, ha, hb⟩ := exists_elems_of_merge hresult
  obtain ⟨hmerge, hkeeps⟩ := hr.call (.merge a b)
  obtain ⟨hq, hkeeps'⟩ := hmerge.onward hafter
  obtain ⟨lab, hab, hsame⟩ := (hr.pooling_merge ha hb).answered_elems hresult
  exact ⟨hq, la, lb, lab, hkeeps' (hkeeps ha), hkeeps' (hkeeps hb), hkeeps' hab, hsame⟩

theorem exists_merge (h : p.Indexed contentHash hhash) (ha : p.elems? a = some la)
    (hb : p.elems? b = some lb) (hroom : p.len < Arena.maxLen) :
    ∃ ab q events lab, p.merge a b = ⟨.ok ab, q, events⟩ ∧ q.Indexed contentHash hhash ∧
      Keeps p q ∧ q.elems? ab = some lab ∧ SameElements lab (la ++ lb) ∧ q.len ≤ p.len + 1 := by
  have hpooling := h.pooling_merge ha hb
  obtain ⟨hq, hkeeps⟩ := h.call (.merge a b)
  obtain ⟨ab, hresult⟩ := hpooling.exists_answer hroom
  obtain ⟨lab, hab, hsame⟩ := hpooling.answered_elems hresult
  refine ⟨ab, (p.merge a b).state, (p.merge a b).events, lab, ?_, hq, hkeeps, hab, hsame,
    hpooling.len_le⟩
  rw [← hresult]

/-- Where there is room for its merges, a way to merge handles comes to their union. -/
theorem run_merging (h : p.Indexed contentHash hhash) {m : Merging H} {l : List α}
    (hm : m.elems? p = some l) (hroom : p.len + m.count ≤ Arena.maxLen) :
    ∃ x q events lx, m.run p = ⟨.ok x, q, events⟩ ∧ q.Indexed contentHash hhash ∧ Keeps p q ∧
      q.elems? x = some lx ∧ SameElements lx l ∧ q.len ≤ p.len + m.count := by
  induction m generalizing p l with
  | handle a => exact ⟨a, p, [], l, rfl, h, fun _ _ => id, hm, .refl l, Nat.le_refl _⟩
  | merge left right ihleft ihright =>
    rw [Merging.count] at hroom ⊢
    obtain ⟨l₁, l₂, hleft, hright, rfl⟩ := Merging.exists_elems hm
    obtain ⟨a, p₁, events₁, la, hrun₁, h₁, hkeeps₁, ha, hsame₁, hlen₁⟩ := ihleft h hleft (by omega)
    -- the handles on the right have the same sets after the merges on the left
    obtain ⟨b, p₂, events₂, lb, hrun₂, h₂, hkeeps₂, hb, hsame₂, hlen₂⟩ :=
      ihright h₁ (hkeeps₁.merging hright) (by omega)
    obtain ⟨x, p₃, events₃, lx, hrun₃, h₃, hkeeps₃, hx, hsame₃, hlen₃⟩ :=
      h₂.exists_merge (hkeeps₂ ha) hb (by omega)
    have hrun : (Merging.merge left right).run p = ⟨.ok x, p₃, events₁ ++ (events₂ ++ events₃)⟩ := by
      rw [Merging.run, hrun₁, Outcome.bind, hrun₂, Outcome.bind, hrun₃]
    exact ⟨x, p₃, _, lx, hrun, h₃, fun _ _ hlive => hkeeps₃ (hkeeps₂ (hkeeps₁ hlive)), hx,
      hsame₃.trans (hsame₁.append hsame₂), by omega⟩

theorem merged_assoc (h : p.Indexed contentHash hhash) {bc x y : H} (hab : Merged p q a b ab)
    (hx : Merged p q ab c x) (hbc : Merged p q b c bc) (hy : Merged p q a bc y) : x = y := by
  -- in `q` every handle still has the set that it had when it was merged, so the order does not matter
  obtain ⟨⟨d, hindexes⟩, la, lb, lab, ha, hb, hab, hsame⟩ := h.of_merged hab
  obtain ⟨-, lab', lc, lx, hab', hc, hx, hsamex⟩ := h.of_merged hx
  obtain ⟨-, lb', lc', lbc, hb', hc', hbc, hsame'⟩ := h.of_merged hbc
  obtain ⟨-, la', lbc', ly, ha', hbc', hy, hsamey⟩ := h.of_merged hy
  cases ha.symm.trans ha'
  cases hb.symm.trans hb'
  cases hc.symm.trans hc'
  cases hab.symm.trans hab'
  cases hbc.symm.trans hbc'
  have hleft : SameElements lx (la ++ lb ++ lc) := hsamex.trans (hsame.append (.refl lc))
  have hright : SameElements ly (la ++ (lb ++ lc)) :=
    hsamey.trans (SameElements.append (.refl la) hsame')
  rw [List.append_assoc] at hleft
  exact hindexes.eq_of_sameElements hx hy (hleft.trans hright.symm)

theorem mergeJoins (h : p.Indexed contentHash hhash) : p.MergeJoins where
  canonical ha hb := by
    obtain ⟨d, hindexes⟩ := h
    exact isCanonical_iff.2
      (merge_ascending (hindexes.ascending_elems ha) (hindexes.ascending_elems hb))
  pools := h.pooling_merge
  grows ha hb hresult := (h.pooling_merge ha hb).grows_iff hresult
  union {a b ab la lb} ha hb hresult := by
    obtain ⟨lab, hab, hsame⟩ := (h.pooling_merge ha hb).answered_elems hresult
    obtain ⟨⟨d, hindexes⟩, -⟩ := h.call (.merge a b)
    refine ⟨lab, hab, hindexes.ascending_elems hab, fun x => ?_⟩
    rw [hsame x, List.contains_append]
  inserts {a b ab la lb q} ha hb := by
    constructor
    · intro hmerged
      obtain ⟨hq, la', lb', lab, ha', hb', hab, hsame⟩ := h.of_merged hmerged
      obtain ⟨-, hkeeps⟩ := h.onward hmerged.onward
      cases (hkeeps ha).symm.trans ha'
      cases (hkeeps hb).symm.trans hb'
      exact hq.call_eq (c := .insert (la ++ lb)) rfl hab hsame
    · intro hresult hafter
      have hpooling : Pooling p (la ++ lb) (p.insert (la ++ lb)) := by
        obtain ⟨d, hindexes⟩ := h
        exact (hindexes.call (c := .insert (la ++ lb)) rfl).1
      obtain ⟨l, hab, hsame⟩ := hpooling.answered_elems hresult
      obtain ⟨hinsert, hkeeps⟩ := h.call (.insert (la ++ lb))
      obtain ⟨hq, hkeeps'⟩ := hinsert.onward hafter
      exact hq.merge_eq_ok (hkeeps' (hkeeps ha)) (hkeeps' (hkeeps hb)) (hkeeps' hab) hsame
  comm hmerged := by
    obtain ⟨hq, la, lb, lab, ha, hb, hab, hsame⟩ := h.of_merged hmerged
    exact hq.merge_eq_ok hb ha hab (hsame.trans (.append_comm la lb))
  assoc := h.merged_assoc
  ways hm hm' hsame hroom := by
    obtain ⟨x, q, events, lx, hrun, hq, hkeeps, hx, hsamex, hlen⟩ := h.run_merging hm (by omega)
    obtain ⟨y, r, events', ly, hrun', ⟨d, hindexes⟩, hkeeps', hy, hsamey, -⟩ :=
      hq.run_merging (hkeeps.merging hm') (by omega)
    obtain rfl : x = y := hindexes.eq_of_sameElements (hkeeps' hx) hy
      (hsamex.trans (hsame.trans hsamey.symm))
    exact ⟨x, by rw [hrun], by rw [hrun, hrun']⟩
  self ha := h.merge_eq_ok ha ha ha (SameElements.append_right_iff.2 fun _ => id)
  empty {a e la} ha he := by
    refine ⟨h.merge_eq_ok ha he ha ?_, h.merge_eq_ok he ha ha (.refl la)⟩
    rw [List.append_nil]
    exact .refl la
  le_iff {a b la lb} ha hb := by
    constructor
    · intro hresult
      obtain ⟨l, ha', hsame⟩ := (h.pooling_merge ha hb).answered_elems hresult
      obtain ⟨-, hkeeps⟩ := h.call (.merge a b)
      cases (hkeeps ha).symm.trans ha'
      exact SameElements.append_right_iff.1 hsame
    · intro hle
      rw [h.merge_eq_ok ha hb ha (SameElements.append_right_iff.2 hle)]
      rfl

end Indexed

/-- In every state of a pool merging is the union of sets, and it obeys the laws of a join. -/
theorem merge_is_join [LawfulSlots A] [Std.TransOrd α] [Std.LawfulBEqOrd α]
    (contentHash : List α → UInt64)
    (hhash : ∀ xs ys : List α, (xs == ys) = true → contentHash xs = contentHash ys)
    {p : SlotPool A H α} {log : List (H × List α)} (h : Run contentHash p log) : p.MergeJoins := by
  have hindexed : p.Indexed contentHash hhash := h.indexes.1
  exact hindexed.mergeJoins

/-- The union of `1, 3` and `2, 3` gets a handle of its own, and every way to make it again answers this
handle. -/
theorem merge_is_join_overlapping :
    ∃ p q : SetPool Nat, p.elems? ⟨0⟩ = some [1, 3] ∧ p.elems? ⟨1⟩ = some [2, 3] ∧
      p.elems? ⟨2⟩ = some [] ∧ Merged p q ⟨0⟩ ⟨1⟩ ⟨3⟩ ∧ q.elems? ⟨3⟩ = some [1, 2, 3] ∧
      q.len = p.len + 1 ∧ q.merge ⟨1⟩ ⟨0⟩ = .ok ⟨3⟩ q ∧ q.insert ([1, 3] ++ [2, 3]) = .ok ⟨3⟩ q ∧
      p.merge ⟨0⟩ ⟨0⟩ = .ok ⟨0⟩ p ∧ p.merge ⟨0⟩ ⟨2⟩ = .ok ⟨0⟩ p ∧
      (p.merge ⟨0⟩ ⟨1⟩).result ≠ .ok ⟨0⟩ := by
  let contentHash : List Nat → UInt64 := fun _ => 0
  let p : SetPool Nat :=
    (((empty contentHash).insertSorted [1, 3]).state.insertSorted [2, 3]).state.insertSorted [] |>.state
  have hstart : Run contentHash (empty contentHash : SetPool Nat) [] := .start
  have hrun := ((hstart.call (.insertSorted [1, 3])).call (.insertSorted [2, 3])).call
    (.insertSorted [])
  have hjoins : p.MergeJoins := merge_is_join contentHash (fun _ _ _ => rfl) hrun
  have h₀ : p.elems? ⟨0⟩ = some [1, 3] := by decide
  have h₁ : p.elems? ⟨1⟩ = some [2, 3] := by decide
  have h₂ : p.elems? ⟨2⟩ = some [] := by decide
  have hunion : Canonical.merge [1, 3] [2, 3] = [1, 2, 3] := by
    simp [Canonical.merge, compare, compareOfLessAndEq]
  have hmerge : p.merge ⟨0⟩ ⟨1⟩ = p.insertSorted [1, 2, 3] := by
    rw [merge_eq, h₀, h₁, ← hunion]
  have hresult : (p.merge ⟨0⟩ ⟨1⟩).result = .ok ⟨3⟩ := by
    rw [hmerge]
    decide
  have hmerged : Merged p (p.merge ⟨0⟩ ⟨1⟩).state ⟨0⟩ ⟨1⟩ ⟨3⟩ := ⟨p, .refl, hresult, .refl⟩
  have hcomm := hjoins.comm hmerged
  have hinsert := (hjoins.inserts h₀ h₁).1 hmerged
  have hself := hjoins.self h₀
  have hempty := (hjoins.empty h₀ h₂).1
  refine ⟨p, _, h₀, h₁, h₂, hmerged, ?_, ?_, hcomm, hinsert, hself, hempty, ?_⟩
  · rw [hmerge]
    decide
  · rw [hmerge]
    decide
  · intro hresult
    have htwo : [1, 3].contains 2 = true := (hjoins.le_iff h₀ h₁).1 hresult 2 rfl
    exact absurd htwo (by decide)

end LinearProbing.SlotPool
