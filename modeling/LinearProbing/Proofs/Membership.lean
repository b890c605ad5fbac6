import LinearProbing.Proofs.Lifetime

set_option autoImplicit false

/-!
# Membership

A live handle stands for a strictly ascending array, made of the elements from which the handle was made,
so a search finds exactly these as its members. A handle from before a reset has none.
-/

namespace LinearProbing

open Canonical

namespace SlotPool

variable {A H α : Type} [Slots A H (PooledSet α)] [Ord α] [BEq α]

/-- The states of a pool, and all handles that it ever answered, those since the last reset and those
from before, each with the elements that it was made from. -/
inductive Told (contentHash : List α → UInt64) :
    SlotPool A H α → List (H × List α) → List (H × List α) → Prop where
  | start : Told contentHash (empty contentHash) [] []
  | call {p : SlotPool A H α} {log past : List (H × List α)} (c : PoolCall H α) :
      Told contentHash p log past → Told contentHash (p.call c).state (log ++ p.answer c) past
  | reset {p : SlotPool A H α} {log past : List (H × List α)} :
      Told contentHash p log past → Told contentHash p.reset.state [] (past ++ log)

variable {contentHash : List α → UInt64} {p : SlotPool A H α} {log past : List (H × List α)}

theorem Told.run (h : Told contentHash p log past) : Run contentHash p log := by
  induction h with
  | start => exact .start
  | call c _ ih => exact ih.call c
  | reset _ ih => exact ih.reset

theorem map_fst_issue (c : PoolCall H α) (p : SlotPool A H α) :
    (p.issue c).map Prod.fst = (p.answer c).map Prod.fst := by
  rw [issue, answer]
  cases (p.call c).result with
  | error fault => rfl
  | ok handle =>
    cases hslice : p.slice? c with
    | none => rw [slice?_eq_none_iff.1 hslice]
    | some slice =>
      cases hwanted : p.wanted? c with
      | none =>
        rw [slice?_eq_none_iff.2 hwanted] at hslice
        cases hslice
      | some elems => rfl

theorem Told.lived (h : Told contentHash p log past) :
    ∃ issued, Lived contentHash p issued (past.map Prod.fst) ∧
      issued.map Prod.fst = log.map Prod.fst := by
  induction h with
  | start => exact ⟨[], .start, rfl⟩
  | @call p log past c _ ih =>
    obtain ⟨issued, hlived, hhandles⟩ := ih
    refine ⟨issued ++ p.issue c, hlived.call c, ?_⟩
    rw [List.map_append, List.map_append, hhandles, map_fst_issue]
  | @reset p log past _ ih =>
    obtain ⟨issued, hlived, hhandles⟩ := ih
    refine ⟨[], ?_, rfl⟩
    rw [List.map_append, ← hhandles]
    exact hlived.reset

omit [BEq α] in
theorem find_of_get? {handle : H} {set : PooledSet α} (hget : p.get? handle = some set) (x : α) :
    p.find handle x = set.find x := by
  rw [find, hget, Option.bind_some]

variable [Std.TransOrd α] [Std.LawfulBEqOrd α]

theorem Told.get?_past [RetiringSlots A] (h : Told contentHash p log past)
    (hhash : ∀ xs ys : List α, (xs == ys) = true → contentHash xs = contentHash ys) {handle : H}
    (hmem : handle ∈ past.map Prod.fst) : p.get? handle = none := by
  obtain ⟨issued, hlived, -⟩ := h.lived
  obtain ⟨-, -, hretired⟩ : (∃ d, p.Indexes contentHash hhash d) ∧ _ := hlived.logs
  exact (hretired handle hmem).get?

variable {hhash : ∀ xs ys : List α, (xs == ys) = true → contentHash xs = contentHash ys}

theorem Indexes.isSome_find {d : Association H Unit} (h : p.Indexes contentHash hhash d) {handle : H}
    {elems : List α} (helems : p.elems? handle = some elems) (x : α) :
    (p.find handle x).isSome = elems.contains x := by
  obtain ⟨set, hget, rfl⟩ := Option.map_eq_some_iff.1 helems
  rw [find_of_get? hget, PooledSet.isSome_find, PooledSet.contains_eq (h.ascending hget)]

theorem Indexes.isSome_find_merge [LawfulSlots A] {d : Association H Unit}
    (h : p.Indexes contentHash hhash d) {a b ab : H} (hresult : (p.merge a b).result = .ok ab) (x : α) :
    ((p.merge a b).state.find ab x).isSome = ((p.find a x).isSome || (p.find b x).isSome) := by
  obtain ⟨la, lb, ha, hb⟩ := exists_elems_of_merge hresult
  obtain ⟨hpooling, d', hmerged⟩ := h.call (wanted?_merge ha hb)
  obtain ⟨lab, hab, hsame⟩ := hpooling.answered_elems hresult
  have hfound := hmerged.isSome_find hab x
  rw [h.isSome_find ha, h.isSome_find hb, ← List.contains_append, ← hsame x]
  exact hfound

/-- A live handle has as members the elements that it was made from, and finds the stored copy of each.
A handle from before a reset has no members. -/
theorem members_exact [RetiringSlots A] (contentHash : List α → UInt64)
    (hhash : ∀ xs ys : List α, (xs == ys) = true → contentHash xs = contentHash ys)
    {p : SlotPool A H α} {log past : List (H × List α)} (h : Told contentHash p log past) :
    (∀ a ∈ log, ∃ set, p.get? a.1 = some set ∧ ∀ x,
      (p.find a.1 x).isSome = a.2.contains x ∧
      (∀ y, p.find a.1 x = some y ↔ y ∈ set.toList ∧ (y == x) = true) ∧
      set.find x = p.find a.1 x ∧ set.contains x = a.2.contains x) ∧
    (∀ a ∈ past, p.get? a.1 = none ∧ ∀ x, p.find a.1 x = none) ∧
    ∀ a b ab, (p.merge a b).result = .ok ab → ∀ x,
      ((p.merge a b).state.find ab x).isSome = ((p.find a x).isSome || (p.find b x).isSome) := by
  obtain ⟨⟨d, hindexes⟩, hlog⟩ : (∃ d, p.Indexes contentHash hhash d) ∧ _ := h.run.indexes
  refine ⟨fun a ha => ?_, fun a ha => ?_, fun a b ab => hindexes.isSome_find_merge⟩
  · obtain ⟨set, hget, hsame⟩ := hlog a ha
    have hascending := hindexes.ascending hget
    refine ⟨set, hget, fun x => ?_⟩
    rw [find_of_get? hget, PooledSet.isSome_find, PooledSet.contains_eq hascending]
    exact ⟨hsame x, fun y => PooledSet.find_eq_some_iff hascending, rfl, hsame x⟩
  · have hdead : p.get? a.1 = none := h.get?_past hhash (List.mem_map_of_mem ha)
    refine ⟨hdead, fun x => ?_⟩
    rw [find, hdead, Option.bind_none]

/-- The set of `1` and `3` has the member `3` and not `2`, the union with that of `2` has both, and after a
reset there are no members. -/
theorem members_exact_of_union :
    ∃ p : SetPool Nat, p.find ⟨0⟩ 3 = some 3 ∧ p.find ⟨0⟩ 2 = none ∧
      (p.merge ⟨0⟩ ⟨1⟩).result = .ok ⟨2⟩ ∧ ((p.merge ⟨0⟩ ⟨1⟩).state.find ⟨2⟩ 3).isSome = true ∧
      p.reset.state.find ⟨0⟩ 3 = none := by
  let contentHash : List Nat → UInt64 := fun _ => 0
  let p : SetPool Nat :=
    ((empty contentHash).insertSorted [1, 3]).state.insertSorted [2] |>.state
  have hstart : Told contentHash (empty contentHash : SetPool Nat) [] [] := .start
  have htwo := (hstart.call (.insertSorted [1, 3])).call (.insertSorted [2])
  have hlog : [] ++ answer (.insertSorted [1, 3]) (empty contentHash : SetPool Nat) ++
      answer (.insertSorted [2])
        (SlotPool.call (.insertSorted [1, 3]) (empty contentHash : SetPool Nat)).state =
      [(⟨0⟩, [1, 3]), (⟨1⟩, [2])] := by decide
  rw [hlog] at htwo
  have htold : Told contentHash p [(⟨0⟩, [1, 3]), (⟨1⟩, [2])] [] := htwo
  obtain ⟨hlive, -, hmerge⟩ := members_exact contentHash (fun _ _ _ => rfl) htold
  obtain ⟨-, hpast, -⟩ := members_exact contentHash (fun _ _ _ => rfl) htold.reset
  obtain ⟨set, hget, hmembers⟩ := hlive _ (.head _)
  have hset : set.toList = [1, 3] := by
    have helems : p.elems? ⟨0⟩ = some [1, 3] := by decide
    rw [elems?, hget] at helems
    exact Option.some.inj helems
  have hthree : p.find ⟨0⟩ 3 = some 3 := by
    rw [(hmembers 3).2.1, hset]
    decide
  have hnot : p.find ⟨0⟩ 2 = none :=
    Option.isNone_iff_eq_none.1 (Option.isSome_eq_false_iff.1 (hmembers 2).1)
  have hunion : Canonical.merge [1, 3] [2] = [1, 2, 3] := by
    simp [Canonical.merge, compare, compareOfLessAndEq]
  have hmerged : p.merge ⟨0⟩ ⟨1⟩ = p.insertSorted [1, 2, 3] := by
    have hzero : p.elems? ⟨0⟩ = some [1, 3] := by decide
    have hone : p.elems? ⟨1⟩ = some [2] := by decide
    rw [merge_eq, hzero, hone, ← hunion]
  have hresult : (p.merge ⟨0⟩ ⟨1⟩).result = .ok ⟨2⟩ := by
    rw [hmerged]
    decide
  have hmember := hmerge ⟨0⟩ ⟨1⟩ ⟨2⟩ hresult 3
  rw [hthree] at hmember
  exact ⟨p, hthree, hnot, hresult, hmember, (hpast _ (.head _)).2 _⟩

end SlotPool

end LinearProbing
