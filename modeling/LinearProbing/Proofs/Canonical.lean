import LinearProbing.SetPool.Canonical
import Mathlib.Data.List.Basic

set_option autoImplicit false

/-!
# Canonical lists stand for sets

Sorting without repeats, compaction in place and merging all make strictly ascending lists, and keep
the elements. A strictly ascending list is known by its elements, up to the equality of elements.
-/

namespace LinearProbing.Canonical

open Std

variable {α : Type}

/-- Two lists have equal elements. -/
def SameElements [BEq α] (l l' : List α) : Prop := ∀ x, l.contains x = l'.contains x

namespace SameElements

variable [BEq α] {l l' m m' : List α}

theorem symm (h : SameElements l l') : SameElements l' l := fun x => (h x).symm

theorem trans (h : SameElements l l') (h' : SameElements l' m) : SameElements l m :=
  fun x => (h x).trans (h' x)

theorem append (h : SameElements l l') (h' : SameElements m m') :
    SameElements (l ++ m) (l' ++ m') := by
  intro x
  rw [List.contains_append, List.contains_append, h x, h' x]

theorem refl (l : List α) : SameElements l l := fun _ => rfl

theorem append_comm (l m : List α) : SameElements (l ++ m) (m ++ l) := by
  intro x
  rw [List.contains_append, List.contains_append, Bool.or_comm]

theorem append_right_iff : SameElements l (l ++ m) ↔ ∀ x, m.contains x = true → l.contains x = true := by
  refine forall_congr' fun x => ?_
  rw [List.contains_append]
  cases l.contains x <;> cases m.contains x <;> decide

end SameElements

section Order

variable [Ord α]

/-- Each element is less than all elements after it. -/
def Ascending (l : List α) : Prop := l.Pairwise fun x y => compare x y = .lt

def Sorted (l : List α) : Prop := l.Pairwise fun x y => (compare x y).isLE

theorem ascending_cons {x : α} {l : List α} :
    Ascending (x :: l) ↔ (∀ y ∈ l, compare x y = .lt) ∧ Ascending l := List.pairwise_cons

theorem mem_of_mem_merge {l l' : List α} {z : α} (h : z ∈ merge l l') : z ∈ l ∨ z ∈ l' := by
  induction l, l' using merge.induct with
  | case1 right =>
    rw [merge] at h
    exact .inr h
  | case2 left hleft =>
    rw [merge] at h
    · exact .inl h
    · exact hleft
  | case3 x left y right hlt ih =>
    rw [merge, hlt] at h
    rcases List.mem_cons.1 h with rfl | hz
    · exact .inl List.mem_cons_self
    · exact (ih hz).imp_left (List.mem_cons_of_mem _)
  | case4 x left y right hgt ih =>
    rw [merge, hgt] at h
    rcases List.mem_cons.1 h with rfl | hz
    · exact .inr List.mem_cons_self
    · exact (ih hz).imp_right (List.mem_cons_of_mem _)
  | case5 x left y right heq ih =>
    rw [merge, heq] at h
    rcases List.mem_cons.1 h with rfl | hz
    · exact .inl List.mem_cons_self
    · exact (ih hz).imp (List.mem_cons_of_mem _) (List.mem_cons_of_mem _)

variable [TransOrd α]

theorem lt_of_lt_head {x y : α} {l : List α} (hxy : compare x y = .lt) (h : Ascending (y :: l)) :
    ∀ z ∈ y :: l, compare x z = .lt := by
  intro z hz
  rcases List.mem_cons.1 hz with rfl | hz
  · exact hxy
  · exact TransCmp.lt_trans hxy ((ascending_cons.1 h).1 z hz)

theorem isCanonical_iff {l : List α} : isCanonical l = true ↔ Ascending l := by
  induction l with
  | nil => exact ⟨fun _ => .nil, fun _ => rfl⟩
  | cons x l ih =>
    cases l with
    | nil => exact ⟨fun _ => List.pairwise_singleton _ _, fun _ => rfl⟩
    | cons y rest =>
      rw [isCanonical, Bool.and_eq_true, ih, beq_iff_eq]
      constructor
      · rintro ⟨hxy, hrest⟩
        exact ascending_cons.2 ⟨lt_of_lt_head hxy hrest, hrest⟩
      · intro h
        obtain ⟨hx, hrest⟩ := ascending_cons.1 h
        exact ⟨hx y List.mem_cons_self, hrest⟩

theorem sorted_sort (elems : List α) : Sorted (sort elems) := by
  apply List.pairwise_mergeSort
  · intro x y z
    exact TransCmp.isLE_trans
  · intro x y
    have hswap : compare y x = (compare x y).swap := OrientedCmp.eq_swap
    simp only [hswap]
    cases compare x y <;> rfl

theorem merge_ascending {l l' : List α} (hl : Ascending l) (hl' : Ascending l') :
    Ascending (merge l l') := by
  induction l, l' using merge.induct with
  | case1 right =>
    rw [merge]
    exact hl'
  | case2 left hleft =>
    rw [merge]
    · exact hl
    · exact hleft
  | case3 x left y right hlt ih =>
    rw [merge, hlt]
    obtain ⟨hx, hleft⟩ := ascending_cons.1 hl
    refine ascending_cons.2 ⟨fun z hz => ?_, ih hleft hl'⟩
    rcases mem_of_mem_merge hz with hz | hz
    · exact hx z hz
    · exact lt_of_lt_head hlt hl' z hz
  | case4 x left y right hgt ih =>
    rw [merge, hgt]
    have hyx : compare y x = .lt := OrientedCmp.gt_iff_lt.1 hgt
    obtain ⟨hy, hright⟩ := ascending_cons.1 hl'
    refine ascending_cons.2 ⟨fun z hz => ?_, ih hl hright⟩
    rcases mem_of_mem_merge hz with hz | hz
    · exact lt_of_lt_head hyx hl z hz
    · exact hy z hz
  | case5 x left y right heq ih =>
    rw [merge, heq]
    obtain ⟨hx, hleft⟩ := ascending_cons.1 hl
    obtain ⟨hy, hright⟩ := ascending_cons.1 hl'
    refine ascending_cons.2 ⟨fun z hz => ?_, ih hleft hright⟩
    rcases mem_of_mem_merge hz with hz | hz
    · exact hx z hz
    · exact TransCmp.lt_of_eq_of_lt heq (hy z hz)

end Order

section Equality

variable [BEq α]

instance partialEquivBEqList [PartialEquivBEq α] : PartialEquivBEq (List α) where
  symm {l l'} h := by
    induction l generalizing l' with
    | nil =>
      cases l' with
      | nil => rfl
      | cons y l' => cases h
    | cons x l ih =>
      cases l' with
      | nil => cases h
      | cons y l' =>
        rw [List.cons_beq_cons, Bool.and_eq_true] at h ⊢
        exact ⟨BEq.symm h.1, ih h.2⟩
  trans {l l' l''} h h' := by
    induction l generalizing l' l'' with
    | nil =>
      cases l' with
      | nil => exact h'
      | cons y l' => cases h
    | cons x l ih =>
      cases l' with
      | nil => cases h
      | cons y l' =>
        cases l'' with
        | nil => cases h'
        | cons z l'' =>
          rw [List.cons_beq_cons, Bool.and_eq_true] at h h' ⊢
          exact ⟨BEq.trans h.1 h'.1, ih h.2 h'.2⟩

instance equivBEqList [EquivBEq α] : EquivBEq (List α) where

theorem sameElements_of_beq [EquivBEq α] {l l' : List α} (h : (l == l') = true) :
    SameElements l l' := by
  induction l generalizing l' with
  | nil =>
    cases l' with
    | nil => exact fun _ => rfl
    | cons y l' => cases h
  | cons x l ih =>
    cases l' with
    | nil => cases h
    | cons y l' =>
      rw [List.cons_beq_cons, Bool.and_eq_true] at h
      intro z
      rw [List.contains_cons, List.contains_cons, ih h.2 z, BEq.congr_right h.1]

theorem sort_sameElements [Ord α] (elems : List α) : SameElements (sort elems) elems := by
  intro x
  rw [Bool.eq_iff_iff, List.contains_iff_exists_mem_beq, List.contains_iff_exists_mem_beq]
  simp only [sort, List.mem_mergeSort]

theorem mem_of_mem_dropRepeats {l : List α} {z : α} (h : z ∈ dropRepeats l) : z ∈ l := by
  induction l using dropRepeats.induct with
  | case1 => rwa [dropRepeats] at h
  | case2 x => rwa [dropRepeats] at h
  | case3 x y rest heq ih =>
    rw [dropRepeats, if_pos heq] at h
    rcases List.mem_cons.1 (ih h) with rfl | hz
    · exact List.mem_cons_self
    · exact List.mem_cons_of_mem _ (List.mem_cons_of_mem _ hz)
  | case4 x y rest hne ih =>
    rw [dropRepeats, if_neg hne] at h
    rcases List.mem_cons.1 h with rfl | hz
    · exact List.mem_cons_self
    · exact List.mem_cons_of_mem _ (ih hz)

theorem dropRepeats_sameElements [EquivBEq α] (l : List α) : SameElements (dropRepeats l) l := by
  intro z
  induction l using dropRepeats.induct with
  | case1 => rw [dropRepeats]
  | case2 x => rw [dropRepeats]
  | case3 x y rest heq ih =>
    rw [dropRepeats, if_pos heq, ih, List.contains_cons, List.contains_cons, List.contains_cons]
    cases hzy : z == y with
    | true =>
      have hzx : (z == x) = true := BEq.trans hzy heq
      rw [hzx]
      rfl
    | false => rw [Bool.false_or]
  | case4 x y rest hne ih =>
    rw [dropRepeats, if_neg hne, List.contains_cons, ih, ← List.contains_cons]

/-- Takes in elements one by one, each one unless it is equal to the last one taken in. -/
def absorb (kept : List α) : List α → List α
  | [] => kept
  | x :: rest =>
    match kept.getLast? with
    | none => absorb [x] rest
    | some last => if x == last then absorb kept rest else absorb (kept ++ [x]) rest

theorem absorb_of_isNew {kept : List α} {x : α} {rest : List α}
    (h : ∀ last, kept.getLast? = some last → ¬ (x == last) = true) :
    absorb kept (x :: rest) = absorb (kept ++ [x]) rest := by
  rw [absorb]
  cases hlast : kept.getLast? with
  | none =>
    rw [List.getLast?_eq_none_iff.1 hlast]
    rfl
  | some last => exact if_neg (h last hlast)

theorem absorb_of_beq {kept : List α} {x last : α} {rest : List α} (hlast : kept.getLast? = some last)
    (heq : (x == last) = true) : absorb kept (x :: rest) = absorb kept rest := by
  rw [absorb, hlast]
  exact if_pos heq

theorem absorb_concat (kept : List α) (last : α) (rest : List α) :
    absorb (kept ++ [last]) rest = kept ++ dropRepeats (last :: rest) := by
  induction rest generalizing kept last with
  | nil => rw [absorb, dropRepeats]
  | cons x rest ih =>
    have hlast : (kept ++ [last]).getLast? = some last := List.getLast?_concat
    rw [dropRepeats]
    split
    · rename_i heq
      rw [absorb_of_beq hlast heq, ih]
    · rename_i hne
      have hnew : ∀ y, (kept ++ [last]).getLast? = some y → ¬ (x == y) = true := by
        intro y hy
        rw [hlast] at hy
        cases hy
        exact hne
      rw [absorb_of_isNew hnew, ih, List.append_assoc, List.singleton_append]

theorem absorb_nil (l : List α) : absorb [] l = dropRepeats l := by
  cases l with
  | nil => rw [absorb, dropRepeats]
  | cons x rest => exact absorb_concat [] x rest

end Equality

section Lawful

variable [BEq α] [Ord α] [LawfulBEqOrd α]

theorem beq_iff {x y : α} : (x == y) = true ↔ compare x y = .eq :=
  LawfulBEqOrd.compare_eq_iff_beq.symm

theorem not_contains_of_lt {x : α} {l : List α} (h : ∀ y ∈ l, compare x y = .lt) :
    l.contains x = false := by
  rw [List.contains_eq_any_beq, List.any_eq_false]
  intro y hy heq
  rw [beq_iff, h y hy] at heq
  cases heq

variable [TransOrd α]

theorem trichotomy (x y : α) : compare x y = .lt ∨ (x == y) = true ∨ compare y x = .lt := by
  cases h : compare x y with
  | lt => exact .inl rfl
  | eq => exact .inr (.inl (beq_iff.2 h))
  | gt => exact .inr (.inr (OrientedCmp.gt_iff_lt.1 h))

theorem lt_of_isLE {x y : α} (h : (compare x y).isLE) (hne : ¬ (y == x) = true) :
    compare x y = .lt := by
  rcases trichotomy x y with hlt | heq | hgt
  · exact hlt
  · exact absurd (BEq.symm heq) hne
  · exact absurd h (OrientedCmp.not_isLE_of_lt hgt)

/-- A strictly ascending list is known by its elements. -/
theorem beq_of_sameElements {l l' : List α} (hl : Ascending l) (hl' : Ascending l')
    (h : SameElements l l') : (l == l') = true := by
  induction l generalizing l' with
  | nil =>
    cases l' with
    | nil => rfl
    | cons y l' =>
      have hy := h y
      simp at hy
  | cons x l ih =>
    cases l' with
    | nil =>
      have hx := h x
      simp at hx
    | cons y l' =>
      obtain ⟨hxl, hrest⟩ := ascending_cons.1 hl
      obtain ⟨hyl', hrest'⟩ := ascending_cons.1 hl'
      -- the heads are the least elements of both lists
      have hxy : (x == y) = true := by
        rcases trichotomy x y with hlt | heq | hgt
        · have hx := h x
          rw [List.contains_cons, BEq.rfl, Bool.true_or,
            not_contains_of_lt (lt_of_lt_head hlt hl')] at hx
          cases hx
        · exact heq
        · have hy := h y
          rw [List.contains_cons (l := l'), BEq.rfl, Bool.true_or,
            not_contains_of_lt (lt_of_lt_head hgt hl)] at hy
          cases hy
      have htail : SameElements l l' := by
        intro z
        have hz := h z
        rw [List.contains_cons, List.contains_cons] at hz
        cases hzx : z == x with
        | true =>
          have hzy : (z == y) = true := BEq.trans hzx hxy
          rw [List.contains_congr hzx, not_contains_of_lt hxl, List.contains_congr hzy,
            not_contains_of_lt hyl']
        | false =>
          have hzy : (z == y) = false := by
            rw [Bool.eq_false_iff] at hzx ⊢
            exact fun hzy => hzx (BEq.trans hzy (BEq.symm hxy))
          simpa [hzx, hzy] using hz
      rw [List.cons_beq_cons, hxy, ih hrest hrest' htail]
      rfl

theorem dropRepeats_ascending {l : List α} (h : Sorted l) : Ascending (dropRepeats l) := by
  induction l using dropRepeats.induct with
  | case1 =>
    rw [dropRepeats]
    exact .nil
  | case2 x =>
    rw [dropRepeats]
    exact List.pairwise_singleton _ _
  | case3 x y rest heq ih =>
    rw [dropRepeats, if_pos heq]
    obtain ⟨hx, hrest⟩ := List.pairwise_cons.1 h
    apply ih
    exact List.pairwise_cons.2
      ⟨fun z hz => hx z (List.mem_cons_of_mem _ hz), (List.pairwise_cons.1 hrest).2⟩
  | case4 x y rest hne ih =>
    rw [dropRepeats, if_neg hne]
    obtain ⟨hx, hrest⟩ := List.pairwise_cons.1 h
    have hxy : compare x y = .lt := lt_of_isLE (hx y List.mem_cons_self) hne
    refine ascending_cons.2 ⟨fun z hz => ?_, ih hrest⟩
    rcases List.mem_cons.1 (mem_of_mem_dropRepeats hz) with rfl | hz
    · exact hxy
    · exact TransCmp.lt_of_lt_of_isLE hxy ((List.pairwise_cons.1 hrest).1 z hz)

theorem ofList_spec (elems : List α) :
    Ascending (ofList elems) ∧ SameElements (ofList elems) elems :=
  ⟨dropRepeats_ascending (sorted_sort elems),
    (dropRepeats_sameElements _).trans (sort_sameElements elems)⟩

theorem merge_sameElements (l l' : List α) : SameElements (merge l l') (l ++ l') := by
  intro z
  induction l, l' using merge.induct with
  | case1 right => rw [merge, List.nil_append]
  | case2 left hleft =>
    rw [merge, List.append_nil]
    exact hleft
  | case3 x left y right hlt ih =>
    rw [merge, hlt]
    simp only [List.contains_cons, List.cons_append, ih]
  | case4 x left y right hgt ih =>
    rw [merge, hgt]
    simp only [List.contains_cons, List.contains_append, ih]
    rw [Bool.or_left_comm]
  | case5 x left y right heq ih =>
    rw [merge, heq]
    simp only [List.contains_cons, List.contains_append, ih]
    cases hzy : z == y with
    | true =>
      have hzx : (z == x) = true := BEq.trans hzy (BEq.symm (beq_iff.2 heq))
      rw [hzx]
      rfl
    | false => rw [Bool.false_or, Bool.or_assoc]

end Lawful

section Compaction

theorem take_swapIfInBounds {buffer : Array α} {distinct i : Nat} (hle : distinct ≤ i)
    (hi : i < buffer.size) :
    (buffer.swapIfInBounds distinct i).toList.take (distinct + 1) =
      buffer.toList.take distinct ++ [buffer[i]] := by
  have hdistinct : distinct < (buffer.swapIfInBounds distinct i).toList.length := by
    simp
    omega
  rw [List.take_succ_eq_append_getElem hdistinct, Array.getElem_toList,
    Array.getElem_swapIfInBounds_left hi]
  congr 1
  apply List.ext_getElem
  · simp
  · intro j hj hj'
    have hlt : j < distinct := by
      rw [List.length_take] at hj
      omega
    rw [List.getElem_take, List.getElem_take, Array.getElem_toList, Array.getElem_toList,
      Array.getElem_swapIfInBounds_of_ne_of_ne (by omega) (by omega)]

theorem drop_swapIfInBounds (buffer : Array α) {distinct i : Nat} (hle : distinct ≤ i) :
    (buffer.swapIfInBounds distinct i).toList.drop (i + 1) = buffer.toList.drop (i + 1) := by
  apply List.ext_getElem
  · simp
  · intro j hj hj'
    rw [List.getElem_drop, List.getElem_drop, Array.getElem_toList, Array.getElem_toList,
      Array.getElem_swapIfInBounds_of_ne_of_ne (by omega) (by omega)]

theorem elementAt_eq {buffer : Array α} {i : Nat} (hi : i < buffer.size) :
    elementAt buffer i = .ok buffer[i] := by
  rw [elementAt, Array.getElem?_eq_getElem hi]

theorem exchange_eq {buffer : Array α} {i j : Nat} (hi : i < buffer.size) (hj : j < buffer.size) :
    exchange buffer i j = .ok (buffer.swapIfInBounds i j) := by
  rw [exchange, elementAt_eq hi, elementAt_eq hj]
  rfl

theorem front_eq {buffer : Array α} {n : Nat} (h : n ≤ buffer.size) :
    front buffer n = .ok (buffer.toList.take n) := if_pos h

theorem swapIfInBounds_perm (buffer : Array α) (i j : Nat) :
    (buffer.swapIfInBounds i j).toList.Perm buffer.toList := by
  rw [Array.swapIfInBounds_def]
  split
  · split
    · exact Array.perm_iff_toList_perm.1 (Array.swap_perm _ _)
    · exact .refl _
  · exact .refl _

variable [BEq α]

theorem exists_isNew {buffer : Array α} {distinct i : Nat} (hle : distinct ≤ i) (hi : i < buffer.size) :
    ∃ new, isNew buffer distinct i = .ok new ∧
      (new = true ↔ ∀ last, (buffer.toList.take distinct).getLast? = some last →
        ¬ (buffer[i] == last) = true) := by
  rcases distinct with _ | distinct
  · exact ⟨true, rfl, by simp⟩
  · have hlt : distinct < buffer.size := by omega
    have hsub : Size.sub (distinct + 1) 1 = .ok distinct :=
      Size.sub_eq_ok_iff.2 ⟨Nat.le_add_left 1 distinct, rfl⟩
    refine ⟨buffer[i] != buffer[distinct], ?_, ?_⟩
    · simp only [isNew, hsub, elementAt_eq hi]
      change (elementAt buffer distinct).bind _ = _
      rw [elementAt_eq hlt]
      rfl
    · rw [List.take_succ_eq_append_getElem (by simpa using hlt)]
      simp [bne]

/-- The distinct elements in front of the place that compaction has come to take in the others, and no
place that it turns to is missing. -/
theorem compactFrom_spec {left : Nat} {buffer : Array α} {distinct i : Nat} (hle : distinct ≤ i)
    (hleft : i + left = buffer.size) :
    ∃ n buffer', compactFrom left buffer distinct i = .ok n buffer' ∧ n ≤ buffer'.size ∧
      buffer'.toList.Perm buffer.toList ∧
      buffer'.toList.take n = absorb (buffer.toList.take distinct) (buffer.toList.drop i) := by
  induction left generalizing buffer distinct i with
  | zero =>
    have hend : buffer.toList.drop i = [] := List.drop_eq_nil_of_le (by simp; omega)
    exact ⟨distinct, buffer, rfl, by omega, .refl _, by rw [hend, absorb]⟩
  | succ left ih =>
    have hi : i < buffer.size := by omega
    have hcons : buffer.toList.drop i = buffer[i] :: buffer.toList.drop (i + 1) :=
      List.drop_eq_getElem_cons (by simpa using hi)
    obtain ⟨new, hrun, hnew⟩ := exists_isNew hle hi
    rw [compactFrom, hrun, hcons]
    cases new with
    | true =>
      have hdistinct : distinct < buffer.size := by omega
      have hsize : i + 1 + left = (buffer.swapIfInBounds distinct i).size := by
        rw [Array.size_swapIfInBounds]
        omega
      obtain ⟨n, buffer', hrest, hn, hperm, htake⟩ := ih (Nat.succ_le_succ hle) hsize
      rw [take_swapIfInBounds hle hi, drop_swapIfInBounds buffer hle,
        ← absorb_of_isNew (hnew.1 rfl)] at htake
      simp only [exchange_eq hdistinct hi]
      exact ⟨n, buffer', hrest, hn, hperm.trans (swapIfInBounds_perm buffer distinct i), htake⟩
    | false =>
      have hold : ¬ ∀ last, (buffer.toList.take distinct).getLast? = some last →
          ¬ (buffer[i] == last) = true := fun h => absurd (hnew.2 h) Bool.false_ne_true
      push Not at hold
      obtain ⟨last, hlast, heq⟩ := hold
      rw [absorb_of_beq hlast heq]
      exact ih (Nat.le_succ_of_le hle) (by omega)

/-- Compaction always answers. It rearranges a buffer and puts the canonical list of its elements to the
front. -/
theorem compact_spec [Ord α] (buffer : Array α) :
    ∃ n buffer', compact buffer = .ok n buffer' ∧ n ≤ buffer'.size ∧
      buffer'.toList.Perm buffer.toList ∧ buffer'.toList.take n = ofList buffer.toList := by
  have hsize : 0 + (sort buffer.toList).toArray.size = (sort buffer.toList).toArray.size :=
    Nat.zero_add _
  obtain ⟨n, buffer', hrun, hn, hperm, htake⟩ := compactFrom_spec (Nat.le_refl 0) hsize
  refine ⟨n, buffer', hrun, hn, hperm.trans (List.mergeSort_perm buffer.toList le), ?_⟩
  rw [htake, ofList, ← absorb_nil]
  rfl

end Compaction

end LinearProbing.Canonical
