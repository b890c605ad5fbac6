import LinearProbing.Key.Record
import LinearProbing.Proofs.Canonical

set_option autoImplicit false

/-!
# What merging keeps

Equal elements may be told apart, so it matters which of them a union holds. Merging keeps the list on
the left as it is and takes from the list on the right the elements that equal none of it.
-/

namespace LinearProbing.Canonical

open Std

variable {α : Type} [Ord α]

/-- Whether an element of a list is equal to `z` in the order. -/
def hasEqual (l : List α) (z : α) : Bool := l.any fun x => compare x z == .eq

/-- The elements on the right that equal no element on the left. -/
def newIn (left right : List α) : List α := right.filter fun z => !hasEqual left z

theorem hasEqual_cons_of_lt {x z : α} (h : compare x z = .lt) (l : List α) :
    hasEqual (x :: l) z = hasEqual l z := by
  rw [hasEqual, List.any_cons, h]
  rfl

theorem hasEqual_cons_of_eq {x z : α} (h : compare x z = .eq) (l : List α) :
    hasEqual (x :: l) z = true := by
  rw [hasEqual, List.any_cons, h]
  rfl

theorem newIn_of_hasEqual {l m : List α} {z : α} (h : hasEqual l z = true) :
    newIn l (z :: m) = newIn l m :=
  List.filter_cons_of_neg (by simp [h])

theorem newIn_of_not_hasEqual {l m : List α} {z : α} (h : hasEqual l z = false) :
    newIn l (z :: m) = z :: newIn l m :=
  List.filter_cons_of_pos (by simp [h])

theorem newIn_cons_of_lt {x : α} {m : List α} (h : ∀ z ∈ m, compare x z = .lt) (l : List α) :
    newIn (x :: l) m = newIn l m :=
  List.filter_congr fun z hz => by rw [hasEqual_cons_of_lt (h z hz)]

theorem filter_hasEqual_cons_of_lt {x : α} {m : List α} (h : ∀ z ∈ m, compare x z = .lt)
    (l : List α) : m.filter (hasEqual (x :: l)) = m.filter (hasEqual l) :=
  List.filter_congr fun z hz => hasEqual_cons_of_lt (h z hz) l

variable [TransOrd α]

theorem hasEqual_of_mem {l : List α} {z : α} (h : z ∈ l) : hasEqual l z = true := by
  have hself : compare z z = .eq := ReflCmp.compare_self
  refine List.any_eq_true.2 ⟨z, h, ?_⟩
  rw [hself]
  rfl

theorem hasEqual_of_lt {l : List α} {z : α} (h : ∀ x ∈ l, compare z x = .lt) :
    hasEqual l z = false := by
  rw [hasEqual, List.any_eq_false]
  intro x hx
  rw [OrientedCmp.gt_of_lt (h x hx)]
  decide

theorem lt_of_merge_eq_cons {left right rest : List α} {x : α} (hleft : Ascending left)
    (hright : Ascending right) (h : merge left right = x :: rest) :
    ∀ z ∈ rest, compare x z = .lt := by
  have hascending := merge_ascending hleft hright
  rw [h] at hascending
  exact (ascending_cons.1 hascending).1

theorem filter_merge {left right : List α} (hleft : Ascending left) (hright : Ascending right) :
    (merge left right).filter (hasEqual left) = left ∧
      newIn left (merge left right) = newIn left right := by
  induction left, right using merge.induct with
  | case1 right =>
    rw [merge]
    exact ⟨List.filter_eq_nil_iff.2 fun _ _ => Bool.false_ne_true, rfl⟩
  | case2 left hne =>
    rw [merge]
    · refine ⟨List.filter_eq_self.2 fun _ => hasEqual_of_mem, List.filter_eq_nil_iff.2 ?_⟩
      intro z hz
      rw [hasEqual_of_mem hz]
      decide
    · exact hne
  | case3 x left y right hlt ih =>
    have hmerge : merge (x :: left) (y :: right) = x :: merge left (y :: right) := by
      rw [merge, hlt]
    have hself : hasEqual (x :: left) x = true := hasEqual_of_mem List.mem_cons_self
    have habove := lt_of_merge_eq_cons hleft hright hmerge
    obtain ⟨hkept, hadded⟩ := ih (ascending_cons.1 hleft).2 hright
    rw [hmerge]
    constructor
    · rw [List.filter_cons_of_pos hself, filter_hasEqual_cons_of_lt habove, hkept]
    · rw [newIn_of_hasEqual hself, newIn_cons_of_lt habove, hadded,
        newIn_cons_of_lt (lt_of_lt_head hlt hright)]
  | case4 x left y right hgt ih =>
    have hmerge : merge (x :: left) (y :: right) = y :: merge (x :: left) right := by
      rw [merge, hgt]
    have hnew : hasEqual (x :: left) y = false :=
      hasEqual_of_lt (lt_of_lt_head (OrientedCmp.gt_iff_lt.1 hgt) hleft)
    obtain ⟨hkept, hadded⟩ := ih hleft (ascending_cons.1 hright).2
    rw [hmerge]
    constructor
    · rw [List.filter_cons_of_neg (by simp [hnew]), hkept]
    · rw [newIn_of_not_hasEqual hnew, newIn_of_not_hasEqual hnew, hadded]
  | case5 x left y right heq ih =>
    have hmerge : merge (x :: left) (y :: right) = x :: merge left right := by
      rw [merge, heq]
    have hself : hasEqual (x :: left) x = true := hasEqual_of_mem List.mem_cons_self
    have habove := lt_of_merge_eq_cons hleft hright hmerge
    obtain ⟨hy, hright⟩ := ascending_cons.1 hright
    obtain ⟨hkept, hadded⟩ := ih (ascending_cons.1 hleft).2 hright
    have hright' : ∀ z ∈ right, compare x z = .lt :=
      fun z hz => TransCmp.lt_of_eq_of_lt heq (hy z hz)
    rw [hmerge]
    constructor
    · rw [List.filter_cons_of_pos hself, filter_hasEqual_cons_of_lt habove, hkept]
    · rw [newIn_of_hasEqual hself, newIn_cons_of_lt habove, hadded,
        newIn_of_hasEqual (hasEqual_cons_of_eq heq left), newIn_cons_of_lt hright']

theorem merge_perm {left right : List α} (hleft : Ascending left) (hright : Ascending right) :
    (merge left right).Perm (left ++ newIn left right) := by
  obtain ⟨hkept, hadded⟩ := filter_merge hleft hright
  have hparts := List.filter_append_perm (hasEqual left) (merge left right)
  rw [hkept] at hparts
  change (left ++ newIn left (merge left right)).Perm _ at hparts
  rw [hadded] at hparts
  exact hparts.symm

def common (left right : List α) : Nat := right.countP (hasEqual left)

theorem length_merge {left right : List α} (hleft : Ascending left) (hright : Ascending right) :
    (merge left right).length + common left right = left.length + right.length := by
  have hparts := (List.filter_append_perm (hasEqual left) right).length_eq
  rw [List.length_append, ← List.countP_eq_length_filter] at hparts
  rw [(merge_perm hleft hright).length_eq, List.length_append, ← hparts, common, newIn]
  omega

theorem length_merge_comm (left right : List α) :
    (merge left right).length = (merge right left).length := by
  induction left, right using merge.induct with
  | case1 right =>
    cases right with
    | nil => rfl
    | cons y right => simp [merge]
  | case2 left hne =>
    cases left with
    | nil => rfl
    | cons x left => simp [merge]
  | case3 x left y right hlt ih =>
    have hgt : compare y x = .gt := OrientedCmp.gt_of_lt hlt
    simp only [merge, hlt, hgt, List.length_cons, ih]
  | case4 x left y right hgt ih =>
    have hlt : compare y x = .lt := OrientedCmp.gt_iff_lt.1 hgt
    simp only [merge, hlt, hgt, List.length_cons, ih]
  | case5 x left y right heq ih =>
    have heq' : compare y x = .eq := OrientedCmp.eq_symm heq
    simp only [merge, heq, heq', List.length_cons, ih]

theorem common_comm {left right : List α} (hleft : Ascending left) (hright : Ascending right) :
    common left right = common right left := by
  have hlength := length_merge hleft hright
  have hlength' := length_merge hright hleft
  rw [length_merge_comm] at hlength
  omega

/-- The union of two strictly ascending lists is strictly ascending. It holds the very elements of the
left list, in their order, and of the right one those that equal none of them, and nothing else. -/
theorem merge_keeps_left {left right : List α} (hleft : Ascending left) (hright : Ascending right) :
    Ascending (merge left right) ∧ left.Sublist (merge left right) ∧
      (newIn left right).Sublist (merge left right) ∧
      (merge left right).Perm (left ++ newIn left right) ∧
      (merge left right).length + common left right = left.length + right.length ∧
      common left right = common right left := by
  obtain ⟨hkept, hadded⟩ := filter_merge hleft hright
  refine ⟨merge_ascending hleft hright, ?_, ?_, merge_perm hleft hright, length_merge hleft hright,
    common_comm hleft hright⟩
  · have hsub : ((merge left right).filter (hasEqual left)).Sublist (merge left right) :=
      List.filter_sublist
    rwa [hkept] at hsub
  · have hsub : (newIn left (merge left right)).Sublist (merge left right) := List.filter_sublist
    rwa [hadded] at hsub

/-- Two of the three records on the right equal records on the left, which stay. -/
theorem merge_keeps_left_copies :
    ∃ left right : List Record, Ascending left ∧ Ascending right ∧
      (merge left right).map Record.tag = [10, 21, 30] ∧ (newIn left right).map Record.tag = [21] ∧
      left.Sublist (merge left right) ∧ (merge left right).Perm (left ++ newIn left right) ∧
      (merge left right).length + 2 = left.length + right.length := by
  have hleft : Ascending [⟨1, 10⟩, (⟨3, 30⟩ : Record)] := isCanonical_iff.1 rfl
  have hright : Ascending [⟨1, 11⟩, ⟨2, 21⟩, (⟨3, 31⟩ : Record)] := isCanonical_iff.1 rfl
  obtain ⟨-, hsub, -, hperm, hlength, -⟩ := merge_keeps_left hleft hright
  exact ⟨_, _, hleft, hright, by cbv, by rfl, hsub, hperm, hlength⟩

end LinearProbing.Canonical
