import LinearProbing.Proofs.Canonical

set_option autoImplicit false

/-!
# Binary search

Binary search in a strictly ascending array comes to the one element that is equal to the one sought, as
a search from the front does.
-/

namespace LinearProbing

namespace Canonical

open Std

variable {α : Type} [Ord α]

theorem searchFrom_eq {elems : Array α} {x y : α} {low high : Nat} (hlt : low < high)
    (hget : elems[(low + high) / 2]? = some y) :
    searchFrom elems x low high =
      match compare y x with
      | .eq => some ((low + high) / 2)
      | .lt => searchFrom elems x ((low + high) / 2 + 1) high
      | .gt => searchFrom elems x low ((low + high) / 2) := by
  rw [searchFrom, if_pos hlt]
  cases horder : compare y x <;> simp only [hget, horder]

theorem searchFrom_sound {elems : Array α} {x : α} {low high i : Nat}
    (h : searchFrom elems x low high = some i) : ∃ y, elems[i]? = some y ∧ compare y x = .eq := by
  induction low, high using searchFrom.induct elems x with
  | case1 low high hlt middle hnone =>
    have hout : elems[(low + high) / 2]? = none := hnone
    rw [searchFrom, if_pos hlt] at h
    simp only [hout] at h
    cases h
  | case2 low high hlt middle y hget heq =>
    rw [searchFrom_eq hlt hget, heq] at h
    cases h
    exact ⟨y, hget, heq⟩
  | case3 low high hlt middle y hget hless ih =>
    rw [searchFrom_eq hlt hget, hless] at h
    exact ih h
  | case4 low high hlt middle y hget hgreater ih =>
    rw [searchFrom_eq hlt hget, hgreater] at h
    exact ih h
  | case5 low high hge =>
    rw [searchFrom, if_neg hge] at h
    cases h

variable [TransOrd α]

theorem Ascending.compare_eq {elems : Array α} (h : Ascending elems.toList) {i j : Nat} {x y : α}
    (hi : elems[i]? = some x) (hj : elems[j]? = some y) : compare x y = compare i j := by
  obtain ⟨hisize, rfl⟩ := Array.getElem?_eq_some_iff.1 hi
  obtain ⟨hjsize, rfl⟩ := Array.getElem?_eq_some_iff.1 hj
  have hlt := List.pairwise_iff_getElem.1 h
  rcases Nat.lt_trichotomy i j with hij | rfl | hji
  · rw [Nat.compare_eq_lt.2 hij]
    exact hlt i j hisize hjsize hij
  · rw [Nat.compare_eq_eq.2 rfl, ReflOrd.compare_self]
  · rw [Nat.compare_eq_gt.2 hji]
    exact OrientedCmp.gt_of_lt (hlt j i hjsize hisize hji)

/-- In a strictly ascending array the search comes to the one place of an equal element. -/
theorem searchFrom_complete {elems : Array α} (h : Ascending elems.toList) {x y : α} {low high k : Nat}
    (hget : elems[k]? = some y) (heq : compare y x = .eq) (hlow : low ≤ k) (hk : k < high)
    (hhigh : high ≤ elems.size) : searchFrom elems x low high = some k := by
  have hplace : ∀ {i z}, elems[i]? = some z → compare z x = compare i k := by
    intro i z hz
    rw [← TransCmp.congr_right heq]
    exact h.compare_eq hz hget
  induction low, high using searchFrom.induct elems x with
  | case1 low high hlt middle hnone =>
    rw [Array.getElem?_eq_none_iff] at hnone
    omega
  | case2 low high hlt middle z hmiddle hsame =>
    rw [searchFrom_eq hlt hmiddle, hsame]
    rw [hplace hmiddle, Nat.compare_eq_eq] at hsame
    exact congrArg some hsame
  | case3 low high hlt middle z hmiddle hless ih =>
    rw [searchFrom_eq hlt hmiddle, hless]
    rw [hplace hmiddle, Nat.compare_eq_lt] at hless
    exact ih hless hk hhigh
  | case4 low high hlt middle z hmiddle hgreater ih =>
    rw [searchFrom_eq hlt hmiddle, hgreater]
    rw [hplace hmiddle, Nat.compare_eq_gt] at hgreater
    exact ih hlow hgreater (by omega)
  | case5 low high hge => omega

end Canonical

open Canonical

namespace PooledSet

variable {α : Type} [Ord α] {s : PooledSet α}

theorem isSome_find (s : PooledSet α) (x : α) : (s.find x).isSome = s.contains x := by
  rw [find, contains]
  cases hsearch : searchFrom s.elems x 0 s.elems.size with
  | none => rfl
  | some i =>
    obtain ⟨y, hget, -⟩ := searchFrom_sound hsearch
    rw [Option.bind_some, hget]
    rfl

variable [BEq α] [Std.TransOrd α] [Std.LawfulBEqOrd α]

theorem find_eq_some_iff (h : Ascending s.toList) {x y : α} :
    s.find x = some y ↔ y ∈ s.toList ∧ (y == x) = true := by
  rw [find, Option.bind_eq_some_iff, beq_iff]
  constructor
  · rintro ⟨i, hsearch, hget⟩
    obtain ⟨z, hz, heq⟩ := searchFrom_sound hsearch
    cases hget.symm.trans hz
    exact ⟨Array.mem_toList_iff.2 (Array.mem_of_getElem? hget), heq⟩
  · rintro ⟨hmem, heq⟩
    obtain ⟨k, hk, hget⟩ := Array.getElem_of_mem (Array.mem_toList_iff.1 hmem)
    have hget? : s.elems[k]? = some y := Array.getElem?_eq_some_iff.2 ⟨hk, hget⟩
    exact ⟨k, searchFrom_complete h hget? heq (Nat.zero_le k) hk (Nat.le_refl _), hget?⟩

/-- Halving the places finds what looking at each of them in turn finds. -/
theorem find_eq_find? (h : Ascending s.toList) (x : α) :
    s.find x = s.toList.find? (compare · x == .eq) := by
  cases hfind : s.toList.find? (compare · x == .eq) with
  | none =>
    rw [List.find?_eq_none] at hfind
    rw [Option.eq_none_iff_forall_ne_some]
    intro y hy
    obtain ⟨hmem, heq⟩ := (find_eq_some_iff h).1 hy
    exact hfind y hmem (beq_iff_eq.2 (beq_iff.1 heq))
  | some y =>
    have heq : compare y x = .eq := by simpa using List.find?_some hfind
    exact (find_eq_some_iff h).2 ⟨List.mem_of_find?_eq_some hfind, beq_iff.2 heq⟩

theorem contains_eq (h : Ascending s.toList) (x : α) : s.contains x = s.toList.contains x := by
  rw [← isSome_find, Bool.eq_iff_iff, Option.isSome_iff_exists, List.contains_iff_exists_mem_beq]
  constructor
  · rintro ⟨y, hfind⟩
    obtain ⟨hmem, heq⟩ := (find_eq_some_iff h).1 hfind
    exact ⟨y, hmem, BEq.symm heq⟩
  · rintro ⟨y, hmem, heq⟩
    exact ⟨y, (find_eq_some_iff h).2 ⟨hmem, BEq.symm heq⟩⟩

end PooledSet

end LinearProbing
