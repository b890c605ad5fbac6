import LinearProbing.Table.Grow
import LinearProbing.Table.Remove
import Mathlib.Data.List.Basic

set_option autoImplicit false

/-!
# Contents of buckets

A table is known by what its buckets hold. Every change of a table puts a new content into one bucket
at a time, so one law says what a change does to the buckets and one what it does to the entries.
-/

namespace LinearProbing.Table

variable {K V α : Type}

def put (t : Table K V) (i : Nat) (content : Option (Entry K V)) : Table K V :=
  ⟨t.slots.setIfInBounds i content⟩

@[simp] theorem capacity_put (t : Table K V) (i : Nat) (content : Option (Entry K V)) :
    (t.put i content).capacity = t.capacity := by
  simp [put, capacity]

@[simp] theorem home_put (t : Table K V) (i : Nat) (content : Option (Entry K V)) (hash : UInt32) :
    (t.put i content).home hash = t.home hash := by
  simp [home]

theorem peek_put {t : Table K V} {i : Nat} (hi : i < t.capacity) (content : Option (Entry K V))
    (j : Nat) : (t.put i content).peek j = if j = i then content else t.peek j := by
  simp only [put, peek, Array.getElem?_setIfInBounds]
  by_cases hj : j = i
  · subst hj
    simp [show j < t.slots.size from hi]
  · simp [hj, Ne.symm hj]

theorem peek_put_self {t : Table K V} {i : Nat} (hi : i < t.capacity)
    (content : Option (Entry K V)) : (t.put i content).peek i = content := by
  rw [peek_put hi, if_pos rfl]

theorem peek_put_of_ne {t : Table K V} {i j : Nat} (hi : i < t.capacity)
    (content : Option (Entry K V)) (hne : j ≠ i) : (t.put i content).peek j = t.peek j := by
  rw [peek_put hi, if_neg hne]

theorem ne_of_peek {t : Table K V} {i j : Nat} {e : Entry K V} (he : t.peek i = some e)
    (hempty : t.peek j = none) : i ≠ j := by
  rintro rfl
  rw [he] at hempty
  cases hempty

theorem bucket_eq {t : Table K V} {i : Nat} (hi : i < t.capacity) : t.bucket i = .ok (t.peek i) := by
  have hsize : i < t.slots.size := hi
  rw [bucket, peek, Array.getElem?_eq_getElem hsize]
  rfl

theorem bucket_of_peek {t : Table K V} {i : Nat} {e : Entry K V} (he : t.peek i = some e) :
    t.bucket i = .ok (some e) := by
  rw [bucket_eq (lt_capacity_of_peek he), he]

theorem peek_of_bucket {t : Table K V} {i : Nat} {slot : Option (Entry K V)}
    (h : t.bucket i = .ok slot) : t.peek i = slot := by
  rw [bucket] at h
  rw [peek]
  cases hslot : t.slots[i]? with
  | none =>
    rw [hslot] at h
    cases h
  | some slot' =>
    rw [hslot] at h
    cases h
    rfl

theorem isOccupied_eq {t : Table K V} {i : Nat} (hi : i < t.capacity) :
    t.isOccupied i = .ok (t.peek i).isSome := by
  rw [isOccupied, bucket_eq hi]
  rfl

theorem home?_eq {t : Table K V} (h : 0 < t.capacity) (hash : UInt32) :
    t.home? hash = .ok (t.home hash) := Capacity.reduce_eq_ok h _

theorem lt_capacity_of_isSome {t : Table K V} {i : Nat} (h : (t.peek i).isSome) : i < t.capacity := by
  obtain ⟨e, he⟩ := Option.isSome_iff_exists.1 h
  exact lt_capacity_of_peek he

theorem ext_peek {t u : Table K V} (hcap : t.capacity = u.capacity) (h : ∀ i, t.peek i = u.peek i) :
    t = u := by
  rcases t with ⟨slots⟩
  rcases u with ⟨slots'⟩
  have hslots : slots = slots' := by
    apply Array.ext hcap
    intro i hi hi'
    have := h i
    simpa [peek, Array.getElem?_eq_getElem hi, Array.getElem?_eq_getElem hi'] using this
  rw [hslots]

theorem put_put_peek {t : Table K V} {i : Nat} (hi : i < t.capacity) (content : Option (Entry K V)) :
    (t.put i content).put i (t.peek i) = t := by
  apply ext_peek (by simp)
  intro j
  rw [peek_put (by simpa using hi), peek_put hi]
  split
  · rename_i hj
    rw [hj]
  · rfl

theorem mem_entries {t : Table K V} {e : Entry K V} : e ∈ t.entries ↔ ∃ i, t.peek i = some e := by
  simp only [entries, List.mem_filterMap, id_eq, exists_eq_right, Array.mem_toList_iff]
  rw [Array.mem_iff_getElem?]
  simp only [peek, Option.join_eq_some_iff]

theorem length_entries (t : Table K V) : t.entries.length = t.occupied := by
  rw [entries, List.length_filterMap_eq_countP, occupied, ← Array.countP_toList]
  rfl

theorem occupied_le (t : Table K V) : t.occupied ≤ t.capacity := Array.countP_le_size

theorem exists_vacant {t : Table K V} (h : t.occupied < t.capacity) :
    ∃ i < t.capacity, t.peek i = none := by
  by_contra hnone
  have hfull : t.occupied = t.capacity := by
    rw [occupied, capacity, Array.countP_eq_size]
    intro slot hslot
    obtain ⟨i, hi⟩ := Array.mem_iff_getElem?.1 hslot
    have hlt : i < t.capacity := (Array.getElem?_eq_some_iff.1 hi).1
    cases slot with
    | some e => rfl
    | none => exact absurd ⟨i, hlt, by simp [peek, hi]⟩ hnone
  omega

private theorem filterMap_set_append {l : List (Option (Entry K V))} {i : Nat}
    (content : Option (Entry K V)) (hi : i < l.length) :
    ((l.set i content).filterMap id ++ l[i].toList).Perm (l.filterMap id ++ content.toList) := by
  induction l generalizing i with
  | nil => simp at hi
  | cons slot l ih =>
    cases i with
    | zero =>
      have hcons : ∀ o : Option (Entry K V), (o :: l).filterMap id = o.toList ++ l.filterMap id := by
        intro o
        cases o <;> rfl
      rw [List.set_cons_zero, hcons, hcons, List.getElem_cons_zero]
      calc (content.toList ++ l.filterMap id ++ slot.toList).Perm
            (slot.toList ++ (content.toList ++ l.filterMap id)) := List.perm_append_comm
        _ = slot.toList ++ content.toList ++ l.filterMap id := (List.append_assoc ..).symm
        _ |>.Perm (slot.toList ++ l.filterMap id ++ content.toList) := by
          rw [List.append_assoc, List.append_assoc]
          exact List.perm_append_comm.append_left _
    | succ i =>
      have ih := ih (i := i) (by simpa using hi)
      cases slot with
      | none => simpa using ih
      | some e => simpa using ih

theorem entries_put {t : Table K V} {i : Nat} (hi : i < t.capacity) (content : Option (Entry K V)) :
    ((t.put i content).entries ++ (t.peek i).toList).Perm (t.entries ++ content.toList) := by
  have hi' : i < t.slots.toList.length := by simpa [capacity] using hi
  have hpeek : t.peek i = t.slots.toList[i] := by
    simp [peek, Array.getElem?_eq_getElem (show i < t.slots.size from hi)]
  rw [hpeek]
  simpa [entries, put] using filterMap_set_append content hi'

theorem entries_fill {t : Table K V} {i : Nat} {e : Entry K V} (hi : i < t.capacity)
    (hempty : t.peek i = none) : (t.put i (some e)).entries.Perm (e :: t.entries) := by
  have h := entries_put hi (some e)
  rw [hempty] at h
  simpa using h.trans List.perm_append_comm

theorem entries_empty {t : Table K V} {i : Nat} {e : Entry K V} (he : t.peek i = some e) :
    t.entries.Perm (e :: (t.put i none).entries) := by
  have h := entries_put (lt_capacity_of_peek he) none
  rw [he] at h
  simpa using (List.perm_append_comm.trans h).symm

end LinearProbing.Table
