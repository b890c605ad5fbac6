import LinearProbing.KeySet
import LinearProbing.Proofs.Occupancy

set_option autoImplicit false

/-!
# Walks are exact

A cursor passes the occupied buckets in ascending order, each one once. What is still to come is always
the tail of one list, so a count that starts at the number of entries and goes down by one with each of
them tells at every moment how many are left.
-/

namespace LinearProbing

variable {K V β : Type}

/-- What a walk through a list answers when it is asked `n` times: the first elements, and then nothing. -/
def walked (l : List β) (n : Nat) : List (Option β) := (List.range n).map fun k => l[k]?

theorem walked_succ (l : List β) (n : Nat) : walked l (n + 1) = l.head? :: walked l.tail n := by
  simp [walked, List.range_succ_eq_map, Function.comp_def, List.head?_eq_getElem?]

theorem map_walked {γ : Type} (f : β → γ) (l : List β) (n : Nat) :
    (walked l n).map (Option.map f) = walked (l.map f) n := by
  simp [walked, Function.comp_def]

namespace Table

/-- The occupied buckets in ascending order, each with its entry. -/
def filled (t : Table K V) : List (Nat × Entry K V) :=
  (List.range t.capacity).filterMap fun i => (t.peek i).map fun e => (i, e)

def filledFrom (t : Table K V) (i : Nat) : List (Nat × Entry K V) :=
  (List.range' i (t.capacity - i)).filterMap fun j => (t.peek j).map fun e => (j, e)

theorem filledFrom_zero (t : Table K V) : t.filledFrom 0 = t.filled := by
  rw [filledFrom, filled, List.range_eq_range', Nat.sub_zero]

theorem mem_filled {t : Table K V} {i : Nat} {e : Entry K V} :
    (i, e) ∈ t.filled ↔ t.peek i = some e := by
  simp only [filled, List.mem_filterMap, List.mem_range, Option.map_eq_some_iff, Prod.mk.injEq]
  constructor
  · rintro ⟨_, -, _, he, rfl, rfl⟩
    exact he
  · exact fun he => ⟨i, lt_capacity_of_peek he, e, he, rfl, rfl⟩

theorem filled_pairwise (t : Table K V) : t.filled.Pairwise fun x y => x.1 < y.1 := by
  rw [filled, List.pairwise_filterMap]
  refine List.pairwise_lt_range.imp ?_
  intro i j hlt x hx y hy
  obtain ⟨a, -, rfl⟩ := Option.map_eq_some_iff.1 hx
  obtain ⟨b, -, rfl⟩ := Option.map_eq_some_iff.1 hy
  exact hlt

theorem map_snd_filled (t : Table K V) : t.filled.map Prod.snd = t.entries := by
  rw [entries_eq_filterMap, filled, List.map_filterMap]
  congr 1
  funext i
  cases t.peek i <;> rfl

theorem length_filled (t : Table K V) : t.filled.length = t.occupied := by
  rw [← length_entries, ← map_snd_filled, List.length_map]

theorem length_filledFrom_le (t : Table K V) (i : Nat) : (t.filledFrom i).length ≤ t.capacity - i := by
  have hle := List.length_filterMap_le (fun j => (t.peek j).map fun e => (j, e))
    (List.range' i (t.capacity - i))
  rwa [List.length_range'] at hle

theorem filledFrom_of_le {t : Table K V} {i : Nat} (hi : t.capacity ≤ i) : t.filledFrom i = [] := by
  rw [filledFrom, Nat.sub_eq_zero_of_le hi]
  rfl

theorem filledFrom_eq {t : Table K V} {i : Nat} (hi : i < t.capacity) :
    t.filledFrom i = ((t.peek i).map fun e => (i, e)).toList ++ t.filledFrom (i + 1) := by
  have hsub : t.capacity - i = t.capacity - (i + 1) + 1 := by omega
  rw [filledFrom, filledFrom, hsub, List.range'_succ, List.filterMap_cons]
  cases t.peek i <;> rfl

theorem seekEntry_cases (t : Table K V) (i : Nat) :
    (seekEntry t.slots i = none ∧ t.filledFrom i = []) ∨
      ∃ j e, seekEntry t.slots i = some (j, e) ∧ i ≤ j ∧ t.peek j = some e ∧
        t.filledFrom i = (j, e) :: t.filledFrom (j + 1) := by
  induction i using seekEntry.induct t.slots with
  | case1 i hi e hslot =>
    have hpeek : t.peek i = some e := by simp [peek, Array.getElem?_eq_getElem hi, hslot]
    refine .inr ⟨i, e, seekEntry_of_some hi hslot, Nat.le_refl i, hpeek, ?_⟩
    rw [filledFrom_eq hi, hpeek]
    rfl
  | case2 i hi hslot ih =>
    have hpeek : t.peek i = none := by simp [peek, Array.getElem?_eq_getElem hi, hslot]
    rw [seekEntry_of_none hi hslot, filledFrom_eq hi, hpeek]
    rcases ih with hnone | ⟨j, e, hseek, hle, hsome⟩
    · exact .inl hnone
    · exact .inr ⟨j, e, hseek, by omega, hsome⟩
  | case3 i hi =>
    have hle : t.capacity ≤ i := Nat.le_of_not_lt hi
    exact .inl ⟨seekEntry_of_le hle, filledFrom_of_le hle⟩

theorem drop_slots (t : Table K V) (i : Nat) :
    t.slots.toList.drop i = (List.range' i (t.capacity - i)).map t.peek := by
  apply List.ext_getElem
  · simp [capacity]
  · intro k hk hk'
    have hsize : i + k < t.slots.size := by
      rw [List.length_drop, Array.length_toList] at hk
      omega
    simp [peek, Array.getElem?_eq_getElem hsize]

namespace Cursor

def upcoming (c : Cursor K V) : List (Nat × Entry K V) := (⟨c.slots⟩ : Table K V).filledFrom c.position

/-- How many buckets have been visited after `n` more questions: those up to the last entry that came, or
all of them if none was left to come. -/
def visited (c : Cursor K V) : Nat → Nat
  | 0 => c.position
  | n + 1 =>
    match c.upcoming[n]? with
    | some x => x.1 + 1
    | none => c.slots.size

theorem upcoming_cursor (t : Table K V) : t.cursor.upcoming = t.filled := t.filledFrom_zero

theorem length_upcoming_le (c : Cursor K V) : c.upcoming.length ≤ c.bounds.2 :=
  length_filledFrom_le ⟨c.slots⟩ c.position

theorem next_cases (c : Cursor K V) :
    (c.upcoming = [] ∧ c.next = (none, ⟨c.slots, c.slots.size⟩)) ∨
      ∃ i e, c.upcoming = (i, e) :: (⟨c.slots⟩ : Table K V).filledFrom (i + 1) ∧
        c.next = (some e.pair, ⟨c.slots, i + 1⟩) := by
  rcases seekEntry_cases ⟨c.slots⟩ c.position with ⟨hseek, hnone⟩ | ⟨i, e, hseek, -, -, hsome⟩
  · refine .inl ⟨hnone, ?_⟩
    rw [next, hseek]
  · refine .inr ⟨i, e, hsome, ?_⟩
    rw [next, hseek]

theorem next_answer (c : Cursor K V) : c.next.1 = c.upcoming.head?.map fun x => x.2.pair := by
  rcases c.next_cases with ⟨hnone, hnext⟩ | ⟨i, e, hsome, hnext⟩
  · rw [hnone, hnext]
    rfl
  · rw [hsome, hnext]
    rfl

theorem slots_next (c : Cursor K V) : c.next.2.slots = c.slots := by
  rcases c.next_cases with ⟨-, hnext⟩ | ⟨i, e, -, hnext⟩ <;> rw [hnext]

theorem upcoming_next (c : Cursor K V) : c.next.2.upcoming = c.upcoming.tail := by
  rcases c.next_cases with ⟨hnone, hnext⟩ | ⟨i, e, hsome, hnext⟩
  · rw [hnone, hnext]
    exact filledFrom_of_le (Nat.le_refl _)
  · rw [hsome, hnext]
    rfl

theorem position_next (c : Cursor K V) : c.next.2.position = c.visited 1 := by
  rcases c.next_cases with ⟨hnone, hnext⟩ | ⟨i, e, hsome, hnext⟩
  · rw [visited, hnone, hnext]
    rfl
  · rw [visited, hsome, hnext]
    rfl

theorem visited_succ {c c' : Cursor K V} (hpos : c'.position = c.visited 1)
    (hahead : c'.upcoming = c.upcoming.tail) (hsize : c'.slots.size = c.slots.size) (n : Nat) :
    c'.visited n = c.visited (n + 1) := by
  cases n with
  | zero => exact hpos
  | succ n => rw [visited, visited, hahead, hsize, List.getElem?_tail]

theorem take_answers (n : Nat) (c : Cursor K V) :
    (take n c).1 = walked (c.upcoming.map fun x => x.2.pair) n := by
  induction n generalizing c with
  | zero => rfl
  | succ n ih =>
    change c.next.1 :: (take n c.next.2).1 = _
    rw [ih, next_answer, upcoming_next, walked_succ, List.head?_map, List.map_tail]

theorem slots_take (n : Nat) (c : Cursor K V) : (take n c).2.slots = c.slots := by
  induction n generalizing c with
  | zero => rfl
  | succ n ih => exact (ih c.next.2).trans c.slots_next

theorem upcoming_take (n : Nat) (c : Cursor K V) : (take n c).2.upcoming = c.upcoming.drop n := by
  induction n generalizing c with
  | zero => rfl
  | succ n ih =>
    change (take n c.next.2).2.upcoming = _
    rw [ih, upcoming_next, List.drop_tail]

theorem position_take (n : Nat) (c : Cursor K V) : (take n c).2.position = c.visited n := by
  induction n generalizing c with
  | zero => rfl
  | succ n ih =>
    have hsize : c.next.2.slots.size = c.slots.size := congrArg Array.size c.slots_next
    exact (ih c.next.2).trans (visited_succ c.position_next c.upcoming_next hsize n)

theorem bounds_take (n : Nat) (c : Cursor K V) :
    (take n c).2.bounds = (0, c.slots.size - c.visited n) := by
  rw [bounds, slots_take, position_take]

theorem rest_eq (c : Cursor K V) : c.rest = c.upcoming.map fun x => x.2.pair := by
  have hdrop := (⟨c.slots⟩ : Table K V).drop_slots c.position
  rw [rest, hdrop, List.filterMap_map, upcoming, filledFrom, List.map_filterMap]
  congr 1
  funext i
  rw [Function.comp_apply, Option.map_map]
  rfl

end Cursor

end Table

namespace Store.Cursor

/-- The count is the number of entries to come. -/
def Exact (c : Cursor K V) : Prop := c.remaining = c.inner.upcoming.length

/-- The count goes down with each entry, and never below zero. -/
theorem Exact.next {c : Cursor K V} (h : c.Exact) :
    c.next = .ok c.inner.next.1 ⟨c.inner.next.2, c.remaining - 1⟩ ∧
      (⟨c.inner.next.2, c.remaining - 1⟩ : Cursor K V).Exact := by
  rcases c with ⟨inner, remaining⟩
  have hexact : remaining = inner.upcoming.length := h
  have hless : remaining - 1 = inner.next.2.upcoming.length := by
    rw [inner.upcoming_next, List.length_tail, hexact]
  refine ⟨?_, hless⟩
  rcases inner.next_cases with ⟨hnone, hrun⟩ | ⟨i, e, hsome, hrun⟩
  · have hzero : remaining = 0 := by rw [hexact, hnone]; rfl
    rw [Cursor.next, hrun, hzero]
    rfl
  · have hsub : Size.sub remaining 1 = .ok (remaining - 1) := by
      rw [Size.sub_eq_ok_iff, hexact, hsome]
      exact ⟨Nat.succ_pos _, rfl⟩
    rw [Cursor.next, hrun]
    simp only [hsub]

theorem Exact.take {c : Cursor K V} (h : c.Exact) (n : Nat) :
    c.take n = .ok (c.inner.take n).1 ⟨(c.inner.take n).2, c.remaining - n⟩ := by
  induction n generalizing c with
  | zero => rfl
  | succ n ih =>
    obtain ⟨hrun, hexact⟩ := h.next
    rw [Cursor.take, hrun, Outcome.ok_bind, ih hexact, Nat.sub_sub, Nat.add_comm 1 n]
    rfl

end Store.Cursor

theorem KeySet.Cursor.take_eq (n : Nat) (c : KeySet.Cursor K) :
    c.take n = ((c.inner.take n).map (List.map (Option.map Prod.fst))).within mk := by
  induction n generalizing c with
  | zero => rfl
  | succ n ih =>
    rw [take, next, Store.Cursor.take]
    rcases c.inner.next with ⟨fault | item, inner, events⟩
    · rfl
    · have hrest := ih ⟨inner⟩
      simp only [Outcome.bind, Outcome.map, Outcome.within, Except.map] at hrest ⊢
      rw [hrest]
      rcases inner.take n with ⟨fault | items, inner', events'⟩ <;> rfl

end LinearProbing
