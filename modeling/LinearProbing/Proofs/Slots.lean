import LinearProbing.SetPool.Arena

set_option autoImplicit false

/-!
# What an arena promises

A new handle is one that is not in use, a value stays under its handle until the arena is cleared, and
an arena takes in values until it is full.
-/

namespace LinearProbing

/-- The promises of an arena on which a pool relies. -/
class LawfulSlots (A : Type) {H α : Type} [Slots A H α] : Prop where
  get?_empty : ∀ h : H, Slots.get? (Slots.empty : A) h = none
  len_empty : Slots.len (Slots.empty : A) = 0
  /-- A new handle is not in use. -/
  get?_fresh : ∀ {a a' : A} {value : α} {h : H},
    Slots.add a value = some (h, a') → Slots.get? a h = none
  get?_add_self : ∀ {a a' : A} {value : α} {h : H},
    Slots.add a value = some (h, a') → Slots.get? a' h = some value
  /-- Handles that are in use are left alone. -/
  get?_add_of_ne : ∀ {a a' : A} {value : α} {h h' : H},
    Slots.add a value = some (h, a') → h' ≠ h → Slots.get? a' h' = Slots.get? a h'
  len_add : ∀ {a a' : A} {value : α} {h : H},
    Slots.add a value = some (h, a') → Slots.len a' = Slots.len a + 1
  /-- Only a full arena takes no further value. -/
  add_eq_none_iff : ∀ {a : A} {value : α}, Slots.add a value = none ↔ Arena.maxLen ≤ Slots.len a
  get?_clear : ∀ (a : A) (h : H), Slots.get? (Slots.clear a) h = none
  len_clear : ∀ a : A, Slots.len (Slots.clear a) = 0

namespace Arena

variable {α : Type}

theorem slots_add_eq_some_iff {a a' : Arena α} {value : α} {h : Handle} :
    Slots.add a value = some (h, a') ↔ a.len < maxLen ∧ h = a.nextHandle ∧ a' = a.add value := by
  change (if a.len < maxLen then some (a.nextHandle, a.add value) else none) = some (h, a') ↔ _
  split
  · rename_i hlt
    rw [Option.some.injEq, Prod.mk.injEq]
    constructor
    · rintro ⟨rfl, rfl⟩
      exact ⟨hlt, rfl, rfl⟩
    · rintro ⟨-, rfl, rfl⟩
      exact ⟨rfl, rfl⟩
  · rename_i hlt
    constructor
    · intro h
      cases h
    · rintro ⟨h, -⟩
      exact absurd h hlt

instance lawfulSlots : LawfulSlots (Arena α) where
  get?_empty _ := by simp [Slots.get?, Slots.empty, get?, empty]
  len_empty := rfl
  get?_fresh h := by
    obtain ⟨-, rfl, rfl⟩ := slots_add_eq_some_iff.1 h
    exact get?_nextHandle _
  get?_add_self h := by
    obtain ⟨-, rfl, rfl⟩ := slots_add_eq_some_iff.1 h
    exact (get?_add ..).trans (if_pos rfl)
  get?_add_of_ne h hne := by
    obtain ⟨-, rfl, rfl⟩ := slots_add_eq_some_iff.1 h
    exact (get?_add ..).trans (if_neg hne)
  len_add h := by
    obtain ⟨-, rfl, rfl⟩ := slots_add_eq_some_iff.1 h
    exact len_add ..
  add_eq_none_iff {a value} := by
    rw [Option.eq_none_iff_forall_ne_some]
    constructor
    · intro h
      apply Nat.le_of_not_lt
      intro hlt
      exact h (a.nextHandle, a.add value) (slots_add_eq_some_iff.2 ⟨hlt, rfl, rfl⟩)
    · rintro hle ⟨h, a'⟩ hadd
      exact absurd (slots_add_eq_some_iff.1 hadd).1 (Nat.not_lt_of_le hle)
  get?_clear := get?_clear
  len_clear := len_clear

end Arena

end LinearProbing
