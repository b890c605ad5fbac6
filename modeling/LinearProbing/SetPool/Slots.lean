set_option autoImplicit false

/-!
# Slots

What a pool needs of the arena that holds its values: an arena gives every value that is put in a
handle of its own, as long as it takes values at all, and values are taken out all at once.
-/

namespace LinearProbing

/-- Arenas `A` that hold values `α` under handles `H`. -/
class Slots (A : Type) (H α : outParam Type) where
  empty : A
  len : A → Nat
  /-- The value of a handle, unless the handle is retired or was never handed out. -/
  get? : A → H → Option α
  /-- Puts a value in, and answers its handle, unless the arena is full. -/
  add : A → α → Option (H × A)
  /-- Lets go of all values and retires their handles. -/
  clear : A → A
  toList : A → List (H × α)

end LinearProbing
