import LinearProbing.SetPool.Slots

set_option autoImplicit false

/-!
# Arenas

An arena hands out handles for the values put into it, numbered in the order in which they were put in.
Values are never taken out one by one. Clearing retires every handle handed out so far, and the numbers
go on from there, so a retired handle never comes back to life.
-/

namespace LinearProbing

structure Handle where
  serial : Nat
  deriving DecidableEq, Repr

/-- The values put in since the last clearing, and the number of values before them. -/
structure Arena (α : Type) where
  retired : Nat
  live : Array α

namespace Arena

variable {α : Type}

def empty : Arena α := ⟨0, #[]⟩

def len (a : Arena α) : Nat := a.live.size

/-- The value of a handle, unless the handle is retired or was never handed out. -/
def get? (a : Arena α) (h : Handle) : Option α :=
  if a.retired ≤ h.serial then a.live[h.serial - a.retired]? else none

def nextHandle (a : Arena α) : Handle := ⟨a.retired + a.live.size⟩

/-- Puts a value in, under the next handle. -/
def add (a : Arena α) (value : α) : Arena α := ⟨a.retired, a.live.push value⟩

def clear (a : Arena α) : Arena α := ⟨a.retired + a.live.size, #[]⟩

def toList (a : Arena α) : List (Handle × α) :=
  a.live.toList.mapIdx fun i value => (⟨a.retired + i⟩, value)

def maxLen : Nat := UInt32.size - 2

instance slots : Slots (Arena α) Handle α where
  empty := empty
  len := len
  get? := get?
  add a value := if a.len < maxLen then some (a.nextHandle, a.add value) else none
  clear := clear
  toList := toList

theorem get?_add (a : Arena α) (value : α) (h : Handle) :
    (a.add value).get? h = if h = a.nextHandle then some value else a.get? h := by
  rcases h with ⟨serial⟩
  simp only [get?, add, nextHandle, Handle.mk.injEq, Array.getElem?_push]
  by_cases hr : a.retired ≤ serial
  · have heq : serial - a.retired = a.live.size ↔ serial = a.retired + a.live.size := by omega
    simp [hr, heq]
  · have hne : serial ≠ a.retired + a.live.size := by omega
    simp [hr, hne]

@[simp] theorem get?_nextHandle (a : Arena α) : a.get? a.nextHandle = none := by
  simp [get?, nextHandle]

@[simp] theorem get?_clear (a : Arena α) (h : Handle) : a.clear.get? h = none := by
  simp [get?, clear]

@[simp] theorem len_add (a : Arena α) (value : α) : (a.add value).len = a.len + 1 := by
  simp [len, add]

@[simp] theorem len_clear (a : Arena α) : a.clear.len = 0 := rfl

end Arena

end LinearProbing
