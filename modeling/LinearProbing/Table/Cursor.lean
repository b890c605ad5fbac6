import LinearProbing.Table.Basic

set_option autoImplicit false

/-!
# Walking through a table

A cursor stands before a bucket and moves on past the next entry. It is a value, so a copy of it walks
on by itself. A reviser walks in the same way and may replace the value of each entry it passes.
-/

namespace LinearProbing

variable {K V α : Type}

/-- The first occupied bucket that is not before bucket `i`, with its entry. -/
def seekEntry (slots : Array (Option (Entry K V))) (i : Nat) : Option (Nat × Entry K V) :=
  if h : i < slots.size then
    match slots[i] with
    | some e => some (i, e)
    | none => seekEntry slots (i + 1)
  else
    none
termination_by slots.size - i

theorem seekEntry_of_some {slots : Array (Option (Entry K V))} {i : Nat} {e : Entry K V}
    (hi : i < slots.size) (h : slots[i] = some e) : seekEntry slots i = some (i, e) := by
  rw [seekEntry, dif_pos hi, h]

theorem seekEntry_of_none {slots : Array (Option (Entry K V))} {i : Nat} (hi : i < slots.size)
    (h : slots[i] = none) : seekEntry slots i = seekEntry slots (i + 1) := by
  rw [seekEntry, dif_pos hi, h]

theorem seekEntry_of_le {slots : Array (Option (Entry K V))} {i : Nat} (hi : slots.size ≤ i) :
    seekEntry slots i = none := by
  rw [seekEntry, dif_neg (Nat.not_lt_of_le hi)]

namespace Table

structure Cursor (K V : Type) where
  slots : Array (Option (Entry K V))
  position : Nat

def cursor (t : Table K V) : Cursor K V := ⟨t.slots, 0⟩

namespace Cursor

/-- The next entry and the cursor past it. At the end there is no entry, and the cursor stays at the
end. -/
def next (c : Cursor K V) : Option (K × V) × Cursor K V :=
  match seekEntry c.slots c.position with
  | some (i, e) => (some e.pair, ⟨c.slots, i + 1⟩)
  | none => (none, ⟨c.slots, c.slots.size⟩)

def take : Nat → Cursor K V → List (Option (K × V)) × Cursor K V
  | 0, c => ([], c)
  | n + 1, c =>
    let (item, c) := c.next
    let (items, c) := take n c
    (item :: items, c)

/-- Bounds on the number of entries to come: none at all, and one for each bucket not visited. -/
def bounds (c : Cursor K V) : Nat × Nat := (0, c.slots.size - c.position)

def rest (c : Cursor K V) : List (K × V) :=
  (c.slots.toList.drop c.position).filterMap fun slot => slot.map Entry.pair

end Cursor

structure Reviser (K V : Type) where
  slots : Array (Option (Entry K V))
  position : Nat

def reviser (t : Table K V) : Reviser K V := ⟨t.slots, 0⟩

namespace Reviser

/-- Passes the next entry, gives its key and value to `f`, stores the value that `f` returns, and
answers what else `f` returns. -/
def next (r : Reviser K V) (f : K → V → α × V) : Option α × Reviser K V :=
  match seekEntry r.slots r.position with
  | some (i, ⟨hash, key, value⟩) =>
    let (answer, value) := f key value
    (some answer, ⟨r.slots.setIfInBounds i (some ⟨hash, key, value⟩), i + 1⟩)
  | none => (none, ⟨r.slots, r.slots.size⟩)

def bounds (r : Reviser K V) : Nat × Nat := (0, r.slots.size - r.position)

def takeWith : List (K → V → α × V) → Reviser K V → List (Option α) × Reviser K V
  | [], r => ([], r)
  | f :: fs, r =>
    let (answer, r) := r.next f
    let (answers, r) := takeWith fs r
    (answer :: answers, r)

def finish (r : Reviser K V) : Table K V := ⟨r.slots⟩

end Reviser

end Table

end LinearProbing
