import LinearProbing.Store.Basic
import LinearProbing.Table.Cursor

set_option autoImplicit false

/-!
# Walking through a store

A cursor of a store counts down from the number of entries as it passes them, so it knows how many are
to come. A reviser does the same and may replace the value of each entry it passes.
-/

namespace LinearProbing.Store

variable {K V α : Type}

structure Cursor (K V : Type) where
  inner : Table.Cursor K V
  remaining : Nat

def cursor (s : Store K V) : Cursor K V := ⟨s.table.cursor, s.len⟩

namespace Cursor

def next : Cursor K V → Outcome (Cursor K V) (Option (K × V))
  | ⟨inner, remaining⟩ =>
    match inner.next with
    | (none, inner) => .ok none ⟨inner, remaining⟩
    | (some item, inner) =>
      match Size.sub remaining 1 with
      | .error fault => .fail fault ⟨inner, remaining⟩
      | .ok remaining => .ok (some item) ⟨inner, remaining⟩

def take : Nat → Cursor K V → Outcome (Cursor K V) (List (Option (K × V)))
  | 0, c => .ok [] c
  | n + 1, c => c.next.bind fun item c => (take n c).map (item :: ·)

/-- Bounds on the number of entries to come, which are exact. -/
def bounds (c : Cursor K V) : Nat × Nat := (c.remaining, c.remaining)

def rest (c : Cursor K V) : List (K × V) := c.inner.rest

end Cursor

/-- A place in a store whose values are being replaced, and the number of entries after it. -/
structure Reviser (K V : Type) where
  inner : Table.Reviser K V
  remaining : Nat

def reviser (s : Store K V) : Reviser K V := ⟨s.table.reviser, s.len⟩

namespace Reviser

/-- Passes the next entry, gives its key and value to `f`, stores the value that `f` returns, and
answers what else `f` returns. -/
def next (f : K → V → α × V) : Reviser K V → Outcome (Reviser K V) (Option α)
  | ⟨inner, remaining⟩ =>
    match inner.next f with
    | (none, inner) => .ok none ⟨inner, remaining⟩
    | (some answer, inner) =>
      match Size.sub remaining 1 with
      | .error fault => .fail fault ⟨inner, remaining⟩
      | .ok remaining => .ok (some answer) ⟨inner, remaining⟩

def bounds (r : Reviser K V) : Nat × Nat := (r.remaining, r.remaining)

def takeWith : List (K → V → α × V) → Reviser K V → Outcome (Reviser K V) (List (Option α))
  | [], r => .ok [] r
  | f :: fs, r => (r.next f).bind fun answer r => (takeWith fs r).map (answer :: ·)

end Reviser

/-- Walks through a store and passes one entry with each writer in turn. -/
def rewrite (fs : List (K → V → α × V)) : Store K V → Outcome (Store K V) (List (Option α))
  | ⟨table, len, busy⟩ =>
    ((Reviser.mk table.reviser len).takeWith fs).within fun r => ⟨r.inner.finish, len, busy⟩

end LinearProbing.Store
