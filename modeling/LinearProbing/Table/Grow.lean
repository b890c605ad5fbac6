import LinearProbing.Table.Probe

set_option autoImplicit false

/-!
# Moving to another capacity

A table moves to another capacity by placing its entries, in bucket order and under their stored
hashes, into an empty table. No predicate is asked, because the keys are known to differ.
-/

namespace LinearProbing.Table

variable {K V : Type}

def firstVacant (t : Table K V) : (steps i : Nat) → Option Nat
  | 0, _ => none
  | steps + 1, i =>
    match t.peek i with
    | none => some i
    | some _ => t.firstVacant steps (t.next i)

/-- Puts an entry into the first empty bucket on the probe path of its stored hash. -/
def place (t : Table K V) (e : Entry K V) : Outcome (Table K V) Unit :=
  match t.firstVacant t.capacity (t.home e.hash) with
  | some i => t.write i e
  | none => .fail .endless t

/-- Moves all entries into an empty table with room for `n` buckets, rounded up to a capacity. If
they do not fit, nothing is moved. -/
def rehash (t : Table K V) (n : Nat) : Outcome (Table K V) Unit :=
  if t.occupied ≤ Capacity.roundUp n then
    Outcome.fold (fun _ e t => t.place e) t.entries () (withCapacity (Capacity.roundUp n))
  else
    .fail .targetTooSmall t

/-- Moves all entries to the next larger capacity, and reports the move before it is made. -/
def grow (t : Table K V) : Outcome (Table K V) Unit :=
  match Capacity.next t.capacity with
  | .error fault => .fail fault t
  | .ok n => (t.rehash n).after (.grow t.capacity n)

end LinearProbing.Table
