import LinearProbing.Outcome
import LinearProbing.Size

set_option autoImplicit false

/-!
# Canonical lists

The canonical list of some elements is strictly ascending. It is made by sorting and dropping repeats,
or from two canonical lists by merging them. An array of elements can be put into canonical form in
place, with the repeats behind the canonical part.
-/

namespace LinearProbing

namespace Canonical

variable {α : Type}

def le [Ord α] (x y : α) : Bool := (compare x y).isLE

/-- Whether each element is less than the next one. -/
def isCanonical [Ord α] : List α → Bool
  | [] => true
  | [_] => true
  | x :: y :: rest => compare x y == .lt && isCanonical (y :: rest)

def sort [Ord α] (elems : List α) : List α := elems.mergeSort le

/-- Keeps the first element of each run of equal ones. -/
def dropRepeats [BEq α] : List α → List α
  | [] => []
  | [x] => [x]
  | x :: y :: rest => if y == x then dropRepeats (x :: rest) else x :: dropRepeats (y :: rest)
termination_by elems => elems.length

def ofList [Ord α] [BEq α] (elems : List α) : List α := dropRepeats (sort elems)

/-- The union of two canonical lists. Of two equal elements the one on the left is kept. -/
def merge [Ord α] : List α → List α → List α
  | [], right => right
  | left, [] => left
  | x :: left, y :: right =>
    match compare x y with
    | .lt => x :: merge left (y :: right)
    | .gt => y :: merge (x :: left) right
    | .eq => x :: merge left right
termination_by left right => left.length + right.length

/-- The element at place `i` of a buffer, which has to have that place. -/
def elementAt (buffer : Array α) (i : Nat) : Except Fault α :=
  match buffer[i]? with
  | some x => .ok x
  | none => .error (.outOfBounds buffer.size i)

def exchange (buffer : Array α) (i j : Nat) : Except Fault (Array α) := do
  let _ ← elementAt buffer i
  let _ ← elementAt buffer j
  return buffer.swapIfInBounds i j

def front (buffer : Array α) (n : Nat) : Except Fault (List α) :=
  if n ≤ buffer.size then .ok (buffer.toList.take n) else .error (.rangeTooLong buffer.size n)

/-- Whether the element at place `i` differs from the last of the first `distinct` ones, if there are
any. -/
def isNew [BEq α] (buffer : Array α) (distinct i : Nat) : Except Fault Bool :=
  if distinct == 0 then .ok true
  else do
    let x ← elementAt buffer i
    let last ← elementAt buffer (← Size.sub distinct 1)
    return x != last

/-- Goes through the last `left` places of an ascending buffer, from place `i` on, and moves each element
that differs from the last distinct one to the end of the distinct ones, of which there are `distinct`
so far. -/
def compactFrom [BEq α] : (left : Nat) → (buffer : Array α) → (distinct i : Nat) →
    Outcome (Array α) Nat
  | 0, buffer, distinct, _ => .ok distinct buffer
  | left + 1, buffer, distinct, i =>
    match isNew buffer distinct i with
    | .error fault => .fail fault buffer
    | .ok false => compactFrom left buffer distinct (i + 1)
    | .ok true =>
      match exchange buffer distinct i with
      | .error fault => .fail fault buffer
      | .ok buffer => compactFrom left buffer (distinct + 1) (i + 1)

/-- Sorts a buffer and moves its distinct elements to the front, and answers how many there are. -/
def compact [Ord α] [BEq α] (buffer : Array α) : Outcome (Array α) Nat :=
  let sorted := (sort buffer.toList).toArray
  compactFrom sorted.size sorted 0 0

/-- The place of an element equal to `x` between the places `low` and `high` of an ascending array. -/
def searchFrom [Ord α] (elems : Array α) (x : α) (low high : Nat) : Option Nat :=
  if low < high then
    let middle := (low + high) / 2
    match elems[middle]? with
    | none => none
    | some y =>
      match compare y x with
      | .eq => some middle
      | .lt => searchFrom elems x (middle + 1) high
      | .gt => searchFrom elems x low middle
  else
    none
termination_by high - low
decreasing_by all_goals omega

end Canonical

/-- A set as it is kept in a pool: its canonical list, laid out for searching. -/
structure PooledSet (α : Type) where
  elems : Array α

namespace PooledSet

variable {α : Type}

def len (s : PooledSet α) : Nat := s.elems.size

def isEmpty (s : PooledSet α) : Bool := s.elems.isEmpty

def toList (s : PooledSet α) : List α := s.elems.toList

def find [Ord α] (s : PooledSet α) (x : α) : Option α :=
  (Canonical.searchFrom s.elems x 0 s.elems.size).bind fun i => s.elems[i]?

def contains [Ord α] (s : PooledSet α) (x : α) : Bool :=
  (Canonical.searchFrom s.elems x 0 s.elems.size).isSome

end PooledSet

end LinearProbing
