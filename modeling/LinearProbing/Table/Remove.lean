import LinearProbing.Table.Probe

set_option autoImplicit false

/-!
# Removal

Removal leaves no marker behind. It closes the gap instead: the rest of the run of occupied buckets is
scanned, and an entry that may fill the gap moves there and leaves a gap of its own. Each move brings
an entry nearer to its home, which bounds the number of moves.
-/

namespace LinearProbing.Table

variable {K V : Type} {m : Type → Type} [Monad m]

def vacate (t : Table K V) (i : Nat) : Table K V := ⟨t.slots.setIfInBounds i none⟩

/-- Moves the entry in bucket `source` to the empty bucket `target`. -/
def relocate (t : Table K V) (source target : Nat) : Outcome (Table K V) Unit :=
  match t.bucket source with
  | .error fault => .fail fault t
  | .ok none => .fail (.broken .freeMove) t
  | .ok (some e) =>
    match t.isOccupied target with
    | .error fault => .fail fault t
    | .ok true => .fail (.broken .freeMove) t
    | .ok false => .ok () ⟨(t.slots.setIfInBounds target (some e)).setIfInBounds source none⟩

/-- Scans at most `steps` buckets from `scan` on, up to the first empty one, and moves entries back
into the gap as they may. -/
def closeGapFrom : (steps : Nat) → (t : Table K V) → (gap scan : Nat) → Outcome (Table K V) Unit
  | 0, t, _, _ => .fail .endless t
  | steps + 1, t, gap, scan =>
    match t.bucket scan with
    | .error fault => .fail fault t
    | .ok none =>
      match t.isOccupied gap with
      | .error fault => .fail fault t
      | .ok true => .fail (.broken .gapLeftEmpty) t
      | .ok false => .ok () t
    | .ok (some e) =>
      match t.home? e.hash with
      | .error fault => .fail fault t
      | .ok home =>
        if Cycle.mayFill gap scan home then
          (t.relocate scan gap).bind fun _ t => t.closeGapFrom steps scan (t.next scan)
        else
          t.closeGapFrom steps gap (t.next scan)

/-- Closes the gap at an empty bucket. An entry is at most `capacity` steps from home and there are at
most `capacity` entries, so `capacity * capacity` moves are enough, each of them at most `capacity`
steps after the one before. -/
def closeGap (t : Table K V) (gap : Nat) : Outcome (Table K V) Unit :=
  t.closeGapFrom (t.capacity * (t.capacity * t.capacity + 1)) gap (t.next gap)

def evict (t : Table K V) : Landing → Outcome (Table K V) (Option (K × V))
  | .found i =>
    match t.bucket i with
    | .error fault => .fail fault t
    | .ok none => .fail (.broken .filledSource) t
    | .ok (some e) => ((t.vacate i).closeGap i).map fun _ => some e.pair
  | .vacant _ | .exhausted => .ok none t

/-- Takes out the first matching entry on the probe path, if there is one, and closes the gap. -/
@[specialize] def remove (t : Table K V) (hash : UInt32) (accept : K → m Bool) :
    m (Outcome (Table K V) (Option (K × V))) := do
  let landing ← t.probe hash accept
  return t.evict landing

end LinearProbing.Table
