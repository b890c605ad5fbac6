import LinearProbing.Proofs.Asking

set_option autoImplicit false

/-!
# Values are carried along

No operation looks at a value unless it is asked to replace it. So what a table does is not changed when
every value in it is changed in the same way beforehand.
-/

namespace LinearProbing

variable {σ K V W α : Type} {m : Type → Type}

def Entry.mapValue (f : V → W) (e : Entry K V) : Entry K W := ⟨e.hash, e.key, f e.value⟩

namespace Table

def mapValues (f : V → W) (t : Table K V) : Table K W :=
  ⟨t.slots.map (Option.map (Entry.mapValue f))⟩

@[simp] theorem capacity_mapValues (f : V → W) (t : Table K V) :
    (t.mapValues f).capacity = t.capacity := by
  simp [mapValues, capacity]

@[simp] theorem home_mapValues (f : V → W) (t : Table K V) (hash : UInt32) :
    (t.mapValues f).home hash = t.home hash := by
  simp [home]

@[simp] theorem home?_mapValues (f : V → W) (t : Table K V) (hash : UInt32) :
    (t.mapValues f).home? hash = t.home? hash := by
  rw [home?, home?, capacity_mapValues]

@[simp] theorem next_mapValues (f : V → W) (t : Table K V) (i : Nat) :
    (t.mapValues f).next i = t.next i := by
  simp [next]

@[simp] theorem peek_mapValues (f : V → W) (t : Table K V) (i : Nat) :
    (t.mapValues f).peek i = (t.peek i).map (Entry.mapValue f) := by
  simp only [peek, mapValues, Array.getElem?_map]
  cases t.slots[i]? <;> rfl

@[simp] theorem mapValues_withCapacity (f : V → W) (n : Nat) :
    (withCapacity n : Table K V).mapValues f = withCapacity n := by
  simp [withCapacity, mapValues]

theorem mapValues_clear (f : V → W) (t : Table K V) : t.clear.mapValues f = (t.mapValues f).clear := by
  simp [clear, mapValues, capacity]

theorem mapValues_put (f : V → W) (t : Table K V) (i : Nat) (content : Option (Entry K V)) :
    (t.put i content).mapValues f = (t.mapValues f).put i (content.map (Entry.mapValue f)) := by
  simp [put, mapValues, Array.map_setIfInBounds]

theorem occupied_mapValues (f : V → W) (t : Table K V) : (t.mapValues f).occupied = t.occupied := by
  rw [occupied, occupied, mapValues, Array.countP_map]
  congr 1
  funext slot
  cases slot <;> rfl

theorem firstVacant_mapValues (f : V → W) (t : Table K V) (steps i : Nat) :
    (t.mapValues f).firstVacant steps i = t.firstVacant steps i := by
  induction steps generalizing i with
  | zero => rfl
  | succ steps ih =>
    rw [firstVacant, firstVacant, peek_mapValues]
    cases t.peek i with
    | none => rfl
    | some e =>
      simp only [Option.map_some, next_mapValues]
      exact ih (t.next i)

theorem candidatesFrom_mapValues (f : V → W) (t : Table K V) (stored : UInt32) (steps i : Nat) :
    (t.mapValues f).candidatesFrom stored steps i =
      (t.candidatesFrom stored steps i).map (Prod.map id (Entry.mapValue f)) := by
  induction steps generalizing i with
  | zero => rfl
  | succ steps ih =>
    rw [candidatesFrom, candidatesFrom, peek_mapValues]
    cases t.peek i with
    | none => rfl
    | some e =>
      simp only [Option.map_some, next_mapValues, ih (t.next i)]
      by_cases hhash : e.hash = stored
      · simp [Entry.mapValue, hhash]
      · simp [Entry.mapValue, hhash]

theorem candidates_mapValues (f : V → W) (t : Table K V) (hash : UInt32) :
    (t.mapValues f).candidates hash =
      (t.candidates hash).map (Prod.map id (Entry.mapValue f)) := by
  rw [candidates, candidates, capacity_mapValues, home_mapValues, candidatesFrom_mapValues]

theorem landing_mapValues (f : V → W) (t : Table K V) (hash : UInt32)
    (found : Option (Nat × Entry K V)) :
    (t.mapValues f).landing hash (found.map (Prod.map id (Entry.mapValue f))) =
      t.landing hash found := by
  cases found with
  | some x => rfl
  | none => simp only [landing, Option.map_none, capacity_mapValues, home_mapValues, firstVacant_mapValues]

theorem under_mapValues (f : V → W) (t : Table K V) (hash : UInt32) :
    (t.mapValues f).under hash = (t.under hash).map (Prod.map id (Entry.mapValue f)) := by
  have haround : (t.mapValues f).around hash =
      (t.around hash).map (Prod.map id (Entry.mapValue f)) := by
    rw [around, around, capacity_mapValues, home_mapValues, List.map_filterMap]
    congr 1
    funext i
    rw [peek_mapValues]
    cases t.peek i <;> rfl
  rw [under, under, haround, List.filter_map]
  rfl

theorem matches_mapValues {f : V → W} {t : Table K V} {hash : UInt32} {accept : K → Bool} {i : Nat} :
    (t.mapValues f).Matches hash accept i ↔ t.Matches hash accept i := by
  rw [Matches, Matches, peek_mapValues]
  cases t.peek i with
  | none => simp
  | some e => simp [Entry.mapValue]

theorem bucket_mapValues (f : V → W) (t : Table K V) (i : Nat) :
    (t.mapValues f).bucket i = (t.bucket i).map (Option.map (Entry.mapValue f)) := by
  rw [bucket, bucket, capacity_mapValues, mapValues, Array.getElem?_map]
  cases t.slots[i]? <;> rfl

theorem isOccupied_mapValues (f : V → W) (t : Table K V) (i : Nat) :
    (t.mapValues f).isOccupied i = t.isOccupied i := by
  rw [isOccupied, isOccupied, bucket_mapValues]
  rcases t.bucket i with fault | (_ | e) <;> rfl

theorem write_mapValues (f : V → W) (t : Table K V) (i : Nat) (e : Entry K V) :
    (t.mapValues f).write i (e.mapValue f) = (t.write i e).within (mapValues f) := by
  rw [write, write, isOccupied_mapValues, show (e.mapValue f).hash = e.hash from rfl]
  split
  · rfl
  · split
    · rfl
    · rfl
    · exact congrArg (Outcome.ok ()) (mapValues_put f t i (some e)).symm

theorem settle_mapValues (f : V → W) (t : Table K V) (landing : Landing) (hash : UInt32) (key : K)
    (value : V) :
    (t.mapValues f).settle landing hash key (f value) =
      (t.settle landing hash key value).within (mapValues f) := by
  cases landing with
  | found i => rfl
  | vacant i =>
    have hwrite := write_mapValues f t i ⟨markHash hash, key, value⟩
    exact congrArg (Outcome.map fun _ => true) hwrite
  | exhausted => rfl

theorem relocate_mapValues (f : V → W) (t : Table K V) (source target : Nat) :
    (t.mapValues f).relocate source target =
      (t.relocate source target).within (mapValues f) := by
  rw [relocate, relocate, bucket_mapValues, isOccupied_mapValues]
  rcases t.bucket source with fault | (_ | e)
  · rfl
  · rfl
  · have hmoved : ((t.put target (some e)).put source none).mapValues f =
        ((t.mapValues f).put target (some (e.mapValue f))).put source none := by
      rw [mapValues_put, mapValues_put]
      rfl
    rcases t.isOccupied target with fault | (_ | _)
    · rfl
    · exact congrArg (Outcome.ok ()) hmoved.symm
    · rfl

theorem closeGapFrom_mapValues (f : V → W) (steps : Nat) (t : Table K V) (gap scan : Nat) :
    (t.mapValues f).closeGapFrom steps gap scan =
      (t.closeGapFrom steps gap scan).within (mapValues f) := by
  induction steps generalizing t gap scan with
  | zero => rfl
  | succ steps ih =>
    rw [closeGapFrom, closeGapFrom, bucket_mapValues, isOccupied_mapValues]
    rcases t.bucket scan with fault | (_ | e)
    · rfl
    · rcases t.isOccupied gap with fault | (_ | _) <;> rfl
    · simp only [Except.map, Option.map_some, home?_mapValues, next_mapValues, Entry.mapValue]
      cases t.home? e.hash with
      | error fault => rfl
      | ok home =>
        simp only
        split
        · rw [relocate_mapValues]
          rcases t.relocate scan gap with ⟨fault | _, t', events⟩
          · rfl
          · simp only [Outcome.within, Outcome.bind, next_mapValues, ih]
        · exact ih t gap (t.next scan)

theorem evict_mapValues (f : V → W) (t : Table K V) (landing : Landing) :
    (t.mapValues f).evict landing =
      ((t.evict landing).map (Option.map (Prod.map id f))).within (mapValues f) := by
  cases landing with
  | found i =>
    have hvacate : (t.vacate i).mapValues f = (t.mapValues f).vacate i := mapValues_put f t i none
    rw [evict, evict, bucket_mapValues]
    rcases t.bucket i with fault | (_ | e)
    · rfl
    · rfl
    · simp only [Except.map, Option.map_some]
      rw [closeGap, ← hvacate, closeGapFrom_mapValues, capacity_mapValues, next_mapValues, ← closeGap]
      rcases (t.vacate i).closeGap i with ⟨_ | _, _, _⟩ <;> rfl
  | vacant i => rfl
  | exhausted => rfl

theorem entryAt_mapValues (f : V → W) (t : Table K V) (i : Nat) :
    (t.mapValues f).entryAt i = (t.entryAt i).map (Entry.mapValue f) := by
  rw [entryAt, entryAt, bucket_mapValues]
  rcases t.bucket i with fault | (_ | e) <;> rfl

theorem updateAt_mapValues {f : V → W} (write : V → α × V) (write' : W → α × W)
    (hwrite : ∀ value, write' (f value) = Prod.map id f (write value)) (t : Table K V) (i : Nat) :
    (t.mapValues f).updateAt i write' = (t.updateAt i write).within (mapValues f) := by
  rw [updateAt, updateAt, entryAt_mapValues]
  cases t.entryAt i with
  | error fault => rfl
  | ok e =>
    simp only [Except.map, Entry.mapValue, hwrite]
    exact congrArg (Outcome.ok _) (mapValues_put f t i (some ⟨e.hash, e.key, (write e.value).2⟩)).symm

theorem seekEntry_mapValues (f : V → W) (slots : Array (Option (Entry K V))) (i : Nat) :
    seekEntry (slots.map (Option.map (Entry.mapValue f))) i =
      (seekEntry slots i).map (Prod.map id (Entry.mapValue f)) := by
  have hsize : (slots.map (Option.map (Entry.mapValue f))).size = slots.size := Array.size_map
  induction i using seekEntry.induct slots with
  | case1 i hi e hslot =>
    rw [seekEntry_of_some hi hslot]
    exact seekEntry_of_some (hsize.symm ▸ hi) (by rw [Array.getElem_map, hslot]; rfl)
  | case2 i hi hslot ih =>
    rw [seekEntry_of_none hi hslot, ← ih]
    exact seekEntry_of_none (hsize.symm ▸ hi) (by rw [Array.getElem_map, hslot]; rfl)
  | case3 i hi =>
    rw [seekEntry_of_le (Nat.le_of_not_lt hi), seekEntry_of_le (by omega)]
    rfl

def Reviser.mapValues (f : V → W) (r : Reviser K V) : Reviser K W :=
  ⟨r.slots.map (Option.map (Entry.mapValue f)), r.position⟩

theorem takeWith_mapValues {f : V → W} (lift : (K → W → α × W) → K → V → α × V)
    (hlift : ∀ g key value, g key (f value) = Prod.map id f (lift g key value))
    (fs : List (K → W → α × W)) (r : Reviser K V) :
    (r.mapValues f).takeWith fs =
      ((r.takeWith (fs.map lift)).1, (r.takeWith (fs.map lift)).2.mapValues f) := by
  induction fs generalizing r with
  | nil => rfl
  | cons g fs ih =>
    have hnext : (r.mapValues f).next g = ((r.next (lift g)).1, (r.next (lift g)).2.mapValues f) := by
      have hseek := seekEntry_mapValues f r.slots r.position
      rw [Reviser.next, Reviser.next, Reviser.mapValues, hseek]
      cases seekEntry r.slots r.position with
      | none => simp [Reviser.mapValues]
      | some found =>
        obtain ⟨i, e⟩ := found
        simp [Reviser.mapValues, Array.map_setIfInBounds, Entry.mapValue, hlift]
    rw [Reviser.takeWith, hnext]
    simp only [ih]
    rfl

section Search

variable [Monad m] [LawfulMonad m]

theorem find_mapValues (f : V → W) (t : Table K V) (hash : UInt32) (accept : K → m Bool) :
    (t.mapValues f).find hash accept = t.find hash accept := by
  rw [find_eq, find_eq, candidates_mapValues, findM?_map, Functor.map_map]
  congr 1
  funext found
  cases found <;> rfl

theorem insert_mapValues (f : V → W) (t : Table K V) (hash : UInt32) (key : K) (value : V)
    (eq : K → K → m Bool) :
    (t.mapValues f).insert hash key (f value) eq =
      (·.within (mapValues f)) <$> t.insert hash key value eq := by
  rw [insert_eq, insert_eq, candidates_mapValues, findM?_map, Functor.map_map, Functor.map_map]
  congr 1
  funext found
  rw [landing_mapValues, settle_mapValues]

theorem remove_mapValues (f : V → W) (t : Table K V) (hash : UInt32) (accept : K → m Bool) :
    (t.mapValues f).remove hash accept =
      (fun o => (o.map (Option.map (Prod.map id f))).within (mapValues f)) <$>
        t.remove hash accept := by
  rw [remove_eq, remove_eq, candidates_mapValues, findM?_map, Functor.map_map, Functor.map_map]
  congr 1
  funext found
  rw [landing_mapValues, evict_mapValues]

end Search

end Table

end LinearProbing
