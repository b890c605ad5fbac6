import LinearProbing.Proofs.Search
import Mathlib.Data.Finset.Max

set_option autoImplicit false

/-!
# Which buckets are occupied

Take an arc of buckets that begins behind an empty bucket and is occupied throughout. No path leads into
it from outside, so it holds at most the entries whose homes lie in it. In another table with the same
hashes no path leads out of an arc that ends in an empty bucket, so such an arc would hold all of these
entries in one bucket less. Hence the same buckets are occupied in both tables.
-/

namespace LinearProbing

namespace Cycle

/-- Bucket `j` lies after bucket `z` and not after bucket `i`. -/
def Within (n z i j : Nat) : Prop := 0 < distance n z j ∧ distance n z j ≤ distance n z i

instance decidableWithin (n z i j : Nat) : Decidable (Within n z i j) :=
  inferInstanceAs (Decidable (_ ∧ _))

theorem within_of_not_through {n z h j : Nat} (hz : z < n) (hh : h < n) (hj : j < n) (hne : z ≠ j)
    (hnot : ¬ distance n h z < distance n h j) : Within n z j h := by
  rw [distance_eq_ite hh hz, distance_eq_ite hh hj] at hnot
  rw [Within, distance_eq_ite hz hh, distance_eq_ite hz hj]
  split at hnot <;> split at hnot <;> split <;> split <;> omega

theorem Within.stay {n z i h j : Nat} (hz : z < n) (hi : i < n) (hh : h < n) (hj : j < n)
    (hwithin : Within n z i h) (hnot : ¬ distance n h i < distance n h j) : Within n z i j := by
  obtain ⟨hpos, hle⟩ := hwithin
  have hsplit := distance_split hz hh hi hle
  have hlt : distance n z i < n := distance_lt (by omega) z i
  have hadd := distance_add hz hh hj (by omega)
  exact ⟨by omega, by omega⟩

theorem Within.trans {n z i j k : Nat} (hij : Within n z i j) (hjk : Within n z j k) :
    Within n z i k := ⟨hjk.1, hjk.2.trans hij.2⟩

theorem Within.distance_lt {n z i j : Nat} (hz : z < n) (hi : i < n) (hj : j < n)
    (h : Within n z i j) : distance n j i < distance n z i := by
  obtain ⟨hpos, hle⟩ := h
  have hsplit := distance_split hz hj hi hle
  omega

end Cycle

namespace Table

open LinearProbing.Cycle

variable {K V K' V' : Type}

theorem entries_eq_filterMap (t : Table K V) :
    t.entries = (List.range t.capacity).filterMap t.peek := by
  have hslots : t.slots.toList.filterMap id = ((List.range t.capacity).map t.peek).filterMap id := by
    congr 1
    apply List.ext_getElem
    · simp [capacity]
    · intro i hi hi'
      have hsize : i < t.slots.size := by simpa using hi
      simp [peek, Array.getElem?_eq_getElem hsize]
  rw [entries, hslots, List.filterMap_map]
  rfl

theorem countP_entries (t : Table K V) (p : Entry K V → Bool) :
    t.entries.countP p = ((Finset.range t.capacity).filter fun i => (t.peek i).any p).card := by
  have hcount : t.entries.countP p = (List.range t.capacity).countP fun i => (t.peek i).any p := by
    rw [entries_eq_filterMap, List.countP_filterMap]
    congr 1
    funext i
    cases t.peek i <;> rfl
  rw [hcount, List.countP_eq_length_filter, Finset.card, Finset.filter_val, Finset.range_val,
    Multiset.range, Multiset.filter_coe, Multiset.coe_card]
  simp only [Bool.decide_eq_true]

/-- The buckets after bucket `z` up to bucket `i`. -/
def arc (t : Table K V) (z i : Nat) : Finset Nat :=
  (Finset.range t.capacity).filter fun j => Within t.capacity z i j

def homedWithin (t : Table K V) (z i : Nat) (hash : UInt32) : Bool :=
  decide (Within t.capacity z i (t.home hash))

namespace Sound

variable {t : Table K V}

/-- An occupied arc behind an empty bucket holds entries whose homes lie in it. -/
theorem card_arc_le (h : t.Sound) {z i : Nat} (hz : z < t.capacity) (hempty : t.peek z = none)
    (hfull : ∀ j ∈ t.arc z i, (t.peek j).isSome) :
    (t.arc z i).card ≤ t.entries.countP fun e => t.homedWithin z i e.hash := by
  rw [countP_entries]
  apply Finset.card_le_card
  intro j hj
  obtain ⟨e, he⟩ := Option.isSome_iff_exists.1 (hfull j hj)
  rw [arc, Finset.mem_filter, Finset.mem_range] at hj
  rw [Finset.mem_filter, Finset.mem_range, he]
  refine ⟨hj.1, decide_eq_true (hj.2.trans ?_)⟩
  have hne : z ≠ j := (ne_of_peek he hempty).symm
  apply within_of_not_through hz (home_lt h.pos e.hash) hj.1 hne
  intro hthrough
  have hocc := h.connected he hz hthrough
  rw [hempty] at hocc
  cases hocc

/-- Entries whose homes lie in an arc that ends in an empty bucket leave this bucket of it free. -/
theorem countP_lt_card_arc (h : t.Sound) {z i : Nat} (hz : z < t.capacity) (hi : i < t.capacity)
    (hne : z ≠ i) (hempty : t.peek i = none) :
    (t.entries.countP fun e => t.homedWithin z i e.hash) < (t.arc z i).card := by
  rw [countP_entries]
  apply Finset.card_lt_card
  refine Finset.ssubset_iff_of_subset ?_ |>.2 ⟨i, ?_, ?_⟩
  · intro j hj
    rw [Finset.mem_filter, Finset.mem_range] at hj
    obtain ⟨hj, hany⟩ := hj
    obtain ⟨e, he, hhomed⟩ := (Option.any_eq_true _ _).1 hany
    rw [arc, Finset.mem_filter, Finset.mem_range]
    refine ⟨hj, (of_decide_eq_true hhomed).stay hz hi (home_lt h.pos e.hash) hj ?_⟩
    intro hthrough
    have hocc := h.connected he hi hthrough
    rw [hempty] at hocc
    cases hocc
  · rw [arc, Finset.mem_filter, Finset.mem_range]
    exact ⟨hi, distance_pos hz hi hne, Nat.le_refl _⟩
  · rw [Finset.mem_filter, hempty]
    exact fun hmem => Bool.false_ne_true hmem.2

end Sound

theorem exists_occupied_arc {t : Table K V} {i : Nat} (hi : (t.peek i).isSome)
    (hroom : t.occupied < t.capacity) :
    ∃ z < t.capacity, t.peek z = none ∧ ∀ j ∈ t.arc z i, (t.peek j).isSome := by
  have hlt := lt_capacity_of_isSome hi
  obtain ⟨z₀, hz₀, hempty₀⟩ := exists_vacant hroom
  obtain ⟨z, hz, hmin⟩ := Finset.exists_min_image
    ((Finset.range t.capacity).filter fun z => (t.peek z).isNone) (fun z => distance t.capacity z i)
    ⟨z₀, by rw [Finset.mem_filter, Finset.mem_range, hempty₀]; exact ⟨hz₀, rfl⟩⟩
  rw [Finset.mem_filter, Finset.mem_range, Option.isNone_iff_eq_none] at hz
  refine ⟨z, hz.1, hz.2, fun j hj => ?_⟩
  rw [arc, Finset.mem_filter, Finset.mem_range] at hj
  by_contra hempty
  rw [Option.not_isSome_iff_eq_none, ← Option.isNone_iff_eq_none] at hempty
  have hle := hmin j (by rw [Finset.mem_filter, Finset.mem_range]; exact ⟨hj.1, hempty⟩)
  have hcloser := hj.2.distance_lt hz.1 hlt hj.1
  omega

theorem Sound.occupied_of_same_hashes {t : Table K V} {u : Table K' V'} (ht : t.Sound) (hu : u.Sound)
    (hcap : t.capacity = u.capacity)
    (hperm : (t.entries.map Entry.hash).Perm (u.entries.map Entry.hash)) {i : Nat}
    (hi : (u.peek i).isSome) : (t.peek i).isSome := by
  by_contra hempty
  rw [Option.not_isSome_iff_eq_none] at hempty
  have hlt : i < t.capacity := hcap ▸ lt_capacity_of_isSome hi
  have hroom : u.occupied < u.capacity := by
    have hocc := hperm.length_eq
    rw [List.length_map, List.length_map, length_entries, length_entries] at hocc
    rw [← hocc, ← hcap]
    exact occupied_lt_iff.2 ⟨i, hlt, hempty⟩
  obtain ⟨z, hz, hvacant, hfull⟩ := exists_occupied_arc hi hroom
  have hne : z ≠ i := by
    rintro rfl
    rw [hvacant] at hi
    cases hi
  have hsame : ∀ hash, t.homedWithin z i hash = u.homedWithin z i hash := by
    intro hash
    rw [homedWithin, homedWithin, home, home, hcap]
  have hcount : (t.entries.countP fun e => t.homedWithin z i e.hash) =
      u.entries.countP fun e => u.homedWithin z i e.hash := by
    simp only [hsame]
    have hcounted := hperm.countP_eq (u.homedWithin z i)
    rwa [List.countP_map, List.countP_map] at hcounted
  have harc : t.arc z i = u.arc z i := by
    rw [arc, arc, hcap]
  have hupper := ht.countP_lt_card_arc (hcap ▸ hz) hlt hne hempty
  have hlower := hu.card_arc_le hz hvacant hfull
  rw [hcount, harc] at hupper
  omega

theorem bucket_eq_error {t : Table K V} {i : Nat} (hi : ¬ i < t.capacity) :
    t.bucket i = .error (.outOfBounds t.capacity i) := by
  rw [bucket, Array.getElem?_eq_none (Nat.le_of_not_lt hi)]

/-- Which buckets of a table are occupied depends on its capacity and on the hashes in it, and on nothing
else that has happened to it. -/
theorem Reachable.occupied_buckets {t : Table K V} {u : Table K' V'} (ht : t.Reachable)
    (hu : u.Reachable) (hcap : t.capacity = u.capacity)
    (hperm : (t.entries.map Entry.hash).Perm (u.entries.map Entry.hash)) (i : Nat) :
    t.isOccupied i = u.isOccupied i := by
  have hiff : (t.peek i).isSome ↔ (u.peek i).isSome :=
    ⟨hu.sound.occupied_of_same_hashes ht.sound hcap.symm hperm.symm,
      ht.sound.occupied_of_same_hashes hu.sound hcap hperm⟩
  by_cases hi : i < t.capacity
  · rw [isOccupied_eq hi, isOccupied_eq (hcap ▸ hi), Bool.eq_iff_iff.2 hiff]
  · rw [isOccupied, isOccupied, bucket_eq_error hi, bucket_eq_error (hcap ▸ hi), hcap]
    rfl

/-- The same hashes come in another order, under other keys and by way of another capacity. They lie in
another order then, but in the same buckets. -/
theorem Reachable.occupied_buckets_moved :
    ∃ (t : Table Nat Nat) (u : Table String Unit), t.Reachable ∧ u.Reachable ∧
      t.entries.map Entry.hash = [markHash 4, markHash 5, markHash 4] ∧
      u.entries.map Entry.hash = [markHash 5, markHash 4, markHash 4] ∧
      ∀ i, t.isOccupied i = u.isOccupied i := by
  have hfresh : (withCapacity 0 : Table Nat Nat).Reachable := .fresh 0
  have htwo := (hfresh.step (.edit (.insert 4 1 10 fun a b => pure (a == b))) ()).step
    (.edit (.insert 4 2 20 fun a b => pure (a == b))) ()
  have ht := htwo.step (.edit (.insert 5 3 30 fun a b => pure (a == b))) ()
  have hwide : (withCapacity 8 : Table String Unit).Reachable := .fresh 8
  have hgone := ((hwide.step (.edit (.insert 5 "x" () fun _ _ => pure false)) ()).step
    (.edit (.insert 9 "y" () fun _ _ => pure false)) ()).step (.edit (.remove 9 fun _ => pure true)) ()
  have hfull := (hgone.step (.edit (.insert 4 "x" () fun _ _ => pure false)) ()).step
    (.edit (.insert 4 "x" () fun _ _ => pure false)) ()
  have hu := hfull.step (.rehash 0) ()
  exact ⟨_, _, ht, hu, by decide, by decide,
    Reachable.occupied_buckets ht hu (by decide) (by decide)⟩

end Table

end LinearProbing
