import LinearProbing.Proofs.Sound
import LinearProbing.Store.Basic

set_option autoImplicit false

/-!
# Growth

A store grows as soon as it is crowded, and one move to the next capacity makes it calm again.
-/

namespace LinearProbing

namespace Outcome

variable {σ α β ι : Type} {P : σ → Prop}

theorem state_bind {o : Outcome σ α} {next : α → σ → Outcome σ β} (ho : P o.state)
    (hnext : ∀ a s, P s → P (next a s).state) : P (o.bind next).state := by
  rcases o with ⟨fault | a, s, events⟩
  · exact ho
  · exact hnext a s ho

theorem state_fold {step : α → ι → σ → Outcome σ α} (hstep : ∀ a i s, P s → P (step a i s).state)
    (items : List ι) (a : α) {s : σ} (hs : P s) : P (fold step items a s).state := by
  induction items using List.reverseRecOn with
  | nil => exact hs
  | append_singleton items i ih =>
    rw [fold_append_single]
    exact state_bind ih fun a s => hstep a i s

end Outcome

namespace Table

variable {K V : Type}

theorem capacity_place (t : Table K V) (e : Entry K V) : (t.place e).state.capacity = t.capacity := by
  unfold place
  split
  · exact capacity_write t _ e
  · rfl

theorem capacity_settle (t : Table K V) (landing : Landing) (hash : UInt32) (key : K) (value : V) :
    (t.settle landing hash key value).state.capacity = t.capacity := by
  cases landing with
  | found i => rfl
  | vacant i => exact capacity_write t i _
  | exhausted => rfl

theorem le_capacity_grow (t : Table K V) : t.capacity ≤ t.grow.state.capacity := by
  unfold grow
  cases hnext : Capacity.next t.capacity with
  | error fault => exact Nat.le_refl _
  | ok n =>
    have hle := Capacity.le_next hnext
    have hrehash : t.capacity ≤ (t.rehash n).state.capacity := by
      unfold rehash
      split
      · have hfold := Outcome.state_fold (P := fun t' : Table K V =>
            t'.capacity = Capacity.roundUp (Capacity.roundUp n))
          (fun _ e t' ht' => (capacity_place t' e).trans ht') t.entries () (capacity_withCapacity _)
        rw [hfold, Capacity.roundUp_roundUp]
        exact hle.trans (Capacity.le_roundUp n)
      · exact Nat.le_refl _
    exact hrehash

theorem grow_eq_fail {t : Table K V} {fault : Fault} (hnext : Capacity.next t.capacity = .error fault) :
    t.grow = .fail fault t := by
  rw [grow, hnext]

theorem Sound.grow_eq_ok {t : Table K V} (h : t.Sound) {n : Nat}
    (hnext : Capacity.next t.capacity = .ok n) :
    ∃ t', t.grow = ⟨.ok (), t', [.grow t.capacity n]⟩ ∧ t'.Sound ∧
      t'.capacity = Capacity.roundUp n ∧ t'.entries.Perm t.entries := by
  have hfits : t.occupied ≤ Capacity.roundUp n :=
    (t.occupied_le.trans (Capacity.le_next hnext)).trans (Capacity.le_roundUp n)
  obtain ⟨t', hrun, hsound, hcap, hperm⟩ := h.rehash hfits
  refine ⟨t', ?_, hsound, hcap, hperm⟩
  rw [grow, hnext]
  simp only [hrun]
  rfl

end Table

namespace Store

variable {K V : Type}

theorem le_capacity_relieve (s : Store K V) : s.capacity ≤ s.relieve.state.capacity := by
  rcases s with ⟨t, len, busy⟩
  rw [relieve]
  cases t.isCrowded len with
  | error fault => exact Nat.le_refl _
  | ok crowded =>
    cases crowded with
    | false => exact Nat.le_refl _
    | true => exact t.le_capacity_grow

theorem capacity_countUp (s : Store K V) : s.countUp.state.capacity = s.capacity := by
  rcases s with ⟨t, len, busy⟩
  rw [countUp]
  cases Size.add len 1 <;> rfl

theorem le_capacity_settle (s : Store K V) (landing : Landing) (hash : UInt32) (key : K) (value : V) :
    s.capacity ≤ (s.settle landing hash key value).state.capacity := by
  rcases s with ⟨t, len, busy⟩
  unfold settle
  apply Outcome.state_bind (P := fun s : Store K V => t.capacity ≤ s.capacity)
  · exact Nat.le_of_eq (t.capacity_settle landing hash key value).symm
  · intro added s hs
    split
    · apply Outcome.state_bind (P := fun s : Store K V => t.capacity ≤ s.capacity)
      · rwa [capacity_countUp]
      · intro _ s hs
        exact hs.trans s.le_capacity_relieve
    · exact hs

theorem probing_cases {α : Type} (s : Store K V) (hash : UInt32)
    (accept : Store K V → K → ExceptT Fault Id Bool)
    (commit : Landing → Store K V → Outcome (Store K V) α) :
    Id.run (s.probing hash accept commit) = .fail .reentrant s ∨
      (∃ fault, Id.run (s.probing hash accept commit) = .fail fault s.enter.leave) ∨
      ∃ landing, Id.run (s.probing hash accept commit) = (commit landing s.enter).within leave := by
  rw [probing]
  split
  · exact .inl rfl
  · refine .inr ?_
    cases hprobe : Id.run (s.enter.table.probe hash (accept s.enter)).run with
    | error fault => exact .inl ⟨fault, by simp [hprobe]⟩
    | ok landing => exact .inr ⟨landing, by simp [hprobe]⟩

theorem le_capacity_insertWithHash (s : Store K V) (hash : UInt32) (key : K) (value : V)
    (eq : Store K V → K → K → ExceptT Fault Id Bool) :
    s.capacity ≤ (Id.run (s.insertWithHash hash key value eq)).state.capacity := by
  rw [insertWithHash]
  rcases probing_cases s hash (fun busy stored => eq busy stored key)
    (fun landing s => s.settle landing hash key value) with h | ⟨fault, h⟩ | ⟨landing, h⟩
  · rw [h]
    exact Nat.le_refl _
  · rw [h]
    exact Nat.le_refl _
  · rw [h]
    exact s.enter.le_capacity_settle landing hash key value

/-- What holds of a store between calls: its table is sound and has a proper capacity, the count is
right, no probe is going on, and the load is below the maximum. -/
structure Steady (s : Store K V) : Prop where
  sound : s.table.Sound
  rounded : Capacity.roundUp s.table.capacity = s.table.capacity
  counted : s.len = s.table.occupied
  idle : s.busy = false
  calm : s.len * 100 < s.table.capacity * Capacity.maxLoad

/-- One entry more than a calm store has may crowd it, and then one move makes it calm. A store that
moves is not large for the entries it holds, and it reports the move. -/
theorem relieve_spec {t : Table K V} (busy : Bool) (hsound : t.Sound)
    (hrounded : Capacity.roundUp t.capacity = t.capacity)
    (hcalm : t.occupied * 100 < t.capacity * Capacity.maxLoad + 100)
    (hcap : t.capacity < Capacity.loadLimit) :
    ∃ t' events, relieve ⟨t, t.occupied, busy⟩ = ⟨.ok (), ⟨t', t.occupied, busy⟩, events⟩ ∧
      t'.Sound ∧ Capacity.roundUp t'.capacity = t'.capacity ∧ t'.entries.Perm t.entries ∧
      t.occupied * 100 < t'.capacity * Capacity.maxLoad ∧
      t'.capacity ≤ max t.capacity (Capacity.greatest + 3 * t.occupied) ∧
      ((t'.capacity = t.capacity ∧ events = []) ∨
        t.capacity * Capacity.maxLoad ≤ t.occupied * 100 ∧
          Capacity.next t.capacity = .ok t'.capacity ∧ events = [.grow t.capacity t'.capacity]) := by
  have hcrowded := Capacity.isCrowded_eq t.occupied_le hcap
  by_cases hload : t.capacity * Capacity.maxLoad ≤ t.occupied * 100
  · obtain ⟨n, hnext, hn, hfixed, hle⟩ := Capacity.next_spec hrounded hcap
    obtain ⟨t', hgrow, hsound', hcap', hperm⟩ := hsound.grow_eq_ok hnext
    rw [hfixed] at hcap'
    refine ⟨t', [.grow t.capacity n], ?_, hsound', by rw [hcap', hfixed], hperm, ?_, ?_, .inr ?_⟩
    · simp only [relieve, Table.isCrowded, hcrowded, decide_eq_true hload, hgrow]
      rfl
    · rw [hcap']
      unfold Capacity.maxLoad at hcalm ⊢
      omega
    · rw [hcap']
      unfold Capacity.maxLoad at hload
      omega
    · rw [hcap']
      exact ⟨hload, hnext, rfl⟩
  · refine ⟨t, [], ?_, hsound, hrounded, .rfl, by omega, Nat.le_max_left _ _, .inl ⟨rfl, rfl⟩⟩
    simp only [relieve, Table.isCrowded, hcrowded, decide_eq_false hload]
    rfl

theorem steady_withCapacity (n : Nat) : (withCapacity n : Store K V).Steady := by
  have hcap : (Table.withCapacity n : Table K V).capacity = Capacity.roundUp n :=
    Table.capacity_withCapacity n
  have hentries : (Table.withCapacity n : Table K V).entries = [] :=
    Table.entries_of_vacant (Table.peek_withCapacity n)
  refine ⟨Table.sound_withCapacity n, ?_, ?_, rfl, ?_⟩
  · rw [withCapacity, hcap, Capacity.roundUp_roundUp]
  · rw [withCapacity, ← Table.length_entries, hentries]
    rfl
  · have hleast := Capacity.least_le_roundUp n
    have hseven : Capacity.least = 7 := rfl
    have hlen : (withCapacity n : Store K V).len = 0 := rfl
    rw [hlen, withCapacity, hcap]
    unfold Capacity.maxLoad
    omega

end Store

end LinearProbing
