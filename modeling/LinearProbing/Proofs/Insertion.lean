import LinearProbing.Proofs.Asking

set_option autoImplicit false

/-!
# How an insertion ends

An insertion ends in one of three ways. An accepted key that is stored already stops it, even in a full
table. Otherwise the entry goes into the first empty bucket from its home on, wherever on the cycle that
is, and if there is none the table is full. Only one bucket changes, so what was found before stays where
it was.
-/

namespace LinearProbing.Table

open LinearProbing.Cycle

variable {K V : Type}

theorem insert_pure (t : Table K V) (hash : UInt32) (key : K) (value : V) (eq : K → K → Bool) :
    Id.run (t.insert hash key value fun stored new => pure (eq stored new)) =
      t.settle (t.landing hash ((t.candidates hash).find? fun x => eq x.2.key key)) hash key value := by
  rw [insert_eq, List.findM?_pure]
  rfl

/-- The table `t'` is `t` with one entry more, in the first empty bucket on the path of its hash. -/
structure Adds (t : Table K V) (hash : UInt32) (key : K) (value : V) (i : Nat) (t' : Table K V) :
    Prop where
  first : t.FirstVacant (t.home hash) i
  capacity : t'.capacity = t.capacity
  holds : t'.peek i = some ⟨markHash hash, key, value⟩
  others : ∀ j, j ≠ i → t'.peek j = t.peek j
  /-- What a search has found it still finds there, and it is the same entry. -/
  kept : ∀ (hash' : UInt32) (accept : K → Bool) (j : Nat),
    Id.run (t.find hash' fun key => pure (accept key)) = some j →
      Id.run (t'.find hash' fun key => pure (accept key)) = some j ∧ t'.peek j = t.peek j

namespace Sound

variable {t : Table K V}

theorem insert_cases (h : t.Sound) (hash : UInt32) (key : K) (value : V) (eq : K → K → Bool) :
    (∃ i, t.Matches hash (eq · key) i) ∧
        Id.run (t.insert hash key value fun stored new => pure (eq stored new)) = .ok false t ∨
      (∀ i, ¬ t.Matches hash (eq · key) i) ∧ t.Settled hash key value
        (Id.run (t.insert hash key value fun stored new => pure (eq stored new))) := by
  rw [insert_pure]
  cases hfind : (t.candidates hash).find? fun x => eq x.2.key key with
  | some x =>
    have haccept : eq x.2.key key = true := by simpa using List.find?_some hfind
    have hmatch : t.Matches hash (eq · key) x.1 :=
      h.matches_iff.2 ⟨x.2, List.mem_of_find?_eq_some hfind, haccept⟩
    exact .inl ⟨⟨x.1, hmatch⟩, rfl⟩
  | none =>
    refine .inr ⟨fun i hi => ?_, settled_of_none h.pos hash key value⟩
    obtain ⟨e, hmem, haccept⟩ := h.matches_iff.1 hi
    exact List.find?_eq_none.1 hfind _ hmem haccept

theorem find_put (h : t.Sound) {hash : UInt32} {i : Nat} (hi : t.FirstVacant (t.home hash) i) (key : K)
    (value : V) {hash' : UInt32} {accept : K → Bool} {j : Nat}
    (hfind : Id.run (t.find hash' fun key => pure (accept key)) = some j) :
    Id.run ((t.put i (some ⟨markHash hash, key, value⟩)).find hash' fun key => pure (accept key)) =
      some j := by
  have hsound : (t.put i (some ⟨markHash hash, key, value⟩)).Sound :=
    h.fill (Entry.marked_mk hash key value) (by rwa [home_markHash])
  have hhome : t.home hash' < t.capacity := home_lt h.pos hash'
  obtain ⟨⟨a, ha, hhash, haccept⟩, hnearest⟩ := h.find_first hfind
  have hj := lt_capacity_of_peek ha
  have hji : j ≠ i := by
    rintro rfl
    rw [hi.empty] at ha
    cases ha
  obtain ⟨k, hk⟩ := (hsound.find_isSome hash' accept).2
    ⟨j, a, by rw [peek_put_of_ne hi.lt _ hji, ha], hhash, haccept⟩
  obtain ⟨⟨b, hb, hbhash, hbaccept⟩, hfirst⟩ := hsound.find_first hk
  have hle := hfirst j ⟨a, by rw [peek_put_of_ne hi.lt _ hji, ha], hhash, haccept⟩
  rw [capacity_put, home_put] at hle
  by_cases hki : k = i
  · -- the new entry would lie on the occupied path of the one that was found
    subst hki
    have hlt : distance t.capacity (t.home hash') k < distance t.capacity (t.home hash') j := by
      refine Nat.lt_of_le_of_ne hle fun heq => hji ?_
      exact (distance_inj hhome hi.lt hj heq).symm
    have hocc := h.connected ha hi.lt (by rwa [hhash, home_markHash])
    rw [hi.empty] at hocc
    cases hocc
  · rw [peek_put_of_ne hi.lt _ hki] at hb
    have hge := hnearest k ⟨b, hb, hbhash, hbaccept⟩
    rw [hk, distance_inj hhome (lt_capacity_of_peek hb) hj (Nat.le_antisymm hle hge)]

theorem adds_put (h : t.Sound) {hash : UInt32} {i : Nat} (hi : t.FirstVacant (t.home hash) i) (key : K)
    (value : V) : t.Adds hash key value i (t.put i (some ⟨markHash hash, key, value⟩)) := by
  refine ⟨hi, capacity_put .., peek_put_self hi.lt _, fun j hj => peek_put_of_ne hi.lt _ hj, ?_⟩
  intro hash' accept j hfind
  obtain ⟨⟨a, ha, -⟩, -⟩ := h.find_first hfind
  have hji : j ≠ i := by
    rintro rfl
    rw [hi.empty] at ha
    cases ha
  exact ⟨h.find_put hi key value hfind, peek_put_of_ne hi.lt _ hji⟩

end Sound

/-- The three ends of an insertion exclude each other and leave no other one, at every fill level and
wherever the home lies. A predicate with a state, or one that stops the call, is asked in turn about the
entries under the hash until it accepts one, and the insertion ends by what it says. -/
theorem Reachable.insert_ends {t : Table K V} (h : t.Reachable) (hash : UInt32) (key : K) (value : V) :
    (∀ eq : K → K → Bool,
      let o := Id.run (t.insert hash key value fun stored new => pure (eq stored new))
      (o.result = .ok false ↔ ∃ i, t.Matches hash (eq · key) i) ∧
      (o.result = .ok true ↔
        (∀ i, ¬ t.Matches hash (eq · key) i) ∧ ∃ i < t.capacity, t.peek i = none) ∧
      (o.result = .error .tableFull ↔
        (∀ i, ¬ t.Matches hash (eq · key) i) ∧ ∀ i < t.capacity, (t.peek i).isSome) ∧
      (o.result ≠ .ok true → o.state = t) ∧
      (o.result = .ok true → ∃ i, t.Adds hash key value i o.state)) ∧
    (∀ (σ : Type) (eq : K → K → Query σ Bool),
      AsksInTurn (t.under hash)
        (fun found o => match found with
          | some _ => o = .ok false t
          | none => (∃ i t', o = .ok true t' ∧ t.Adds hash key value i t') ∨
            (∀ i < t.capacity, (t.peek i).isSome) ∧ o = .fail .tableFull t)
        (t.insert hash key value eq)
        (t.insert hash key value fun stored new => recorded (eq · new) stored)) ∧
    Fault.tableFull.message = "insert into a full hash table" := by
  have hsound := h.sound
  refine ⟨fun eq => ?_, fun σ eq w => ?_, rfl⟩
  · rcases hsound.insert_cases hash key value eq with ⟨⟨i, hi⟩, hrun⟩ | ⟨hnone, hsettled⟩
    · rw [hrun]
      have hsome : ¬ ∀ i, ¬ t.Matches hash (eq · key) i := fun hnone => hnone i hi
      refine ⟨⟨fun _ => ⟨i, hi⟩, fun _ => rfl⟩, ?_, ?_, fun _ => rfl, nofun⟩
      · simp [hsome]
      · simp [hsome]
    · have hnot : ¬ ∃ i, t.Matches hash (eq · key) i := fun ⟨i, hi⟩ => hnone i hi
      rcases hsettled with ⟨i, hi, hrun⟩ | ⟨hfull, hrun⟩
      · rw [hrun]
        have hroom : ¬ ∀ i < t.capacity, (t.peek i).isSome := by
          intro hfull
          have := hfull i hi.lt
          rw [hi.empty] at this
          cases this
        refine ⟨?_, ?_, ?_, ?_, fun _ => ⟨i, hsound.adds_put hi key value⟩⟩
        · simp [hnot]
        · simp only [Outcome.result_ok, true_iff]
          exact ⟨hnone, i, hi.lt, hi.empty⟩
        · simp [hroom]
        · simp
      · rw [hrun]
        have hroom : ¬ ∃ i < t.capacity, t.peek i = none := by
          rintro ⟨i, hi, hempty⟩
          have := hfull i hi
          rw [hempty] at this
          cases this
        refine ⟨?_, ?_, ?_, fun _ => rfl, nofun⟩
        · simp [hnot]
        · simp [hroom]
        · simp only [Outcome.result_fail, true_iff]
          exact ⟨hnone, hfull⟩
  · obtain ⟨asked, found, result, w', hturn, hfits, hrun, hnoted⟩ :=
      hsound.insert_asks hash key value eq w
    refine ⟨asked, found, result, w', hturn, ?_, hrun, hnoted⟩
    cases found with
    | error fault => exact hfits
    | ok found =>
      obtain ⟨o, ho, hfits⟩ := hfits
      refine ⟨o, ho, ?_⟩
      cases found with
      | some x => exact hfits
      | none =>
        rcases hfits with ⟨i, hi, hadded⟩ | hfull
        · exact .inl ⟨i, _, hadded, hsound.adds_put hi key value⟩
        · exact .inr hfull

/-- Seven entries with one hash fill a table around its end: a stored key is refused, and for a new one
there is no room. -/
theorem Reachable.insert_ends_full :
    ∃ t : Table Nat Nat, t.Reachable ∧ (∀ i < t.capacity, (t.peek i).isSome) ∧
      (∃ i, t.Matches 3 (fun stored => stored == 2) i) ∧
      (∀ i, ¬ t.Matches 3 (fun stored => stored == 9) i) ∧
      (Id.run (t.insert 3 2 99 fun stored new => pure (stored == new))).result = .ok false ∧
      (Id.run (t.insert 3 9 99 fun stored new => pure (stored == new))).result = .error .tableFull := by
  let t : Table Nat Nat := replay 0 ((List.range 7).map fun k => ⟨markHash 3, k, 10 * k⟩)
  have ht : t.Reachable := reachable_replay ..
  have hknown : (Id.run (t.insert 3 2 99 fun stored new => pure (stored == new))).result = .ok false := by
    decide
  have hfull : (Id.run (t.insert 3 9 99 fun stored new => pure (stored == new))).result =
      .error .tableFull := by
    decide
  have hends := (Reachable.insert_ends ht 3 2 99).1 (· == ·)
  have hends' := (Reachable.insert_ends ht 3 9 99).1 (· == ·)
  obtain ⟨hnone, hall⟩ := hends'.2.2.1.1 hfull
  exact ⟨t, ht, hall, hends.1.1 hknown, hnone, hknown, hfull⟩

end LinearProbing.Table
