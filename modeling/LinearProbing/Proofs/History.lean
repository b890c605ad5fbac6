import LinearProbing.Proofs.Journal

set_option autoImplicit false

/-!
# Removal leaves no trace

A table that starts empty, or in a new capacity with the entries of another table, and that is changed
by insertions, removals and clearings only, is always the replay of its journal. So a removal is as if
the entry had never been put in.
-/

namespace LinearProbing

variable {σ K V α χ : Type}

namespace Journal

def edit (n : Nat) (e : Edit σ K V) (j : Journal K V) :
    Query σ (Outcome (Journal K V) (Answer (Nat × Entry K V))) :=
  match e with
  | .insert hash key value eq => (·.map .added) <$> j.insert n hash key value eq
  | .remove hash accept => (·.map .taken) <$> j.remove hash accept
  | .clear => pure (.ok .done j.clear)

theorem attempt_remove (hash : UInt32) (accept : K → Query σ Bool) (j : Journal K V) (s : σ) :
    (∃ fault s', attempt (j.remove hash accept) j s = (.fail fault j, s')) ∨
      (∃ s', attempt (j.remove hash accept) j s = (.ok none j, s')) ∨
      ∃ x s', attempt (j.remove hash accept) j s = (.ok (some x) (j.strike x.1), s') := by
  rw [remove_eq]
  rcases attempt_map_cases _ ((j.under hash).findM? fun x => accept x.2.key) j s with
    ⟨found, s', h⟩ | ⟨fault, s', h⟩
  · rw [h]
    cases found with
    | none => exact .inr (.inl ⟨s', rfl⟩)
    | some x => exact .inr (.inr ⟨x, s', rfl⟩)
  · exact .inl ⟨fault, s', h⟩

theorem attempt_insert (n : Nat) (hash : UInt32) (key : K) (value : V) (eq : K → K → Query σ Bool)
    (j : Journal K V) (s : σ) :
    (∃ fault s', attempt (j.insert n hash key value eq) j s = (.fail fault j, s')) ∨
      (∃ s', attempt (j.insert n hash key value eq) j s = (.ok false j, s')) ∨
      (j.entries.length < Capacity.roundUp n ∧ ∃ s', attempt (j.insert n hash key value eq) j s =
        (.ok true (j.append ⟨markHash hash, key, value⟩), s')) := by
  rw [insert_eq]
  rcases attempt_map_cases _ ((j.under hash).findM? fun x => eq x.2.key key) j s with
    ⟨found, s', h⟩ | ⟨fault, s', h⟩
  · rw [h]
    cases found with
    | some x => exact .inr (.inl ⟨s', rfl⟩)
    | none =>
      by_cases hroom : j.entries.length < Capacity.roundUp n
      · exact .inr (.inr ⟨hroom, s', by simp [hroom]⟩)
      · exact .inl ⟨.tableFull, s', by simp [hroom]⟩
  · exact .inl ⟨fault, s', h⟩

namespace Valid

variable {n : Nat} {j : Journal K V}

theorem insert (h : j.Valid n) (hash : UInt32) (key : K) (value : V) (eq : K → K → Query σ Bool)
    (s : σ) : (attempt (j.insert n hash key value eq) j s).1.state.Valid n := by
  rcases attempt_insert n hash key value eq j s with ⟨fault, s', hrun⟩ | ⟨s', hrun⟩ | ⟨hroom, s', hrun⟩
  · rw [hrun]
    exact h
  · rw [hrun]
    exact h
  · rw [hrun]
    exact h.append (Entry.marked_mk hash key value) hroom

theorem remove (h : j.Valid n) (hash : UInt32) (accept : K → Query σ Bool) (s : σ) :
    (attempt (j.remove hash accept) j s).1.state.Valid n := by
  rcases attempt_remove hash accept j s with ⟨fault, s', hrun⟩ | ⟨s', hrun⟩ | ⟨x, s', hrun⟩
  · rw [hrun]
    exact h
  · rw [hrun]
    exact h
  · rw [hrun]
    exact h.strike x.1

theorem strike_append (h : j.Valid n) {e : Entry K V} :
    ((j.append e).strike j.clock).entries = j.entries := by
  rw [Journal.strike, Journal.append, List.filter_append]
  have hkept : j.entries.filter (fun x => decide (x.1 ≠ j.clock)) = j.entries := by
    rw [List.filter_eq_self]
    intro x hx
    have := h.fresh x hx
    simp only [decide_eq_true_iff]
    omega
  rw [hkept]
  simp

theorem edit (h : j.Valid n) (e : Edit σ K V) (s : σ) :
    (attempt (j.edit n e) j s).1.state.Valid n := by
  cases e with
  | insert hash key value eq =>
    rw [Journal.edit, attempt_map_outcome _ _ j fun _ => rfl, Outcome.state_map]
    exact h.insert hash key value eq s
  | remove hash accept =>
    rw [Journal.edit, attempt_map_outcome _ _ j fun _ => rfl, Outcome.state_map]
    exact h.remove hash accept s
  | clear => exact h.clear

theorem edit_eq (h : j.Valid n) (e : Edit σ K V) :
    (j.table n).edit e =
      (fun o => (o.map (Answer.map fun x => x.2.pair)).within (table n)) <$> j.edit n e := by
  cases e with
  | insert hash key value eq =>
    rw [Table.edit, h.insert_eq, Journal.edit, Functor.map_map, Functor.map_map]
    congr 1
    funext o
    rcases o with ⟨_ | _, _, _⟩ <;> rfl
  | remove hash accept =>
    rw [Table.edit, h.remove_eq, Journal.edit, Functor.map_map, Functor.map_map]
    congr 1
    funext o
    rcases o with ⟨_ | _, _, _⟩ <;> rfl
  | clear =>
    rw [Table.edit, h.clear_eq]
    rfl

end Valid

end Journal

variable {ι : Type}

/-- Makes calls in turn, and goes on after a call whether it answered or stopped. -/
def attemptAll (call : ι → χ → Query σ (Outcome χ α)) :
    List ι → χ → σ → List (Except Fault α) × χ
  | [], c, _ => ([], c)
  | i :: rest, c, s =>
    let (o, s) := attempt (call i c) c s
    let (answers, c) := attemptAll call rest o.state s
    (o.result :: answers, c)

def Table.removeAll (removals : List (UInt32 × (K → Query σ Bool))) (t : Table K V) (s : σ) :
    List (Except Fault (Option (K × V))) × Table K V :=
  attemptAll (fun x t => t.remove x.1 x.2) removals t s

namespace Journal

def removeAll (removals : List (UInt32 × (K → Query σ Bool))) (j : Journal K V) (s : σ) :
    List (Except Fault (Option (Nat × Entry K V))) × Journal K V :=
  attemptAll (fun x j => j.remove x.1 x.2) removals j s

/-- The stamps of the entries that were struck out. -/
def taken (answers : List (Except Fault (Option (Nat × Entry K V)))) : List Nat :=
  answers.filterMap fun answer =>
    match answer with
    | .ok found => found.map Prod.fst
    | .error _ => none

theorem removeAll_entries (removals : List (UInt32 × (K → Query σ Bool))) (j : Journal K V) (s : σ) :
    (j.removeAll removals s).2.entries =
      j.entries.filter fun x => decide (x.1 ∉ taken (j.removeAll removals s).1) := by
  induction removals generalizing j s with
  | nil => simp [removeAll, attemptAll, taken]
  | cons removal rest ih =>
    have hsplit : j.removeAll (removal :: rest) s =
        let o := attempt (j.remove removal.1 removal.2) j s
        (o.1.result :: (o.1.state.removeAll rest o.2).1, (o.1.state.removeAll rest o.2).2) := rfl
    rw [hsplit]
    rcases attempt_remove removal.1 removal.2 j s with ⟨fault, s', h⟩ | ⟨s', h⟩ | ⟨x, s', h⟩
    · rw [h]
      simpa [taken] using ih j s'
    · rw [h]
      simpa [taken] using ih j s'
    · rw [h]
      simp only [Outcome.state_ok, Outcome.result_ok]
      rw [ih (j.strike x.1) s', strike, List.filter_filter]
      apply List.filter_congr
      intro y _
      simp [taken, Bool.and_comm]

theorem Valid.removeAll {n : Nat} {j : Journal K V} (h : j.Valid n)
    (removals : List (UInt32 × (K → Query σ Bool))) (s : σ) :
    ((j.table n).removeAll removals s).2 = (j.removeAll removals s).2.table n := by
  induction removals generalizing j s with
  | nil => rfl
  | cons removal rest ih =>
    have hfirst : attempt ((j.table n).remove removal.1 removal.2) (j.table n) s =
        ((((attempt (j.remove removal.1 removal.2) j s).1).map
          (Option.map fun x => x.2.pair)).within (table n),
          (attempt (j.remove removal.1 removal.2) j s).2) := by
      rw [h.remove_eq, attempt_map_outcome _ _ j fun _ => rfl]
    have ih := ih (h.remove removal.1 removal.2 s) (attempt (j.remove removal.1 removal.2) j s).2
    have hsplit : ((j.table n).removeAll (removal :: rest) s).2 =
        let o := attempt ((j.table n).remove removal.1 removal.2) (j.table n) s
        (o.1.state.removeAll rest o.2).2 := rfl
    rw [hsplit, hfirst]
    exact ih

end Journal

/-- A table and its journal after the same edits. The journal begins empty with an empty table, or with
the entries of a table that is moved to another capacity, in bucket order. -/
inductive History (n : Nat) : Table K V → Journal K V → Prop where
  | fresh : History n (Table.withCapacity n) (Journal.begin [])
  | moved {t : Table K V} : t.Reachable → (t.rehash n).result = .ok () →
    History n (t.rehash n).state (Journal.begin t.entries)
  | step {t : Table K V} {j : Journal K V} {σ : Type} (e : Edit σ K V) (s : σ) : History n t j →
    History n (attempt (t.edit e) t s).1.state (attempt (j.edit n e) j s).1.state

/-- The table is the replay of its journal. -/
theorem History.table_eq {n : Nat} {t : Table K V} {j : Journal K V} (h : History n t j) :
    j.Valid n ∧ t = j.table n := by
  induction h with
  | fresh => exact ⟨Journal.valid_begin nofun (Nat.zero_le _), rfl⟩
  | @moved t hreach hrun =>
    have hfits : t.occupied ≤ Capacity.roundUp n := by
      by_contra hlt
      rw [Table.rehash_eq_of_lt (by omega)] at hrun
      cases hrun
    have hsound := hreach.sound
    refine ⟨Journal.valid_begin (fun e he => hsound.marked_of_mem he) ?_, ?_⟩
    · rwa [Table.length_entries]
    · rw [hsound.rehash_eq hfits, Table.replay_roundUp, Journal.table, Journal.begin,
        Table.map_snd_numbered]
      rfl
  | step e s _ ih =>
    obtain ⟨hvalid, rfl⟩ := ih
    refine ⟨hvalid.edit e s, ?_⟩
    rw [hvalid.edit_eq e, attempt_map_outcome _ _ _ fun _ => rfl]
    rfl

theorem Journal.Valid.insert_remove {σ' : Type} {n : Nat} {j : Journal K V} (hvalid : j.Valid n)
    (hash hash' : UInt32) (key : K) (value : V) (eq : K → K → Query σ Bool)
    (accept : K → Query σ' Bool) (s : σ) (s' : σ') {e : Entry K V} :
    let t' := (attempt ((j.table n).insert hash key value eq) (j.table n) s).1.state
    let j' := (attempt (j.insert n hash key value eq) j s).1.state
    (attempt ((j.table n).insert hash key value eq) (j.table n) s).1.result = .ok true →
    (attempt (j'.remove hash' accept) j' s').1.result = .ok (some (j.clock, e)) →
    (attempt (t'.remove hash' accept) t' s').1.state = j.table n := by
  intro t' j' hadded htaken
  have hput : attempt ((j.table n).insert hash key value eq) (j.table n) s =
      ((attempt (j.insert n hash key value eq) j s).1.within (Journal.table n),
        (attempt (j.insert n hash key value eq) j s).2) := by
    rw [hvalid.insert_eq, attempt_map_outcome _ _ j fun _ => rfl]
  have ht' : t' = j'.table n := by
    rw [show t' = (attempt ((j.table n).insert hash key value eq) (j.table n) s).1.state from rfl,
      hput]
    rfl
  rw [hput] at hadded
  have hj' : j' = j.append ⟨markHash hash, key, value⟩ := by
    rcases Journal.attempt_insert n hash key value eq j s with
      ⟨fault, s₁, hrun⟩ | ⟨s₁, hrun⟩ | ⟨-, s₁, hrun⟩
    · rw [hrun] at hadded
      cases hadded
    · rw [hrun] at hadded
      cases hadded
    · rw [show j' = (attempt (j.insert n hash key value eq) j s).1.state from rfl, hrun]
      rfl
  have hvalid' : j'.Valid n := hvalid.insert hash key value eq s
  rw [ht', hvalid'.remove_eq, attempt_map_outcome _ _ j' fun _ => rfl]
  rcases Journal.attempt_remove hash' accept j' s' with
    ⟨fault, s₁, hrun⟩ | ⟨s₁, hrun⟩ | ⟨x, s₁, hrun⟩
  · rw [hrun] at htaken
    cases htaken
  · rw [hrun] at htaken
    cases htaken
  · rw [hrun] at htaken
    cases htaken
    rw [hrun, hj']
    exact congrArg (Table.replay n) (congrArg (List.map Prod.snd) hvalid.strike_append)

/-- In every state the buckets are as if the entries that are gone had never been there. The journal
changes as the answers of the table tell; removals that take the same entries leave the same table in
whatever order they are made; and an entry that is put in and taken out leaves the table as it was. -/
theorem History.no_trace {n : Nat} {t : Table K V} {j : Journal K V} (h : History n t j) :
    t = Table.replay n (j.entries.map Prod.snd) ∧
    (∀ (σ : Type) (e : Edit σ K V) (s : σ),
      (attempt (t.edit e) t s).1.result =
          (attempt (j.edit n e) j s).1.result.map (Answer.map fun x => x.2.pair) ∧
        (attempt (t.edit e) t s).2 = (attempt (j.edit n e) j s).2) ∧
    (∀ (σ σ' : Type) (first : List (UInt32 × (K → Query σ Bool)))
        (second : List (UInt32 × (K → Query σ' Bool))) (s : σ) (s' : σ'),
      (∀ stamp, stamp ∈ Journal.taken (j.removeAll first s).1 ↔
        stamp ∈ Journal.taken (j.removeAll second s').1) →
      (t.removeAll first s).2 = (t.removeAll second s').2) ∧
    ∀ (σ σ' : Type) (hash hash' : UInt32) (key : K) (value : V) (eq : K → K → Query σ Bool)
        (accept : K → Query σ' Bool) (s : σ) (s' : σ') (e : Entry K V),
      let t' := (attempt (t.insert hash key value eq) t s).1.state
      let j' := (attempt (j.insert n hash key value eq) j s).1.state
      (attempt (t.insert hash key value eq) t s).1.result = .ok true →
      (attempt (j'.remove hash' accept) j' s').1.result = .ok (some (j.clock, e)) →
      (attempt (t'.remove hash' accept) t' s').1.state = t := by
  obtain ⟨hvalid, rfl⟩ := h.table_eq
  refine ⟨rfl, ?_, ?_, ?_⟩
  · intro σ e s
    rw [hvalid.edit_eq e, attempt_map_outcome _ _ j fun _ => rfl]
    exact ⟨rfl, rfl⟩
  · intro σ σ' first second s s' hsame
    rw [hvalid.removeAll first s, hvalid.removeAll second s', Journal.table, Journal.table,
      Journal.removeAll_entries, Journal.removeAll_entries]
    simp only [hsame]
  · intro σ σ' hash hash' key value eq accept s s' e t' j' hadded htaken
    exact hvalid.insert_remove hash hash' key value eq accept s s' hadded htaken

/-- Of two entries with one home, the first one is taken out. -/
theorem History.no_trace_after_removal :
    ∃ (t : Table Nat Nat) (j : Journal Nat Nat), History 0 t j ∧ t.toList = [(2, 20)] ∧
      j.entries.length = 1 ∧ t = Table.replay 0 (j.entries.map Prod.snd) := by
  have hfresh : History 0 (Table.withCapacity 0 : Table Nat Nat) (Journal.begin []) := .fresh
  have hone := hfresh.step (.insert 5 1 10 fun a b => pure (a == b)) ()
  have htwo := hone.step (.insert 5 2 20 fun a b => pure (a == b)) ()
  have hless := htwo.step (.remove 5 fun a => pure (a == 1)) ()
  exact ⟨_, _, hless, by decide, by decide, (History.no_trace hless).1⟩

end LinearProbing
