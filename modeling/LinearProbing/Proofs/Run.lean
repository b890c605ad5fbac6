import LinearProbing.Proofs.Sound

set_option autoImplicit false

/-!
# Calls on a table

A predicate of the caller may remember what it was asked, in a state of its own, and it may stop the
call. Whatever the predicates do, a table on which calls are made one after another stays sound, so a
search finds exactly what is stored.
-/

namespace LinearProbing

variable {σ K V α β χ χ' : Type}

/-- What a caller may do when asked: use a state of its own, and stop with a fault. -/
abbrev Query (σ : Type) : Type → Type := ExceptT Fault (StateM σ)

/-- Makes a call on `c`. If the caller stops it, `c` is left as it was. -/
def attempt (call : Query σ (Outcome χ α)) (c : χ) (s : σ) : Outcome χ α × σ :=
  match call.run.run s with
  | (.ok o, s) => (o, s)
  | (.error fault, s) => (.fail fault c, s)

theorem findM?_cons_run (accept : α → Query σ Bool) (x : α) (l : List α) (w : σ) :
    ((x :: l).findM? accept).run.run w =
      match (accept x).run.run w with
      | (.ok true, w) => (.ok (some x), w)
      | (.ok false, w) => (l.findM? accept).run.run w
      | (.error fault, w) => (.error fault, w) := by
  rw [List.findM?, ExceptT.run_bind, StateT.run_bind]
  rcases (accept x).run.run w with ⟨fault | answer, w'⟩
  · rfl
  · cases answer <;> rfl

inductive Edit (σ K V : Type) where
  | insert (hash : UInt32) (key : K) (value : V) (eq : K → K → Query σ Bool)
  | remove (hash : UInt32) (accept : K → Query σ Bool)
  | clear

inductive Answer (α : Type) where
  | added (isNew : Bool)
  | taken (entry : Option α)
  | done

def Answer.map (f : α → β) : Answer α → Answer β
  | .added isNew => .added isNew
  | .taken entry => .taken (entry.map f)
  | .done => .done

inductive Call (σ K V : Type) where
  | edit (e : Edit σ K V)
  | rehash (n : Nat)
  | grow
  | write (bucket : Nat) (f : V → V)
  /-- Walks through the table and passes one entry with each writer in turn. -/
  | rewrite (fs : List (K → V → Unit × V))

namespace Table

def edit (e : Edit σ K V) (t : Table K V) : Query σ (Outcome (Table K V) (Answer (K × V))) :=
  match e with
  | .insert hash key value eq => (·.map .added) <$> t.insert hash key value eq
  | .remove hash accept => (·.map .taken) <$> t.remove hash accept
  | .clear => pure (.ok .done t.clear)

def call (c : Call σ K V) (t : Table K V) : Query σ (Outcome (Table K V) Unit) :=
  match c with
  | .edit e => (·.map fun _ => ()) <$> t.edit e
  | .rehash n => pure (t.rehash n)
  | .grow => pure t.grow
  | .write bucket f => pure (t.updateAt bucket fun value => ((), f value))
  | .rewrite fs => pure (.ok () (t.reviser.takeWith fs).2.finish)

/-- A table is reachable if calls lead to it from an empty table, whether they answer or not. -/
inductive Reachable : Table K V → Prop where
  | fresh (n : Nat) : Reachable (withCapacity n)
  | step {t : Table K V} {σ : Type} (c : Call σ K V) (s : σ) :
    Reachable t → Reachable (attempt (t.call c) t s).1.state

end Table

theorem attempt_map (finish : β → Outcome χ α) (ask : Query σ β) (c : χ) (s : σ) :
    attempt (finish <$> ask) c s =
      match ask.run.run s with
      | (.ok b, s) => (finish b, s)
      | (.error fault, s) => (.fail fault c, s) := by
  have hrun : (finish <$> ask).run.run s = ((ask.run.run s).1.map finish, (ask.run.run s).2) := by
    rw [ExceptT.run_map]
    rfl
  rw [attempt, hrun]
  rcases ask.run.run s with ⟨b | fault, s⟩ <;> rfl

theorem attempt_map_outcome (finish : Outcome χ α → Outcome χ' β) (call : Query σ (Outcome χ α))
    (c : χ) {c' : χ'} (hfail : ∀ fault, finish (.fail fault c) = .fail fault c') (s : σ) :
    attempt (finish <$> call) c' s = (finish (attempt call c s).1, (attempt call c s).2) := by
  rw [attempt_map, attempt]
  rcases call.run.run s with ⟨fault | o, s'⟩
  · exact Prod.ext (hfail fault).symm rfl
  · rfl

theorem attempt_map_cases (finish : β → Outcome χ α) (ask : Query σ β) (c : χ) (s : σ) :
    (∃ b s', attempt (finish <$> ask) c s = (finish b, s')) ∨
      ∃ fault s', attempt (finish <$> ask) c s = (.fail fault c, s') := by
  rw [attempt_map]
  rcases ask.run.run s with ⟨fault | b, s'⟩
  · exact .inr ⟨fault, s', rfl⟩
  · exact .inl ⟨b, s', rfl⟩

theorem attempt_map_state {P : χ → Prop} {ask : Query σ β} {finish : β → Outcome χ α} {c : χ}
    (hc : P c) (hfinish : ∀ b, P (finish b).state) (s : σ) :
    P (attempt (finish <$> ask) c s).1.state := by
  rcases attempt_map_cases finish ask c s with ⟨b, s', h⟩ | ⟨fault, s', h⟩
  · rw [h]
    exact hfinish b
  · rw [h]
    exact hc

namespace Table

theorem attempt_edit (t : Table K V) (e : Edit σ K V) (s : σ) :
    (attempt (t.call (.edit e)) t s).1.state = (attempt (t.edit e) t s).1.state := by
  rw [call, attempt_map_outcome _ _ t fun _ => rfl, Outcome.state_map]

theorem insert_rule {P : Table K V → Prop} {t : Table K V} {hash : UInt32} {key : K} {value : V}
    (h : P t) (hsettle : ∀ found, P (t.settle (t.landing hash found) hash key value).state)
    (eq : K → K → Query σ Bool) (s : σ) :
    P (attempt (t.edit (.insert hash key value eq)) t s).1.state := by
  rw [edit, attempt_map_outcome _ _ t fun _ => rfl, Outcome.state_map, insert_eq]
  exact attempt_map_state h hsettle s

theorem remove_rule {P : Table K V → Prop} {t : Table K V} (h : P t)
    (hevict : ∀ {i : Nat} {e : Entry K V}, t.peek i = some e → P (t.evict (.found i)).state)
    (hash : UInt32) (accept : K → Query σ Bool) (s : σ) :
    P (attempt (t.edit (.remove hash accept)) t s).1.state := by
  rw [edit, attempt_map_outcome _ _ t fun _ => rfl, Outcome.state_map, remove_eq]
  refine attempt_map_state h (fun found => ?_) s
  cases t.landing hash found with
  | found i =>
    cases he : t.peek i with
    | none =>
      rw [evict]
      rcases hbucket : t.bucket i with fault | (_ | e)
      · exact h
      · exact h
      · rw [peek_of_bucket hbucket] at he
        cases he
    | some e => exact hevict he
  | vacant i => exact h
  | exhausted => exact h

namespace Sound

variable {t : Table K V}

theorem settle_state (h : t.Sound) (hash : UInt32) (found : Option (Nat × Entry K V)) (key : K)
    (value : V) : (t.settle (t.landing hash found) hash key value).state.Sound := by
  cases found with
  | some x => exact h
  | none =>
    rcases settled_of_none h.pos hash key value with ⟨i, hi, hrun⟩ | ⟨-, hrun⟩
    · rw [hrun]
      exact h.fill (Entry.marked_mk hash key value) (by rwa [home_markHash])
    · rw [hrun]
      exact h

theorem evict_state (h : t.Sound) {i : Nat} {e : Entry K V} (he : t.peek i = some e) :
    (t.evict (.found i)).state.Sound := by
  obtain ⟨t', hrun, hsound, -⟩ := h.evict_found he
  rw [hrun]
  exact hsound

theorem edit (h : t.Sound) (e : Edit σ K V) (s : σ) : (attempt (t.edit e) t s).1.state.Sound := by
  cases e with
  | insert hash key value eq =>
    exact insert_rule h (fun found => h.settle_state hash found key value) eq s
  | remove hash accept => exact remove_rule h h.evict_state hash accept s
  | clear => exact h.clear

theorem call (h : t.Sound) (c : Call σ K V) (s : σ) : (attempt (t.call c) t s).1.state.Sound := by
  cases c with
  | edit e =>
    rw [attempt_edit]
    exact h.edit e s
  | rehash n => exact h.rehash_state n
  | grow => exact h.grow_state
  | write bucket f => exact updateAt_rule (fun h he => h.put_value he _) h bucket
  | rewrite fs =>
    exact takeWith_rule (fun h he _ _ => h.put_value he _) (r := t.reviser) h

end Sound

/-- Calls on an empty table keep it sound. -/
theorem Reachable.sound {t : Table K V} (h : t.Reachable) : t.Sound := by
  induction h with
  | fresh n => exact sound_withCapacity n
  | step c s _ ih => exact ih.call c s

theorem attempt_insert_pure (t : Table K V) (hash : UInt32) (key : K) (value : V) (eq : K → K → Bool)
    (s : σ) :
    attempt (t.insert hash key value fun stored new => pure (eq stored new)) t s =
      (Id.run (t.insert hash key value fun stored new => pure (eq stored new)), s) := by
  rw [insert_eq, insert_eq, List.findM?_pure, List.findM?_pure]
  rfl

theorem Reachable.lay {t : Table K V} (h : t.Reachable) (e : Entry K V) : (t.lay e).Reachable := by
  have hstep := h.step (.edit (.insert e.hash e.key e.value fun _ _ => pure false)) ()
  rw [attempt_edit, edit, attempt_map_outcome _ _ t fun _ => rfl,
    attempt_insert_pure t _ _ _ fun _ _ => false] at hstep
  exact hstep

theorem reachable_replay (n : Nat) (es : List (Entry K V)) : (replay n es).Reachable := by
  induction es using List.reverseRecOn with
  | nil => exact .fresh n
  | append_singleton es e ih =>
    rw [replay_append_singleton]
    exact ih.lay e

end Table

end LinearProbing
