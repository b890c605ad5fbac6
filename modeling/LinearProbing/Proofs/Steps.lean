import LinearProbing.Proofs.Calls
import LinearProbing.Proofs.HighWater
import LinearProbing.Proofs.Search
import LinearProbing.Proofs.Writing

set_option autoImplicit false

/-!
# What one act does

Whatever a caller does to a map or a set in order, with any hash and any predicate, one that always or
never accepts, that contradicts itself, that remembers what it was asked, or that stops the call, the
container is in order afterwards. What is said here of one act is carried along every trace.
-/

namespace LinearProbing

open Capacity

universe u

variable {σ K V P α β χ χ' : Type}

/-- In some state of the caller, a question ends in a result. -/
def Ends (question : Query σ α) (result : Except Fault α) : Prop :=
  ∃ w w', question.run.run w = (result, w')

theorem findM?_cases (accept : α → Query σ Bool) (l : List α) (w : σ) :
    (∃ found w', (l.findM? accept).run.run w = (.ok found, w') ∧
        ∀ x, found = some x → x ∈ l ∧ Ends (accept x) (.ok true)) ∨
      ∃ fault w', (l.findM? accept).run.run w = (.error fault, w') ∧
        ∃ x ∈ l, Ends (accept x) (.error fault) := by
  induction l generalizing w with
  | nil => exact .inl ⟨none, w, rfl, nofun⟩
  | cons x l ih =>
    rw [findM?_cons_run]
    rcases hasked : (accept x).run.run w with ⟨fault | answer, w'⟩
    · exact .inr ⟨fault, w', rfl, x, List.mem_cons_self, w, w', hasked⟩
    · cases answer with
      | true =>
        refine .inl ⟨some x, w', rfl, ?_⟩
        rintro y ⟨⟩
        exact ⟨List.mem_cons_self, w, w', hasked⟩
      | false =>
        rcases ih w' with ⟨found, w'', hrun, hfound⟩ | ⟨fault, w'', hrun, y, hy, hstop⟩
        · exact .inl ⟨found, w'', hrun, fun y hy =>
            ⟨List.mem_cons_of_mem x (hfound y hy).1, (hfound y hy).2⟩⟩
        · exact .inr ⟨fault, w'', hrun, y, List.mem_cons_of_mem x hy, hstop⟩

namespace Table

/-- Asking about some key of the table stops with a fault. -/
def Stops (t : Table K V) (accept : K → Query σ Bool) (fault : Fault) : Prop :=
  ∃ e ∈ t.entries, Ends (accept e.key) (.error fault)

theorem Sound.probe_cases {t : Table K V} (h : t.Sound) (hash : UInt32) (accept : K → Query σ Bool)
    (w : σ) :
    (∃ found w', (t.probe hash accept).run.run w = (.ok (t.landing hash found), w') ∧
        ∀ x, found = some x →
          t.peek x.1 = some x.2 ∧ x.2.hash = markHash hash ∧ Ends (accept x.2.key) (.ok true)) ∨
      ∃ fault w', (t.probe hash accept).run.run w = (.error fault, w') ∧ t.Stops accept fault := by
  rw [probe_eq, ExceptT.run_map, StateT.run_map]
  rcases findM?_cases (fun x : Nat × Entry K V => accept x.2.key) (t.candidates hash) w with
    ⟨found, w', hrun, hfound⟩ | ⟨fault, w', hrun, x, hx, hstop⟩
  · rw [hrun]
    refine .inl ⟨found, w', rfl, fun x hx => ?_⟩
    obtain ⟨hmem, haccepted⟩ := hfound x hx
    obtain ⟨hpeek, hhash⟩ := h.mem_candidates_iff.1 hmem
    exact ⟨hpeek, hhash, haccepted⟩
  · rw [hrun]
    exact .inr ⟨fault, w', rfl, x.2, mem_entries.2 ⟨x.1, (h.mem_candidates_iff.1 hx).1⟩, hstop⟩

end Table

/-- What an operation with so many insertions does to a container whose store is in order, if no faults
but these stop it. In a container that is too large for the load test it may also end in an overflow. -/
structure Step (store : χ → Store K V) (stops : Fault → Prop) (inserts : Nat) (c : χ)
    (o : Outcome χ α) : Prop where
  kept : (store o.state).Kept
  idle : (store o.state).busy = false
  grows : (store c).capacity ≤ (store o.state).capacity
  ends : (store c).Light →
    (store o.state).Light ∧
        ((∃ a, o.result = .ok a) ∨ ∃ fault, o.result = .error fault ∧ stops fault) ∨
      loadLimit ≤ (store o.state).capacity ∧ ∃ fault, o.result = .error fault ∧ fault.Overflow
  climbs : (store c).Light → (store o.state).capacity < loadLimit →
    Climb (store c).capacity (store c).len (store o.state).capacity (store o.state).len o.events inserts

namespace Step

variable {store : χ → Store K V} {stops : Fault → Prop} {inserts inserts' : Nat} {c : χ}
  {o : Outcome χ α}

theorem map (h : Step store stops inserts c o) (f : α → β) :
    Step store stops inserts c (o.map f) := by
  refine ⟨h.kept, h.idle, h.grows, fun hlight => ?_, h.climbs⟩
  rcases h.ends hlight with ⟨hlight', ⟨a, ha⟩ | ⟨fault, hfault, hstop⟩⟩ | ⟨hcap, fault, hfault, hover⟩
  · exact .inl ⟨hlight', .inl ⟨f a, congrArg (Except.map f) ha⟩⟩
  · exact .inl ⟨hlight', .inr ⟨fault, congrArg (Except.map f) hfault, hstop⟩⟩
  · exact .inr ⟨hcap, fault, congrArg (Except.map f) hfault, hover⟩

theorem within (wrap : χ' → χ) {c : χ'} {o : Outcome χ' α}
    (h : Step (fun c => store (wrap c)) stops inserts c o) :
    Step store stops inserts (wrap c) (o.within wrap) :=
  ⟨h.kept, h.idle, h.grows, h.ends, h.climbs⟩

theorem of_false (h : Step store (fun _ => False) inserts c o) : Step store stops inserts c o := by
  refine ⟨h.kept, h.idle, h.grows, fun hlight => ?_, h.climbs⟩
  rcases h.ends hlight with ⟨hlight', hanswer | ⟨fault, -, hstop⟩⟩ | hover
  · exact .inl ⟨hlight', .inl hanswer⟩
  · exact hstop.elim
  · exact .inr hover

theorem stop (hkept : (store c).Kept) (hidle : (store c).busy = false) {fault : Fault}
    (hstop : stops fault) : Step store stops inserts c (.fail fault c : Outcome χ α) :=
  ⟨hkept, hidle, Nat.le_refl _, fun hlight => .inl ⟨hlight, .inr ⟨fault, rfl, hstop⟩⟩,
    fun _ _ => .same inserts⟩

theorem same (hkept : (store c).Kept) (hidle : (store c).busy = false) (a : α) :
    Step store stops inserts c (.ok a c) :=
  ⟨hkept, hidle, Nat.le_refl _, fun hlight => .inl ⟨hlight, .inl ⟨a, rfl⟩⟩, fun _ _ => .same inserts⟩

theorem bind (h : Step store stops inserts c o) {next : α → χ → Outcome χ β}
    (h' : ∀ a, o.result = .ok a → Step store stops inserts' o.state (next a o.state))
    (hinserts : inserts ≠ 0) (hinserts' : inserts' ≠ 0) :
    Step store stops (inserts + inserts') c (o.bind next) := by
  cases hresult : o.result with
  | error fault =>
    rw [Outcome.bind_of_error hresult]
    refine ⟨h.kept, h.idle, h.grows, fun hlight => ?_, fun hlight hcap => ?_⟩
    · rcases h.ends hlight with ⟨hlight', ⟨a, ha⟩ | ⟨fault', hfault, hstop⟩⟩ | ⟨hcap, fault', hfault, hover⟩
      · rw [hresult] at ha
        cases ha
      · rw [hresult] at hfault
        cases hfault
        exact .inl ⟨hlight', .inr ⟨fault, rfl, hstop⟩⟩
      · rw [hresult] at hfault
        cases hfault
        exact .inr ⟨hcap, fault, rfl, hover⟩
    · have hclimb := h.climbs hlight hcap
      exact ⟨hclimb.onward, hclimb.le, fun _ => hclimb.longer hinserts,
        hclimb.few.trans (Nat.le_add_right _ _), hclimb.crowded⟩
  | ok a =>
    have hnext := h' a hresult
    rw [Outcome.bind_of_ok hresult]
    have hmid : (store c).Light → (store o.state).Light := by
      intro hlight
      rcases h.ends hlight with ⟨hlight', -⟩ | ⟨-, fault, hfault, -⟩
      · exact hlight'
      · rw [hresult] at hfault
        cases hfault
    refine ⟨hnext.kept, hnext.idle, h.grows.trans hnext.grows, fun hlight => hnext.ends (hmid hlight),
      fun hlight hcap => ?_⟩
    have hfirst := h.climbs hlight (hnext.grows.trans_lt hcap)
    have hsecond := hnext.climbs (hmid hlight) hcap
    exact hfirst.trans hsecond (hfirst.longer hinserts) (hsecond.longer hinserts')

end Step

namespace Store

variable {s : Store K V} {stops : Fault → Prop}

theorem Kept.enter (h : s.Kept) : s.enter.Kept := ⟨h.sound, h.rounded, h.sized, h.counted⟩

theorem Kept.steady (h : s.Kept) (hidle : s.busy = false) (hlight : s.Light) : s.Steady :=
  ⟨h.sound, h.rounded, h.counted, hidle, hlight⟩

theorem Rests.step {o : Outcome (Store K V) α} (hrests : Rests s o) (h : s.Kept)
    (hidle : s.busy = false) : Step id stops 0 s o := by
  have hclimbs := fun hlight => (h.steady hidle hlight).climbs_rest hrests
  obtain ⟨a, t', len', rfl, hsound, hcap, hlen, -⟩ := hrests
  rcases s with ⟨t, len, busy⟩
  exact ⟨h.of_table hsound hcap hlen, hidle, hcap.ge,
    fun hlight => .inl ⟨(hclimbs hlight).1.calm, .inl ⟨a, rfl⟩⟩, fun hlight _ => (hclimbs hlight).2⟩

theorem probing_run_eq (hidle : s.busy = false) (hash : UInt32)
    (accept : Store K V → K → Query σ Bool) (commit : Landing → Store K V → Outcome (Store K V) α)
    (w : σ) :
    (s.probing hash accept commit).run w =
      match (s.table.probe hash (accept s.enter)).run.run w with
      | (.ok landing, w) => ((commit landing s.enter).within leave, w)
      | (.error fault, w) => (.fail fault s, w) := by
  have htable : s.enter.table = s.table := rfl
  rw [probing, hidle, if_neg Bool.false_ne_true, StateT.run_bind, htable]
  rcases (s.table.probe hash (accept s.enter)).run.run w with ⟨fault | landing, w'⟩
  · exact congrArg (fun s => (Outcome.fail fault s, w')) (leave_enter hidle)
  · rfl

/-- What a request does where its probe lands keeps a store in order, and if the probe found nothing, the
request is answered. -/
structure Commits (inserts : Nat) (s : Store K V) (hash : UInt32)
    (commit : Landing → Store K V → Outcome (Store K V) α) : Prop where
  step : ∀ found, (∀ x, found = some x → s.table.peek x.1 = some x.2) →
    Step id (fun _ => False) inserts s ((commit (s.table.landing hash found) s.enter).within leave)
  missed : s.Light → s.capacity < loadLimit →
    ∃ a, (commit (s.table.landing hash none) s.enter).result = .ok a

theorem Kept.commits_settle (h : s.Kept) (hidle : s.busy = false) (hash : UInt32) (key : K) (value : V) :
    s.Commits 1 hash fun landing s => s.settle landing hash key value := by
  refine ⟨fun found _ => ?_, fun hlight hcap => ⟨true, ?_⟩⟩
  · have hupkeep := (h.enter.settle hash found key value).leave
    refine ⟨hupkeep.kept, rfl, hupkeep.grows, fun hlight => ?_, fun hlight hcap => ?_⟩
    · rcases hupkeep.ends hlight with ⟨hlight', hanswer⟩ | hover
      · exact .inl ⟨hlight', .inl hanswer⟩
      · exact .inr hover
    · have hbefore : s.capacity < loadLimit := hupkeep.grows.trans_lt hcap
      exact ((h.steady hidle hlight).climbs_settle hbefore hash found key value).2
  · obtain ⟨t', events, hrun, -⟩ := (h.steady hidle hlight).settle_none hcap hash key value
    exact congrArg Outcome.result hrun

theorem Kept.commits_read (h : s.Kept) (hidle : s.busy = false) (hash : UInt32) :
    s.Commits 0 hash read := by
  refine ⟨fun found hfound => ?_, fun _ _ => ⟨none, ?_⟩⟩
  · exact ((rests_read h.enter.sound h.enter.counted hash hfound).leave hidle).step h hidle
  · rw [read_landing_none]
    rfl

theorem Kept.commits_revise (h : s.Kept) (hidle : s.busy = false) (hash : UInt32) (f : V → α × V) :
    s.Commits 0 hash (revise f) := by
  refine ⟨fun found hfound => ?_, fun _ _ => ⟨none, ?_⟩⟩
  · exact ((rests_revise h.enter.sound h.enter.counted hash hfound f).leave hidle).step h hidle
  · rw [revise_landing_none]
    rfl

theorem Kept.commits_evict (h : s.Kept) (hidle : s.busy = false) (hash : UInt32) :
    s.Commits 0 hash evict := by
  refine ⟨fun found hfound => ?_, fun _ _ => ⟨none, ?_⟩⟩
  · exact ((rests_evict h.enter.sound h.enter.counted hash hfound).leave hidle).step h hidle
  · rw [evict_landing_none]
    rfl

theorem Commits.probing {inserts : Nat} {hash : UInt32}
    {commit : Landing → Store K V → Outcome (Store K V) α} (hcommits : s.Commits inserts hash commit)
    (h : s.Kept) (hidle : s.busy = false) (accept : Store K V → K → Query σ Bool) (w : σ) :
    Step id (s.table.Stops (accept s.enter)) inserts s ((s.probing hash accept commit).run w).1 := by
  rw [probing_run_eq hidle]
  rcases h.sound.probe_cases hash (accept s.enter) w with
    ⟨found, w', hrun, hfound⟩ | ⟨fault, w', hrun, hstop⟩
  · rw [hrun]
    exact (hcommits.step found fun x hx => (hfound x hx).1).of_false
  · rw [hrun]
    exact .stop h hidle hstop

end Store

theorem Store.Commits.probing_pure {s : Store K V} {stops : Fault → Prop} {inserts : Nat}
    {hash : UInt32} {commit : Landing → Store K V → Outcome (Store K V) α}
    (hcommits : s.Commits inserts hash commit) (h : s.Kept) (hidle : s.busy = false)
    {accept : Store K V → K → ExceptT Fault Id Bool} (accepts : K → Bool)
    (hask : ∀ x ∈ s.table.candidates hash, accept s.enter x.2.key = pure (accepts x.2.key)) :
    Step id stops inserts s (Id.run (s.probing hash accept commit)) := by
  rw [Store.probing_pure hidle accepts hask]
  refine (hcommits.step _ fun x hx => ?_).of_false
  exact (h.sound.mem_candidates_iff.1 (List.mem_of_find?_eq_some hx)).1

/-- A request to a map is a probe of its store, whatever is asked and by whom. -/
theorem Map.serve_probing (s : Map K V) (c : Guarded P K V (V → V)) :
    ∃ (α : Type) (commit : Landing → Store K V → Outcome (Store K V) α) (f : α → Reply K V),
      (∀ {m : Type → Type} [Monad m] [LawfulMonad m] (ask : P → Store K V → ExceptT Fault m Bool),
        s.serve (c.asking ask) = (fun o => (o.map f).within (⟨·, s.hashOf⟩)) <$>
          s.toStore.probing (c.probed s.hashOf) (fun busy stored => ask (c.asks stored) busy) commit) ∧
      (s.Kept → s.busy = false → s.toStore.Commits c.inserts (c.probed s.hashOf) commit) := by
  rcases s with ⟨store, hashOf⟩
  rcases c with ⟨⟨_ | hash, eq⟩, key, value⟩ | (⟨key, eq⟩ | ⟨hash, accept⟩) |
    ⟨⟨key, eq⟩ | ⟨hash, accept⟩, f⟩ | (⟨key, eq⟩ | ⟨hash, accept⟩)
  · exact ⟨_, _, .flag, fun _ => Functor.map_map .., fun h hidle => h.commits_settle hidle _ key value⟩
  · exact ⟨_, _, .flag, fun _ => rfl, fun h hidle => h.commits_settle hidle hash key value⟩
  · exact ⟨_, _, .entry, fun _ => Functor.map_map .., fun h hidle => h.commits_read hidle _⟩
  · exact ⟨_, _, .entry, fun _ => rfl, fun h hidle => h.commits_read hidle hash⟩
  · exact ⟨_, _, .value, fun _ => Functor.map_map .., fun h hidle => h.commits_revise hidle _ _⟩
  · exact ⟨_, _, .value, fun _ => rfl, fun h hidle => h.commits_revise hidle hash _⟩
  · exact ⟨_, _, .entry, fun _ => Functor.map_map .., fun h hidle => h.commits_evict hidle _⟩
  · exact ⟨_, _, .entry, fun _ => rfl, fun h hidle => h.commits_evict hidle hash⟩

namespace Map

variable {s : Map K V} {stops : Fault → Prop}

theorem serve_step (h : s.Kept) (hidle : s.busy = false)
    (c : Guarded (Store K V → Query σ Bool) K V (V → V)) (w : σ) :
    Step toStore (s.table.Stops fun stored => c.asks stored s.enter) c.inserts s
      ((s.serve c).run w).1 := by
  obtain ⟨α, commit, f, hserve, hcommits⟩ := s.serve_probing c
  have hstore := (hcommits h hidle).probing h hidle (fun busy stored => c.asks stored busy) w
  have hrun := hserve (m := StateM σ) id
  rw [c.asking_id] at hrun
  rw [hrun, StateT.run_map]
  exact (hstore.map f).within (Map.mk · s.hashOf)

variable [BEq K]

theorem keyed_step (h : s.Kept) (hidle : s.busy = false) {inserts : Nat} (key : K)
    {commit : Landing → Store K V → Outcome (Store K V) α}
    (hcommits : s.toStore.Commits inserts (bucketHash s.hashOf key) commit) :
    Step toStore stops inserts s
      ((Id.run (s.toStore.probing (bucketHash s.hashOf key)
        (fun busy stored => sameKey busy stored key) commit)).within (Map.mk · s.hashOf)) := by
  have hstep : Step id stops inserts s.toStore (Id.run (s.toStore.probing (bucketHash s.hashOf key)
      (fun busy stored => sameKey busy stored key) commit)) :=
    hcommits.probing_pure h hidle (· == key) fun _ _ => rfl
  exact hstep.within (Map.mk · s.hashOf)

theorem insert_step (h : s.Kept) (hidle : s.busy = false) (key : K) (value : V) :
    Step toStore stops 1 s (s.insert key value) :=
  keyed_step h hidle key (h.commits_settle hidle _ key value)

theorem extend_step {s : Map K V} (h : s.Kept) (hidle : s.busy = false) (pairs : List (K × V)) :
    Step toStore stops pairs.length s (s.extend pairs) := by
  induction pairs generalizing s with
  | nil => exact .same h hidle ()
  | cons p pairs ih =>
    have hfirst : Step toStore stops 1 s ((s.insert p.1 p.2).map fun _ => ()) :=
      (insert_step h hidle p.1 p.2).map _
    have hsplit : s.extend (p :: pairs) = ((s.insert p.1 p.2).map fun _ => ()).bind fun _ s =>
        s.extend pairs := Outcome.fold_cons ..
    rw [hsplit]
    cases pairs with
    | nil =>
      have hnone : (fun (_ : Unit) (s : Map K V) => s.extend []) = Outcome.ok := rfl
      rw [hnone, Outcome.bind_ok]
      exact hfirst
    | cons q pairs =>
      rw [List.length_cons, Nat.add_comm]
      exact hfirst.bind (fun _ _ => ih hfirst.kept hfirst.idle) one_ne_zero (Nat.succ_ne_zero _)

theorem reply_step (h : s.Kept) (hidle : s.busy = false) (c : MapCall K V) :
    Step toStore stops (MapAct.inserts (.keyed c)) s (s.reply c) := by
  have hfind : ∀ key, Step toStore stops 0 s (s.findEntry key) := fun key =>
    keyed_step h hidle key (h.commits_read hidle _)
  have hremove : ∀ key, Step toStore stops 0 s (s.removeEntry key) := fun key =>
    keyed_step h hidle key (h.commits_evict hidle _)
  cases c with
  | insert key value => exact (insert_step h hidle key value).map Reply.flag
  | extend pairs => exact (extend_step h hidle pairs).map _
  | find key => exact ((hfind key).map (·.map Prod.snd)).map Reply.value
  | findEntry key => exact (hfind key).map Reply.entry
  | update key f =>
    exact (keyed_step h hidle key (h.commits_revise hidle _ fun value => (value, f value))).map Reply.value
  | contains key => exact ((hfind key).map Option.isSome).map Reply.flag
  | remove key => exact ((hremove key).map Option.isSome).map Reply.flag
  | removeEntry key => exact (hremove key).map Reply.entry
  | clear =>
    have hclear : Step id stops 0 s.toStore s.toStore.clear :=
      (Store.rests_clear h.sound hidle).step h hidle
    exact (hclear.within (Map.mk · s.hashOf)).map _

end Map

namespace MapAct

def Stops (a : MapAct K V) (s : Map K V) (fault : Fault) : Prop :=
  match a with
  | .serve c _ => s.table.Stops (fun stored => c.asks stored s.enter) fault
  | .keyed _ | .rewrite _ => False

theorem step [BEq K] {s : Map K V} (h : s.Kept) (hidle : s.busy = false) (a : MapAct K V) :
    Step Map.toStore (a.Stops s) a.inserts s (a.run s) := by
  cases a with
  | keyed c => exact Map.reply_step h hidle c
  | serve c w => exact Map.serve_step h hidle c w
  | rewrite fs =>
    have hstore : Step id (fun _ => False) 0 s.toStore (s.toStore.rewrite fs) :=
      (Store.rests_rewrite h.sound h.counted fs).step h hidle
    exact (hstore.within (Map.mk · s.hashOf)).map _

end MapAct

theorem SetAct.step [BEq K] {s : KeySet K} (h : s.map.Kept) (hidle : s.map.busy = false)
    (a : SetAct K) :
    Step (fun s => s.map.toStore) (a.onMap.Stops s.map) a.inserts s (a.run s) := by
  rw [a.run_eq, ← a.inserts_onMap]
  exact ((a.onMap.step h hidle).map KeySet.member).within KeySet.mk

/-- No load test has overflowed: the capacity is too small for it, or no operation ended like that. -/
def Tested (faults : List Fault) (capacity : Nat) : Prop :=
  capacity < loadLimit ∨ ∀ fault ∈ faults, ¬ fault.Overflow

theorem Tested.of_append {faults faults' : List Fault} {capacity capacity' : Nat}
    (h : Tested (faults ++ faults') capacity') (hle : capacity ≤ capacity') :
    Tested faults capacity :=
  h.imp hle.trans_lt fun hnone fault hfault => hnone fault (List.mem_append_left _ hfault)

/-- A store in order on which no probe is going on, once operations have ended in these faults. -/
structure Store.Fit (faults : List Fault) (s : Store K V) : Prop where
  kept : s.Kept
  idle : s.busy = false
  light : Tested faults s.capacity → s.Light

theorem Store.fit_withCapacity {n : Nat} (hn : n < Size.limit) :
    (withCapacity n : Store K V).Fit [] := by
  have hsteady : (withCapacity n : Store K V).Steady := steady_withCapacity n
  have hcap : (withCapacity n : Store K V).table.capacity = roundUp n :=
    Table.capacity_withCapacity n
  refine ⟨⟨hsteady.sound, hsteady.rounded, ?_, hsteady.counted⟩, hsteady.idle, fun _ => hsteady.calm⟩
  rw [hcap]
  exact roundUp_lt_limit hn

theorem Step.fit {store : χ → Store K V} {stops : Fault → Prop} {inserts : Nat} {c : χ}
    {o : Outcome χ α} (h : Step store stops inserts c o) {faults : List Fault}
    (hfit : (store c).Fit faults) : (store o.state).Fit (faults ++ faultOf o) := by
  refine ⟨h.kept, h.idle, fun htested => ?_⟩
  rcases h.ends (hfit.light (htested.of_append h.grows)) with
    ⟨hlight, -⟩ | ⟨hcap, fault, hfault, hoverflow⟩
  · exact hlight
  · -- the store would be too large for the test and the overflow one of the faults
    exfalso
    rcases htested with hsmall | hnone
    · exact Nat.not_lt.2 hcap hsmall
    · refine hnone fault (List.mem_append_right _ ?_) hoverflow
      rw [faultOf, hfault]
      exact List.mem_singleton_self fault

/-- What one act does to a container in order is done all along a trace. -/
theorem Trace.fit (store : χ → Store K V) {ι : Type u} {act : ι → χ → Outcome χ α}
    {stops : ι → χ → Fault → Prop} {inserts : ι → Nat}
    (hstep : ∀ i c, (store c).Kept → (store c).busy = false →
      Step store (stops i c) (inserts i) c (act i c))
    {start : χ} (hstart : (store start).Fit []) {past : List (ι × Outcome χ α)} {c : χ}
    (h : Trace act start past c) : (store c).Fit (faults past) := by
  induction h with
  | start => exact hstart
  | step i _ ih =>
    rw [faults_append_single]
    exact (hstep i _ ih.kept ih.idle).fit ih

theorem Map.fit_of_trace [BEq K] {n : Nat} (hn : n < Size.limit) {hashOf : K → UInt64}
    {past : List (MapAct K V × Outcome (Map K V) (Reply K V))} {s : Map K V}
    (h : Trace MapAct.run (withCapacity n hashOf) past s) : s.Fit (faults past) :=
  h.fit Map.toStore (fun a _ h hidle => MapAct.step h hidle a) (Store.fit_withCapacity hn)

theorem KeySet.fit_of_trace [BEq K] {n : Nat} (hn : n < Size.limit) {hashOf : K → UInt64}
    {past : List (SetAct K × Outcome (KeySet K) (Reply K Unit))} {s : KeySet K}
    (h : Trace SetAct.run (withCapacity n hashOf) past s) : s.map.Fit (faults past) :=
  h.fit (fun s : KeySet K => s.map.toStore) (fun a _ h hidle => SetAct.step h hidle a)
    (Store.fit_withCapacity hn)

end LinearProbing
