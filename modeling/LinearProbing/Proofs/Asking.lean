import LinearProbing.Proofs.Journal
import LinearProbing.Proofs.Search

set_option autoImplicit false

/-!
# What predicates are asked

A call asks its predicate about the entries that are stored under its hash, wherever they lie, in the
order in which the probe path passes them, until one is accepted. It asks about no other entry and about
no entry twice.
-/

namespace LinearProbing

open LinearProbing.Cycle

variable {σ K V β : Type}

/-- A predicate that keeps a record of the keys it is asked about and of its answers, first one first. -/
def recorded (accept : K → Query σ Bool) (key : K) :
    Query (σ × List (K × Except Fault Bool)) Bool :=
  ExceptT.mk fun (w, asked) =>
    let (answer, w) := (accept key).run.run w
    (answer, w, asked ++ [(key, answer)])

/-- Questions about the keys of some entries in turn, with their answers, and what they come to. All
answers but the last one are rejections, and only after an entry has been accepted, or a question has
stopped the search, are there entries left that are not asked about. -/
inductive AskedInTurn : List (Nat × Entry K V) → List (K × Except Fault Bool) →
    Except Fault (Option (Nat × Entry K V)) → Prop where
  | done : AskedInTurn [] [] (.ok none)
  | rejected {x : Nat × Entry K V} {rest : List (Nat × Entry K V)}
    {asked : List (K × Except Fault Bool)} {found : Except Fault (Option (Nat × Entry K V))} :
    AskedInTurn rest asked found →
    AskedInTurn (x :: rest) ((x.2.key, .ok false) :: asked) found
  | accepted (x : Nat × Entry K V) (rest : List (Nat × Entry K V)) :
    AskedInTurn (x :: rest) [(x.2.key, .ok true)] (.ok (some x))
  | stopped (x : Nat × Entry K V) (rest : List (Nat × Entry K V)) (fault : Fault) :
    AskedInTurn (x :: rest) [(x.2.key, .error fault)] (.error fault)

theorem findM?_recorded (accept : K → Query σ Bool) (l : List (Nat × Entry K V)) (w : σ)
    (before : List (K × Except Fault Bool)) :
    ∃ asked found w', AskedInTurn l asked found ∧
      (l.findM? fun x => accept x.2.key).run.run w = (found, w') ∧
      (l.findM? fun x => recorded accept x.2.key).run.run (w, before) =
        (found, w', before ++ asked) := by
  induction l generalizing w before with
  | nil => exact ⟨[], .ok none, w, .done, rfl, by rw [List.append_nil]; rfl⟩
  | cons x rest ih =>
    rw [findM?_cons_run, findM?_cons_run]
    rcases hask : (accept x.2.key).run.run w with ⟨answer, w'⟩
    have hrecord : (recorded accept x.2.key).run.run (w, before) =
        (answer, w', before ++ [(x.2.key, answer)]) :=
      congrArg (fun r : Except Fault Bool × σ => (r.1, r.2, before ++ [(x.2.key, r.1)])) hask
    rw [hrecord]
    cases answer with
    | error fault => exact ⟨_, _, w', .stopped x rest fault, rfl, rfl⟩
    | ok accepted =>
      cases accepted with
      | true => exact ⟨_, _, w', .accepted x rest, rfl, rfl⟩
      | false =>
        obtain ⟨asked, found, w'', hturn, hrun, hrecorded⟩ :=
          ih w' (before ++ [(x.2.key, .ok false)])
        refine ⟨_, found, w'', .rejected hturn, hrun, ?_⟩
        rw [List.append_assoc] at hrecorded
        exact hrecorded

theorem AskedInTurn.mem {l : List (Nat × Entry K V)} {asked : List (K × Except Fault Bool)}
    {x : Nat × Entry K V} (h : AskedInTurn l asked (.ok (some x))) : x ∈ l := by
  generalize hfound : (.ok (some x) : Except Fault (Option (Nat × Entry K V))) = found at h
  induction h with
  | done => cases hfound
  | rejected _ ih => exact List.mem_cons_of_mem _ (ih hfound)
  | accepted y rest =>
    cases hfound
    exact List.mem_cons_self
  | stopped y rest fault => cases hfound

/-- A call asks about some entries in turn and comes to a result that fits what it found. To keep a record
of the questions changes neither the result nor the state of the caller. -/
def AsksInTurn (entries : List (Nat × Entry K V)) (fits : Option (Nat × Entry K V) → β → Prop)
    (call : Query σ β) (noted : Query (σ × List (K × Except Fault Bool)) β) : Prop :=
  ∀ w, ∃ asked found result w', AskedInTurn entries asked found ∧
    (match found with
      | .ok x => ∃ b, result = .ok b ∧ fits x b
      | .error fault => result = .error fault) ∧
    call.run.run w = (result, w') ∧ noted.run.run (w, []) = (result, w', asked)

theorem asksInTurn_of_search {fits : Option (Nat × Entry K V) → β → Prop}
    {goOn : Option (Nat × Entry K V) → β} {l : List (Nat × Entry K V)} {accept : K → Query σ Bool}
    {call : Query σ β} {noted : Query (σ × List (K × Except Fault Bool)) β}
    (hcall : call = goOn <$> l.findM? fun x => accept x.2.key)
    (hnoted : noted = goOn <$> l.findM? fun x => recorded accept x.2.key)
    (hnone : fits none (goOn none)) (hsome : ∀ x ∈ l, fits (some x) (goOn (some x))) :
    AsksInTurn l fits call noted := by
  intro w
  obtain ⟨asked, found, w', hturn, hrun, hrecorded⟩ := findM?_recorded accept l w []
  refine ⟨asked, found, found.map goOn, w', hturn, ?_, ?_, ?_⟩
  · cases found with
    | error fault => rfl
    | ok x =>
      refine ⟨goOn x, rfl, ?_⟩
      cases x with
      | none => exact hnone
      | some x => exact hsome x hturn.mem
  · rw [hcall, ExceptT.run_map, StateT.run_map, hrun]
    rfl
  · rw [hnoted, ExceptT.run_map, StateT.run_map, hrecorded]
    rfl

namespace Table

/-- The occupied buckets on the probe path of a hash, once around the table, each with its entry. -/
def around (t : Table K V) (hash : UInt32) : List (Nat × Entry K V) :=
  ((List.range t.capacity).map (ahead t.capacity (t.home hash))).filterMap fun i =>
    (t.peek i).map fun e => (i, e)

/-- The entries that are stored under a hash, in the order of its probe path, each with its bucket. -/
def under (t : Table K V) (hash : UInt32) : List (Nat × Entry K V) :=
  (t.around hash).filter fun x => decide (x.2.hash = markHash hash)

theorem mem_around {t : Table K V} (hpos : 0 < t.capacity) {hash : UInt32} {i : Nat}
    {e : Entry K V} : (i, e) ∈ t.around hash ↔ t.peek i = some e := by
  simp only [around, List.mem_filterMap, List.mem_map, List.mem_range, Option.map_eq_some_iff,
    Prod.mk.injEq]
  constructor
  · rintro ⟨_, -, _, he, rfl, rfl⟩
    exact he
  · intro he
    have hi := lt_capacity_of_peek he
    have hhome : t.home hash < t.capacity := home_lt hpos hash
    exact ⟨i, ⟨_, distance_lt hpos (t.home hash) i, ahead_distance hhome hi⟩, e, he, rfl, rfl⟩

theorem mem_under {t : Table K V} (hpos : 0 < t.capacity) {hash : UInt32} {i : Nat}
    {e : Entry K V} : (i, e) ∈ t.under hash ↔ t.peek i = some e ∧ e.hash = markHash hash := by
  rw [under, List.mem_filter, mem_around hpos, decide_eq_true_iff]

theorem under_pairwise {t : Table K V} (hpos : 0 < t.capacity) (hash : UInt32) :
    (t.under hash).Pairwise fun x y =>
      distance t.capacity (t.home hash) x.1 < distance t.capacity (t.home hash) y.1 := by
  have hhome : t.home hash < t.capacity := home_lt hpos hash
  refine List.Pairwise.filter _ ?_
  rw [around, List.pairwise_filterMap, List.pairwise_map]
  refine List.pairwise_lt_range.imp_of_mem ?_
  intro c d hc hd hlt x hx y hy
  obtain ⟨a, -, rfl⟩ := Option.map_eq_some_iff.1 hx
  obtain ⟨b, -, rfl⟩ := Option.map_eq_some_iff.1 hy
  rwa [distance_ahead hhome (List.mem_range.1 hc), distance_ahead hhome (List.mem_range.1 hd)]

namespace Sound

variable {t : Table K V}

/-- No entry under a hash lies behind the first empty bucket of its path. -/
theorem candidates_eq (h : t.Sound) (hash : UInt32) : t.candidates hash = t.under hash := by
  refine eq_of_mem_iff (candidates_pairwise h.pos hash) (under_pairwise h.pos hash) ?_
  rintro ⟨i, e⟩
  rw [h.mem_candidates_iff, mem_under h.pos]

theorem find_asks (h : t.Sound) (hash : UInt32) (accept : K → Query σ Bool) :
    AsksInTurn (t.under hash) (fun found bucket => bucket = found.map Prod.fst)
      (t.find hash accept) (t.find hash (recorded accept)) := by
  rw [← h.candidates_eq]
  exact asksInTurn_of_search (find_eq ..) (find_eq ..) rfl fun _ _ => rfl

theorem remove_asks (h : t.Sound) (hash : UInt32) (accept : K → Query σ Bool) :
    AsksInTurn (t.under hash)
      (fun found o => o.result = .ok (found.map fun x => x.2.pair) ∧ (found = none → o.state = t))
      (t.remove hash accept) (t.remove hash (recorded accept)) := by
  rw [← h.candidates_eq]
  refine asksInTurn_of_search (remove_eq ..) (remove_eq ..) ?_ ?_
  · rw [evict_landing_none]
    exact ⟨rfl, fun _ => rfl⟩
  · rintro ⟨i, e⟩ hmem
    obtain ⟨t', hrun, -⟩ := h.evict_found (h.mem_candidates_iff.1 hmem).1
    rw [landing, hrun]
    exact ⟨rfl, fun hnone => absurd hnone (Option.some_ne_none _)⟩

theorem insert_asks (h : t.Sound) (hash : UInt32) (key : K) (value : V)
    (eq : K → K → Query σ Bool) :
    AsksInTurn (t.under hash)
      (fun found o => match found with
        | some _ => o = .ok false t
        | none => t.Settled hash key value o)
      (t.insert hash key value eq)
      (t.insert hash key value fun stored new => recorded (eq · new) stored) := by
  rw [← h.candidates_eq]
  exact asksInTurn_of_search (insert_eq ..) (insert_eq ..) (settled_of_none h.pos hash key value)
    fun _ _ => rfl

end Sound

end Table

end LinearProbing
