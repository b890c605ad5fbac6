import LinearProbing.Proofs.Rehashing
import LinearProbing.Proofs.Values

set_option autoImplicit false

/-!
# The order of insertion

Let a caller write into each value the number of the call that puts it in. As no operation looks at values,
the table is the same otherwise. As long as it stays in one capacity, the path of a hash passes the entries
under this hash in the order of their numbers, so what is found or taken out is the oldest match.
-/

namespace LinearProbing

open LinearProbing.Cycle

variable {σ K V : Type}

def Call.moves : Call σ K V → Bool
  | .rehash _ | .grow => true
  | .edit _ | .write .. | .rewrite _ => false

def Call.keepDate {α : Type} (f : K → V → α × V) (key : K) (value : Nat × V) : α × Nat × V :=
  Prod.map id (Prod.mk value.1) (f key value.2)

/-- The same call with a date beside the value that it puts in. Values that are replaced keep their
dates. -/
def Call.dated (date : Nat) : Call σ K V → Call σ K (Nat × V)
  | .edit (.insert hash key value eq) => .edit (.insert hash key (date, value) eq)
  | .edit (.remove hash accept) => .edit (.remove hash accept)
  | .edit .clear => .edit .clear
  | .rehash n => .rehash n
  | .grow => .grow
  | .write bucket f => .write bucket (Prod.map id f)
  | .rewrite fs => .rewrite (fs.map Call.keepDate)

namespace Table

/-- A table that has stayed in one capacity since it was made or cleared, beside the table of the same
calls with dates, and the number of calls so far. -/
inductive Dated : Table K V → Table K (Nat × V) → Nat → Prop where
  | fresh (n : Nat) : Dated (withCapacity n) (withCapacity n) 0
  | cleared {t : Table K V} : t.Reachable → Dated t.clear (withCapacity t.capacity) 0
  | step {t : Table K V} {u : Table K (Nat × V)} {clock : Nat} {σ : Type} (c : Call σ K V) (s : σ) :
    c.moves = false → Dated t u clock →
    Dated (attempt (t.call c) t s).1.state (attempt (u.call (c.dated clock)) u s).1.state (clock + 1)

theorem edit_insert_dated (u : Table K (Nat × V)) (date : Nat) (hash : UInt32) (key : K) (value : V)
    (eq : K → K → Query σ Bool) :
    (u.mapValues Prod.snd).call (.edit (.insert hash key value eq)) =
      (·.within (mapValues Prod.snd)) <$> u.call (.edit (.insert hash key (date, value) eq)) := by
  have hinsert := insert_mapValues Prod.snd u hash key (date, value) eq
  simp only [call, edit, hinsert, Functor.map_map]
  congr 1
  funext o
  rcases o with ⟨_ | _, _, _⟩ <;> rfl

theorem edit_remove_dated (u : Table K (Nat × V)) (hash : UInt32) (accept : K → Query σ Bool) :
    (u.mapValues Prod.snd).call (.edit (.remove hash accept)) =
      (·.within (mapValues Prod.snd)) <$> u.call (.edit (.remove hash accept)) := by
  simp only [call, edit, remove_mapValues, Functor.map_map]
  congr 1
  funext o
  rcases o with ⟨_ | _, _, _⟩ <;> rfl

/-- Dates change nothing but the values. -/
theorem call_dated (u : Table K (Nat × V)) (date : Nat) {c : Call σ K V} (hstays : c.moves = false) :
    (u.mapValues Prod.snd).call c =
      (·.within (mapValues Prod.snd)) <$> u.call (c.dated date) := by
  cases c with
  | edit e =>
    cases e with
    | insert hash key value eq => exact edit_insert_dated u date hash key value eq
    | remove hash accept => exact edit_remove_dated u hash accept
    | clear =>
      rw [call, edit, ← mapValues_clear]
      rfl
  | rehash n => cases hstays
  | grow => cases hstays
  | write bucket f =>
    have hupdate := updateAt_mapValues (f := Prod.snd) (fun value => ((), Prod.map id f value))
      (fun value => ((), f value)) (fun _ => rfl) u bucket
    rw [call, hupdate]
    rfl
  | rewrite fs =>
    have hpass : (u.mapValues Prod.snd).reviser.takeWith fs = _ :=
      takeWith_mapValues Call.keepDate (fun _ _ _ => rfl) fs u.reviser
    rw [call, hpass]
    rfl

/-- The dates are births, and they lie in the past. -/
structure Ages (u : Table K (Nat × V)) (clock : Nat) : Prop where
  sound : u.Sound
  senior : ∃ birth, u.Seniority birth none ∧
    ∀ {i : Nat} {e : Entry K (Nat × V)}, u.peek i = some e → birth i = e.value.1
  past : ∀ {i : Nat} {e : Entry K (Nat × V)}, u.peek i = some e → e.value.1 < clock

theorem ages_of_vacant {u : Table K (Nat × V)} (hpos : 0 < u.capacity) (h : ∀ i, u.peek i = none)
    (clock : Nat) : u.Ages clock := by
  refine ⟨sound_of_vacant hpos h, ⟨fun _ => 0, seniority_of_vacant h _ _, ?_⟩, ?_⟩
  · intro i e he
    rw [h i] at he
    cases he
  · intro i e he
    rw [h i] at he
    cases he

namespace Ages

variable {u : Table K (Nat × V)} {clock : Nat}

theorem wait (h : u.Ages clock) : u.Ages (clock + 1) :=
  ⟨h.sound, h.senior, fun he => Nat.lt_succ_of_lt (h.past he)⟩

theorem fill (h : u.Ages clock) {hash : UInt32} {i : Nat} (hi : u.FirstVacant (u.home hash) i) (key : K)
    (value : V) : (u.put i (some ⟨markHash hash, key, (clock, value)⟩)).Ages (clock + 1) := by
  obtain ⟨birth, hsenior, hdates⟩ := h.senior
  have hhome : u.FirstVacant (u.home (markHash hash)) i := by rwa [home_markHash]
  have hyoung : ∀ j, (u.peek j).isSome → birth j < clock := by
    intro j hj
    obtain ⟨e, he⟩ := Option.isSome_iff_exists.1 hj
    rw [hdates he]
    exact h.past he
  refine ⟨h.sound.fill (Entry.marked_mk hash key _) hhome, ⟨_, hsenior.fill hhome hyoung, ?_⟩, ?_⟩
  · intro j e he
    by_cases hji : j = i
    · rw [hji, peek_put_self hi.lt] at he
      cases he
      rw [hji, Function.update_self]
    · rw [peek_put_of_ne hi.lt _ hji] at he
      rw [Function.update_of_ne hji, hdates he]
  · intro j e he
    rw [peek_put hi.lt] at he
    split at he
    · cases he
      exact Nat.lt_succ_self clock
    · exact Nat.lt_succ_of_lt (h.past he)

theorem evict (h : u.Ages clock) {i : Nat} {e : Entry K (Nat × V)} (he : u.peek i = some e) :
    ∃ u', u.evict (.found i) = .ok (some e.pair) u' ∧ u'.Ages clock ∧ u.entries.Perm (e :: u'.entries) := by
  obtain ⟨birth, hsenior, hdates⟩ := h.senior
  obtain ⟨u', birth', hrun, -, hperm, hsenior', hlists⟩ := evict_seniority hsenior he
  obtain ⟨u'', hrun', hsound, -⟩ := h.sound.evict_found he
  rw [hrun] at hrun'
  cases hrun'
  -- the entries with their dates are a log of the births
  have hlog : u.Lists birth (u.entries.map fun a => (a.value.1, a)) := by
    intro stamp a
    rw [List.mem_map]
    constructor
    · rintro ⟨b, hb, heq⟩
      cases heq
      obtain ⟨j, hj⟩ := mem_entries.1 hb
      exact ⟨j, hj, hdates hj⟩
    · rintro ⟨j, hj, rfl⟩
      exact ⟨a, mem_entries.2 ⟨j, hj⟩, by rw [hdates hj]⟩
  refine ⟨u', hrun, ⟨hsound, ⟨birth', hsenior', fun {j a} ha => ?_⟩, fun {j a} ha => ?_⟩, hperm⟩
  · have hmem := (hlists _ hlog (birth' j) a).2 ⟨j, ha, rfl⟩
    obtain ⟨b, -, heq⟩ := List.mem_map.1 (List.mem_of_mem_filter hmem)
    rw [Prod.mk.injEq] at heq
    rw [← heq.1, heq.2]
  · have hmem : a ∈ u.entries := hperm.mem_iff.2 (List.mem_cons_of_mem _ (mem_entries.2 ⟨j, ha⟩))
    obtain ⟨k, hk⟩ := mem_entries.1 hmem
    exact h.past hk

theorem put_value (h : u.Ages clock) {i : Nat} {e : Entry K (Nat × V)} (he : u.peek i = some e)
    (value : V) : (u.put i (some ⟨e.hash, e.key, (e.value.1, value)⟩)).Ages clock := by
  obtain ⟨birth, hsenior, hdates⟩ := h.senior
  -- every entry has the date of the one that was in its bucket
  have hold : ∀ {j : Nat} {a : Entry K (Nat × V)},
      (u.put i (some ⟨e.hash, e.key, (e.value.1, value)⟩)).peek j = some a →
      ∃ b, u.peek j = some b ∧ b.value.1 = a.value.1 := by
    intro j a ha
    rw [peek_put (lt_capacity_of_peek he)] at ha
    split at ha
    · rename_i hj
      cases ha
      exact ⟨e, by rw [hj, he], rfl⟩
    · exact ⟨a, ha, rfl⟩
  refine ⟨h.sound.put_value he _, ⟨birth, hsenior.congr (capacity_put ..) (peek_put_hash he rfl), ?_⟩, ?_⟩
  · intro j a ha
    obtain ⟨b, hb, hdate⟩ := hold ha
    rw [hdates hb, hdate]
  · intro j a ha
    obtain ⟨b, hb, hdate⟩ := hold ha
    rw [← hdate]
    exact h.past hb

theorem settle (h : u.Ages clock) (hash : UInt32) (found : Option (Nat × Entry K (Nat × V))) (key : K)
    (value : V) :
    (u.settle (u.landing hash found) hash key (clock, value)).state.Ages (clock + 1) := by
  cases found with
  | some x => exact h.wait
  | none =>
    rcases settled_of_none h.sound.pos hash key (clock, value) with ⟨i, hi, hrun⟩ | ⟨-, hrun⟩
    · rw [hrun]
      exact h.fill hi key value
    · rw [hrun]
      exact h.wait

theorem call (h : u.Ages clock) {c : Call σ K V} (hstays : c.moves = false) (s : σ) :
    (attempt (u.call (c.dated clock)) u s).1.state.Ages (clock + 1) := by
  cases c with
  | edit e =>
    cases e with
    | insert hash key value eq =>
      rw [Call.dated, attempt_edit]
      exact insert_rule (P := fun u : Table K (Nat × V) => u.Ages (clock + 1)) h.wait
        (fun found => h.settle hash found key value) eq s
    | remove hash accept =>
      rw [Call.dated, attempt_edit]
      refine remove_rule (P := fun u : Table K (Nat × V) => u.Ages (clock + 1)) h.wait (fun he => ?_)
        hash accept s
      obtain ⟨u', hrun, hages, -⟩ := h.evict he
      rw [hrun]
      exact hages.wait
    | clear => exact ages_of_vacant (by simpa using h.sound.pos) (peek_clear u) _
  | rehash n => cases hstays
  | grow => cases hstays
  | write bucket f =>
    exact (updateAt_rule (P := fun u : Table K (Nat × V) => u.Ages clock)
      (fun h he => h.put_value he _) h bucket).wait
  | rewrite fs =>
    refine (takeWith_rule (P := fun u : Table K (Nat × V) => u.Ages clock) ?_ (r := u.reviser) h).wait
    intro u i e h he g hg
    obtain ⟨f, -, rfl⟩ := List.mem_map.1 hg
    exact h.put_value he _

theorem under_pairwise (h : u.Ages clock) (hash : UInt32) :
    (u.under hash).Pairwise fun x y => x.2.value.1 < y.2.value.1 := by
  obtain ⟨birth, hsenior, hdates⟩ := h.senior
  refine (Table.under_pairwise h.sound.pos hash).imp_of_mem ?_
  rintro ⟨i, e⟩ ⟨j, e'⟩ hi hj hdist
  have hi := ((mem_under h.sound.pos).1 hi).1
  obtain ⟨hj, hhash⟩ := (mem_under h.sound.pos).1 hj
  have hhome : u.home e'.hash = u.home hash := by rw [hhash, home_markHash]
  rw [← hhome] at hdist
  have hlt := (hsenior.before hj (lt_capacity_of_peek hi) hdist).2
  rwa [hdates hi, hdates hj] at hlt

end Ages

theorem Dated.ages {t : Table K V} {u : Table K (Nat × V)} {clock : Nat} (h : Dated t u clock) :
    t = u.mapValues Prod.snd ∧ u.Ages clock := by
  induction h with
  | fresh n =>
    exact ⟨(mapValues_withCapacity Prod.snd n).symm,
      ages_of_vacant (sound_withCapacity n).pos (peek_withCapacity n) 0⟩
  | @cleared t ht =>
    refine ⟨?_, ages_of_vacant (sound_withCapacity _).pos (peek_withCapacity _) 0⟩
    rw [mapValues_withCapacity]
    apply ext_peek
    · rw [capacity_clear, capacity_withCapacity, ht.rounded]
    · intro i
      rw [peek_clear, peek_withCapacity]
  | @step t u clock σ c s hstays _ ih =>
    obtain ⟨rfl, hages⟩ := ih
    refine ⟨?_, hages.call hstays s⟩
    rw [call_dated u clock hstays, attempt_map_outcome _ _ u fun _ => rfl]
    rfl

theorem Dated.reachable {t : Table K V} {u : Table K (Nat × V)} {clock : Nat} (h : Dated t u clock) :
    t.Reachable := by
  induction h with
  | fresh n => exact .fresh n
  | cleared ht => exact ht.step (.edit .clear) ()
  | step c s _ _ ih => exact ih.step c s

structure Oldest (u : Table K (Nat × V)) (hash : UInt32) (accept : K → Bool)
    (x : Nat × Entry K (Nat × V)) : Prop where
  mem : x ∈ u.under hash
  accepted : accept x.2.key = true
  first : ∀ y ∈ u.under hash, accept y.2.key = true → y = x ∨ x.2.value.1 < y.2.value.1

theorem Ages.pick {u : Table K (Nat × V)} {clock : Nat} (h : u.Ages clock) (hash : UInt32)
    (accept : K → Bool) :
    ((u.candidates hash).find? (fun x => accept x.2.key) = none ∧
        ∀ i, ¬ u.Matches hash accept i) ∨
      ∃ x, (u.candidates hash).find? (fun x => accept x.2.key) = some x ∧ u.Oldest hash accept x := by
  cases hfind : (u.candidates hash).find? fun x => accept x.2.key with
  | none =>
    refine .inl ⟨rfl, fun i hi => ?_⟩
    obtain ⟨e, hmem, haccept⟩ := h.sound.matches_iff.1 hi
    exact List.find?_eq_none.1 hfind _ hmem haccept
  | some x =>
    rw [h.sound.candidates_eq] at hfind
    refine .inr ⟨x, rfl, List.mem_of_find?_eq_some hfind, by simpa using List.find?_some hfind, ?_⟩
    intro y hy haccept
    exact find?_first (h.under_pairwise hash) hfind hy haccept

theorem remove_pure (t : Table K V) (hash : UInt32) (accept : K → Bool) :
    Id.run (t.remove hash fun key => pure (accept key)) =
      t.evict (t.landing hash ((t.candidates hash).find? fun x => accept x.2.key)) := by
  rw [remove_eq, List.findM?_pure]
  rfl

/-- Every call asks its predicate about the entries under its hash, all of them and no others, once each
in the order of the probe path, until one is accepted. If the table has stayed in one capacity, this is
the order in which the entries came, and what is found or taken out is the oldest match. -/
theorem Reachable.asks_in_path_order {t : Table K V} (h : t.Reachable) (hash : UInt32) :
    (∀ (σ : Type) (accept : K → Query σ Bool),
      AsksInTurn (t.under hash) (fun found bucket => bucket = found.map Prod.fst)
          (t.find hash accept) (t.find hash (recorded accept)) ∧
        AsksInTurn (t.under hash)
          (fun found o => o.result = .ok (found.map fun x => x.2.pair) ∧ (found = none → o.state = t))
          (t.remove hash accept) (t.remove hash (recorded accept))) ∧
    (∀ (σ : Type) (key : K) (value : V) (eq : K → K → Query σ Bool),
      AsksInTurn (t.under hash)
        (fun found o => match found with
          | some _ => o = .ok false t
          | none => t.Settled hash key value o)
        (t.insert hash key value eq)
        (t.insert hash key value fun stored new => recorded (eq · new) stored)) ∧
    ∀ (u : Table K (Nat × V)) (clock : Nat), Dated t u clock →
      t.under hash = (u.under hash).map (Prod.map id (Entry.mapValue Prod.snd)) ∧
      (u.under hash).Pairwise (fun x y => x.2.value.1 < y.2.value.1) ∧
      ∀ accept : K → Bool,
        (Id.run (t.find hash fun key => pure (accept key)) = none ∧
            Id.run (t.remove hash fun key => pure (accept key)) = .ok none t ∧
            ∀ i, ¬ t.Matches hash accept i) ∨
          ∃ i e, u.Oldest hash accept (i, e) ∧
            Id.run (t.find hash fun key => pure (accept key)) = some i ∧
            ∃ u', Id.run (u.remove hash fun key => pure (accept key)) = .ok (some e.pair) u' ∧
              u.entries.Perm (e :: u'.entries) ∧
              Id.run (t.remove hash fun key => pure (accept key)) =
                .ok (some (e.key, e.value.2)) (u'.mapValues Prod.snd) := by
  have hsound := h.sound
  refine ⟨fun σ accept => ⟨hsound.find_asks hash accept, hsound.remove_asks hash accept⟩,
    fun σ key value eq => hsound.insert_asks hash key value eq, fun u clock hdated => ?_⟩
  obtain ⟨rfl, hages⟩ := hdated.ages
  refine ⟨under_mapValues Prod.snd u hash, hages.under_pairwise hash, fun accept => ?_⟩
  have hremove : Id.run ((u.mapValues Prod.snd).remove hash fun key => pure (accept key)) =
      ((Id.run (u.remove hash fun key => pure (accept key))).map
        (Option.map (Prod.map id Prod.snd))).within (mapValues Prod.snd) := by
    rw [remove_mapValues]
    rfl
  rw [find_mapValues, hremove, find_pure, remove_pure]
  rcases hages.pick hash accept with ⟨hnone, hmatch⟩ | ⟨⟨i, e⟩, hsome, holdest⟩
  · rw [hnone, evict_landing_none]
    exact .inl ⟨rfl, rfl, fun i hi => hmatch i (matches_mapValues.1 hi)⟩
  · obtain ⟨u', hrun, -, hperm⟩ := hages.evict ((mem_under hages.sound.pos).1 holdest.mem).1
    rw [hsome, landing, hrun]
    exact .inr ⟨i, e, holdest, rfl, u', rfl, hperm, rfl⟩

/-- Three entries come under one hash, two of them with the same key, and the one between them goes. -/
theorem Reachable.asks_in_path_order_after_removal :
    ∃ (t : Table Nat Nat) (u : Table Nat (Nat × Nat)), t.Reachable ∧ Dated t u 4 ∧
      (u.under 5).map (fun x => (x.2.key, x.2.value)) = [(1, 0, 10), (1, 2, 30)] ∧
      (u.under 5).Pairwise (fun x y => x.2.value.1 < y.2.value.1) ∧
      ∃ i e, u.Oldest 5 (fun key => key == 1) (i, e) ∧
        Id.run (t.find 5 fun key => pure (key == 1)) = some i := by
  have hfresh : Dated (withCapacity 0 : Table Nat Nat) (withCapacity 0) 0 := .fresh 0
  have hone := hfresh.step (.edit (.insert 5 1 10 fun _ _ => pure false)) () rfl
  have htwo := hone.step (.edit (.insert 5 2 20 fun _ _ => pure false)) () rfl
  have hthree := htwo.step (.edit (.insert 5 1 30 fun _ _ => pure false)) () rfl
  have hless := hthree.step (.edit (.remove 5 fun key => pure (key == 2))) () rfl
  obtain ⟨-, -, hdates⟩ := Reachable.asks_in_path_order hless.reachable 5
  obtain ⟨-, hsorted, hpick⟩ := hdates _ _ hless
  refine ⟨_, _, hless.reachable, hless, by decide, hsorted, ?_⟩
  rcases hpick (fun key => key == 1) with ⟨hnone, -⟩ | ⟨i, e, holdest, hfind, -⟩
  · exact absurd hnone (by decide)
  · exact ⟨i, e, holdest, hfind⟩

end Table

end LinearProbing
