import LinearProbing.Proofs.Script
import LinearProbing.Proofs.Steps

set_option autoImplicit false

/-!
# Calls from inside a call

Maps and sets are marked while they probe, and a lookup in a marked container is refused before it
reads anything. So a predicate that turns to the container that asks it learns what the container held
before, and its first lookup ends the call without a trace.
-/

namespace LinearProbing

open Capacity

variable {σ K V P E L A α β : Type}

inductive Lookup (P K : Type) where
  | find (key : K)
  | findEntry (key : K)
  | contains (key : K)
  | through (target : Target P K)

inductive SetLookup (P K : Type) where
  | find (key : K)
  | contains (key : K)
  | through (target : Target P K)

abbrev MapScript (σ K V : Type) : Type :=
  Script σ (K × V) (Lookup (Store K V → Query σ Bool) K) (Reply K V)

abbrev SetScript (σ K : Type) : Type :=
  Script σ K (SetLookup (Store K Unit → Query σ Bool) K) (Reply K Unit)

namespace Map

def sight (m : Map K V) : Glance → Sight (K × V)
  | .len => .number m.len
  | .isEmpty => .flag m.isEmpty
  | .capacity => .number m.capacity
  | .list => .list m.toList

def lookUp [BEq K] (l : Lookup (Store K V → Query σ Bool) K) (m : Map K V) :
    StateM σ (Outcome (Map K V) (Reply K V)) :=
  match l with
  | .find key => pure (m.reply (.find key))
  | .findEntry key => pure (m.reply (.findEntry key))
  | .contains key => pure (m.reply (.contains key))
  | .through target => m.serve (.find target)

/-- Makes a lookup in a map that is under probe with this store. -/
def lookUpUnder [BEq K] (m : Map K V) (busy : Store K V)
    (l : Lookup (Store K V → Query σ Bool) K) : StateM σ (Except Fault (Reply K V)) :=
  (·.result) <$> (⟨busy, m.hashOf⟩ : Map K V).lookUp l

/-- Makes a request whose predicate follows a script in the map while it is under probe. -/
def serveScript [BEq K] (c : Guarded (MapScript σ K V) K V (V → V)) (m : Map K V) :
    StateM (σ × List (Glimpse (K × V) (Lookup (Store K V → Query σ Bool) K) (Reply K V)))
      (Outcome (Map K V) (Reply K V)) :=
  m.serve (c.asking fun script busy =>
    script.run (⟨busy, m.hashOf⟩ : Map K V).sight (m.lookUpUnder busy))

/-- The scripts for the keys that a request asks about, in the order of the probe. -/
def scripts (m : Map K V) (c : Guarded P K V (V → V)) : List P :=
  (m.table.candidates (c.probed m.hashOf)).map fun x => c.asks x.2.key

end Map

namespace KeySet

def sight (s : KeySet K) : Glance → Sight K
  | .len => .number s.len
  | .isEmpty => .flag s.isEmpty
  | .capacity => .number s.capacity
  | .list => .list s.toList

def lookUp [BEq K] (l : SetLookup (Store K Unit → Query σ Bool) K) (s : KeySet K) :
    StateM σ (Outcome (KeySet K) (Reply K Unit)) :=
  match l with
  | .find key => pure (s.reply (.find key))
  | .contains key => pure (s.reply (.contains key))
  | .through target => s.serve (.find target)

def lookUpUnder [BEq K] (s : KeySet K) (busy : Store K Unit)
    (l : SetLookup (Store K Unit → Query σ Bool) K) : StateM σ (Except Fault (Reply K Unit)) :=
  (·.result) <$> (⟨⟨busy, s.map.hashOf⟩⟩ : KeySet K).lookUp l

def serveScript [BEq K] (c : Guarded (SetScript σ K) K Unit Empty) (s : KeySet K) :
    StateM (σ × List (Glimpse K (SetLookup (Store K Unit → Query σ Bool) K) (Reply K Unit)))
      (Outcome (KeySet K) (Reply K Unit)) :=
  s.serve (c.asking fun script busy =>
    script.run (⟨⟨busy, s.map.hashOf⟩⟩ : KeySet K).sight (s.lookUpUnder busy))

end KeySet

theorem Map.lookUp_busy [BEq K] {m : Map K V} (hbusy : m.busy = true)
    (l : Lookup (Store K V → Query σ Bool) K) (w : σ) :
    (m.lookUp l).run w = (.fail .reentrant m, w) := by
  rcases m with ⟨⟨t, len, busy⟩, hashOf⟩
  cases hbusy
  rcases l with key | key | key | (_ | _) <;> rfl

theorem KeySet.lookUp_busy [BEq K] {s : KeySet K} (hbusy : s.map.busy = true)
    (l : SetLookup (Store K Unit → Query σ Bool) K) (w : σ) :
    (s.lookUp l).run w = (.fail .reentrant s, w) := by
  rcases s with ⟨⟨⟨t, len, busy⟩, hashOf⟩⟩
  cases hbusy
  rcases l with key | key | (_ | _) <;> rfl

theorem findM?_map_state (f : α → β) (accept : β → Query σ Bool) (l : List α) (w : σ) :
    (((l.map f).findM? accept).run.run w).2 = ((l.findM? fun x => accept (f x)).run.run w).2 := by
  induction l generalizing w with
  | nil => rfl
  | cons x l ih =>
    rw [List.map_cons, findM?_cons_run, findM?_cons_run]
    rcases (accept (f x)).run.run w with ⟨fault | accepted, w'⟩
    · rfl
    · cases accepted with
      | true => rfl
      | false => exact ih w'

theorem Store.probing_withstands {s : Store K V} (hidle : s.busy = false) {sight : Glance → Sight E}
    {lookUp : L → StateM σ (Except Fault A)}
    (hrefuse : ∀ l w, (lookUp l).run w = (.error .reentrant, w)) (script : K → Script σ E L A)
    {hash : UInt32} {accept : Store K V → K → Query (σ × List (Glimpse E L A)) Bool}
    (hask : ∀ stored, accept s.enter stored = (script stored).run sight lookUp)
    {commit : Landing → Store K V → Outcome (Store K V) α} {sized : Prop}
    (hcommit : sized → ∃ a, (commit (s.table.landing hash none) s.enter).result = .ok a) (w : σ) :
    Withstands sight lookUp Store.busy ((s.table.candidates hash).map fun x => script x.2.key)
      (Id.run (s.probing hash (fun _ _ => pure false) commit)) sized s w
      ((s.probing hash accept commit).run (w, [])) := by
  let search := (s.table.candidates hash).findM? fun x => (script x.2.key).run sight lookUp
  have hprobe : (s.table.probe hash (accept s.enter)).run.run (w, []) =
      ((search.run.run (w, [])).1.map (s.table.landing hash), (search.run.run (w, [])).2) := by
    rw [Table.probe_eq, ExceptT.run_map, StateT.run_map]
    simp only [hask]
    rfl
  have hended : Ended sight (search.run.run (w, [])) :=
    findM?_ended (fun _ w _ hquiet => Script.run_ended hrefuse _ w hquiet) _ w nofun
  have hrun := probing_run_eq hidle hash accept commit (w, [])
  rw [hprobe] at hrun
  refine ⟨?_, ?_, ?_, fun hnone => ?_⟩
  · rw [hrun]
    rcases hsearch : search.run.run (w, []) with ⟨fault | found, w', seen⟩
    · rw [hsearch] at hended
      rcases hended with hquiet | ⟨rfl, hrefused⟩
      · exact hquiet.shielded s _
      · exact hrefused.shielded s
    · rw [hsearch] at hended
      exact Quiet.shielded hended s _
  · rw [hrun]
    rcases search.run.run (w, []) with ⟨fault | found, w'⟩
    · exact hidle
    · rfl
  · rw [findM?_map_state, hrun]
    change _ = (search.run.run (w, [])).2
    rcases search.run.run (w, []) with ⟨fault | found, w'⟩ <;> rfl
  · have hmissed := List.map_eq_nil_iff.1 hnone
    rw [probing_pure hidle (fun _ => false) (by simp [hmissed]) commit,
      probing_pure hidle (fun _ => false) (by simp [hmissed]) commit, hmissed]
    exact ⟨rfl, hcommit⟩

theorem Map.serve_withstands {faults : List Fault} {m : Map K V} (h : m.Fit faults)
    {sight : Glance → Sight E} {lookUp : L → StateM σ (Except Fault A)}
    (hrefuse : ∀ l w, (lookUp l).run w = (.error .reentrant, w))
    (c : Guarded (Script σ E L A) K V (V → V))
    (ask : Script σ E L A → Store K V → Query (σ × List (Glimpse E L A)) Bool)
    (hask : ∀ script, ask script m.enter = script.run sight lookUp) (w : σ) :
    Withstands sight lookUp (fun m => m.busy) (m.scripts c) (m.answer (c.asking fun _ => false))
      (m.capacity < loadLimit) m w ((m.serve (c.asking ask)).run (w, [])) := by
  obtain ⟨α, commit, f, hserve, hcommits⟩ := m.serve_probing c
  have hlight : m.capacity < loadLimit → m.Light := fun hcap => h.light (.inl hcap)
  have hstore : Withstands sight lookUp Store.busy (m.scripts c) _ (m.capacity < loadLimit) m.toStore w
      ((m.toStore.probing (c.probed m.hashOf) (fun busy stored => ask (c.asks stored) busy) commit).run
        (w, [])) :=
    Store.probing_withstands h.idle hrefuse c.asks (fun stored => hask (c.asks stored))
      (fun hcap => (hcommits h.kept h.idle).missed (hlight hcap) hcap) w
  rw [answer, Request.asking_asking, hserve, hserve ask, StateT.run_map]
  exact hstore.within f (Map.mk · m.hashOf) (fun m => m.busy) fun _ => rfl

theorem Map.serveScript_withstands [BEq K] {faults : List Fault} {m : Map K V} (h : m.Fit faults)
    (c : Guarded (MapScript σ K V) K V (V → V)) (w : σ) :
    Withstands m.sight (m.lookUpUnder m.enter) (fun m => m.busy) (m.scripts c)
      (m.answer (c.asking fun _ => false)) (m.capacity < loadLimit) m w
      ((m.serveScript c).run (w, [])) := by
  refine Map.serve_withstands h (fun l w => ?_) c _ (fun _ => rfl) w
  rw [lookUpUnder, StateT.run_map, lookUp_busy rfl]
  rfl

theorem KeySet.serveScript_withstands [BEq K] {faults : List Fault} {s : KeySet K}
    (h : s.map.Fit faults) (c : Guarded (SetScript σ K) K Unit Empty) (w : σ) :
    Withstands s.sight (s.lookUpUnder s.map.enter) (fun s => s.map.busy) (s.map.scripts c.onMap)
      (s.answer (c.asking fun _ => false)) (s.capacity < loadLimit) s w
      ((s.serveScript c).run (w, [])) := by
  rw [serveScript, serve_eq, StateT.run_map, Request.onMap_asking, answer_eq, Request.onMap_asking]
  refine (Map.serve_withstands h (fun l w => ?_) c.onMap _ (fun _ => rfl) w).within member mk
    (fun s => s.map.busy) fun _ => rfl
  rw [lookUpUnder, StateT.run_map, lookUp_busy rfl]
  rfl

/-- A lookup in a container under probe is refused before it reads anything. A predicate that turns to the
container that asks it sees what the container held before the call, and its first lookup ends the call,
which leaves the container as it was. -/
theorem nested_calls_shielded [BEq K] {n : Nat} (hn : n < Size.limit) (hashOf : K → UInt64) :
    ((∀ m : Map K V, m.busy = true → ∀ (l : Lookup (Store K V → Query σ Bool) K) (w : σ),
        (m.lookUp l).run w = (.fail .reentrant m, w)) ∧
      ∀ past (m : Map K V), Trace MapAct.run (.withCapacity n hashOf) past m →
        ∀ (c : Guarded (MapScript σ K V) K V (V → V)) (w : σ),
          Withstands m.sight (m.lookUpUnder m.enter) (fun m => m.busy) (m.scripts c)
            (m.answer (c.asking fun _ => false)) (m.capacity < loadLimit) m w
            ((m.serveScript c).run (w, []))) ∧
    (∀ s : KeySet K, s.map.busy = true →
        ∀ (l : SetLookup (Store K Unit → Query σ Bool) K) (w : σ),
          (s.lookUp l).run w = (.fail .reentrant s, w)) ∧
      ∀ past (s : KeySet K), Trace SetAct.run (.withCapacity n hashOf) past s →
        ∀ (c : Guarded (SetScript σ K) K Unit Empty) (w : σ),
          Withstands s.sight (s.lookUpUnder s.map.enter) (fun s => s.map.busy)
            (s.map.scripts c.onMap) (s.answer (c.asking fun _ => false)) (s.capacity < loadLimit) s w
            ((s.serveScript c).run (w, [])) :=
  ⟨⟨fun _ hbusy l w => Map.lookUp_busy hbusy l w,
      fun _ _ h c w => Map.serveScript_withstands (Map.fit_of_trace hn h) c w⟩,
    fun _ hbusy l w => KeySet.lookUp_busy hbusy l w,
    fun _ _ h c w => KeySet.serveScript_withstands (KeySet.fit_of_trace hn h) c w⟩

/-- In a map from which a key has been removed and in which a value has been replaced, a removal and an
update under an explicit hash meet a key and look something up. An insertion into a set meets no key. -/
theorem nested_calls_shielded_meddling :
    ∃ (m : Map Nat Nat) (removal update : Outcome (Map Nat Nat) (Reply Nat Nat)) (s : KeySet Nat)
      (added : Outcome (KeySet Nat) (Reply Nat Unit)),
      m.toList = [(1, 11)] ∧
      (m.serveScript (.remove (.under 7 fun stored => .meddle (.contains stored)))).run ((), []) =
        (removal, (), [.glance .list (.list [(1, 11)]), .glance .len (.number 1),
          .lookUp (.contains 1) (.error .reentrant)]) ∧
      removal = .fail .reentrant m ∧
      (m.serveScript (.update (.under 7 fun _ => .meddle (.find 5)) (· + 1))).run ((), []) =
        (update, (), [.glance .list (.list [(1, 11)]), .glance .len (.number 1),
          .lookUp (.find 5) (.error .reentrant)]) ∧
      update = .fail .reentrant m ∧
      (s.serveScript (.insert ⟨none, fun stored _ => .meddle (.contains stored)⟩ 6 ())).run ((), []) =
        (added, (), []) ∧
      added = s.answer (.insert ⟨none, fun _ _ => false⟩ 6 ()) ∧
      (∃ reply, added.result = .ok reply) ∧ s.toList = [5] ∧ added.state.toList = [5, 6] := by
  have hmap : Trace MapAct.run (.withCapacity 0 UInt64.ofNat : Map Nat Nat) _ _ :=
    (((Trace.start.step (.serve (σ := Unit) (.insert ⟨some 7, fun _ _ _ => pure false⟩ 1 10) ())).step
      (.keyed (.insert 2 20))).step (.keyed (.remove 2))).step
        (.serve (σ := Unit) (.update (.under 7 fun _ _ => pure true) (· + 1)) ())
  have hset : Trace SetAct.run (.withCapacity 0 UInt64.ofNat : KeySet Nat) _ _ :=
    Trace.start.step (.keyed (.insert 5))
  obtain ⟨⟨-, hmaps⟩, -, hsets⟩ := nested_calls_shielded (σ := Unit) (K := Nat) (V := Nat) (n := 0)
    (by decide) UInt64.ofNat
  have hremove := hmaps _ _ hmap (.remove (.under 7 fun stored => .meddle (.contains stored))) ()
  have hupdate := hmaps _ _ hmap (.update (.under 7 fun _ => .meddle (.find 5)) (· + 1)) ()
  have hadd := hsets _ _ hset (.insert ⟨none, fun stored _ => .meddle (.contains stored)⟩ 6 ()) ()
  obtain ⟨-, -, hremoved⟩ := hremove.shielded [_, _] _ [] rfl
  obtain ⟨-, -, hupdated⟩ := hupdate.shielded [_, _] _ [] rfl
  obtain ⟨hplain, hanswer⟩ := hadd.unasked (by rfl)
  exact ⟨_, _, _, _, _, by rfl, by rfl, hremoved, by rfl, hupdated, hplain, rfl,
    hanswer (by decide), by rfl, by rfl⟩

end LinearProbing
