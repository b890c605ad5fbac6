import LinearProbing.Proofs.Steps

set_option autoImplicit false

/-!
# Containers in the hands of any caller

Whatever the callers of a map or a set do, it stays in order, and no call ends in a fault that its own
predicate did not raise.
-/

namespace LinearProbing

open Capacity

variable {K V α χ : Type}

/-- A probe comes to an entry under its hash that is accepted, or to an empty bucket. -/
def Table.ProbesEnd (t : Table K V) : Prop :=
  ∀ (σ : Type) (hash : UInt32) (accept : K → Query σ Bool) (w : σ),
    match ((t.probe hash accept).run.run w).1 with
    | .ok (.found i) =>
      ∃ e, t.peek i = some e ∧ e.hash = markHash hash ∧ Ends (accept e.key) (.ok true)
    | .ok (.vacant i) => t.isOccupied i = .ok false
    | .ok .exhausted => False
    | .error fault => t.Stops accept fault

theorem Table.Sound.probesEnd {t : Table K V} (h : t.Sound) (hroom : t.occupied < t.capacity) :
    t.ProbesEnd := by
  intro σ hash accept w
  rcases h.probe_cases hash accept w with ⟨found, w', hrun, hfound⟩ | ⟨fault, w', hrun, hstop⟩
  · rw [hrun]
    cases found with
    | some x => exact ⟨x.2, hfound x rfl⟩
    | none =>
      obtain ⟨i, hi⟩ := exists_firstVacant hroom hash
      rw [landing_none hi]
      change t.isOccupied i = .ok false
      rw [isOccupied_eq hi.lt, hi.empty]
      rfl
  · rw [hrun]
    exact hstop

/-- What everyone who holds a store may rely on, once operations on it have ended in these faults. -/
structure Store.InOrder (faults : List Fault) (s : Store K V) : Prop where
  counted : s.len = s.table.occupied
  least : Capacity.least ≤ s.capacity
  light : Tested faults s.capacity → s.len * 100 < s.capacity * maxLoad
  probesEnd : Tested faults s.capacity → s.table.ProbesEnd
  /-- No remainder is taken modulo zero, and a search starts at a bucket of the table. -/
  homes : ∀ hash, s.table.home? hash = .ok (s.table.home hash) ∧ s.table.home hash < s.capacity
  /-- No index overflows, and a loop goes on to a bucket of the table. -/
  onward : ∀ i < s.capacity,
    Cycle.next? s.capacity i = .ok (s.table.next i) ∧ s.table.next i < s.capacity

theorem Store.Fit.inOrder {faults : List Fault} {s : Store K V} (h : s.Fit faults) :
    s.InOrder faults := by
  refine ⟨h.kept.counted, ?_, h.light, fun htested => h.kept.sound.probesEnd ?_, fun hash => ?_,
    fun i hi => ?_⟩
  · rw [capacity, ← h.kept.rounded]
    exact least_le_roundUp _
  · have hload : s.len * 100 < s.table.capacity * maxLoad := h.light htested
    rw [h.kept.counted] at hload
    unfold maxLoad at hload
    omega
  · exact ⟨Table.home?_eq h.kept.sound.pos hash, Table.home_lt h.kept.sound.pos hash⟩
  · exact ⟨Cycle.next?_eq_ok hi h.kept.sized, Cycle.next_lt h.kept.sound.pos⟩

/-- An operation does not shrink a container, and it is answered unless its caller stops it, or unless
the load test overflows in a container that is too large for it. -/
def Served (size : χ → Nat) (faults : List Fault) (c : χ) (o : Outcome χ α) (stops : Fault → Prop) :
    Prop :=
  size c ≤ size o.state ∧
    (Tested faults (size c) →
      (∃ reply, o.result = .ok reply) ∨ (∃ fault, o.result = .error fault ∧ stops fault) ∨
        loadLimit ≤ size o.state ∧ ∃ fault, o.result = .error fault ∧ fault.Overflow)

theorem Step.served {store : χ → Store K V} {stops : Fault → Prop} {inserts : Nat} {c : χ}
    {o : Outcome χ α} (h : Step store stops inserts c o) {faults : List Fault}
    (hfit : (store c).Fit faults) : Served (fun c => (store c).capacity) faults c o stops := by
  refine ⟨h.grows, fun htested => ?_⟩
  rcases h.ends (hfit.light htested) with ⟨-, hanswer | hstop⟩ | hover
  · exact .inl hanswer
  · exact .inr (.inl hstop)
  · exact .inr (.inr hover)

/-- Maps and sets of any initial capacity stay in order whatever their callers do, and serve every call,
whatever its hash, its predicate, the hash function and the equality of the keys are. -/
theorem containers_stay_in_order [BEq K] {n : Nat} (hn : n < Size.limit) (hashOf : K → UInt64) :
    (∀ past (s : Map K V), Trace MapAct.run (Map.withCapacity n hashOf) past s →
      s.InOrder (faults past) ∧
        ∀ a : MapAct K V,
          Served (fun s : Map K V => s.capacity) (faults past) s (a.run s) (a.Stops s)) ∧
    ∀ past (s : KeySet K), Trace SetAct.run (KeySet.withCapacity n hashOf) past s →
      s.map.InOrder (faults past) ∧
        ∀ a : SetAct K, Served KeySet.capacity (faults past) s (a.run s) (a.onMap.Stops s.map) := by
  constructor
  · intro past s h
    have hfit := Map.fit_of_trace hn h
    exact ⟨hfit.inOrder, fun a => (a.step hfit.kept hfit.idle).served hfit⟩
  · intro past s h
    have hfit := KeySet.fit_of_trace hn h
    exact ⟨hfit.inOrder, fun a => (a.step hfit.kept hfit.idle).served hfit⟩

/-- One key put in five times over, with a predicate that never accepts, makes a map grow once, and a
predicate that always accepts keeps all but one key out of a set. -/
theorem containers_stay_in_order_contradicted :
    (∃ (past : List _) (s : Map Nat Nat),
      Trace MapAct.run (Map.withCapacity 0 UInt64.ofNat) past s ∧ faults past = [] ∧ s.len = 5 ∧
        s.capacity = 17 ∧ s.InOrder (faults past)) ∧
    ∃ (past : List _) (s : KeySet Nat),
      Trace SetAct.run (KeySet.withCapacity 0 UInt64.ofNat) past s ∧ faults past = [] ∧
        s.len = 1 ∧ s.map.InOrder (faults past) := by
  let again : MapAct Nat Nat :=
    .serve (σ := Unit) (.insert ⟨some 5, fun _ _ _ => pure false⟩ 1 10) ()
  let other (key : Nat) : SetAct Nat :=
    .serve (σ := Unit) (.insert ⟨some 5, fun _ _ _ => pure true⟩ key ()) ()
  have hfresh : Trace MapAct.run (Map.withCapacity 0 UInt64.ofNat : Map Nat Nat) [] _ := .start
  have hfive := ((((hfresh.step again).step again).step again).step again).step again
  have hset : Trace SetAct.run (KeySet.withCapacity 0 UInt64.ofNat : KeySet Nat) [] _ := .start
  have hone := (hset.step (other 1)).step (other 2)
  obtain ⟨hmaps, hsets⟩ := containers_stay_in_order (V := Nat) (n := 0) (by decide)
    (UInt64.ofNat : Nat → UInt64)
  obtain ⟨hstore, -⟩ := hmaps _ _ hfive
  obtain ⟨hkeys, -⟩ := hsets _ _ hone
  exact ⟨⟨_, _, hfive, by decide, by decide, by decide, hstore⟩,
    ⟨_, _, hone, by decide, by decide, hkeys⟩⟩

end LinearProbing
