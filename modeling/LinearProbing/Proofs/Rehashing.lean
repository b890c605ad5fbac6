import LinearProbing.Proofs.Chain
import LinearProbing.Proofs.Growth
import LinearProbing.Proofs.Insertion

set_option autoImplicit false

/-!
# Moves lose nothing

A move to another capacity is refused if the entries do not fit, and then nothing has happened. Otherwise
every entry finds a place, even the last one in a target that ends full, and the result is the table that
insertions of the entries in bucket order would have made.
-/

namespace LinearProbing.Table

variable {σ K V : Type}

/-- Inserts entries in turn under their stored hashes with a predicate that accepts no key, and answers
whether each of them was added. -/
def insertAll (es : List (Entry K V)) (t : Table K V) : Outcome (Table K V) Bool :=
  Outcome.fold
    (fun allNew e t =>
      (Id.run (t.insert e.hash e.key e.value fun _ _ => pure false)).map (allNew && ·)) es true t

/-- The table `t'` holds the entries of `t` and has room for `n` buckets, rounded up to a capacity. -/
structure Carries (t : Table K V) (n : Nat) (t' : Table K V) : Prop where
  capacity : t'.capacity = Capacity.roundUp n
  inserted : insertAll t.entries (withCapacity n) = .ok true t'
  perm : t'.entries.Perm t.entries
  /-- A search for an entry meets it unless it accepts another one before. -/
  reached : ∀ e ∈ t.entries, ∃ i, (i, e) ∈ t'.under e.hash
  found : ∀ (hash : UInt32) (accept : K → Bool),
    (∃ i, Id.run (t'.find hash fun key => pure (accept key)) = some i) ↔ ∃ i, t.Matches hash accept i

theorem matches_iff_entries {t : Table K V} {hash : UInt32} {accept : K → Bool} :
    (∃ i, t.Matches hash accept i) ↔
      ∃ e ∈ t.entries, e.hash = markHash hash ∧ accept e.key = true := by
  constructor
  · rintro ⟨i, e, he, hmatch⟩
    exact ⟨e, mem_entries.2 ⟨i, he⟩, hmatch⟩
  · rintro ⟨e, he, hmatch⟩
    obtain ⟨i, hi⟩ := mem_entries.1 he
    exact ⟨i, e, hi, hmatch⟩

namespace Sound

variable {t : Table K V}

theorem insert_of_room (h : t.Sound) (hroom : t.occupied < t.capacity) (e : Entry K V) :
    Id.run (t.insert e.hash e.key e.value fun _ _ => pure false) = .ok true (t.lay e) := by
  rcases h.insert_cases e.hash e.key e.value (fun _ _ => false) with
    ⟨⟨i, a, -, -, haccept⟩, -⟩ | ⟨-, ⟨i, -, hrun⟩ | ⟨hfull, -⟩⟩
  · cases haccept
  · rw [lay, hrun]
    rfl
  · obtain ⟨i, hi, hempty⟩ := exists_vacant hroom
    have hocc := hfull i hi
    rw [hempty] at hocc
    cases hocc

theorem insertAll_eq {n : Nat} {es : List (Entry K V)} (hmarked : ∀ e ∈ es, e.Marked)
    (hlen : es.length ≤ Capacity.roundUp n) : insertAll es (withCapacity n) = .ok true (replay n es) := by
  induction es using List.reverseRecOn with
  | nil => rfl
  | append_singleton es e ih =>
    rw [List.length_append, List.length_singleton] at hlen
    have hmarked' : ∀ a ∈ es, a.Marked := fun a ha => hmarked a (List.mem_append_left _ ha)
    obtain ⟨hsound, hcap, hperm⟩ := replay_sound hmarked' (n := n) (by omega)
    have hroom : (replay n es).occupied < (replay n es).capacity := by
      rw [← length_entries, hperm.length_eq, hcap]
      omega
    have hbefore := ih hmarked' (by omega)
    rw [insertAll] at hbefore
    rw [insertAll, Outcome.fold_append_single, hbefore, Outcome.ok_bind, hsound.insert_of_room hroom,
      replay_append_singleton]
    rfl

theorem carries (h : t.Sound) {n : Nat} (hfits : t.occupied ≤ Capacity.roundUp n) :
    ∃ t', t.rehash n = .ok () t' ∧ t.Carries n t' := by
  obtain ⟨t', hrun, hsound, hcap, hperm⟩ := h.rehash hfits
  have hreplay : t' = replay n t.entries := by
    rw [h.rehash_eq hfits, replay_roundUp] at hrun
    cases hrun
    rfl
  refine ⟨t', hrun, hcap, ?_, hperm, fun e he => ?_, fun hash accept => ?_⟩
  · rw [hreplay]
    exact insertAll_eq (fun e he => h.marked_of_mem he) (by rwa [length_entries])
  · obtain ⟨i, hi⟩ := mem_entries.1 (hperm.mem_iff.2 he)
    exact ⟨i, (mem_under hsound.pos).2 ⟨hi, (h.marked_of_mem he).symm⟩⟩
  · rw [hsound.find_isSome, matches_iff_entries, matches_iff_entries]
    exact exists_congr fun e => and_congr_left' hperm.mem_iff

theorem capacity_edit (h : t.Sound) (e : Edit σ K V) (s : σ) :
    (attempt (t.edit e) t s).1.state.capacity = t.capacity := by
  cases e with
  | insert hash key value eq =>
    exact insert_rule (P := fun u : Table K V => u.capacity = t.capacity) rfl
      (fun found => capacity_settle t (t.landing hash found) hash key value) eq s
  | remove hash accept =>
    refine remove_rule (P := fun u : Table K V => u.capacity = t.capacity) rfl (fun he => ?_) hash
      accept s
    obtain ⟨t', hrun, -, hcap, -⟩ := h.evict_found he
    rw [hrun]
    exact hcap
  | clear => exact capacity_clear t

theorem rounded_rehash (h : t.Sound) (ht : Capacity.roundUp t.capacity = t.capacity) (n : Nat) :
    Capacity.roundUp (t.rehash n).state.capacity = (t.rehash n).state.capacity := by
  by_cases hfits : t.occupied ≤ Capacity.roundUp n
  · obtain ⟨t', hrun, -, hcap, -⟩ := h.rehash hfits
    rw [hrun, Outcome.state_ok, hcap, Capacity.roundUp_roundUp]
  · rw [rehash_eq_of_lt (by omega)]
    exact ht

end Sound

theorem Reachable.rounded {t : Table K V} (h : t.Reachable) :
    Capacity.roundUp t.capacity = t.capacity := by
  induction h with
  | fresh n => rw [capacity_withCapacity, Capacity.roundUp_roundUp]
  | @step t σ c s ht ih =>
    cases c with
    | edit e =>
      rw [attempt_edit, ht.sound.capacity_edit e s, ih]
    | rehash n => exact ht.sound.rounded_rehash ih n
    | grow =>
      change Capacity.roundUp t.grow.state.capacity = t.grow.state.capacity
      unfold grow
      split
      · exact ih
      · exact ht.sound.rounded_rehash ih _
    | write bucket f =>
      change Capacity.roundUp (t.updateAt bucket _).state.capacity = _
      rw [capacity_updateAt, ih]
      exact (capacity_updateAt ..).symm
    | rewrite fs =>
      exact takeWith_rule (P := fun u : Table K V => Capacity.roundUp u.capacity = u.capacity)
        (fun hu _ _ _ => by rw [capacity_put, hu]) (r := t.reviser) ih

/-- A move fails exactly if the entries do not fit, and then it leaves everything as it was. A move that
does not fail carries all entries over, and so does growth, which always finds a larger capacity below the
limit of the load test. That there might be no memory for the new buckets is left out. -/
theorem Reachable.rehash_carries {t : Table K V} (h : t.Reachable) :
    (∀ n, ((t.rehash n).result = .error .targetTooSmall ↔ Capacity.roundUp n < t.occupied) ∧
      (Capacity.roundUp n < t.occupied → t.rehash n = .fail .targetTooSmall t) ∧
      (t.occupied ≤ Capacity.roundUp n → ∃ t', t.rehash n = .ok () t' ∧ t.Carries n t')) ∧
    Fault.targetTooSmall.message = "rehash target too small" ∧
    (t.capacity < Capacity.loadLimit →
      ∃ t', t.grow = ⟨.ok (), t', [.grow t.capacity t'.capacity]⟩ ∧ t.capacity < t'.capacity ∧
        t'.capacity = Capacity.larger t.capacity ∧ t.rehash t'.capacity = .ok () t' ∧
        t.Carries t'.capacity t') := by
  have hsound := h.sound
  refine ⟨fun n => ⟨?_, fun hlt => rehash_eq_of_lt hlt, fun hfits => hsound.carries hfits⟩, rfl,
    fun hcap => ?_⟩
  · by_cases hfits : t.occupied ≤ Capacity.roundUp n
    · obtain ⟨t', hrun, -⟩ := hsound.carries hfits
      rw [hrun]
      simp only [Outcome.result_ok, reduceCtorEq, false_iff]
      omega
    · rw [rehash_eq_of_lt (by omega)]
      simp only [Outcome.result_fail, true_iff]
      omega
  · obtain ⟨n, hnext, hlarger, hfixed, -⟩ := Capacity.next_spec h.rounded hcap
    have hn : n = Capacity.larger t.capacity := by
      rw [Capacity.next_eq_larger hcap] at hnext
      cases hnext
      rfl
    obtain ⟨t', hrun, hcarries⟩ := hsound.carries (n := n) (by
      have := t.occupied_le
      omega)
    have hcap' : t'.capacity = n := by rw [hcarries.capacity, hfixed]
    refine ⟨t', ?_, by omega, by rw [hcap', hn], by rw [hcap', hrun], by rwa [hcap']⟩
    rw [grow, hnext, hcap']
    simp only [hrun]
    rfl

/-- Seventeen entries with one hash do not fit into seven buckets. In the seventeen buckets that eight are
rounded up to they leave none empty, and growth gives them more. -/
theorem Reachable.rehash_carries_full :
    ∃ t : Table Nat Nat, t.Reachable ∧ t.occupied = 17 ∧ t.rehash 7 = .fail .targetTooSmall t ∧
      (∃ t', t.rehash 8 = .ok () t' ∧ t'.capacity = 17 ∧ t.Carries 8 t') ∧
      ∃ t', t.grow = ⟨.ok (), t', [.grow t.capacity t'.capacity]⟩ ∧ t.capacity < t'.capacity := by
  let t : Table Nat Nat := replay 8 ((List.range 17).map fun k => ⟨markHash 3, k, 10 * k⟩)
  have ht : t.Reachable := reachable_replay ..
  have hocc : t.occupied = 17 := by decide
  have hcap : t.capacity < Capacity.loadLimit := by decide
  have hless : Capacity.roundUp 7 < t.occupied := by rw [hocc]; decide
  have hfits : t.occupied ≤ Capacity.roundUp 8 := by rw [hocc]; decide
  obtain ⟨hmoves, -, hgrow⟩ := Reachable.rehash_carries ht
  obtain ⟨t₁, hmove, hcarries⟩ := (hmoves 8).2.2 hfits
  obtain ⟨t₂, hrun, hlt, -⟩ := hgrow hcap
  exact ⟨t, ht, hocc, (hmoves 7).2.1 hless, ⟨t₁, hmove, hcarries.capacity, hcarries⟩, t₂, hrun, hlt⟩

end LinearProbing.Table
