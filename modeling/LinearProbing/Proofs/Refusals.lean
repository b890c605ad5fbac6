import LinearProbing.Proofs.Buffers
import LinearProbing.Proofs.Membership

set_option autoImplicit false

/-!
# When a pool refuses a call

A pool refuses a list that is out of order and the union of sets of which one is gone, and nothing else
as long as its arena has room. A call that fails, for whatever reason, leaves the pool as it was.
-/

namespace LinearProbing

open Canonical

namespace Canonical

variable {α : Type} [Ord α] [Std.TransOrd α]

theorem isCanonical_eq_false_iff {elems : List α} :
    isCanonical elems = false ↔ ∃ (i j : Nat) (hij : i < j) (hj : j < elems.length),
      compare elems[i] elems[j] ≠ .lt := by
  rw [← Bool.not_eq_true, isCanonical_iff, Ascending, List.pairwise_iff_getElem]
  push Not
  constructor
  · rintro ⟨i, j, hi, hj, hij, hne⟩
    exact ⟨i, j, hij, hj, hne⟩
  · rintro ⟨i, j, hij, hj, hne⟩
    exact ⟨i, j, Nat.lt_trans hij hj, hj, hij, hne⟩

end Canonical

namespace SlotPool

variable {A H α : Type}

theorem message_slotsExhausted_ne (c : PoolCall H α) :
    Fault.slotsExhausted.message ≠ (refusal c).message := by
  have hdisorder : Fault.slotsExhausted.message ≠ Fault.notCanonical.message := by decide
  have hdead : Fault.slotsExhausted.message ≠ Fault.deadHandle.message := by decide
  cases c with
  | insert elems => exact hdisorder
  | insertSorted elems => exact hdisorder
  | insertBuffer buffer => exact hdisorder
  | merge a b => exact hdead

variable [Slots A H (PooledSet α)] [Ord α] [BEq α]

/-- What the calls on a pool may ask for, given the handles that it answered since the last reset and
those that it answered before. -/
structure Dependable (p : SlotPool A H α) (log past : List (H × List α)) : Prop where
  disorder : ∀ elems : List α,
    (∃ fault, (p.insertSorted elems).result = .error fault ∧
      fault.message = "set elements are not sorted and unique") ↔
    ∃ (i j : Nat) (hij : i < j) (hj : j < elems.length), compare elems[i] elems[j] ≠ .lt
  gone : ∀ a ∈ (past ++ log).map Prod.fst, ∀ b ∈ (past ++ log).map Prod.fst,
    ((∃ fault, (p.merge a b).result = .error fault ∧ fault.message = "invalid SlotMap key used") ↔
      a ∈ past.map Prod.fst ∨ b ∈ past.map Prod.fst)
  /-- In an arena with room all other calls answer. -/
  inserts : p.len < Arena.maxLen → ∀ elems, ∃ h, (p.insert elems).result = .ok h
  buffers : p.len < Arena.maxLen → ∀ buffer, ∃ h, (p.insertBuffer buffer).1.result = .ok h
  ordered : p.len < Arena.maxLen → ∀ elems, Ascending elems → ∃ h, (p.insertSorted elems).result = .ok h
  alive : p.len < Arena.maxLen → ∀ a ∈ log.map Prod.fst, ∀ b ∈ log.map Prod.fst,
    ∃ ab, (p.merge a b).result = .ok ab
  resets : ∃ p' events, p.reset = ⟨.ok (), p', events⟩
  /-- Compaction turns to no place that a buffer lacks, and its front is a part of the buffer. -/
  compacts : ∀ buffer : Array α, ∃ n, compact buffer = .ok n (p.insertBuffer buffer).2 ∧
    front (p.insertBuffer buffer).2 n = .ok (ofList buffer.toList)
  /-- A search in a set ends at one of its places. -/
  places : ∀ {handle set x i}, p.get? handle = some set →
    searchFrom set.elems x 0 set.elems.size = some i → i < set.elems.size
  /-- A call that fails leaves the pool as it was. -/
  atomic : ∀ (c : PoolCall H α) fault, (p.call c).result = .error fault → p.call c = .fail fault p

variable [Std.TransOrd α] [Std.LawfulBEqOrd α] {contentHash : List α → UInt64}
  {hhash : ∀ xs ys : List α, (xs == ys) = true → contentHash xs = contentHash ys}
  {p : SlotPool A H α} {d : Association H Unit} {log past : List (H × List α)}

theorem Indexes.atomic [LawfulSlots A] (h : p.Indexes contentHash hhash d) {c : PoolCall H α}
    {fault : Fault} (hresult : (p.call c).result = .error fault) : p.call c = .fail fault p := by
  cases hwanted : p.wanted? c with
  | none =>
    have hrefused := call_of_wanted?_eq_none hwanted
    rw [hrefused] at hresult
    cases hresult
    exact hrefused
  | some elems =>
    obtain ⟨hpooling, -⟩ := h.call hwanted
    have hfull := hpooling.eq_fail hresult
    rw [hfull] at hresult
    cases hresult
    exact hfull

theorem Indexes.refused_iff [LawfulSlots A] (h : p.Indexes contentHash hhash d) (c : PoolCall H α) :
    (∃ fault, (p.call c).result = .error fault ∧ fault.message = (refusal c).message) ↔
      p.wanted? c = none := by
  constructor
  · rintro ⟨fault, hresult, hmessage⟩
    cases hwanted : p.wanted? c with
    | none => rfl
    | some elems =>
      obtain ⟨hpooling, -⟩ := h.call hwanted
      rw [hpooling.eq_fail hresult] at hresult
      cases hresult
      exact absurd hmessage (message_slotsExhausted_ne c)
  · intro hwanted
    rw [call_of_wanted?_eq_none hwanted]
    exact ⟨refusal c, rfl, rfl⟩

theorem Told.elems?_eq_none_iff [RetiringSlots A] (h : Told contentHash p log past)
    (hhash : ∀ xs ys : List α, (xs == ys) = true → contentHash xs = contentHash ys) {handle : H}
    (hmem : handle ∈ (past ++ log).map Prod.fst) :
    p.elems? handle = none ↔ handle ∈ past.map Prod.fst := by
  obtain ⟨-, hlog⟩ : (∃ d, p.Indexes contentHash hhash d) ∧ _ := h.run.indexes
  constructor
  · intro hdead
    rw [List.map_append, List.mem_append] at hmem
    refine hmem.resolve_right fun hlive => ?_
    obtain ⟨a, ha, rfl⟩ := List.mem_map.1 hlive
    obtain ⟨set, hget, -⟩ := hlog a ha
    rw [elems?, hget] at hdead
    cases hdead
  · intro hpast
    rw [elems?, h.get?_past hhash hpast]
    rfl

theorem Indexes.exists_answer [LawfulSlots A] (h : p.Indexes contentHash hhash d) {c : PoolCall H α}
    {elems : List α} (hwanted : p.wanted? c = some elems) (hroom : p.len < Arena.maxLen) :
    ∃ handle, (p.call c).result = .ok handle :=
  (h.call hwanted).1.exists_answer hroom

/-- A pool refuses lists out of order and handles from before a reset, and fails otherwise only in a full
arena. Whenever it fails, it is as it was. -/
theorem refusals_exact [RetiringSlots A] (contentHash : List α → UInt64)
    (hhash : ∀ xs ys : List α, (xs == ys) = true → contentHash xs = contentHash ys)
    {p : SlotPool A H α} {log past : List (H × List α)} (h : Told contentHash p log past) :
    p.Dependable log past := by
  obtain ⟨⟨d, hindexes⟩, hlog⟩ : (∃ d, p.Indexes contentHash hhash d) ∧ _ := h.run.indexes
  exact {
    disorder := fun elems => by
      rw [← isCanonical_eq_false_iff, ← wanted?_insertSorted_eq_none_iff (p := p)]
      exact hindexes.refused_iff (.insertSorted elems)
    gone := fun a ha b hb => by
      rw [← h.elems?_eq_none_iff hhash ha, ← h.elems?_eq_none_iff hhash hb,
        ← wanted?_merge_eq_none_iff]
      exact hindexes.refused_iff (.merge a b)
    inserts := fun hroom elems => hindexes.exists_answer (c := .insert elems) rfl hroom
    buffers := fun hroom buffer => hindexes.exists_answer (c := .insertBuffer buffer) rfl hroom
    ordered := fun hroom elems hascending =>
      hindexes.exists_answer (c := .insertSorted elems) (if_pos (isCanonical_iff.2 hascending)) hroom
    alive := fun hroom a ha b hb => by
      obtain ⟨x, hx, rfl⟩ := List.mem_map.1 ha
      obtain ⟨y, hy, rfl⟩ := List.mem_map.1 hb
      obtain ⟨set, hget, -⟩ := hlog x hx
      obtain ⟨set', hget', -⟩ := hlog y hy
      have helems : p.elems? x.1 = some set.toList := Option.map_eq_some_iff.2 ⟨set, hget, rfl⟩
      have helems' : p.elems? y.1 = some set'.toList := Option.map_eq_some_iff.2 ⟨set', hget', rfl⟩
      exact hindexes.exists_answer (wanted?_merge helems helems') hroom
    resets := by
      obtain ⟨p', events, hrun, -⟩ := hindexes.reset
      exact ⟨p', events, hrun⟩
    compacts := fun buffer => by
      obtain ⟨n, buffer', hcompact, hn, -, hfront, hrun⟩ := p.insertBuffer_spec buffer
      rw [hrun]
      exact ⟨n, hcompact, (front_eq hn).trans (congrArg Except.ok hfront)⟩
    places := fun _ hsearch => by
      obtain ⟨y, hget, -⟩ := searchFrom_sound hsearch
      exact (Array.getElem?_eq_some_iff.1 hget).1
    atomic := fun c fault => hindexes.atomic }

/-- After a reset the handle of `1` cannot be merged with that of `2`, which can be merged with itself, and
`2, 1` is refused as a list. -/
theorem refusals_exact_after_reset :
    ∃ p : SetPool Nat, p.merge ⟨0⟩ ⟨1⟩ = .fail .deadHandle p ∧
      (∃ ab, (p.merge ⟨1⟩ ⟨1⟩).result = .ok ab) ∧
      (∃ fault, (p.insertSorted [2, 1]).result = .error fault ∧
        fault.message = "set elements are not sorted and unique") ∧
      ∃ h, (p.insert [2, 1]).result = .ok h := by
  let contentHash : List Nat → UInt64 := fun _ => 0
  let p : SetPool Nat :=
    ((empty contentHash).insertSorted [1]).state.reset.state.insertSorted [2] |>.state
  have hstart : Told contentHash (empty contentHash : SetPool Nat) [] [] := .start
  have hone := hstart.call (.insertSorted [1])
  have hpast : [] ++ answer (.insertSorted [1]) (empty contentHash : SetPool Nat) = [(⟨0⟩, [1])] := by
    decide
  rw [hpast] at hone
  have htwo := hone.reset.call (.insertSorted [2])
  have hlog : [] ++ answer (.insertSorted [2]) (SlotPool.call (.insertSorted [1])
      (empty contentHash : SetPool Nat)).state.reset.state = [(⟨1⟩, [2])] := by decide
  rw [hlog] at htwo
  have htold : Told contentHash p [(⟨1⟩, [2])] [(⟨0⟩, [1])] := htwo
  have hdependable := refusals_exact contentHash (fun _ _ _ => rfl) htold
  have hroom : p.len < Arena.maxLen := by decide
  have hdead : (p.merge ⟨0⟩ ⟨1⟩).result = .error .deadHandle := by decide
  exact ⟨p, hdependable.atomic (.merge ⟨0⟩ ⟨1⟩) _ hdead,
    hdependable.alive hroom _ (.head _) _ (.head _),
    (hdependable.disorder [2, 1]).2 ⟨0, 1, by decide, by decide, by decide⟩,
    hdependable.inserts hroom [2, 1]⟩

end SlotPool

end LinearProbing
