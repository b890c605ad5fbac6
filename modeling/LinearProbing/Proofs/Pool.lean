import LinearProbing.SetPool.Basic
import LinearProbing.Proofs.Canonical
import LinearProbing.Proofs.Slots
import LinearProbing.Proofs.StoreCalls

set_option autoImplicit false

/-!
# What pooling does to a pool

The index of a pool represents an association of the live handles, which are hashed and compared by
their sets. Pooling finds the handle of a set that is there, and otherwise adds one slot and one entry
of the index.
-/

namespace LinearProbing

open Canonical

namespace SlotPool

variable {A H α : Type} [Slots A H (PooledSet α)]

/-- The elements of the set of a handle, of which there are none if the handle is not in use. -/
def contentAt (arena : A) (h : H) : List α :=
  match Slots.get? arena h with
  | some set => set.toList
  | none => []

theorem contentAt_eq {arena : A} {h : H} {set : PooledSet α} (hget : Slots.get? arena h = some set) :
    contentAt arena h = set.toList := by
  rw [contentAt, hget]

theorem contentOf_eq {arena : A} {h : H} {set : PooledSet α} (hget : Slots.get? arena h = some set) :
    contentOf arena h = .ok set.toList := by
  rw [contentOf, hget]

theorem contentOf_arena (p : SlotPool A H α) (h : H) :
    contentOf p.arena h =
      match p.elems? h with
      | some elems => .ok elems
      | none => .error .deadHandle := by
  rw [contentOf, elems?, get?]
  cases Slots.get? p.arena h with
  | some set => rfl
  | none => rfl

variable [BEq α]

def sameContent (arena : A) (_ : Store H Unit) (stored new : H) : ExceptT Fault Id Bool :=
  ExceptT.mk (pure do
    let old ← contentOf arena stored
    let fresh ← contentOf arena new
    return old == fresh)

theorem sameContent_eq {arena : A} (busy : Store H Unit) {stored new : H} {old fresh : PooledSet α}
    (hold : Slots.get? arena stored = some old) (hnew : Slots.get? arena new = some fresh) :
    sameContent arena busy stored new = pure (old.toList == fresh.toList) := by
  rw [sameContent, contentOf_eq hold, contentOf_eq hnew]
  rfl

def hasContent (arena : A) (elems : List α) (_ : Store H Unit) (handle : H) : ExceptT Fault Id Bool :=
  ExceptT.mk (pure ((contentOf arena handle).map (· == elems)))

theorem hasContent_eq {arena : A} {elems : List α} (busy : Store H Unit) {handle : H}
    {set : PooledSet α} (hget : Slots.get? arena handle = some set) :
    hasContent arena elems busy handle = pure (set.toList == elems) := by
  rw [hasContent, contentOf_eq hget]
  rfl

theorem lookup_of_find {p : SlotPool A H α} {hash : UInt32} {elems : List α}
    {found : Option (H × Unit)}
    (hrun : p.index.findWithHash hash (hasContent p.arena elems) = (pure (.ok found p.index) : Id _)) :
    p.lookup hash elems = .ok (found.map Prod.fst) p := by
  rcases p with ⟨contentHash, index, arena⟩
  exact congrArg (fun o : Id (Outcome (Store H Unit) (Option (H × Unit))) =>
    ((Id.run o).map (·.map Prod.fst)).within fun index => SlotPool.mk contentHash index arena) hrun

theorem store_of_insert {p : SlotPool A H α} {hash : UInt32} {elems : List α} {new : H} {arena' : A}
    {index' : Store H Unit} {events : List Event}
    (hadd : Slots.add p.arena ⟨elems.toArray⟩ = some (new, arena'))
    (hrun : p.index.insertWithHash hash new () (sameContent arena') =
      (pure ⟨.ok true, index', events⟩ : Id _)) :
    p.store hash elems = ⟨.ok new, ⟨p.contentHash, index', arena'⟩, events⟩ := by
  rcases p with ⟨contentHash, index, arena⟩
  have hadd' : Slots.add arena (PooledSet.mk elems.toArray) = some (new, arena') := hadd
  have hstore := congrArg (fun o : Id (Outcome (Store H Unit) Bool) =>
    ((Id.run o).within fun index => SlotPool.mk contentHash index arena').bind fun isNew p =>
      if isNew then .ok new p else .fail .contentPooledTwice p) hrun
  rw [← List.append_nil events]
  rw [SlotPool.store, hadd']
  exact hstore

def keying (contentHash : List α → UInt64)
    (hhash : ∀ xs ys : List α, (xs == ys) = true → contentHash xs = contentHash ys) (arena : A) :
    Keying H (List α) :=
  ⟨contentAt arena, fun elems => (contentHash elems).toUInt32, fun h => by rw [hhash _ _ h]⟩

/-- No set of a pool has these elements. -/
def Lacks (p : SlotPool A H α) (elems : List α) : Prop :=
  ∀ h set, p.get? h = some set → ¬ SameElements set.toList elems

/-- The outcomes of pooling some elements: their handle is found and nothing changes, or nothing
changes because the arena is full, or a slot is added for them. -/
inductive Pooling (p : SlotPool A H α) (elems : List α) : Outcome (SlotPool A H α) H → Prop where
  | found {h : H} {set : PooledSet α} (hget : p.get? h = some set)
      (hsame : SameElements set.toList elems) : Pooling p elems (.ok h p)
  | full (hlacks : p.Lacks elems) (hlen : Arena.maxLen ≤ p.len) :
      Pooling p elems (.fail .slotsExhausted p)
  | added {h : H} {set : PooledSet α} {p' : SlotPool A H α} {events : List Event}
      (hlacks : p.Lacks elems) (hfresh : p.get? h = none) (hget : p'.get? h = some set)
      (hsame : SameElements set.toList elems) (hothers : ∀ h' ≠ h, p'.get? h' = p.get? h')
      (hlen : p'.len = p.len + 1) : Pooling p elems ⟨.ok h, p', events⟩

/-- How a pool goes about it: the handle of an equal list is there, or the arena is full, or the list goes
into the arena and its handle into the index. -/
inductive Filed (p : SlotPool A H α) (elems : List α) : Outcome (SlotPool A H α) H → Prop where
  | known {h : H} {set : PooledSet α} (hget : p.get? h = some set)
      (heq : (set.toList == elems) = true) : Filed p elems (.ok h p)
  | full (hlacks : p.Lacks elems) (hlen : Arena.maxLen ≤ p.len) :
      Filed p elems (.fail .slotsExhausted p)
  | stored {h : H} {p' : SlotPool A H α} {events : List Event} (hlacks : p.Lacks elems)
      (hadd : Slots.add p.arena ⟨elems.toArray⟩ = some (h, p'.arena)) :
      Filed p elems ⟨.ok h, p', events⟩

theorem Lacks.congr {p : SlotPool A H α} {elems elems' : List α} (h : p.Lacks elems)
    (hsame : SameElements elems elems') : p.Lacks elems' :=
  fun handle set hget hset => h handle set hget (hset.trans hsame.symm)

theorem Pooling.congr {p : SlotPool A H α} {elems elems' : List α} {o : Outcome (SlotPool A H α) H}
    (h : Pooling p elems o) (hsame : SameElements elems elems') : Pooling p elems' o := by
  cases h with
  | found hget hset => exact .found hget (hset.trans hsame)
  | full hlacks hlen => exact .full (hlacks.congr hsame) hlen
  | added hlacks hfresh hget hset hothers hlen =>
    exact .added (hlacks.congr hsame) hfresh hget (hset.trans hsame) hothers hlen

theorem Pooling.keeps {p : SlotPool A H α} {elems : List α} {o : Outcome (SlotPool A H α) H}
    (h : Pooling p elems o) {handle : H} {set : PooledSet α} (hget : p.get? handle = some set) :
    o.state.get? handle = some set := by
  cases h with
  | found => exact hget
  | full => exact hget
  | @added new _ p' _ _ hfresh _ _ hothers _ =>
    have hne : handle ≠ new := by
      intro heq
      rw [heq, hfresh] at hget
      cases hget
    exact (hothers handle hne).trans hget

theorem Pooling.answered {p : SlotPool A H α} {elems : List α} {o : Outcome (SlotPool A H α) H}
    (h : Pooling p elems o) {handle : H} (hresult : o.result = .ok handle) :
    ∃ set, o.state.get? handle = some set ∧ SameElements set.toList elems := by
  cases h with
  | found hget hsame =>
    cases hresult
    exact ⟨_, hget, hsame⟩
  | full => cases hresult
  | added _ _ hget hsame _ _ =>
    cases hresult
    exact ⟨_, hget, hsame⟩

theorem Pooling.answered_elems {p : SlotPool A H α} {elems : List α}
    {o : Outcome (SlotPool A H α) H} (h : Pooling p elems o) {handle : H}
    (hresult : o.result = .ok handle) :
    ∃ l, o.state.elems? handle = some l ∧ SameElements l elems := by
  obtain ⟨set, hget, hsame⟩ := h.answered hresult
  exact ⟨_, Option.map_eq_some_iff.2 ⟨set, hget, rfl⟩, hsame⟩

theorem Pooling.len_le {p : SlotPool A H α} {elems : List α} {o : Outcome (SlotPool A H α) H}
    (h : Pooling p elems o) : o.state.len ≤ p.len + 1 := by
  cases h with
  | found => exact Nat.le_succ _
  | full => exact Nat.le_succ _
  | added _ _ _ _ _ hlen => exact Nat.le_of_eq hlen

theorem Pooling.exists_answer {p : SlotPool A H α} {elems : List α}
    {o : Outcome (SlotPool A H α) H} (h : Pooling p elems o) (hroom : p.len < Arena.maxLen) :
    ∃ handle, o.result = .ok handle := by
  cases h with
  | found => exact ⟨_, rfl⟩
  | full _ hlen => exact absurd hroom (Nat.not_lt.2 hlen)
  | added => exact ⟨_, rfl⟩

theorem Pooling.eq_fail {p : SlotPool A H α} {elems : List α} {o : Outcome (SlotPool A H α) H}
    (h : Pooling p elems o) {fault : Fault} (hresult : o.result = .error fault) :
    o = .fail .slotsExhausted p := by
  cases h with
  | found => cases hresult
  | full => rfl
  | added => cases hresult

theorem Pooling.grows_iff {p : SlotPool A H α} {elems : List α} {o : Outcome (SlotPool A H α) H}
    (h : Pooling p elems o) {handle : H} (hresult : o.result = .ok handle) :
    (o.state.len = p.len + 1 ↔ p.Lacks elems) ∧ (o.state = p ↔ ¬ p.Lacks elems) := by
  cases h with
  | found hget hsame =>
    have hhas : ¬ p.Lacks elems := fun hlacks => hlacks _ _ hget hsame
    simp [hhas]
  | full => cases hresult
  | @added _ _ p' _ hlacks _ _ _ _ hlen =>
    have hne : p' ≠ p := by
      rintro rfl
      exact Nat.succ_ne_self _ hlen.symm
    exact ⟨iff_of_true hlen hlacks, iff_of_false hne (not_not_intro hlacks)⟩

theorem Filed.pooling [LawfulSlots A] [Ord α] [Std.TransOrd α] [Std.LawfulBEqOrd α]
    {p : SlotPool A H α} {elems : List α} {o : Outcome (SlotPool A H α) H} (h : Filed p elems o) :
    Pooling p elems o := by
  cases h with
  | known hget heq => exact .found hget (sameElements_of_beq heq)
  | full hlacks hlen => exact .full hlacks hlen
  | stored hlacks hadd =>
    exact .added hlacks (LawfulSlots.get?_fresh hadd) (LawfulSlots.get?_add_self hadd)
      (fun _ => rfl) (fun _ hne => LawfulSlots.get?_add_of_ne hadd hne) (LawfulSlots.len_add hadd)

/-- The capacity that the index of a pool does not exceed. -/
def indexLimit : Nat := Capacity.greatest + 3 * UInt32.size

/-- The index of a pool represents the association of its live handles, and all sets are canonical. -/
structure Indexes [Ord α] (contentHash : List α → UInt64)
    (hhash : ∀ xs ys : List α, (xs == ys) = true → contentHash xs = contentHash ys)
    (p : SlotPool A H α) (d : Association H Unit) : Prop where
  hasher : p.contentHash = contentHash
  represents : p.index.Represents (keying contentHash hhash p.arena) d
  live : ∀ h, (h, ()) ∈ d ↔ (p.get? h).isSome
  ascending : ∀ {h set}, p.get? h = some set → Ascending set.toList
  counted : d.length = p.len
  roomy : p.index.capacity ≤ indexLimit

section Invariant

variable [Ord α] {contentHash : List α → UInt64}
  {hhash : ∀ xs ys : List α, (xs == ys) = true → contentHash xs = contentHash ys}
  {p : SlotPool A H α} {d : Association H Unit}

namespace Indexes

theorem exists_set (h : p.Indexes contentHash hhash d) {q : H × Unit} (hq : q ∈ d) :
    ∃ set, p.get? q.1 = some set ∧ contentAt p.arena q.1 = set.toList := by
  obtain ⟨set, hset⟩ := Option.isSome_iff_exists.1 ((h.live q.1).1 hq)
  exact ⟨set, hset, contentAt_eq hset⟩

theorem mem_of_get? (h : p.Indexes contentHash hhash d) {handle : H} {set : PooledSet α}
    (hget : p.get? handle = some set) : (handle, ()) ∈ d := by
  rw [h.live, hget]
  rfl

theorem ascending_elems (h : p.Indexes contentHash hhash d) {handle : H} {elems : List α}
    (helems : p.elems? handle = some elems) : Ascending elems := by
  obtain ⟨set, hget, rfl⟩ := Option.map_eq_some_iff.1 helems
  exact h.ascending hget

section Arenas

variable [LawfulSlots A]

theorem start : (empty contentHash : SlotPool A H α).Indexes contentHash hhash [] := by
  have hdead : ∀ h, (empty contentHash : SlotPool A H α).get? h = none := LawfulSlots.get?_empty
  refine ⟨rfl, Store.represents_withCapacity _ _, ?_, ?_, LawfulSlots.len_empty.symm, ?_⟩
  · intro h
    simp [hdead]
  · intro h set hget
    rw [hdead] at hget
    cases hget
  · exact Store.capacity_standard_le.trans (Nat.le_add_right _ _)

theorem reset (h : p.Indexes contentHash hhash d) :
    ∃ p' events, p.reset = ⟨.ok (), p', events⟩ ∧ p'.Indexes contentHash hhash [] := by
  rcases p with ⟨hasher, index, arena⟩
  obtain ⟨index', hclear, hrep, hcap⟩ := h.represents.clear
  have hdead : ∀ h, (⟨hasher, index', Slots.clear arena⟩ : SlotPool A H α).get? h = none :=
    LawfulSlots.get?_clear arena
  refine ⟨⟨hasher, index', Slots.clear arena⟩, [.reset (Slots.len arena)], ?_, h.hasher, ?_, ?_, ?_,
    (LawfulSlots.len_clear arena).symm, ?_⟩
  · rw [SlotPool.reset, hclear]
    rfl
  · exact hrep.congr rfl fun _ hq => absurd hq List.not_mem_nil
  · intro h
    simp [hdead]
  · intro h set hget
    rw [hdead] at hget
    cases hget
  · rw [hcap]
    exact h.roomy

theorem get?_add (h : p.Indexes contentHash hhash d) {arena' : A} {value : PooledSet α} {new : H}
    (hadd : Slots.add p.arena value = some (new, arena')) {q : H × Unit} (hq : q ∈ d) :
    ∃ set, Slots.get? p.arena q.1 = some set ∧ Slots.get? arena' q.1 = some set := by
  obtain ⟨set, hget, -⟩ := h.exists_set hq
  have hne : q.1 ≠ new := by
    intro heq
    have hfresh : p.get? new = none := LawfulSlots.get?_fresh hadd
    rw [heq, hfresh] at hget
    cases hget
  exact ⟨set, hget, (LawfulSlots.get?_add_of_ne hadd hne).trans hget⟩

end Arenas

theorem find_eq_some (h : p.Indexes contentHash hhash d) {elems : List α} {q : H × Unit}
    (hfind : Association.find (keying contentHash hhash p.arena) elems d = some q) :
    ∃ set, p.get? q.1 = some set ∧ (set.toList == elems) = true := by
  obtain ⟨set, hget, hcontent⟩ := h.exists_set (List.mem_of_find?_eq_some hfind)
  have hsame : (keying contentHash hhash p.arena).same elems q.1 = true := by
    simpa using List.find?_some hfind
  change (contentAt p.arena q.1 == elems) = true at hsame
  rw [hcontent] at hsame
  exact ⟨set, hget, hsame⟩

section Contents

variable [Std.TransOrd α] [Std.LawfulBEqOrd α]

/-- A search under the hash of its content never meets a dead handle. -/
theorem lookup (h : p.Indexes contentHash hhash d) (elems : List α) :
    p.lookup (p.indexHash elems) elems =
      .ok ((Association.find (keying contentHash hhash p.arena) elems d).map Prod.fst) p := by
  have hask : ∀ q ∈ d, hasContent p.arena elems p.index.enter q.1 =
      pure ((keying contentHash hhash p.arena).same elems q.1) := by
    intro q hq
    obtain ⟨set, hget, hcontent⟩ := h.exists_set hq
    change _ = pure (contentAt p.arena q.1 == elems)
    rw [hasContent_eq _ hget, hcontent]
  have hrun := h.represents.findWithHash elems (hasContent p.arena elems) hask
  have hhash : (keying contentHash hhash p.arena).hash elems = p.indexHash elems := by
    rw [indexHash, h.hasher]
    rfl
  rw [hhash] at hrun
  exact lookup_of_find hrun

theorem find_eq_none (h : p.Indexes contentHash hhash d)
    {elems : List α} (hascending : Ascending elems)
    (hfind : Association.find (keying contentHash hhash p.arena) elems d = none) : p.Lacks elems := by
  intro handle set hget hsame
  have hbeq : (contentAt p.arena handle == elems) = true := by
    rw [contentAt_eq hget]
    exact beq_of_sameElements (h.ascending hget) hascending hsame
  exact Association.find_eq_none_iff.1 hfind _ (h.mem_of_get? hget) hbeq

section Adding

variable [LawfulSlots A] {arena' : A} {new : H} {elems : List α}

theorem insertWithHash (h : p.Indexes contentHash hhash d)
    (hfind : Association.find (keying contentHash hhash p.arena) elems d = none)
    (hadd : Slots.add p.arena ⟨elems.toArray⟩ = some (new, arena')) :
    ∃ index' events, p.index.insertWithHash (p.indexHash elems) new () (sameContent arena') =
        (pure ⟨.ok true, index', events⟩ : Id (Outcome (Store H Unit) Bool)) ∧
      index'.Represents (keying contentHash hhash arena') (d ++ [(new, ())]) ∧
      index'.capacity ≤ max p.index.capacity (Capacity.greatest + 3 * (d.length + 1)) := by
  have hnew : Slots.get? arena' new = some ⟨elems.toArray⟩ := LawfulSlots.get?_add_self hadd
  have hcontent : (keying contentHash hhash arena').content new = elems := contentAt_eq hnew
  have hold : ∀ q ∈ d, contentAt arena' q.1 = contentAt p.arena q.1 := by
    intro q hq
    obtain ⟨set, hget, hget'⟩ := h.get?_add hadd hq
    rw [contentAt_eq hget', contentAt_eq hget]
  have hrep : p.index.Represents (keying contentHash hhash arena') d := h.represents.congr rfl hold
  have hfind' : Association.find (keying contentHash hhash arena')
      ((keying contentHash hhash arena').content new) d = none := by
    rw [hcontent, Association.find_eq_none_iff]
    rw [Association.find_eq_none_iff] at hfind
    intro q hq
    change ¬ (contentAt arena' q.1 == elems) = true
    rw [hold q hq]
    exact hfind q hq
  -- both handles that are compared are alive in the new arena
  have hask : ∀ q ∈ d, sameContent arena' p.index.enter q.1 new =
      pure ((keying contentHash hhash arena').same ((keying contentHash hhash arena').content new)
        q.1) := by
    intro q hq
    obtain ⟨set, -, hget'⟩ := h.get?_add hadd hq
    change _ = pure (contentAt arena' q.1 == contentAt arena' new)
    rw [sameContent_eq _ hget' hnew, contentAt_eq hget', contentAt_eq hnew]
  have hcap : p.index.capacity < Capacity.loadLimit := Nat.lt_of_le_of_lt h.roomy (by decide)
  obtain ⟨index', events, hrun, hrep', hcap'⟩ :=
    hrep.insertWithHash (m := Id) () (sameContent arena') hask hcap
  rw [Association.insert_of_none hfind'] at hrun hrep'
  have hhash' : (keying contentHash hhash arena').hash ((keying contentHash hhash arena').content new) =
      p.indexHash elems := by
    rw [hcontent, indexHash, h.hasher]
    rfl
  rw [hhash'] at hrun
  exact ⟨index', events, hrun, hrep', hcap'⟩

theorem store (h : p.Indexes contentHash hhash d) (hascending : Ascending elems)
    (hfind : Association.find (keying contentHash hhash p.arena) elems d = none)
    (hadd : Slots.add p.arena ⟨elems.toArray⟩ = some (new, arena')) :
    ∃ index' events, p.store (p.indexHash elems) elems =
        ⟨.ok new, ⟨contentHash, index', arena'⟩, events⟩ ∧
      Indexes contentHash hhash ⟨contentHash, index', arena'⟩ (d ++ [(new, ())]) := by
  obtain ⟨index', events, hrun, hrep, hcap⟩ := h.insertWithHash hfind hadd
  have hnew : Slots.get? arena' new = some ⟨elems.toArray⟩ := LawfulSlots.get?_add_self hadd
  have hlen : Slots.len arena' = Slots.len p.arena + 1 := LawfulSlots.len_add hadd
  have hcount : d.length = Slots.len p.arena := h.counted
  refine ⟨index', events, ?_, rfl, hrep, ?_, ?_, ?_, ?_⟩
  · rw [← h.hasher]
    exact store_of_insert hadd hrun
  · intro handle
    change (handle, ()) ∈ d ++ [(new, ())] ↔ (Slots.get? arena' handle).isSome
    by_cases heq : handle = new
    · rw [heq, hnew]
      simp
    · have hlive : (handle, ()) ∈ d ↔ (Slots.get? p.arena handle).isSome := h.live handle
      rw [LawfulSlots.get?_add_of_ne hadd heq]
      simpa [heq] using hlive
  · intro handle set hget
    change Slots.get? arena' handle = some set at hget
    by_cases heq : handle = new
    · rw [heq, hnew] at hget
      cases hget
      exact hascending
    · rw [LawfulSlots.get?_add_of_ne hadd heq] at hget
      exact h.ascending hget
  · change (d ++ [(new, ())]).length = Slots.len arena'
    rw [List.length_append, List.length_singleton, hlen, hcount]
  · have hroom : Slots.len p.arena < Arena.maxLen := by
      apply Nat.lt_of_not_le
      intro hle
      rw [LawfulSlots.add_eq_none_iff.2 hle] at hadd
      cases hadd
    have hroomy := h.roomy
    change index'.capacity ≤ indexLimit
    unfold Arena.maxLen at hroom
    unfold indexLimit at hroomy ⊢
    omega

theorem filed (h : p.Indexes contentHash hhash d) (hascending : Ascending elems) :
    Filed p elems (p.insertSorted elems) ∧
      ∃ d', (p.insertSorted elems).state.Indexes contentHash hhash d' := by
  have hcanonical : isCanonical elems = true := isCanonical_iff.2 hascending
  rw [SlotPool.insertSorted, if_pos hcanonical]
  simp only [h.lookup, Outcome.ok_bind]
  cases hfind : Association.find (keying contentHash hhash p.arena) elems d with
  | some q =>
    obtain ⟨set, hget, heq⟩ := h.find_eq_some hfind
    exact ⟨.known hget heq, d, h⟩
  | none =>
    have hlacks : p.Lacks elems := h.find_eq_none hascending hfind
    change Filed p elems (p.store (p.indexHash elems) elems) ∧
      ∃ d', (p.store (p.indexHash elems) elems).state.Indexes contentHash hhash d'
    cases hadd : Slots.add p.arena (PooledSet.mk elems.toArray) with
    | none =>
      have hfull : p.store (p.indexHash elems) elems = .fail .slotsExhausted p := by
        rw [SlotPool.store, hadd]
      rw [hfull]
      exact ⟨.full hlacks (LawfulSlots.add_eq_none_iff.1 hadd), d, h⟩
    | some added =>
      rcases added with ⟨new, arena'⟩
      obtain ⟨index', events, hrun, hindexes⟩ := h.store hascending hfind hadd
      rw [hrun]
      exact ⟨.stored hlacks hadd, _, hindexes⟩

theorem insertSorted (h : p.Indexes contentHash hhash d) (hascending : Ascending elems) :
    Pooling p elems (p.insertSorted elems) ∧
      ∃ d', (p.insertSorted elems).state.Indexes contentHash hhash d' := by
  obtain ⟨hfiled, hindexes⟩ := h.filed hascending
  exact ⟨hfiled.pooling, hindexes⟩

end Adding

end Contents

end Indexes

end Invariant

end SlotPool

end LinearProbing
