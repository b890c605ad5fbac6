import LinearProbing.Proofs.Pool

set_option autoImplicit false

/-!
# One handle for each set

Whatever has been pooled since the last reset, two handles are equal exactly if they were made from the
same elements. This holds for any hash of the contents, and for any arena that keeps its promises.
-/

namespace LinearProbing

open Canonical

inductive PoolCall (H α : Type) where
  | insert (elems : List α)
  | insertSorted (elems : List α)
  | insertBuffer (buffer : Array α)
  | merge (a b : H)

namespace SlotPool

variable {A H α : Type} [Slots A H (PooledSet α)] [Ord α]

/-- The elements of the set that a call asks for, unless it asks for what it may not. -/
def wanted? (c : PoolCall H α) (p : SlotPool A H α) : Option (List α) :=
  match c with
  | .insert elems => some elems
  | .insertSorted elems => if isCanonical elems then some elems else none
  | .insertBuffer buffer => some buffer.toList
  | .merge a b =>
    match p.elems? a, p.elems? b with
    | some left, some right => some (left ++ right)
    | _, _ => none

/-- Why a call may not be made. -/
def refusal : PoolCall H α → Fault
  | .merge _ _ => .deadHandle
  | .insert _ | .insertSorted _ | .insertBuffer _ => .notCanonical

theorem wanted?_insertSorted_eq_none_iff {p : SlotPool A H α} {elems : List α} :
    p.wanted? (.insertSorted elems) = none ↔ isCanonical elems = false := by
  rw [wanted?]
  cases isCanonical elems with
  | true => simp
  | false => simp

theorem wanted?_merge {p : SlotPool A H α} {a b : H} {la lb : List α} (ha : p.elems? a = some la)
    (hb : p.elems? b = some lb) : p.wanted? (.merge a b) = some (la ++ lb) := by
  rw [wanted?, ha, hb]

theorem wanted?_merge_eq_none_iff {p : SlotPool A H α} {a b : H} :
    p.wanted? (.merge a b) = none ↔ p.elems? a = none ∨ p.elems? b = none := by
  cases ha : p.elems? a with
  | none => simp [wanted?, ha]
  | some la =>
    cases hb : p.elems? b with
    | none => simp [wanted?, hb]
    | some lb => simp [wanted?_merge ha hb]

variable [BEq α]

def call (c : PoolCall H α) (p : SlotPool A H α) : Outcome (SlotPool A H α) H :=
  match c with
  | .insert elems => p.insert elems
  | .insertSorted elems => p.insertSorted elems
  | .insertBuffer buffer => (p.insertBuffer buffer).1
  | .merge a b => p.merge a b

theorem merge_eq (p : SlotPool A H α) (a b : H) :
    p.merge a b =
      match p.elems? a, p.elems? b with
      | some left, some right => p.insertSorted (Canonical.merge left right)
      | _, _ => .fail .deadHandle p := by
  rw [SlotPool.merge, contentOf_arena, contentOf_arena]
  cases p.elems? a with
  | none => rfl
  | some left =>
    cases p.elems? b with
    | none => rfl
    | some right => rfl

theorem exists_elems_of_merge {p : SlotPool A H α} {a b ab : H}
    (h : (p.merge a b).result = .ok ab) :
    ∃ la lb, p.elems? a = some la ∧ p.elems? b = some lb := by
  rw [merge_eq] at h
  cases ha : p.elems? a with
  | none =>
    rw [ha] at h
    cases h
  | some la =>
    cases hb : p.elems? b with
    | none =>
      rw [ha, hb] at h
      cases h
    | some lb => exact ⟨la, lb, rfl, rfl⟩

theorem insertBuffer_spec (p : SlotPool A H α) (buffer : Array α) :
    ∃ n buffer', compact buffer = .ok n buffer' ∧ n ≤ buffer'.size ∧
      buffer'.toList.Perm buffer.toList ∧ buffer'.toList.take n = ofList buffer.toList ∧
      p.insertBuffer buffer = (p.insert buffer.toList, buffer') := by
  obtain ⟨n, buffer', hrun, hn, hperm, htake⟩ := compact_spec buffer
  refine ⟨n, buffer', hrun, hn, hperm, htake, ?_⟩
  simp only [insertBuffer, hrun, Outcome.result_ok, Outcome.state_ok, Except.bind, front_eq hn, htake]
  rfl

/-- The list that a call puts into the pool unless an equal one is there. There is none if the call asks
for what it may not. -/
def slice? (c : PoolCall H α) (p : SlotPool A H α) : Option (List α) :=
  match c with
  | .insert elems => some (ofList elems)
  | .insertSorted elems => if isCanonical elems then some elems else none
  | .insertBuffer buffer => some (ofList buffer.toList)
  | .merge a b =>
    match p.elems? a, p.elems? b with
    | some left, some right => some (Canonical.merge left right)
    | _, _ => none

theorem call_eq_slice (c : PoolCall H α) (p : SlotPool A H α) :
    p.call c = match p.slice? c with
      | some slice => p.insertSorted slice
      | none => .fail (refusal c) p := by
  cases c with
  | insert elems => rfl
  | insertSorted elems =>
    rw [slice?, call]
    split
    · rename_i hslice
      split at hslice
      · cases hslice
        rfl
      · cases hslice
    · rename_i hslice
      split at hslice
      · cases hslice
      · rename_i hcanonical
        exact if_neg hcanonical
  | insertBuffer buffer =>
    obtain ⟨n, buffer', -, -, -, -, hrun⟩ := p.insertBuffer_spec buffer
    rw [slice?, call, hrun]
    rfl
  | merge a b =>
    rw [slice?, call, merge_eq]
    cases p.elems? a with
    | none => rfl
    | some left =>
      cases p.elems? b with
      | none => rfl
      | some right => rfl

theorem slice?_eq_none_iff {p : SlotPool A H α} {c : PoolCall H α} :
    p.slice? c = none ↔ p.wanted? c = none := by
  cases c with
  | insert elems => exact iff_of_false nofun nofun
  | insertSorted elems => exact Iff.rfl
  | insertBuffer buffer => exact iff_of_false nofun nofun
  | merge a b =>
    rw [slice?, wanted?]
    split
    · exact iff_of_false nofun nofun
    · exact Iff.rfl

theorem call_of_wanted?_eq_none {p : SlotPool A H α} {c : PoolCall H α} (h : p.wanted? c = none) :
    p.call c = .fail (refusal c) p := by
  rw [call_eq_slice, slice?_eq_none_iff.2 h]

def answer (c : PoolCall H α) (p : SlotPool A H α) : List (H × List α) :=
  match (p.call c).result, p.wanted? c with
  | .ok h, some elems => [(h, elems)]
  | _, _ => []

/-- The states of a pool, and all handles that it answered since the last reset. -/
inductive Run (contentHash : List α → UInt64) : SlotPool A H α → List (H × List α) → Prop where
  | start : Run contentHash (empty contentHash) []
  | call {p : SlotPool A H α} {log : List (H × List α)} (c : PoolCall H α) :
      Run contentHash p log → Run contentHash (p.call c).state (log ++ p.answer c)
  | reset {p : SlotPool A H α} {log : List (H × List α)} :
      Run contentHash p log → Run contentHash p.reset.state []

structure Consistent (p : SlotPool A H α) : Prop where
  ascending : ∀ {h set}, p.get? h = some set → Ascending set.toList
  /-- No two handles have equal sets. -/
  unique : ∀ {h h' set set'}, p.get? h = some set → p.get? h' = some set' →
    (set.toList == set'.toList) = true → h = h'
  /-- The index holds the live handles, each one under the hash of its set. -/
  indexed : ∀ e, e ∈ p.index.table.entries ↔
    ∃ set, p.get? e.key = some set ∧ e.hash = markHash (p.indexHash set.toList)
  single : (p.index.table.entries.map Entry.key).Nodup
  counted : p.index.len = p.len

section Lawful

variable [Std.TransOrd α] [Std.LawfulBEqOrd α] {contentHash : List α → UInt64}
  {hhash : ∀ xs ys : List α, (xs == ys) = true → contentHash xs = contentHash ys}
  {p : SlotPool A H α} {d : Association H Unit}

theorem Indexes.eq_of_beq (h : p.Indexes contentHash hhash d) {a b : H} {set set' : PooledSet α}
    (ha : p.get? a = some set) (hb : p.get? b = some set')
    (heq : (set.toList == set'.toList) = true) : a = b := by
  have hsame : (keying contentHash hhash p.arena).same set'.toList a = true := by
    change (contentAt p.arena a == set'.toList) = true
    rw [contentAt_eq ha]
    exact heq
  have hsame' : (keying contentHash hhash p.arena).same set'.toList b = true := by
    change (contentAt p.arena b == set'.toList) = true
    rw [contentAt_eq hb]
    exact BEq.rfl
  have hfind := h.represents.distinct.find_eq (h.mem_of_get? ha) hsame
  rw [h.represents.distinct.find_eq (h.mem_of_get? hb) hsame'] at hfind
  cases hfind
  rfl

theorem Indexes.eq_of_sameElements (h : p.Indexes contentHash hhash d) {a b : H} {la lb : List α}
    (ha : p.elems? a = some la) (hb : p.elems? b = some lb) (hsame : SameElements la lb) : a = b := by
  have hbeq := beq_of_sameElements (h.ascending_elems ha) (h.ascending_elems hb) hsame
  obtain ⟨set, hget, rfl⟩ := Option.map_eq_some_iff.1 ha
  obtain ⟨set', hget', rfl⟩ := Option.map_eq_some_iff.1 hb
  exact h.eq_of_beq hget hget' hbeq

theorem Indexes.consistent (h : p.Indexes contentHash hhash d) : p.Consistent where
  ascending := h.ascending
  unique := h.eq_of_beq
  indexed e := by
    rw [h.represents.entries.mem_iff, List.mem_map]
    constructor
    · rintro ⟨q, hq, rfl⟩
      obtain ⟨set, hget, hcontent⟩ := h.exists_set hq
      refine ⟨set, hget, ?_⟩
      rw [indexHash, h.hasher, ← hcontent]
      rfl
    · rcases e with ⟨hash, key, _⟩
      rintro ⟨set, hget, hset : hash = _⟩
      refine ⟨(key, ()), h.mem_of_get? hget, ?_⟩
      rw [hset, indexHash, h.hasher, ← contentAt_eq hget]
      rfl
  single := by
    have hkeys : ((d.map (keying contentHash hhash p.arena).entry).map Entry.key) = d.map Prod.fst := by
      rw [List.map_map]
      rfl
    rw [(h.represents.entries.map _).nodup_iff, hkeys, List.Nodup, List.pairwise_map]
    apply h.represents.distinct.imp
    intro q r hne heq
    rw [Keying.same, heq] at hne
    exact hne BEq.rfl
  counted := h.represents.len_eq.trans h.counted

theorem Indexes.slice?_spec (h : p.Indexes contentHash hhash d) {c : PoolCall H α} {slice : List α}
    (hslice : p.slice? c = some slice) :
    Ascending slice ∧ ∃ elems, p.wanted? c = some elems ∧ SameElements slice elems := by
  cases c with
  | insert elems =>
    cases hslice
    obtain ⟨hascending, hsame⟩ := ofList_spec elems
    exact ⟨hascending, elems, rfl, hsame⟩
  | insertSorted elems =>
    rw [slice?] at hslice
    split at hslice
    · rename_i hcanonical
      cases hslice
      exact ⟨isCanonical_iff.1 hcanonical, slice, if_pos hcanonical, .refl slice⟩
    · cases hslice
  | insertBuffer buffer =>
    cases hslice
    obtain ⟨hascending, hsame⟩ := ofList_spec buffer.toList
    exact ⟨hascending, buffer.toList, rfl, hsame⟩
  | merge a b =>
    rw [slice?] at hslice
    split at hslice
    · rename_i left right hleft hright
      cases hslice
      refine ⟨merge_ascending (h.ascending_elems hleft) (h.ascending_elems hright), left ++ right, ?_,
        merge_sameElements left right⟩
      exact wanted?_merge hleft hright
    · cases hslice

end Lawful

section Runs

variable [LawfulSlots A] [Std.TransOrd α] [Std.LawfulBEqOrd α] {contentHash : List α → UInt64}
  {hhash : ∀ xs ys : List α, (xs == ys) = true → contentHash xs = contentHash ys}
  {p : SlotPool A H α} {d : Association H Unit} {log : List (H × List α)}

theorem Indexes.call (h : p.Indexes contentHash hhash d) {c : PoolCall H α} {elems : List α}
    (hwanted : p.wanted? c = some elems) :
    Pooling p elems (p.call c) ∧ ∃ d', (p.call c).state.Indexes contentHash hhash d' := by
  cases hslice : p.slice? c with
  | none =>
    rw [slice?_eq_none_iff, hwanted] at hslice
    cases hslice
  | some slice =>
    obtain ⟨hascending, elems', hwanted', hsame⟩ := h.slice?_spec hslice
    rw [hwanted] at hwanted'
    cases hwanted'
    obtain ⟨hpooling, hindexes⟩ := h.insertSorted hascending
    have hcall : p.call c = p.insertSorted slice := by rw [call_eq_slice, hslice]
    rw [hcall]
    exact ⟨hpooling.congr hsame, hindexes⟩

/-- The handles answered so far are alive, and have the elements they were made from. -/
theorem Run.indexes (h : Run contentHash p log) :
    (∃ d, p.Indexes contentHash hhash d) ∧
      ∀ x ∈ log, ∃ set, p.get? x.1 = some set ∧ SameElements set.toList x.2 := by
  induction h with
  | start => exact ⟨⟨[], .start⟩, fun x hx => absurd hx List.not_mem_nil⟩
  | @reset p log h ih =>
    obtain ⟨⟨d, hindexes⟩, -⟩ := ih
    obtain ⟨p', events, hrun, hreset⟩ := hindexes.reset
    rw [hrun]
    exact ⟨⟨[], hreset⟩, fun x hx => absurd hx List.not_mem_nil⟩
  | @call p log c h ih =>
    obtain ⟨⟨d, hindexes⟩, hlog⟩ := ih
    cases hwanted : p.wanted? c with
    | none =>
      have hanswer : p.answer c = [] := by
        rw [answer, hwanted, call_of_wanted?_eq_none hwanted]
        rfl
      rw [hanswer, List.append_nil, call_of_wanted?_eq_none hwanted]
      exact ⟨⟨d, hindexes⟩, hlog⟩
    | some elems =>
      obtain ⟨hpooling, hindexes'⟩ := hindexes.call hwanted
      refine ⟨hindexes', ?_⟩
      intro x hx
      rcases List.mem_append.1 hx with hx | hx
      · obtain ⟨set, hget, hsame⟩ := hlog x hx
        exact ⟨set, hpooling.keeps hget, hsame⟩
      · rw [answer, hwanted] at hx
        cases hresult : (p.call c).result with
        | error fault =>
          rw [hresult] at hx
          cases hx
        | ok handle =>
          rw [hresult] at hx
          rw [List.mem_singleton.1 hx]
          exact hpooling.answered hresult

end Runs

/-- A pool keeps each set once, and answers the same handle for the same elements. -/
theorem hash_consing [LawfulSlots A] [Std.TransOrd α] [Std.LawfulBEqOrd α]
    (contentHash : List α → UInt64)
    (hhash : ∀ xs ys : List α, (xs == ys) = true → contentHash xs = contentHash ys)
    {p : SlotPool A H α} {log : List (H × List α)} (h : Run contentHash p log) :
    p.Consistent ∧
      (∀ x ∈ log, ∃ set, p.get? x.1 = some set ∧ SameElements set.toList x.2) ∧
      (∀ x ∈ log, ∀ y ∈ log, x.1 = y.1 ↔ SameElements x.2 y.2) ∧
      (∀ elems, ∃ found, p.lookup (p.indexHash elems) elems = .ok found p) ∧
      (∀ c elems, p.wanted? c = some elems → Pooling p elems (p.call c)) ∧
      (∀ c, p.wanted? c = none → p.call c = .fail (refusal c) p) ∧
      (∀ c, (p.call c).result ≠ .error .contentPooledTwice) ∧
      ∃ p' events, p.reset = ⟨.ok (), p', events⟩ ∧ p'.Consistent ∧ ∀ h, p'.get? h = none := by
  obtain ⟨⟨d, hindexes⟩, hlog⟩ : (∃ d, p.Indexes contentHash hhash d) ∧ _ := h.indexes
  have hconsistent := hindexes.consistent
  refine ⟨hconsistent, hlog, ?_, fun elems => ⟨_, hindexes.lookup elems⟩,
    fun c elems hwanted => (hindexes.call hwanted).1, fun c => call_of_wanted?_eq_none, ?_, ?_⟩
  · intro x hx y hy
    obtain ⟨set, hget, hset⟩ := hlog x hx
    obtain ⟨set', hget', hset'⟩ := hlog y hy
    constructor
    · intro heq
      rw [heq, hget'] at hget
      cases hget
      exact hset.symm.trans hset'
    · intro hsame
      have hsets : SameElements set.toList set'.toList := (hset.trans hsame).trans hset'.symm
      exact hconsistent.unique hget hget' (beq_of_sameElements (hconsistent.ascending hget)
        (hconsistent.ascending hget') hsets)
  · intro c hfault
    cases hwanted : p.wanted? c with
    | none =>
      rw [call_of_wanted?_eq_none hwanted] at hfault
      cases c <;> cases hfault
    | some elems =>
      have hpooling := (hindexes.call hwanted).1
      generalize p.call c = o at hpooling hfault
      cases hpooling <;> cases hfault
  · obtain ⟨p', events, hrun, hreset⟩ := hindexes.reset
    refine ⟨p', events, hrun, hreset.consistent, ?_⟩
    intro handle
    rw [← Option.not_isSome_iff_eq_none, ← hreset.live handle]
    exact List.not_mem_nil

/-- Under a hash that is the same for all contents, two sets get handles of their own, and the first one
keeps its handle. -/
theorem hash_consing_constant_hash :
    ∃ (p : SetPool Nat) (log : List (Handle × List Nat)),
      log = [(⟨0⟩, [1, 2]), (⟨1⟩, [1, 3]), (⟨0⟩, [1, 2])] ∧ p.Consistent ∧
        ∀ x ∈ log, ∀ y ∈ log, x.1 = y.1 ↔ SameElements x.2 y.2 := by
  let contentHash : List Nat → UInt64 := fun _ => 0
  have hstart : Run contentHash (empty contentHash : SetPool Nat) [] := .start
  have hrun := ((hstart.call (.insertSorted [1, 2])).call (.insertSorted [1, 3])).call
    (.insertSorted [1, 2])
  obtain ⟨hconsistent, -, hhandles, -⟩ := hash_consing contentHash (fun _ _ _ => rfl) hrun
  refine ⟨_, _, ?_, hconsistent, hhandles⟩
  decide

end SlotPool

end LinearProbing
