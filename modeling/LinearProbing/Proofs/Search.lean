import LinearProbing.Proofs.Run

set_option autoImplicit false

/-!
# What a search finds

In every table that calls can lead to, no entry is hidden: a search with a pure predicate finds an
entry whenever one matches, and it finds the first one on the path.
-/

namespace LinearProbing.Table

open LinearProbing.Cycle

variable {K V : Type}

/-- Bucket `i` holds an entry that is stored under a hash and whose key a predicate accepts. -/
def Matches (t : Table K V) (hash : UInt32) (accept : K → Bool) (i : Nat) : Prop :=
  ∃ e, t.peek i = some e ∧ e.hash = markHash hash ∧ accept e.key = true

theorem hashAt_eq {t : Table K V} {i : Nat} (hi : i < t.capacity) :
    t.hashAt i = .ok (((t.peek i).map Entry.hash).getD 0) := by
  rw [hashAt, bucket_eq hi]
  rfl

theorem lt_capacity_of_hashAt {t : Table K V} {i : Nat} {stored : UInt32}
    (h : t.hashAt i = .ok stored) : i < t.capacity := by
  by_contra hi
  have hslot : t.slots[i]? = none := Array.getElem?_eq_none (Nat.le_of_not_lt hi)
  rw [hashAt, bucket, hslot] at h
  cases h

theorem keyAt_eq_ok_iff {t : Table K V} {i : Nat} {key : K} :
    t.keyAt i = .ok key ↔ ∃ e, t.peek i = some e ∧ e.key = key := by
  constructor
  · intro h
    cases hentry : t.entryAt i with
    | error fault =>
      rw [keyAt, hentry] at h
      cases h
    | ok e =>
      rw [keyAt, hentry] at h
      cases h
      exact ⟨e, entryAt_eq_ok_iff.1 hentry, rfl⟩
  · rintro ⟨e, he, rfl⟩
    rw [keyAt, entryAt_eq_ok_iff.2 he]
    rfl

theorem valueAt_eq_ok_iff {t : Table K V} {i : Nat} {value : V} :
    t.valueAt i = .ok value ↔ ∃ e, t.peek i = some e ∧ e.value = value := by
  constructor
  · intro h
    cases hentry : t.entryAt i with
    | error fault =>
      rw [valueAt, hentry] at h
      cases h
    | ok e =>
      rw [valueAt, hentry] at h
      cases h
      exact ⟨e, entryAt_eq_ok_iff.1 hentry, rfl⟩
  · rintro ⟨e, he, rfl⟩
    rw [valueAt, entryAt_eq_ok_iff.2 he]
    rfl

theorem find_pure (t : Table K V) (hash : UInt32) (accept : K → Bool) :
    Id.run (t.find hash fun key => pure (accept key)) =
      ((t.candidates hash).find? fun x => accept x.2.key).map Prod.fst := by
  rw [find_eq, List.findM?_pure]
  rfl

theorem find?_first {α : Type} {R : α → α → Prop} {l : List α} {accept : α → Bool} {x y : α}
    (hsorted : l.Pairwise R) (hfound : l.find? accept = some x) (hy : y ∈ l)
    (haccept : accept y = true) : y = x ∨ R x y := by
  obtain ⟨-, before, after, rfl, hbefore⟩ := List.find?_eq_some_iff_append.1 hfound
  rcases List.mem_append.1 hy with hmem | hmem
  · have := hbefore y hmem
    simp [haccept] at this
  · rcases List.mem_cons.1 hmem with heq | hafter
    · exact .inl heq
    · rw [List.pairwise_append, List.pairwise_cons] at hsorted
      exact .inr (hsorted.2.1.1 y hafter)

namespace Sound

variable {t : Table K V}

theorem matches_iff (h : t.Sound) {hash : UInt32} {accept : K → Bool} {i : Nat} :
    t.Matches hash accept i ↔ ∃ e, (i, e) ∈ t.candidates hash ∧ accept e.key = true := by
  constructor
  · rintro ⟨e, he, hhash, haccept⟩
    exact ⟨e, h.mem_candidates_iff.2 ⟨he, hhash⟩, haccept⟩
  · rintro ⟨e, hmem, haccept⟩
    obtain ⟨he, hhash⟩ := h.mem_candidates_iff.1 hmem
    exact ⟨e, he, hhash, haccept⟩

theorem find_isSome (h : t.Sound) (hash : UInt32) (accept : K → Bool) :
    (∃ i, Id.run (t.find hash fun key => pure (accept key)) = some i) ↔
      ∃ i, t.Matches hash accept i := by
  rw [find_pure]
  constructor
  · rintro ⟨i, hi⟩
    obtain ⟨x, hfound, rfl⟩ := Option.map_eq_some_iff.1 hi
    have haccept : accept x.2.key = true := by simpa using List.find?_some hfound
    exact ⟨x.1, h.matches_iff.2 ⟨x.2, List.mem_of_find?_eq_some hfound, haccept⟩⟩
  · rintro ⟨i, hi⟩
    obtain ⟨e, hmem, haccept⟩ := h.matches_iff.1 hi
    have hsome : ((t.candidates hash).find? fun x => accept x.2.key).isSome :=
      List.find?_isSome.2 ⟨(i, e), hmem, haccept⟩
    obtain ⟨x, hx⟩ := Option.isSome_iff_exists.1 hsome
    exact ⟨x.1, by rw [hx]; rfl⟩

theorem find_first (h : t.Sound) {hash : UInt32} {accept : K → Bool} {i : Nat}
    (hfind : Id.run (t.find hash fun key => pure (accept key)) = some i) :
    t.Matches hash accept i ∧ ∀ j, t.Matches hash accept j →
      distance t.capacity (t.home hash) i ≤ distance t.capacity (t.home hash) j := by
  rw [find_pure] at hfind
  obtain ⟨x, hfound, rfl⟩ := Option.map_eq_some_iff.1 hfind
  constructor
  · have haccept : accept x.2.key = true := by simpa using List.find?_some hfound
    exact h.matches_iff.2 ⟨x.2, List.mem_of_find?_eq_some hfound, haccept⟩
  · intro j hj
    obtain ⟨e, hmem, haccept⟩ := h.matches_iff.1 hj
    rcases find?_first (candidates_pairwise h.pos hash) hfound hmem haccept with heq | hlt
    · rw [← heq]
    · exact Nat.le_of_lt hlt

end Sound

/-- The hashes in the buckets lead every search to what it looks for. -/
structure Searchable (t : Table K V) : Prop where
  /-- A stored hash is zero or carries the mark, and it is zero where no key and no value is. -/
  hashes : ∀ i < t.capacity, ∃ stored, t.hashAt i = .ok stored ∧
    (stored = 0 ∨ stored &&& occupancyMark = occupancyMark) ∧
    (stored ≠ 0 ↔ ∃ key, t.keyAt i = .ok key) ∧ (stored ≠ 0 ↔ ∃ value, t.valueAt i = .ok value)
  /-- The way from the home of an entry to its bucket is occupied. -/
  path : ∀ i stored, t.hashAt i = .ok stored → stored ≠ 0 → ∀ j < t.capacity,
    distance t.capacity (t.home stored) j ≤ distance t.capacity (t.home stored) i →
    t.isOccupied j = .ok true
  /-- Something is found if and only if something matches. -/
  complete : ∀ hash accept, (∃ i, Id.run (t.find hash fun key => pure (accept key)) = some i) ↔
    ∃ i, t.Matches hash accept i
  /-- What is found matches, and nothing before it on the path does. -/
  first : ∀ hash accept i, Id.run (t.find hash fun key => pure (accept key)) = some i →
    t.Matches hash accept i ∧ ∀ j, t.Matches hash accept j →
      distance t.capacity (t.home hash) i ≤ distance t.capacity (t.home hash) j

theorem Sound.hashAt_cases {t : Table K V} (h : t.Sound) {i : Nat} (hi : i < t.capacity) :
    (t.peek i = none ∧ t.hashAt i = .ok 0) ∨
      ∃ e, t.peek i = some e ∧ t.hashAt i = .ok e.hash ∧ e.hash ≠ 0 ∧
        e.hash &&& occupancyMark = occupancyMark := by
  rw [hashAt_eq hi]
  cases he : t.peek i with
  | none => exact .inl ⟨rfl, rfl⟩
  | some e =>
    have hmark : e.hash &&& occupancyMark = occupancyMark := by
      rw [← h.marked he]
      exact markHash_and_occupancyMark e.hash
    refine .inr ⟨e, rfl, rfl, ?_, hmark⟩
    intro hzero
    exact (h.marked he).and_ne_zero (by rw [hzero]; decide)

/-- Every table that calls lead to, at every fill level and whatever the predicates did, can be
searched. -/
theorem Reachable.searchable {t : Table K V} (h : t.Reachable) : t.Searchable := by
  have hsound := h.sound
  refine ⟨?_, ?_, hsound.find_isSome, fun _ _ _ => hsound.find_first⟩
  · intro i hi
    rcases hsound.hashAt_cases hi with ⟨hnone, hhash⟩ | ⟨e, he, hhash, hne, hmark⟩
    · refine ⟨0, hhash, .inl rfl, ?_, ?_⟩
      · simp [keyAt_eq_ok_iff, hnone]
      · simp [valueAt_eq_ok_iff, hnone]
    · refine ⟨e.hash, hhash, .inr hmark, ?_, ?_⟩
      · simp [keyAt_eq_ok_iff, he, hne]
      · simp [valueAt_eq_ok_iff, he, hne]
  · intro i stored hstored hne j hj hdist
    have hi : i < t.capacity := lt_capacity_of_hashAt hstored
    rcases hsound.hashAt_cases hi with ⟨-, hhash⟩ | ⟨e, he, hhash, -, -⟩
    · rw [hhash] at hstored
      cases hstored
      exact absurd rfl hne
    · rw [hhash] at hstored
      cases hstored
      have hocc : (t.peek j).isSome := by
        rcases Nat.eq_or_lt_of_le hdist with heq | hlt
        · have hji : j = i := distance_inj (home_lt hsound.pos e.hash) hj hi heq
          rw [hji, he]
          rfl
        · exact hsound.connected he hj hlt
      rw [isOccupied_eq hj, hocc]

/-- Two keys collide, the first one goes, and the second one moves back to its home. -/
theorem Reachable.searchable_after_removal :
    ∃ t : Table Nat Nat, t.Reachable ∧ t.toList = [(2, 20)] ∧ t.Searchable := by
  have hfresh : (withCapacity 0 : Table Nat Nat).Reachable := .fresh 0
  have hone := hfresh.step (.edit (.insert 5 1 10 fun a b => pure (a == b))) ()
  have htwo := hone.step (.edit (.insert 5 2 20 fun a b => pure (a == b))) ()
  have hless := htwo.step (.edit (.remove 5 fun a => pure (a == 1))) ()
  exact ⟨_, hless, by decide, Reachable.searchable hless⟩

end LinearProbing.Table
