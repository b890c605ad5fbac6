import LinearProbing.Proofs.StoreCalls

set_option autoImplicit false

/-!
# The upkeep of a store

Wherever a probe lands, the call goes on without a fault and leaves a store in order: the count is
right, the capacity is proper, and the load is below the maximum. The one way to fail is an overflow in
the load test or in the step to the next capacity, which needs a capacity beyond the limit of the test.
-/

namespace LinearProbing

/-- The faults of an addition or a multiplication that leaves the sizes. -/
def Fault.Overflow (fault : Fault) : Prop := fault = .sumTooLarge ∨ fault = .productTooLarge

namespace Capacity

theorem isCrowded_cases (capacity count : Nat) :
    isCrowded capacity count = .error .productTooLarge ∨
      isCrowded capacity count = .ok (decide (capacity * maxLoad ≤ count * 100)) := by
  unfold isCrowded Size.mul
  split
  · split
    · exact .inr rfl
    · exact .inl rfl
  · exact .inl rfl

theorem next_cases {capacity : Nat} (hlarge : greatest ≤ capacity) :
    next capacity = .error .sumTooLarge ∨ next capacity = .ok (capacity + capacity / 2) := by
  rw [next, if_neg (Nat.not_lt.2 hlarge), Size.add]
  split
  · exact .inr rfl
  · exact .inl rfl

theorem roundUp_lt_limit {n : Nat} (hn : n < Size.limit) : roundUp n < Size.limit := by
  by_cases hle : n ≤ greatest
  · exact Nat.lt_of_le_of_lt (roundUp_le hle) (by decide)
  · rwa [roundUp_of_greatest_lt (by omega)]

theorem next_lt_limit {capacity n : Nat} (h : next capacity = .ok n) : n < Size.limit := by
  unfold next at h
  split at h
  · rename_i hsmall
    cases hadd : Size.add capacity 1 with
    | error fault =>
      rw [hadd] at h
      cases h
    | ok m =>
      obtain ⟨-, rfl⟩ := Size.add_eq_ok_iff.1 hadd
      rw [hadd] at h
      cases h
      exact Nat.lt_of_le_of_lt (roundUp_le hsmall) (by decide)
  · obtain ⟨hlt, rfl⟩ := Size.add_eq_ok_iff.1 h
    exact hlt

end Capacity

namespace Table

variable {K V : Type}

theorem occupied_eq_of_perm {t u : Table K V} (h : t.entries.Perm u.entries) :
    t.occupied = u.occupied := by
  rw [← length_entries, ← length_entries, h.length_eq]

theorem occupied_put_of_peek {t : Table K V} {i : Nat} {e : Entry K V} (he : t.peek i = some e)
    (e' : Entry K V) : (t.put i (some e')).occupied = t.occupied := by
  have hlength := (entries_put (lt_capacity_of_peek he) (some e')).length_eq
  rw [he, List.length_append, List.length_append, length_entries, length_entries] at hlength
  exact Nat.add_right_cancel hlength

end Table

namespace Store

variable {K V α β : Type}

/-- What every call on a store relies on and keeps, at any size. -/
structure Kept (s : Store K V) : Prop where
  sound : s.table.Sound
  rounded : Capacity.roundUp s.table.capacity = s.table.capacity
  sized : s.table.capacity < Size.limit
  counted : s.len = s.table.occupied

def Light (s : Store K V) : Prop := s.len * 100 < s.capacity * Capacity.maxLoad

/-- An operation answers and leaves a load below the maximum, or an overflow stops it in a store that is
too large for the load test. -/
def EndsWell (o : Outcome (Store K V) α) : Prop :=
  (o.state.Light ∧ ∃ a, o.result = .ok a) ∨
    Capacity.loadLimit ≤ o.state.capacity ∧ ∃ fault, o.result = .error fault ∧ fault.Overflow

/-- What an operation on a store may do: it leaves a store in order that has not shrunk. -/
structure Upkeep (s : Store K V) (o : Outcome (Store K V) α) : Prop where
  kept : o.state.Kept
  grows : s.capacity ≤ o.state.capacity
  ends : s.Light → EndsWell o

theorem EndsWell.map {o : Outcome (Store K V) α} (h : EndsWell o) (f : α → β) :
    EndsWell (o.map f) := by
  rcases h with ⟨hlight, a, ha⟩ | ⟨hcap, fault, hfault, hoverflow⟩
  · exact .inl ⟨hlight, f a, by rw [Outcome.map, ha]; rfl⟩
  · exact .inr ⟨hcap, fault, by rw [Outcome.map, hfault]; rfl, hoverflow⟩

namespace Upkeep

variable {s : Store K V} {o : Outcome (Store K V) α}

theorem leave (h : Upkeep s o) : Upkeep s (o.within leave) :=
  ⟨⟨h.kept.sound, h.kept.rounded, h.kept.sized, h.kept.counted⟩, h.grows, h.ends⟩

end Upkeep

/-- An operation answers, keeps the capacity and adds no entry. -/
def Rests (s : Store K V) (o : Outcome (Store K V) α) : Prop :=
  ∃ a t' len', o = .ok a ⟨t', len', s.busy⟩ ∧ t'.Sound ∧ t'.capacity = s.table.capacity ∧
    len' = t'.occupied ∧ len' ≤ s.len

section Resting

variable {s : Store K V}

theorem rests_answer (hsound : s.table.Sound) (hcounted : s.len = s.table.occupied) (a : α) :
    Rests s (.ok a s) := ⟨a, s.table, s.len, rfl, hsound, rfl, hcounted, Nat.le_refl _⟩

theorem rests_read (hsound : s.table.Sound) (hcounted : s.len = s.table.occupied) (hash : UInt32)
    {found : Option (Nat × Entry K V)}
    (hfound : ∀ x, found = some x → s.table.peek x.1 = some x.2) :
    Rests s (read (s.table.landing hash found) s) := by
  cases found with
  | some x =>
    rw [Table.landing, Store.read, Table.entryAt_eq_ok_iff.2 (hfound x rfl)]
    exact rests_answer hsound hcounted (some x.2.pair)
  | none =>
    rw [read_landing_none]
    exact rests_answer hsound hcounted none

theorem rests_revise (hsound : s.table.Sound) (hcounted : s.len = s.table.occupied) (hash : UInt32)
    {found : Option (Nat × Entry K V)}
    (hfound : ∀ x, found = some x → s.table.peek x.1 = some x.2) (f : V → α × V) :
    Rests s (revise f (s.table.landing hash found) s) := by
  cases found with
  | some x =>
    rcases s with ⟨t, len, busy⟩
    have hpeek : t.peek x.1 = some x.2 := hfound x rfl
    have hcap := Table.capacity_put t x.1 (some ⟨x.2.hash, x.2.key, (f x.2.value).2⟩)
    rw [Table.landing, Store.revise, Table.updateAt_eq hpeek f]
    exact ⟨_, _, len, rfl, hsound.congr hcap (Table.peek_put_hash hpeek rfl), hcap,
      hcounted.trans (Table.occupied_put_of_peek hpeek _).symm, Nat.le_refl len⟩
  | none =>
    rw [revise_landing_none]
    exact rests_answer hsound hcounted none

theorem rests_evict (hsound : s.table.Sound) (hcounted : s.len = s.table.occupied) (hash : UInt32)
    {found : Option (Nat × Entry K V)}
    (hfound : ∀ x, found = some x → s.table.peek x.1 = some x.2) :
    Rests s (evict (s.table.landing hash found) s) := by
  cases found with
  | some x =>
    rcases s with ⟨t, len, busy⟩
    obtain ⟨t', hrun, hsound', hcap, hperm⟩ := hsound.evict_found (hfound x rfl)
    obtain rfl : len = t.occupied := hcounted
    have hlen : t.occupied = t'.occupied + 1 := by
      rw [← Table.length_entries, ← Table.length_entries]
      exact hperm.length_eq
    have hsub : Size.sub t.occupied 1 = .ok t'.occupied := by
      rw [Size.sub_eq_ok_iff, hlen]
      exact ⟨Nat.le_add_left _ _, rfl⟩
    simp only [Table.landing, Store.evict, hrun, Outcome.within_ok, Outcome.ok_bind, countDown, hsub,
      Outcome.map_ok]
    exact ⟨_, t', t'.occupied, rfl, hsound', hcap, rfl, (Nat.le_succ _).trans_eq hlen.symm⟩
  | none =>
    rw [evict_landing_none]
    exact rests_answer hsound hcounted none

theorem rests_clear (hsound : s.table.Sound) (hidle : s.busy = false) : Rests s s.clear := by
  rcases s with ⟨t, len, busy⟩
  cases hidle
  have hempty : t.clear.occupied = 0 := by
    rw [← Table.length_entries, Table.entries_of_vacant (Table.peek_clear t)]
    rfl
  exact ⟨(), t.clear, 0, rfl, hsound.clear, Table.capacity_clear t, hempty.symm, Nat.zero_le len⟩

end Resting

namespace Kept

variable {s : Store K V}

theorem of_table {t t' : Table K V} {len : Nat} {busy : Bool} (h : Kept ⟨t, len, busy⟩)
    (hsound : t'.Sound) (hcap : t'.capacity = t.capacity) {len' : Nat} (hlen : len' = t'.occupied) :
    Kept ⟨t', len', busy⟩ :=
  ⟨hsound, by rw [hcap, h.rounded], by rw [hcap]; exact h.sized, hlen⟩

theorem answer (h : s.Kept) (a : α) : Upkeep s (.ok a s) :=
  ⟨h, Nat.le_refl _, fun hlight => .inl ⟨hlight, a, rfl⟩⟩

theorem relieve_state (h : s.Kept) : s.relieve.state.Kept := by
  rcases s with ⟨t, len, busy⟩
  rw [relieve]
  cases t.isCrowded len with
  | error fault => exact h
  | ok crowded =>
    cases crowded with
    | false => exact h
    | true =>
      cases hnext : Capacity.next t.capacity with
      | error fault =>
        simp only [Table.grow_eq_fail hnext]
        exact h
      | ok n =>
        obtain ⟨t', hrun, hsound, hcap, hperm⟩ := h.sound.grow_eq_ok hnext
        simp only [hrun]
        refine ⟨hsound, by rw [Outcome.state_within, hcap, Capacity.roundUp_roundUp], ?_, ?_⟩
        · rw [Outcome.state_within, hcap]
          exact Capacity.roundUp_lt_limit (Capacity.next_lt_limit hnext)
        · exact h.counted.trans (Table.occupied_eq_of_perm hperm).symm

/-- Where the load test may overflow, a move to the next capacity still makes enough room. -/
theorem relieve_large (h : s.Kept) (hload : s.len * 100 < s.capacity * Capacity.maxLoad + 100)
    (hcap : Capacity.loadLimit ≤ s.capacity) : EndsWell s.relieve := by
  have hgrows : Capacity.loadLimit ≤ s.relieve.state.capacity := hcap.trans s.le_capacity_relieve
  rcases s with ⟨t, len, busy⟩
  change len * 100 < t.capacity * Capacity.maxLoad + 100 at hload
  change Capacity.loadLimit ≤ t.capacity at hcap
  rcases Capacity.isCrowded_cases t.capacity len with hcrowded | hcrowded
  · refine .inr ⟨hgrows, .productTooLarge, ?_, .inr rfl⟩
    simp only [Store.relieve, Table.isCrowded, hcrowded]
    rfl
  · by_cases hfull : t.capacity * Capacity.maxLoad ≤ len * 100
    · have hrelieve : Store.relieve ⟨t, len, busy⟩ = t.grow.within (⟨·, len, busy⟩) := by
        simp only [Store.relieve, Table.isCrowded, hcrowded, decide_eq_true hfull]
      have hlarge : Capacity.greatest ≤ t.capacity := Nat.le_trans (by decide) hcap
      rw [hrelieve] at hgrows ⊢
      rcases Capacity.next_cases hlarge with hnext | hnext
      · rw [Table.grow_eq_fail hnext] at hgrows ⊢
        exact .inr ⟨hgrows, .sumTooLarge, rfl, .inl rfl⟩
      · -- half as many buckets again are more than enough for one entry
        obtain ⟨t', hrun, -, hcap', -⟩ := h.sound.grow_eq_ok hnext
        have hround := Capacity.le_roundUp (t.capacity + t.capacity / 2)
        rw [hrun]
        refine .inl ⟨?_, (), rfl⟩
        show len * 100 < t'.capacity * Capacity.maxLoad
        rw [hcap']
        unfold Capacity.loadLimit at hcap
        unfold Capacity.maxLoad at hload ⊢
        omega
    · refine .inl ⟨?_, (), ?_⟩
      · simp only [Store.relieve, Table.isCrowded, hcrowded, decide_eq_false hfull]
        exact Nat.lt_of_not_le hfull
      · simp only [Store.relieve, Table.isCrowded, hcrowded, decide_eq_false hfull]
        rfl

theorem relieve (h : s.Kept) (hload : s.len * 100 < s.capacity * Capacity.maxLoad + 100) :
    EndsWell s.relieve := by
  by_cases hcap : s.capacity < Capacity.loadLimit
  · rcases s with ⟨t, len, busy⟩
    obtain rfl : len = t.occupied := h.counted
    obtain ⟨t', events, hrun, -, -, -, hlight, -⟩ := relieve_spec busy h.sound h.rounded hload hcap
    rw [hrun]
    exact .inl ⟨hlight, (), rfl⟩
  · exact h.relieve_large hload (Nat.le_of_not_lt hcap)

theorem fill {t : Table K V} {busy : Bool} (h : Kept ⟨t, t.occupied, busy⟩) {hash : UInt32} {i : Nat}
    (hi : t.FirstVacant (t.home hash) i) (key : K) (value : V) :
    ∃ u, t.settle (t.landing hash none) hash key value = .ok true u ∧ u.capacity = t.capacity ∧
      countUp ⟨u, t.occupied, busy⟩ = .ok () ⟨u, t.occupied + 1, busy⟩ ∧
      Kept ⟨u, t.occupied + 1, busy⟩ ∧ u.entries.Perm (⟨markHash hash, key, value⟩ :: t.entries) := by
  have hentries := Table.entries_fill hi.lt hi.empty (e := ⟨markHash hash, key, value⟩)
  have hocc : t.occupied + 1 = (t.put i (some ⟨markHash hash, key, value⟩)).occupied := by
    rw [← Table.length_entries, ← Table.length_entries, hentries.length_eq, List.length_cons]
  have hadd : Size.add t.occupied 1 = .ok (t.occupied + 1) := by
    rw [Size.add_eq_ok_iff]
    exact ⟨Nat.lt_of_le_of_lt (Table.occupied_lt_iff.2 ⟨i, hi.lt, hi.empty⟩) h.sized, rfl⟩
  refine ⟨_, ?_, Table.capacity_put .., ?_, h.of_table ?_ (Table.capacity_put ..) hocc, hentries⟩
  · rw [Table.landing_none hi, Table.settle_vacant hi.lt hi.empty]
  · rw [countUp, hadd]
  · exact h.sound.fill (Entry.marked_mk hash key value) (by rwa [Table.home_markHash])

theorem settle (h : s.Kept) (hash : UInt32) (found : Option (Nat × Entry K V)) (key : K) (value : V) :
    Upkeep s (s.settle (s.table.landing hash found) hash key value) := by
  rcases s with ⟨t, len, busy⟩
  obtain rfl : len = t.occupied := h.counted
  cases found with
  | some x => exact h.answer false
  | none =>
    by_cases hroom : t.occupied < t.capacity
    · obtain ⟨i, hi⟩ := Table.exists_firstVacant hroom hash
      obtain ⟨u, hsettle, hcap, hcount, hkept, -⟩ := h.fill hi key value
      simp only [Store.settle, hsettle, Outcome.within_ok, Outcome.ok_bind, hcount, if_true]
      refine ⟨hkept.relieve_state, ?_, fun hlight => ?_⟩
      · exact hcap.symm.trans_le (Store.le_capacity_relieve ⟨u, t.occupied + 1, busy⟩)
      · refine (hkept.relieve ?_).map _
        have hload : t.occupied * 100 < t.capacity * Capacity.maxLoad := hlight
        show (t.occupied + 1) * 100 < u.capacity * Capacity.maxLoad + 100
        rw [hcap]
        omega
    · have hfull : ∀ j < t.capacity, (t.peek j).isSome := by
        intro j hj
        by_contra hempty
        rw [Option.not_isSome_iff_eq_none] at hempty
        exact hroom (Table.occupied_lt_iff.2 ⟨j, hj, hempty⟩)
      rw [Table.landing_none_of_full h.sound.pos hfull]
      refine ⟨h, Nat.le_refl _, fun hlight => ?_⟩
      have hload : t.occupied * 100 < t.capacity * Capacity.maxLoad := hlight
      unfold Capacity.maxLoad at hload
      omega

end Kept

end Store

end LinearProbing
