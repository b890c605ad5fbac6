import LinearProbing.Proofs.Capacity
import LinearProbing.Proofs.Replay
import LinearProbing.Table.Cursor
import Mathlib.Data.Finset.Lattice.Fold

set_option autoImplicit false

/-!
# Sound tables

A table is sound if its hashes carry the mark and its entries are in seniority for some births. Every
operation is specified here once: what it answers, what it does to the entries, and that it keeps a
table sound.
-/

namespace LinearProbing.Table

open LinearProbing.Cycle

variable {K V α : Type}

/-- What every operation on a table relies on and keeps. -/
structure Sound (t : Table K V) : Prop where
  pos : 0 < t.capacity
  marked : ∀ {i : Nat} {e : Entry K V}, t.peek i = some e → e.Marked
  senior : ∃ birth, t.Seniority birth none

theorem sound_of_vacant {t : Table K V} (hpos : 0 < t.capacity) (h : ∀ i, t.peek i = none) :
    t.Sound := by
  refine ⟨hpos, ?_, fun _ => 0, seniority_of_vacant h _ _⟩
  intro i e he
  rw [h i] at he
  cases he

theorem sound_withCapacity (n : Nat) : (withCapacity n : Table K V).Sound :=
  sound_of_vacant (by simpa using Capacity.roundUp_pos n) (peek_withCapacity n)

theorem entries_of_vacant {t : Table K V} (h : ∀ i, t.peek i = none) : t.entries = [] := by
  rw [List.eq_nil_iff_forall_not_mem]
  intro e he
  obtain ⟨i, hi⟩ := mem_entries.1 he
  rw [h i] at hi
  cases hi

theorem occupied_lt_iff {t : Table K V} : t.occupied < t.capacity ↔ ∃ i < t.capacity, t.peek i = none := by
  constructor
  · exact exists_vacant
  · rintro ⟨i, hi, hempty⟩
    have hslot : none ∈ t.slots := by
      have hsize : i < t.slots.size := hi
      rw [Array.mem_iff_getElem]
      refine ⟨i, hsize, ?_⟩
      simpa [peek, Array.getElem?_eq_getElem hsize] using hempty
    refine Nat.lt_of_le_of_ne t.occupied_le fun hall => ?_
    rw [occupied, capacity, Array.countP_eq_size] at hall
    exact absurd (hall none hslot) (by simp)

theorem exists_of_same_hashes {t u : Table K V}
    (hsame : ∀ i, (u.peek i).map Entry.hash = (t.peek i).map Entry.hash) {i : Nat} {a : Entry K V}
    (ha : u.peek i = some a) : ∃ e, t.peek i = some e ∧ e.hash = a.hash := by
  have hi := hsame i
  rw [ha, Option.map_some, eq_comm, Option.map_eq_some_iff] at hi
  exact hi

theorem Seniority.congr {t u : Table K V} {birth : Nat → Nat} (h : t.Seniority birth none)
    (hcap : u.capacity = t.capacity)
    (hsame : ∀ i, (u.peek i).map Entry.hash = (t.peek i).map Entry.hash) :
    u.Seniority birth none := by
  have hocc : ∀ i, (u.peek i).isSome = (t.peek i).isSome := by
    intro i
    simpa using congrArg Option.isSome (hsame i)
  constructor
  · intro i j hi hj hbirth
    exact h.distinct (by rwa [← hocc]) (by rwa [← hocc]) hbirth
  · intro i a ha j hj hbefore _
    obtain ⟨e, he, hhash⟩ := exists_of_same_hashes hsame ha
    have hhome : u.home a.hash = t.home e.hash := by rw [home, home, hcap, hhash]
    rw [hcap] at hj
    rw [hcap, hhome] at hbefore
    rw [hocc]
    exact h.before he hj hbefore

namespace Sound

variable {t : Table K V}

theorem clear (h : t.Sound) : t.clear.Sound :=
  sound_of_vacant (by simpa using h.pos) (peek_clear t)

theorem marked_of_mem (h : t.Sound) {e : Entry K V} (he : e ∈ t.entries) : e.Marked := by
  obtain ⟨i, hi⟩ := mem_entries.1 he
  exact h.marked hi

theorem connected (h : t.Sound) {i : Nat} {e : Entry K V} (he : t.peek i = some e) {j : Nat}
    (hj : j < t.capacity)
    (hbefore : distance t.capacity (t.home e.hash) j < distance t.capacity (t.home e.hash) i) :
    (t.peek j).isSome := by
  obtain ⟨birth, hsenior⟩ := h.senior
  exact (hsenior.before he hj hbefore).1

/-- The candidates for a hash are all entries that are stored under it. -/
theorem mem_candidates_iff (h : t.Sound) {hash : UInt32} {i : Nat} {e : Entry K V} :
    (i, e) ∈ t.candidates hash ↔ t.peek i = some e ∧ e.hash = markHash hash := by
  rw [mem_candidates h.pos]
  constructor
  · rintro ⟨hi, hhash, -⟩
    exact ⟨hi, hhash⟩
  · rintro ⟨hi, hhash⟩
    have hhome : t.home e.hash = t.home hash := by rw [hhash, home_markHash]
    refine ⟨hi, hhash, fun j hj hbefore => h.connected hi hj ?_⟩
    rwa [hhome]

theorem fill (h : t.Sound) {i : Nat} {e : Entry K V} (hmarked : e.Marked)
    (hi : t.FirstVacant (t.home e.hash) i) : (t.put i (some e)).Sound := by
  obtain ⟨birth, hsenior⟩ := h.senior
  have hyoung : ∀ j, (t.peek j).isSome →
      birth j < (Finset.range t.capacity).sup birth + 1 := by
    intro j hj
    have hmem : j ∈ Finset.range t.capacity := Finset.mem_range.2 (lt_capacity_of_isSome hj)
    exact Nat.lt_succ_of_le (Finset.le_sup hmem)
  refine ⟨by simpa using h.pos, ?_, _, hsenior.fill hi hyoung⟩
  intro j a ha
  rw [peek_put hi.lt] at ha
  split at ha
  · cases ha
    exact hmarked
  · exact h.marked ha

theorem evict_found (h : t.Sound) {i : Nat} {e : Entry K V} (he : t.peek i = some e) :
    ∃ t', t.evict (.found i) = .ok (some e.pair) t' ∧ t'.Sound ∧ t'.capacity = t.capacity ∧
      t.entries.Perm (e :: t'.entries) := by
  obtain ⟨birth, hsenior⟩ := h.senior
  obtain ⟨t', birth', hrun, hcap, hperm, hsenior', -⟩ := evict_seniority hsenior he
  refine ⟨t', hrun, ⟨by rw [hcap]; exact h.pos, ?_, birth', hsenior'⟩, hcap, hperm⟩
  intro j a ha
  have hmem : a ∈ t.entries := hperm.mem_iff.2 (List.mem_cons_of_mem _ (mem_entries.2 ⟨j, ha⟩))
  exact h.marked_of_mem hmem

theorem congr (h : t.Sound) {u : Table K V} (hcap : u.capacity = t.capacity)
    (hsame : ∀ i, (u.peek i).map Entry.hash = (t.peek i).map Entry.hash) : u.Sound := by
  obtain ⟨birth, hsenior⟩ := h.senior
  refine ⟨by rw [hcap]; exact h.pos, ?_, birth, hsenior.congr hcap hsame⟩
  intro i a ha
  obtain ⟨e, he, hhash⟩ := exists_of_same_hashes hsame ha
  have hmarked := h.marked he
  rwa [Entry.Marked, hhash] at hmarked

end Sound

def numbered (es : List (Entry K V)) : List (Nat × Entry K V) := es.mapIdx fun i e => (i, e)

@[simp] theorem map_snd_numbered (es : List (Entry K V)) : (numbered es).map Prod.snd = es := by
  apply List.ext_getElem
  · simp [numbered]
  · intro i hi hi'
    simp [numbered]

@[simp] theorem length_numbered (es : List (Entry K V)) : (numbered es).length = es.length := by
  simp [numbered]

theorem numbered_pairwise (es : List (Entry K V)) :
    (numbered es).Pairwise fun x y => x.1 < y.1 := by
  rw [List.pairwise_iff_getElem]
  intro i j hi hj hij
  simpa [numbered] using hij

theorem mem_of_mem_numbered {es : List (Entry K V)} {x : Nat × Entry K V} (hx : x ∈ numbered es) :
    x.2 ∈ es := by
  rw [← map_snd_numbered es]
  exact List.mem_map_of_mem hx

theorem replay_sound {n : Nat} {es : List (Entry K V)} (hmarked : ∀ e ∈ es, e.Marked)
    (hlen : es.length ≤ Capacity.roundUp n) :
    (replay n es).Sound ∧ (replay n es).capacity = Capacity.roundUp n ∧
      (replay n es).entries.Perm es := by
  obtain ⟨birth, hsenior, -, hcap, hperm⟩ := replay_seniority (n := n) (numbered_pairwise es)
    (fun x hx => hmarked x.2 (mem_of_mem_numbered hx)) (by simpa using hlen)
  rw [map_snd_numbered] at hsenior hcap hperm
  refine ⟨⟨by rw [hcap]; exact Capacity.roundUp_pos n, ?_, birth, hsenior⟩, hcap, hperm⟩
  intro i e he
  exact hmarked e (hperm.mem_iff.1 (mem_entries.2 ⟨i, he⟩))

theorem fold_place_eq {n : Nat} {es : List (Entry K V)} (hmarked : ∀ e ∈ es, e.Marked)
    (hlen : es.length ≤ Capacity.roundUp n) :
    Outcome.fold (fun _ e t => t.place e) es () (withCapacity n) = .ok () (replay n es) := by
  induction es using List.reverseRecOn with
  | nil => rfl
  | append_singleton es e ih =>
    rw [List.length_append, List.length_singleton] at hlen
    have hmarked' : ∀ a ∈ es, a.Marked := fun a ha => hmarked a (List.mem_append_left _ ha)
    obtain ⟨-, hcap, hperm⟩ := replay_sound hmarked' (n := n) (by omega)
    rw [Outcome.fold_append_single, ih hmarked' (by omega), Outcome.ok_bind,
      replay_append_singleton]
    have hroom : (replay n es).occupied < (replay n es).capacity := by
      rw [← length_entries, hperm.length_eq, hcap]
      omega
    obtain ⟨i, hi⟩ := exists_firstVacant hroom e.hash
    have hmark : e.Marked := hmarked e (by simp)
    rw [place_eq hmark hi, lay_eq hmark hi]

theorem replay_roundUp (n : Nat) (es : List (Entry K V)) :
    replay (Capacity.roundUp n) es = replay n es := by
  rw [replay, replay, withCapacity, withCapacity, Capacity.roundUp_roundUp]

/-- Entries that fit are moved to the new capacity in bucket order. -/
theorem Sound.rehash_eq {t : Table K V} (h : t.Sound) {n : Nat}
    (hfits : t.occupied ≤ Capacity.roundUp n) :
    t.rehash n = .ok () (replay (Capacity.roundUp n) t.entries) := by
  rw [rehash, if_pos hfits]
  apply fold_place_eq (fun e he => h.marked_of_mem he)
  rwa [length_entries, Capacity.roundUp_roundUp]

theorem rehash_eq_of_lt {t : Table K V} {n : Nat} (h : Capacity.roundUp n < t.occupied) :
    t.rehash n = .fail .targetTooSmall t := by
  rw [rehash, if_neg (by omega)]

theorem Sound.rehash {t : Table K V} (h : t.Sound) {n : Nat}
    (hfits : t.occupied ≤ Capacity.roundUp n) :
    ∃ t', t.rehash n = .ok () t' ∧ t'.Sound ∧ t'.capacity = Capacity.roundUp n ∧
      t'.entries.Perm t.entries := by
  have hlen : t.entries.length ≤ Capacity.roundUp (Capacity.roundUp n) := by
    rwa [length_entries, Capacity.roundUp_roundUp]
  obtain ⟨hsound, hcap, hperm⟩ := replay_sound (fun e he => h.marked_of_mem he) hlen
  rw [Capacity.roundUp_roundUp] at hcap
  exact ⟨_, h.rehash_eq hfits, hsound, hcap, hperm⟩

theorem Sound.rehash_state {t : Table K V} (h : t.Sound) (n : Nat) : (t.rehash n).state.Sound := by
  by_cases hfits : t.occupied ≤ Capacity.roundUp n
  · obtain ⟨t', hrun, hsound, -⟩ := h.rehash hfits
    rw [hrun]
    exact hsound
  · rw [rehash_eq_of_lt (by omega)]
    exact h

theorem Sound.grow_state {t : Table K V} (h : t.Sound) : t.grow.state.Sound := by
  unfold grow
  split
  · exact h
  · exact h.rehash_state _

theorem peek_put_hash {t : Table K V} {i : Nat} {e e' : Entry K V} (he : t.peek i = some e)
    (hhash : e'.hash = e.hash) (j : Nat) :
    ((t.put i (some e')).peek j).map Entry.hash = (t.peek j).map Entry.hash := by
  rw [peek_put (lt_capacity_of_peek he)]
  split
  · rename_i hj
    rw [hj, he, Option.map_some, Option.map_some, hhash]
  · rfl

theorem entryAt_eq_ok_iff {t : Table K V} {i : Nat} {e : Entry K V} :
    t.entryAt i = .ok e ↔ t.peek i = some e := by
  unfold entryAt bucket peek
  cases hslot : t.slots[i]? with
  | none => simp [Except.bind]
  | some slot => cases slot <;> simp [Except.bind]

theorem updateAt_eq {t : Table K V} {i : Nat} {e : Entry K V} (he : t.peek i = some e)
    (f : V → α × V) :
    t.updateAt i f =
      .ok (f e.value).1 (t.put i (some ⟨e.hash, e.key, (f e.value).2⟩)) := by
  simp [updateAt, entryAt_eq_ok_iff.2 he, put]

theorem entryAt_eq_error {t : Table K V} {i : Nat} (hempty : t.peek i = none) :
    ∃ fault, t.entryAt i = .error fault := by
  cases hat : t.entryAt i with
  | error fault => exact ⟨fault, rfl⟩
  | ok e =>
    rw [entryAt_eq_ok_iff, hempty] at hat
    cases hat

theorem updateAt_rule {P : Table K V → Prop} {f : V → α × V}
    (hput : ∀ {t : Table K V} {i : Nat} {e : Entry K V}, P t → t.peek i = some e →
      P (t.put i (some ⟨e.hash, e.key, (f e.value).2⟩)))
    {t : Table K V} (h : P t) (i : Nat) : P (t.updateAt i f).state := by
  cases hpeek : t.peek i with
  | some e =>
    rw [updateAt_eq hpeek]
    exact hput h hpeek
  | none =>
    obtain ⟨fault, hfault⟩ := entryAt_eq_error hpeek
    rw [updateAt, hfault]
    exact h

theorem seekEntry_spec {slots : Array (Option (Entry K V))} {i j : Nat} {e : Entry K V}
    (h : seekEntry slots i = some (j, e)) : (⟨slots⟩ : Table K V).peek j = some e := by
  induction i using seekEntry.induct slots with
  | case1 i hi e' hslot =>
    rw [seekEntry_of_some hi hslot] at h
    cases h
    simp [peek, Array.getElem?_eq_getElem hi, hslot]
  | case2 i hi hslot ih =>
    rw [seekEntry_of_none hi hslot] at h
    exact ih h
  | case3 i hi =>
    rw [seekEntry_of_le (Nat.le_of_not_lt hi)] at h
    cases h

theorem takeWith_rule {P : Table K V → Prop} {fs : List (K → V → α × V)}
    (hput : ∀ {t : Table K V} {i : Nat} {e : Entry K V}, P t → t.peek i = some e →
      ∀ f ∈ fs, P (t.put i (some ⟨e.hash, e.key, (f e.key e.value).2⟩)))
    {r : Reviser K V} (h : P r.finish) : P (r.takeWith fs).2.finish := by
  induction fs generalizing r with
  | nil => exact h
  | cons f fs ih =>
    have hrest : ∀ {r : Reviser K V}, P r.finish → P (r.takeWith fs).2.finish :=
      ih fun h he g hg => hput h he g (List.mem_cons_of_mem f hg)
    unfold Reviser.takeWith Reviser.next
    cases hseek : seekEntry r.slots r.position with
    | none => exact hrest h
    | some found =>
      obtain ⟨i, e⟩ := found
      have hpeek : r.finish.peek i = some e := seekEntry_spec hseek
      exact hrest (hput h hpeek f List.mem_cons_self)

theorem Sound.put_value {t : Table K V} (h : t.Sound) {i : Nat} {e : Entry K V}
    (he : t.peek i = some e) (value : V) : (t.put i (some ⟨e.hash, e.key, value⟩)).Sound :=
  h.congr (capacity_put ..) (peek_put_hash he rfl)

end LinearProbing.Table
