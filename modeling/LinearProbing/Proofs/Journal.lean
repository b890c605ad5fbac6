import LinearProbing.Proofs.Run

set_option autoImplicit false

/-!
# Journals

A journal lists the entries that were put into a table and not taken out since, in the order in which
they came, each one with a stamp. A call on the replay of a journal answers what the same call on the
journal answers, and leaves the replay of the journal that the call leaves.
-/

namespace LinearProbing

open LinearProbing.Cycle

variable {σ K V : Type} {m : Type → Type}

theorem map_findM?_congr [Monad m] [LawfulMonad m] {α β : Type} {l : List α} {accept : α → m Bool}
    {f g : Option α → β} (hnone : f none = g none) (hsome : ∀ x ∈ l, f (some x) = g (some x)) :
    f <$> l.findM? accept = g <$> l.findM? accept := by
  induction l with
  | nil => simp [List.findM?, hnone]
  | cons x l ih =>
    simp only [List.findM?, map_bind]
    apply bind_congr
    intro answer
    cases answer with
    | true => simp [hsome x (by simp)]
    | false => exact ih fun y hy => hsome y (List.mem_cons_of_mem x hy)

theorem findM?_map [Monad m] [LawfulMonad m] {α β : Type} (f : α → β) (accept : β → m Bool)
    (l : List α) :
    (l.map f).findM? accept = Option.map f <$> l.findM? fun x => accept (f x) := by
  induction l with
  | nil => simp [List.findM?]
  | cons x l ih =>
    simp only [List.map_cons, List.findM?, map_bind]
    apply bind_congr
    intro answer
    cases answer with
    | true => simp
    | false => exact ih

theorem eq_of_mem_iff {α : Type} {rank : α → Nat} {l l' : List α}
    (hl : l.Pairwise fun x y => rank x < rank y) (hl' : l'.Pairwise fun x y => rank x < rank y)
    (h : ∀ x, x ∈ l ↔ x ∈ l') : l = l' := by
  have hnodup : ∀ {k : List α}, (k.Pairwise fun x y => rank x < rank y) → k.Nodup := by
    intro k hk
    refine hk.imp ?_
    rintro x y hlt rfl
    exact Nat.lt_irrefl _ hlt
  apply List.Perm.eq_of_pairwise (fun x y _ _ hxy hyx => absurd hxy (Nat.lt_asymm hyx)) hl hl'
  exact (List.perm_ext_iff_of_nodup (hnodup hl) (hnodup hl')).2 h

/-- The entries of a table that have come and not gone, each with its stamp, first one first, and the
stamp for the next entry. -/
structure Journal (K V : Type) where
  entries : List (Nat × Entry K V)
  clock : Nat

namespace Journal

def begin (es : List (Entry K V)) : Journal K V := ⟨Table.numbered es, es.length⟩

/-- The table of a journal: its entries put in turn into an empty table with room for `n` buckets. -/
def table (n : Nat) (j : Journal K V) : Table K V := Table.replay n (j.entries.map Prod.snd)

def under (j : Journal K V) (hash : UInt32) : List (Nat × Entry K V) :=
  j.entries.filter fun x => decide (x.2.hash = markHash hash)

def append (j : Journal K V) (e : Entry K V) : Journal K V :=
  ⟨j.entries ++ [(j.clock, e)], j.clock + 1⟩

def strike (j : Journal K V) (stamp : Nat) : Journal K V :=
  ⟨j.entries.filter fun x => decide (x.1 ≠ stamp), j.clock⟩

/-- Adds an entry under a hash unless a key stored under it is accepted. There is room for as many
entries as a table with room for `n` buckets has. -/
def insert [Monad m] (n : Nat) (hash : UInt32) (key : K) (value : V) (eq : K → K → m Bool)
    (j : Journal K V) : m (Outcome (Journal K V) Bool) := do
  match ← (j.under hash).findM? fun x => eq x.2.key key with
  | some _ => return .ok false j
  | none =>
    if j.entries.length < Capacity.roundUp n then
      return .ok true (j.append ⟨markHash hash, key, value⟩)
    else
      return .fail .tableFull j

def remove [Monad m] (hash : UInt32) (accept : K → m Bool) (j : Journal K V) :
    m (Outcome (Journal K V) (Option (Nat × Entry K V))) := do
  match ← (j.under hash).findM? fun x => accept x.2.key with
  | some x => return .ok (some x) (j.strike x.1)
  | none => return .ok none j

def clear (j : Journal K V) : Journal K V := ⟨[], j.clock⟩

theorem remove_eq [Monad m] [LawfulMonad m] (hash : UInt32) (accept : K → m Bool)
    (j : Journal K V) :
    j.remove hash accept =
      (fun
        | some x => .ok (some x) (j.strike x.1)
        | none => .ok none j) <$> (j.under hash).findM? fun x => accept x.2.key := by
  rw [remove, map_eq_pure_bind]
  apply bind_congr
  intro found
  cases found <;> rfl

theorem insert_eq [Monad m] [LawfulMonad m] (n : Nat) (hash : UInt32) (key : K) (value : V)
    (eq : K → K → m Bool) (j : Journal K V) :
    j.insert n hash key value eq =
      (fun
        | some _ => .ok false j
        | none =>
          if j.entries.length < Capacity.roundUp n then
            .ok true (j.append ⟨markHash hash, key, value⟩)
          else
            .fail .tableFull j) <$> (j.under hash).findM? fun x => eq x.2.key key := by
  rw [insert, map_eq_pure_bind]
  apply bind_congr
  intro found
  cases found with
  | some x => rfl
  | none => by_cases hroom : j.entries.length < Capacity.roundUp n <;> simp [hroom]

/-- The stamps ascend, and the entries are such as a table with room for `n` buckets can hold. -/
structure Valid (n : Nat) (j : Journal K V) : Prop where
  sorted : j.entries.Pairwise fun x y => x.1 < y.1
  fresh : ∀ x ∈ j.entries, x.1 < j.clock
  marked : ∀ x ∈ j.entries, x.2.Marked
  fits : j.entries.length ≤ Capacity.roundUp n

theorem valid_begin {n : Nat} {es : List (Entry K V)} (hmarked : ∀ e ∈ es, e.Marked)
    (hlen : es.length ≤ Capacity.roundUp n) : (begin es).Valid n := by
  refine ⟨Table.numbered_pairwise es, ?_, fun x hx => hmarked x.2 (Table.mem_of_mem_numbered hx), ?_⟩
  · intro x hx
    obtain ⟨i, hi, rfl⟩ := List.mem_iff_getElem.1 hx
    simpa [begin, Table.numbered] using hi
  · simpa [begin] using hlen

namespace Valid

variable {n : Nat} {j : Journal K V}

theorem append (h : j.Valid n) {e : Entry K V} (hmarked : e.Marked)
    (hroom : j.entries.length < Capacity.roundUp n) : (j.append e).Valid n := by
  have hcases : ∀ {x : Nat × Entry K V}, x ∈ (j.append e).entries →
      x ∈ j.entries ∨ x = (j.clock, e) := by
    intro x hx
    simpa [Journal.append] using hx
  constructor
  · rw [Journal.append, List.pairwise_append]
    refine ⟨h.sorted, List.pairwise_singleton _ _, ?_⟩
    intro x hx y hy
    rw [List.mem_singleton.1 hy]
    exact h.fresh x hx
  · intro x hx
    rcases hcases hx with hold | rfl
    · exact Nat.lt_succ_of_lt (h.fresh x hold)
    · exact Nat.lt_succ_self _
  · intro x hx
    rcases hcases hx with hold | rfl
    · exact h.marked x hold
    · exact hmarked
  · rw [Journal.append, List.length_append, List.length_singleton]
    exact hroom

theorem strike (h : j.Valid n) (stamp : Nat) : (j.strike stamp).Valid n := by
  constructor
  · exact h.sorted.filter _
  · exact fun x hx => h.fresh x (List.mem_of_mem_filter hx)
  · exact fun x hx => h.marked x (List.mem_of_mem_filter hx)
  · exact (List.length_filter_le _ _).trans h.fits

theorem clear (_ : j.Valid n) : j.clear.Valid n :=
  ⟨.nil, nofun, nofun, Nat.zero_le _⟩

theorem table_senior (h : j.Valid n) :
    ∃ birth, (j.table n).Seniority birth none ∧ (j.table n).Lists birth j.entries ∧
      (j.table n).capacity = Capacity.roundUp n ∧
      (j.table n).occupied = j.entries.length := by
  obtain ⟨birth, hsenior, hlists, hcap, hperm⟩ :=
    Table.replay_seniority h.sorted h.marked h.fits
  refine ⟨birth, hsenior, hlists, hcap, ?_⟩
  rw [← Table.length_entries, table, hperm.length_eq, List.length_map]

theorem table_sound (h : j.Valid n) : (j.table n).Sound :=
  (Table.replay_sound (by simpa using fun e stamp hmem => h.marked (stamp, e) hmem)
    (by simpa using h.fits)).1

/-- A probe meets the entries under a hash in the order in which they came. -/
theorem candidates_eq (h : j.Valid n) {birth : Nat → Nat}
    (hsenior : (j.table n).Seniority birth none) (hlists : (j.table n).Lists birth j.entries)
    (hash : UInt32) :
    ((j.table n).candidates hash).map (fun x => (birth x.1, x.2)) = j.under hash := by
  have hsound := h.table_sound
  refine eq_of_mem_iff ?_ (h.sorted.filter _) ?_
  · rw [List.pairwise_map]
    refine (Table.candidates_pairwise hsound.pos hash).imp_of_mem ?_
    rintro ⟨i, e⟩ ⟨k, e'⟩ hi hk hdist
    have hi := (hsound.mem_candidates_iff.1 hi).1
    obtain ⟨hk, hhash⟩ := hsound.mem_candidates_iff.1 hk
    have hhome : (j.table n).home e'.hash = (j.table n).home hash := by
      rw [hhash, Table.home_markHash]
    rw [← hhome] at hdist
    exact (hsenior.before hk (Table.lt_capacity_of_peek hi) hdist).2
  · rintro ⟨stamp, e⟩
    rw [under, List.mem_filter, hlists stamp e, decide_eq_true_iff, List.mem_map]
    constructor
    · rintro ⟨⟨i, e'⟩, hmem, heq⟩
      cases heq
      obtain ⟨hi, hhash⟩ := hsound.mem_candidates_iff.1 hmem
      exact ⟨⟨i, hi, rfl⟩, hhash⟩
    · rintro ⟨⟨i, hi, hbirth⟩, hhash⟩
      exact ⟨(i, e), hsound.mem_candidates_iff.2 ⟨hi, hhash⟩, by rw [hbirth]⟩

theorem table_append (h : j.Valid n) {hash : UInt32} {key : K} {value : V}
    (hroom : j.entries.length < Capacity.roundUp n) :
    (j.table n).settle ((j.table n).landing hash none) hash key value =
      .ok true ((j.append ⟨markHash hash, key, value⟩).table n) := by
  obtain ⟨birth, -, -, hcap, hocc⟩ := h.table_senior
  obtain ⟨i, hi⟩ := Table.exists_firstVacant (by rw [hocc, hcap]; exact hroom) hash
  have hmarked := Entry.marked_mk hash key value
  have happend : (j.append ⟨markHash hash, key, value⟩).table n =
      (j.table n).lay ⟨markHash hash, key, value⟩ := by
    rw [table, Journal.append, List.map_append, List.map_singleton, Table.replay_append_singleton,
      table]
  rw [Table.landing_none hi, Table.settle_vacant hi.lt hi.empty, happend,
    Table.lay_eq hmarked (by rwa [Table.home_markHash])]

theorem table_full (h : j.Valid n) {hash : UInt32} {key : K} {value : V}
    (hfull : ¬ j.entries.length < Capacity.roundUp n) :
    (j.table n).settle ((j.table n).landing hash none) hash key value =
      .fail .tableFull (j.table n) := by
  obtain ⟨birth, -, -, hcap, hocc⟩ := h.table_senior
  have hall : ∀ i < (j.table n).capacity, ((j.table n).peek i).isSome := by
    intro i hi
    by_contra hempty
    rw [Option.not_isSome_iff_eq_none] at hempty
    have := Table.occupied_lt_iff.2 ⟨i, hi, hempty⟩
    omega
  rw [Table.landing_none_of_full h.table_sound.pos hall]
  rfl

theorem table_strike (h : j.Valid n) {birth : Nat → Nat}
    (hsenior : (j.table n).Seniority birth none) (hlists : (j.table n).Lists birth j.entries)
    {i : Nat} {e : Entry K V} (he : (j.table n).peek i = some e) :
    (j.table n).evict (.found i) = .ok (some e.pair) ((j.strike (birth i)).table n) := by
  obtain ⟨t', birth', hrun, hcap, -, hsenior', hlists'⟩ := Table.evict_seniority hsenior he
  have hvalid := h.strike (birth i)
  have hcapacity : t'.capacity = Capacity.roundUp n := by
    obtain ⟨-, -, -, hcap', -⟩ := h.table_senior
    rw [hcap, hcap']
  have ht' : t' = (j.strike (birth i)).table n :=
    Table.eq_replay hcapacity hsenior' (hlists' _ hlists) hvalid.sorted hvalid.marked
  rw [hrun, ht']

theorem insert_eq [Monad m] [LawfulMonad m] (h : j.Valid n) (hash : UInt32) (key : K) (value : V)
    (eq : K → K → m Bool) :
    (j.table n).insert hash key value eq =
      (·.within (table n)) <$> j.insert n hash key value eq := by
  obtain ⟨birth, hsenior, hlists, -⟩ := h.table_senior
  rw [Table.insert_eq, Journal.insert_eq, ← h.candidates_eq hsenior hlists, findM?_map,
    Functor.map_map, Functor.map_map]
  congr 1
  funext found
  cases found with
  | some x => simp [Table.landing, Table.settle]
  | none =>
    by_cases hroom : j.entries.length < Capacity.roundUp n
    · simp [h.table_append hroom, hroom]
    · simp [h.table_full hroom, hroom]

theorem remove_eq [Monad m] [LawfulMonad m] (h : j.Valid n) (hash : UInt32) (accept : K → m Bool) :
    (j.table n).remove hash accept =
      (fun o => (o.map (Option.map fun x => x.2.pair)).within (table n)) <$>
        j.remove hash accept := by
  obtain ⟨birth, hsenior, hlists, -⟩ := h.table_senior
  rw [Table.remove_eq, Journal.remove_eq, ← h.candidates_eq hsenior hlists, findM?_map, Functor.map_map,
    Functor.map_map]
  apply map_findM?_congr
  · rw [Table.evict_landing_none]
    rfl
  · rintro ⟨i, e⟩ hmem
    have he := (h.table_sound.mem_candidates_iff.1 hmem).1
    simp [Table.landing, h.table_strike hsenior hlists he]

theorem clear_eq (h : j.Valid n) : (j.table n).clear = j.clear.table n := by
  obtain ⟨-, -, -, hcap, -⟩ := h.table_senior
  apply Table.ext_peek
  · rw [Table.capacity_clear, hcap]
    exact (Table.capacity_withCapacity n).symm
  · intro i
    rw [Table.peek_clear]
    exact (Table.peek_withCapacity n i).symm

end Valid

end Journal

end LinearProbing
