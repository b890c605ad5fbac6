import LinearProbing.Proofs.Association

set_option autoImplicit false

/-!
# What calls on a store do to its association

One theorem for each call. The predicate of a call needs to tell the content that it is asked for apart
from the other contents in the store, and nothing else.
-/

namespace LinearProbing.Store

variable {K V C α : Type} {m : Type → Type}

theorem leave_enter {s : Store K V} (h : s.busy = false) : s.enter.leave = s := by
  rcases s with ⟨table, len, busy⟩
  cases h
  rfl

theorem landing_none_rule {P : Landing → Prop} (hvacant : ∀ i, P (.vacant i))
    (hexhausted : P .exhausted) (t : Table K V) (hash : UInt32) : P (t.landing hash none) := by
  rw [Table.landing]
  cases t.firstVacant t.capacity (t.home hash) with
  | some i => exact hvacant i
  | none => exact hexhausted

theorem read_landing_none (s : Store K V) (t : Table K V) (hash : UInt32) :
    read (t.landing hash none) s = .ok none s :=
  landing_none_rule (P := fun landing => read landing s = .ok none s) (fun _ => rfl) rfl t hash

theorem revise_landing_none (f : V → α × V) (s : Store K V) (t : Table K V) (hash : UInt32) :
    revise f (t.landing hash none) s = .ok none s :=
  landing_none_rule (P := fun landing => revise f landing s = .ok none s) (fun _ => rfl) rfl t hash

theorem evict_landing_none (s : Store K V) (t : Table K V) (hash : UInt32) :
    evict (t.landing hash none) s = .ok none s :=
  landing_none_rule (P := fun landing => evict landing s = .ok none s) (fun _ => rfl) rfl t hash

theorem findWithHash_pure [Monad m] [LawfulMonad m] {s : Store K V} (hsound : s.table.Sound)
    (hidle : s.busy = false) {hash : UInt32} {accept : Store K V → K → ExceptT Fault m Bool}
    (accepts : K → Bool)
    (hask : ∀ x ∈ s.table.candidates hash, accept s.enter x.2.key = pure (accepts x.2.key)) :
    s.findWithHash hash accept =
      pure (.ok (((s.table.candidates hash).find? fun x => accepts x.2.key).map (·.2.pair)) s) := by
  rw [Store.findWithHash, probing_pure hidle accepts hask]
  congr 1
  cases hfound : (s.table.candidates hash).find? fun x => accepts x.2.key with
  | none =>
    rw [read_landing_none, Outcome.within_ok, leave_enter hidle]
    rfl
  | some x =>
    have hpeek := (hsound.mem_candidates_iff.1 (List.mem_of_find?_eq_some hfound)).1
    have hentry : s.enter.table.entryAt x.1 = .ok x.2 := Table.entryAt_eq_ok_iff.2 hpeek
    rw [Table.landing, read, hentry]
    exact congrArg (Outcome.ok _) (leave_enter hidle)

theorem perm_exchange_last (before after : List α) (x y : α) :
    (before ++ x :: after ++ [y]).Perm (before ++ y :: after ++ [x]) := by
  have hfront : ∀ x y, (before ++ x :: after ++ [y]).Perm (y :: x :: (before ++ after)) := by
    intro x y
    exact (List.perm_append_singleton y _).trans (List.perm_middle.cons y)
  exact (hfront x y).trans ((List.Perm.swap x y _).trans (hfront y x).symm)

theorem represents_withCapacity [BEq C] (n : Nat) (k : Keying K C) :
    (withCapacity n : Store K V).Represents k [] := by
  refine ⟨steady_withCapacity n, ?_, .nil⟩
  rw [withCapacity, Table.entries_of_vacant (Table.peek_withCapacity n)]
  rfl

theorem capacity_standard_le :
    (withCapacity Capacity.standard : Store K V).capacity ≤ Capacity.greatest := by
  have hcap : (withCapacity Capacity.standard : Store K V).capacity =
      Capacity.roundUp Capacity.standard := Table.capacity_withCapacity _
  rw [hcap]
  exact Capacity.roundUp_le (by decide)

namespace Represents

variable [BEq C] {k : Keying K C} {s : Store K V} {d : Association K V}

theorem occupied_eq (h : s.Represents k d) : s.table.occupied = d.length := by
  rw [← Table.length_entries, h.entries.length_eq, List.length_map]

theorem len_eq (h : s.Represents k d) : s.len = d.length := by
  rw [h.steady.counted, h.occupied_eq]

theorem of_table {t : Table K V} (hsound : t.Sound)
    (hrounded : Capacity.roundUp t.capacity = t.capacity) (hperm : t.entries.Perm (d.map k.entry))
    (hdistinct : Association.Distinct k d)
    (hcalm : d.length * 100 < t.capacity * Capacity.maxLoad) :
    Represents ⟨t, d.length, false⟩ k d := by
  have hcount : d.length = t.occupied := by
    rw [← Table.length_entries, hperm.length_eq, List.length_map]
  exact ⟨⟨hsound, hrounded, hcount, rfl, hcalm⟩, hperm, hdistinct⟩

theorem clear (h : s.Represents k d) :
    ∃ s', s.clear = .ok () s' ∧ s'.Represents k [] ∧ s'.capacity = s.capacity := by
  refine ⟨⟨s.table.clear, 0, false⟩, ?_, ?_, Table.capacity_clear _⟩
  · rw [Store.clear, h.steady.idle]
    rfl
  · have hempty : s.table.clear.entries = [] := Table.entries_of_vacant (Table.peek_clear _)
    refine of_table (d := []) h.steady.sound.clear ?_ ?_ .nil ?_
    · rw [Table.capacity_clear, h.steady.rounded]
    · rw [hempty]
      rfl
    · have hpos := h.steady.sound.pos
      rw [Table.capacity_clear]
      unfold Capacity.maxLoad
      simp only [List.length_nil]
      omega

variable [EquivBEq C]

theorem findWithHash [Monad m] [LawfulMonad m] (h : s.Represents k d) (c : C)
    (accept : Store K V → K → ExceptT Fault m Bool)
    (hask : ∀ p ∈ d, accept s.enter p.1 = pure (k.same c p.1)) :
    s.findWithHash (k.hash c) accept = pure (.ok (Association.find k c d) s) := by
  have hasked : ∀ x ∈ s.table.candidates (k.hash c),
      accept s.enter x.2.key = pure (k.same c x.2.key) := by
    intro x hx
    obtain ⟨p, hp, hentry, -⟩ := h.of_mem_candidates hx
    rw [hentry]
    exact hask p hp
  rw [findWithHash_pure h.steady.sound h.steady.idle (k.same c) hasked]
  change pure (Outcome.ok ((s.candidate k c).map (·.2.pair)) s) = _
  rcases h.candidate_cases c with ⟨hnone, hfind⟩ | ⟨i, p, hsome, -, hp, hsame⟩
  · rw [hnone, hfind]
    rfl
  · rw [hsome, h.distinct.find_eq hp hsame]
    rfl

theorem updateWithHash [Monad m] [LawfulMonad m] (h : s.Represents k d) (c : C)
    (accept : Store K V → K → ExceptT Fault m Bool)
    (hask : ∀ p ∈ d, accept s.enter p.1 = pure (k.same c p.1)) (f : V → α × V) :
    ∃ s', s.updateWithHash (k.hash c) accept f = pure (.ok (Association.update k c f d).1 s') ∧
      s'.Represents k (Association.update k c f d).2 ∧ s'.capacity = s.capacity := by
  rw [Store.updateWithHash, h.probing_eq hask]
  rcases h.candidate_cases c with ⟨hnone, hfind⟩ | ⟨i, p, hsome, hpeek, hp, hsame⟩
  · refine ⟨s, ?_, ?_, rfl⟩
    · rw [hnone, Association.update_of_none hfind, revise_landing_none, Outcome.within_ok,
        leave_enter h.steady.idle]
    · rw [Association.update_of_none hfind]
      exact h
  · obtain ⟨hfind, before, after, hd, -, hupdate⟩ := h.distinct.split (α := α) hp hsame
    have hdistinct := h.distinct.update c f
    have hanswer : (Association.update k c f d).1 = some (f p.2).1 := by
      rw [Association.update, hfind]
      rfl
    have hlen : s.len = (Association.update k c f d).2.length := by
      rw [h.len_eq, Association.update, List.length_map]
    have hlt := Table.lt_capacity_of_peek hpeek
    refine ⟨⟨s.table.put i (some (k.entry (p.1, (f p.2).2))), (Association.update k c f d).2.length,
      false⟩, ?_, of_table ?_ ?_ ?_ hdistinct ?_, ?_⟩
    · rw [hanswer, hsome, Table.landing, ← hlen]
      congr 1
      rcases s with ⟨t, len, busy⟩
      simp only [enter, revise, Table.updateAt_eq hpeek f, Outcome.map_ok, Outcome.within_ok, leave]
      rfl
    · exact h.steady.sound.congr (Table.capacity_put ..) (Table.peek_put_hash hpeek rfl)
    · rw [Table.capacity_put, h.steady.rounded]
    · have hput := Table.entries_put hlt (some (k.entry (p.1, (f p.2).2)))
      have hentries := h.entries
      rw [hpeek] at hput
      rw [hd, List.map_append, List.map_cons] at hentries
      rw [hupdate f, List.map_append, List.map_cons]
      exact (List.perm_append_right_iff [k.entry p]).1
        ((hput.trans (hentries.append_right _)).trans (perm_exchange_last ..))
    · rw [Table.capacity_put, ← hlen]
      exact h.steady.calm
    · exact Table.capacity_put ..

theorem removeWithHash [Monad m] [LawfulMonad m] (h : s.Represents k d) (c : C)
    (accept : Store K V → K → ExceptT Fault m Bool)
    (hask : ∀ p ∈ d, accept s.enter p.1 = pure (k.same c p.1)) :
    ∃ s', s.removeWithHash (k.hash c) accept = pure (.ok (Association.remove k c d).1 s') ∧
      s'.Represents k (Association.remove k c d).2 ∧ s'.capacity = s.capacity := by
  rw [Store.removeWithHash, h.probing_eq hask]
  rcases h.candidate_cases c with ⟨hnone, hfind⟩ | ⟨i, p, hsome, hpeek, hp, hsame⟩
  · refine ⟨s, ?_, ?_, rfl⟩
    · rw [hnone, Association.remove_of_none hfind, evict_landing_none, Outcome.within_ok,
        leave_enter h.steady.idle]
    · rw [Association.remove_of_none hfind]
      exact h
  · obtain ⟨hfind, before, after, hd, hremove, -⟩ := h.distinct.split (α := Unit) hp hsame
    obtain ⟨t', hrun, hsound, hcap, hperm⟩ := h.steady.sound.evict_found hpeek
    have hdistinct := h.distinct.remove c
    have hlen : s.len = (Association.remove k c d).2.length + 1 := by
      rw [h.len_eq, hremove, hd]
      simp [Nat.add_assoc]
    refine ⟨⟨t', (Association.remove k c d).2.length, false⟩, ?_, of_table hsound ?_ ?_ hdistinct ?_,
      hcap⟩
    · have hsub : Size.sub s.len 1 = .ok (Association.remove k c d).2.length := by
        rw [Size.sub_eq_ok_iff, hlen]
        exact ⟨Nat.le_add_left _ _, rfl⟩
      rw [hsome, Table.landing, show (Association.remove k c d).1 = some p from hfind]
      congr 1
      rcases s with ⟨t, len, busy⟩
      simp only [enter, evict, hrun, Outcome.within_ok, Outcome.ok_bind, countDown, hsub,
        Outcome.map_ok, leave]
      rfl
    · rw [hcap, h.steady.rounded]
    · have hentries := h.entries
      rw [hd, List.map_append, List.map_cons] at hentries
      rw [hremove, List.map_append]
      exact (hperm.symm.trans (hentries.trans List.perm_middle)).cons_inv
    · have hcalm := h.steady.calm
      rw [hcap]
      omega

theorem insertWithHash [Monad m] [LawfulMonad m] (h : s.Represents k d) {key : K} (value : V)
    (eq : Store K V → K → K → ExceptT Fault m Bool)
    (hask : ∀ p ∈ d, eq s.enter p.1 key = pure (k.same (k.content key) p.1))
    (hcap : s.capacity < Capacity.loadLimit) :
    ∃ s' events, s.insertWithHash (k.hash (k.content key)) key value eq =
        pure ⟨.ok (Association.insert k key value d).1, s', events⟩ ∧
      s'.Represents k (Association.insert k key value d).2 ∧
      s'.capacity ≤ max s.capacity (Capacity.greatest + 3 * (d.length + 1)) := by
  rw [Store.insertWithHash, h.probing_eq hask]
  rcases h.candidate_cases (k.content key) with ⟨hnone, hfind⟩ | ⟨i, p, hsome, hpeek, hp, hsame⟩
  · have hcalm := h.steady.calm
    rw [h.len_eq] at hcalm
    have hroom : s.table.occupied < s.table.capacity := by
      rw [h.occupied_eq]
      unfold Capacity.maxLoad at hcalm
      omega
    obtain ⟨i, hi⟩ := Table.exists_firstVacant hroom (k.hash (k.content key))
    have hput : (s.table.put i (some (k.entry (key, value)))).entries.Perm
        ((d ++ [(key, value)]).map k.entry) := by
      rw [List.map_append]
      exact (Table.entries_fill hi.lt hi.empty).trans
        ((h.entries.cons _).trans (List.perm_append_singleton _ _).symm)
    have hocc : (s.table.put i (some (k.entry (key, value)))).occupied = d.length + 1 := by
      rw [← Table.length_entries, hput.length_eq, List.length_map, List.length_append,
        List.length_singleton]
    have hsound : (s.table.put i (some (k.entry (key, value)))).Sound :=
      h.steady.sound.fill (k.entry_marked _) (by rwa [Keying.entry, Table.home_markHash])
    obtain ⟨t', events, hrun, hsound', hrounded, hperm, hcalm', hcap', -⟩ :=
      relieve_spec true hsound (by rw [Table.capacity_put, h.steady.rounded])
        (by rw [hocc, Table.capacity_put]; omega) (by rwa [Table.capacity_put])
    rw [Table.capacity_put] at hcap'
    rw [hocc] at hrun hcalm' hcap'
    have hdistinct := h.distinct.insert key value
    rw [Association.insert_of_none hfind] at hdistinct ⊢
    have hlen : (d ++ [(key, value)]).length = d.length + 1 := by simp
    refine ⟨⟨t', (d ++ [(key, value)]).length, false⟩, events, ?_,
      of_table hsound' hrounded (hperm.trans hput) hdistinct (by rwa [hlen]), hcap'⟩
    have hadd : Size.add s.len 1 = .ok (d.length + 1) := by
      rw [Size.add_eq_ok_iff, h.len_eq]
      have hle := s.table.occupied_le
      rw [h.occupied_eq] at hle
      have hlt : s.table.capacity < Capacity.loadLimit := hcap
      unfold Capacity.loadLimit at hlt
      exact ⟨by unfold Size.limit UInt64.size; omega, rfl⟩
    rw [hnone, Table.landing_none hi, hlen]
    congr 1
    rcases s with ⟨t, len, busy⟩
    have hsettle := Table.settle_vacant hi.lt hi.empty (k.hash (k.content key)) key value
    simp only [enter, settle, hsettle, Outcome.within_ok, Outcome.ok_bind, countUp, hadd, if_true]
    exact congrArg (fun o => (o.map fun _ => true).within leave) hrun
  · refine ⟨s, [], ?_, ?_, Nat.le_max_left _ _⟩
    · rw [hsome, Association.insert_of_some (h.distinct.find_eq hp hsame)]
      congr 1
      exact congrArg (Outcome.ok false) (leave_enter h.steady.idle)
    · rw [Association.insert_of_some (h.distinct.find_eq hp hsame)]
      exact h

end Represents

end LinearProbing.Store
