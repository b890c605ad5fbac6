import LinearProbing.Proofs.Seniority
import Mathlib.Data.List.Induction

set_option autoImplicit false

/-!
# Replaying a history

A table is replayed by putting entries one after another into an empty table with a predicate that
accepts no key. A table in seniority is the replay of its entries, oldest first.
-/

namespace LinearProbing

open LinearProbing.Cycle

variable {K V : Type}

/-- A hash is marked if it has the form in which hashes are stored. -/
def Entry.Marked (e : Entry K V) : Prop := markHash e.hash = e.hash

theorem Entry.Marked.and_ne_zero {e : Entry K V} (h : e.Marked) : e.hash &&& occupancyMark ≠ 0 := by
  have hmark := markHash_and_occupancyMark e.hash
  rw [h] at hmark
  rw [hmark]
  decide

theorem markHash_markHash (hash : UInt32) : markHash (markHash hash) = markHash hash := by
  simp [markHash, UInt32.or_assoc]

theorem Entry.marked_mk (hash : UInt32) (key : K) (value : V) :
    (⟨markHash hash, key, value⟩ : Entry K V).Marked := markHash_markHash hash

namespace Table

theorem write_eq {t : Table K V} {i : Nat} {e : Entry K V} (hmarked : e.Marked)
    (hi : i < t.capacity) (hempty : t.peek i = none) :
    t.write i e = .ok () (t.put i (some e)) := by
  simp [write, hmarked.and_ne_zero, isOccupied_eq hi, hempty, put]

def lay (t : Table K V) (e : Entry K V) : Table K V :=
  (Id.run (t.insert e.hash e.key e.value fun _ _ => pure false)).state

/-- Puts entries in turn into an empty table with room for `n` buckets. -/
def replay (n : Nat) (es : List (Entry K V)) : Table K V := es.foldl lay (withCapacity n)

theorem replay_append_singleton (n : Nat) (es : List (Entry K V)) (e : Entry K V) :
    replay n (es ++ [e]) = (replay n es).lay e := by
  simp [replay, List.foldl_append]

theorem landing_none {t : Table K V} {hash : UInt32} {i : Nat}
    (hi : t.FirstVacant (t.home hash) i) : t.landing hash none = .vacant i := by
  have hfirst := (firstVacant_eq_some_iff (home_lt (Nat.zero_lt_of_lt hi.lt) hash)).2 hi
  simp [landing, hfirst]

theorem landing_none_of_full {t : Table K V} {hash : UInt32} (hpos : 0 < t.capacity)
    (hfull : ∀ j < t.capacity, (t.peek j).isSome) : t.landing hash none = .exhausted := by
  have hfirst := (firstVacant_eq_none_iff (home_lt hpos hash)).2 hfull
  simp [landing, hfirst]

theorem settle_vacant {t : Table K V} {i : Nat} (hi : i < t.capacity) (hempty : t.peek i = none)
    (hash : UInt32) (key : K) (value : V) :
    t.settle (.vacant i) hash key value =
      .ok true (t.put i (some ⟨markHash hash, key, value⟩)) := by
  simp [settle, write_eq (Entry.marked_mk hash key value) hi hempty]

theorem lay_eq {t : Table K V} {i : Nat} {e : Entry K V} (hmarked : e.Marked)
    (hi : t.FirstVacant (t.home e.hash) i) : t.lay e = t.put i (some e) := by
  have hprobe : Id.run (t.probe e.hash fun _ => pure false) = .vacant i := by
    have hnone : (t.candidates e.hash).find? (fun _ => false) = none :=
      List.find?_eq_none.2 (by simp)
    rw [probe_eq, List.findM?_pure, hnone]
    simp [landing_none hi]
  have hentry : (⟨markHash e.hash, e.key, e.value⟩ : Entry K V) = e := by
    rw [hmarked]
  simp only [lay, insert, Id.run_bind, hprobe, settle_vacant hi.lt hi.empty, hentry, Id.run_pure,
    Outcome.state_ok]

theorem place_eq {t : Table K V} {i : Nat} {e : Entry K V} (hmarked : e.Marked)
    (hi : t.FirstVacant (t.home e.hash) i) : t.place e = .ok () (t.put i (some e)) := by
  have hfirst := (firstVacant_eq_some_iff (home_lt (Nat.zero_lt_of_lt hi.lt) e.hash)).2 hi
  simp [place, hfirst, write_eq hmarked hi.lt hi.empty]

theorem exists_firstVacant {t : Table K V} (h : t.occupied < t.capacity) (hash : UInt32) :
    ∃ i, t.FirstVacant (t.home hash) i := by
  obtain ⟨j, hj, hempty⟩ := exists_vacant h
  have hhome : t.home hash < t.capacity := home_lt (by omega) hash
  cases hfirst : t.firstVacant t.capacity (t.home hash) with
  | some i => exact ⟨i, (firstVacant_eq_some_iff hhome).1 hfirst⟩
  | none =>
    have := (firstVacant_eq_none_iff hhome).1 hfirst j hj
    simp [hempty] at this

/-- A new entry has gone into the first empty bucket of its path, or no bucket was empty. -/
def Settled (t : Table K V) (hash : UInt32) (key : K) (value : V) (o : Outcome (Table K V) Bool) :
    Prop :=
  (∃ i, t.FirstVacant (t.home hash) i ∧ o = .ok true (t.put i (some ⟨markHash hash, key, value⟩))) ∨
    (∀ j < t.capacity, (t.peek j).isSome) ∧ o = .fail .tableFull t

theorem settled_of_none {t : Table K V} (hpos : 0 < t.capacity) (hash : UInt32) (key : K)
    (value : V) : t.Settled hash key value (t.settle (t.landing hash none) hash key value) := by
  have hhome : t.home hash < t.capacity := home_lt hpos hash
  cases hfirst : t.firstVacant t.capacity (t.home hash) with
  | some i =>
    have hi := (firstVacant_eq_some_iff hhome).1 hfirst
    exact .inl ⟨i, hi, by rw [landing_none hi, settle_vacant hi.lt hi.empty]⟩
  | none =>
    have hfull := (firstVacant_eq_none_iff hhome).1 hfirst
    exact .inr ⟨hfull, by rw [landing_none_of_full hpos hfull]; rfl⟩

private theorem lt_of_pairwise_append {log : List (Nat × Entry K V)} {x : Nat × Entry K V}
    (h : (log ++ [x]).Pairwise fun x y => x.1 < y.1) :
    (log.Pairwise fun x y => x.1 < y.1) ∧ ∀ y ∈ log, y.1 < x.1 := by
  rw [List.pairwise_append] at h
  exact ⟨h.1, fun y hy => h.2.2 y hy x (List.mem_singleton.2 rfl)⟩

theorem replay_seniority {n : Nat} {log : List (Nat × Entry K V)}
    (hsorted : log.Pairwise fun x y => x.1 < y.1) (hmarked : ∀ x ∈ log, x.2.Marked)
    (hlen : log.length ≤ Capacity.roundUp n) :
    ∃ birth, (replay n (log.map Prod.snd)).Seniority birth none ∧
      (replay n (log.map Prod.snd)).Lists birth log ∧
      (replay n (log.map Prod.snd)).capacity = Capacity.roundUp n ∧
      (replay n (log.map Prod.snd)).entries.Perm (log.map Prod.snd) := by
  induction log using List.reverseRecOn with
  | nil =>
    have hvacant : ∀ i, (withCapacity n : Table K V).peek i = none := peek_withCapacity n
    refine ⟨fun _ => 0, seniority_of_vacant hvacant _ _, lists_nil_of_vacant hvacant _,
      capacity_withCapacity n, ?_⟩
    have hnil : (withCapacity n : Table K V).entries = [] := by
      rw [List.eq_nil_iff_forall_not_mem]
      intro e he
      obtain ⟨i, hi⟩ := mem_entries.1 he
      simp at hi
    rw [List.map_nil, replay, List.foldl_nil, hnil]
  | append_singleton log x ih =>
    obtain ⟨hsorted, hlast⟩ := lt_of_pairwise_append hsorted
    rw [List.length_append, List.length_singleton] at hlen
    obtain ⟨birth, hsenior, hlists, hcap, hperm⟩ :=
      ih hsorted (fun y hy => hmarked y (List.mem_append_left _ hy)) (by omega)
    rw [List.map_append, List.map_singleton, replay_append_singleton]
    generalize replay n (log.map Prod.snd) = t at hsenior hlists hcap hperm
    have hroom : t.occupied < t.capacity := by
      rw [← length_entries, hperm.length_eq, List.length_map, hcap]
      omega
    obtain ⟨i, hi⟩ := exists_firstVacant hroom x.2.hash
    have hmark : x.2.Marked := hmarked x (by simp)
    have hyoung : ∀ j, (t.peek j).isSome → birth j < x.1 := by
      intro j hj
      obtain ⟨a, ha⟩ := Option.isSome_iff_exists.1 hj
      exact hlast _ ((hlists (birth j) a).2 ⟨j, ha, rfl⟩)
    rw [lay_eq hmark hi]
    refine ⟨_, hsenior.fill hi hyoung, hlists.fill hi.lt hi.empty, by rw [capacity_put, hcap], ?_⟩
    exact (entries_fill hi.lt hi.empty).trans
      ((hperm.cons x.2).trans (List.perm_append_singleton x.2 _).symm)

theorem Lists.vacate_last {t : Table K V} {birth : Nat → Nat} {log : List (Nat × Entry K V)}
    {x : Nat × Entry K V} (hlists : t.Lists birth (log ++ [x])) (hsenior : t.Seniority birth none)
    (hlast : ∀ y ∈ log, y.1 < x.1) {i : Nat} (hi : t.peek i = some x.2) (hbirth : birth i = x.1) :
    (∀ j, (t.peek j).isSome → birth j ≤ birth i) ∧ (t.put i none).Lists birth log := by
  have hlt := lt_capacity_of_peek hi
  -- every other entry is in the log before the last one, so it is older
  have hearlier : ∀ {j : Nat} {a : Entry K V}, t.peek j = some a → j ≠ i →
      (birth j, a) ∈ log := by
    intro j a ha hne
    have hmem := (hlists (birth j) a).2 ⟨j, ha, rfl⟩
    rw [List.mem_append, List.mem_singleton] at hmem
    refine hmem.resolve_right fun heq => hne ?_
    refine hsenior.distinct (by rw [ha]; rfl) (by rw [hi]; rfl) ?_
    rw [hbirth, ← heq]
  constructor
  · intro j hj
    by_cases hne : j = i
    · rw [hne]
    · obtain ⟨a, ha⟩ := Option.isSome_iff_exists.1 hj
      have := hlast _ (hearlier ha hne)
      omega
  · intro stamp a
    constructor
    · intro hmem
      obtain ⟨j, hj, hstamp⟩ := (hlists stamp a).1 (List.mem_append_left _ hmem)
      have hne : j ≠ i := by
        rintro rfl
        have := hlast _ hmem
        omega
      exact ⟨j, by rw [peek_put_of_ne hlt _ hne, hj], hstamp⟩
    · rintro ⟨j, hj, hstamp⟩
      rw [peek_put hlt] at hj
      split at hj
      · cases hj
      · rw [← hstamp]
        exact hearlier hj ‹_›

/-- A table in seniority is the replay of its entries, oldest first. -/
theorem eq_replay {t : Table K V} {birth : Nat → Nat} {log : List (Nat × Entry K V)} {n : Nat}
    (hcap : t.capacity = Capacity.roundUp n) (hsenior : t.Seniority birth none)
    (hlists : t.Lists birth log) (hsorted : log.Pairwise fun x y => x.1 < y.1)
    (hmarked : ∀ x ∈ log, x.2.Marked) : t = replay n (log.map Prod.snd) := by
  induction log using List.reverseRecOn generalizing t with
  | nil =>
    apply ext_peek (by rw [hcap]; exact (capacity_withCapacity n).symm)
    intro i
    cases he : t.peek i with
    | none => exact (peek_withCapacity n i).symm
    | some e => cases (hlists (birth i) e).2 ⟨i, he, rfl⟩
  | append_singleton log x ih =>
    obtain ⟨hsorted, hlast⟩ := lt_of_pairwise_append hsorted
    obtain ⟨i, hi, hbirth⟩ := (hlists x.1 x.2).1 (by simp)
    have hlt := lt_capacity_of_peek hi
    obtain ⟨hyoung, hrest⟩ := hlists.vacate_last hsenior hlast hi hbirth
    have ih := ih (by rw [capacity_put, hcap]) (hsenior.vacate_youngest hlt hyoung) hrest hsorted
      (fun y hy => hmarked y (List.mem_append_left _ hy))
    have hfirst : (t.put i none).FirstVacant ((t.put i none).home x.2.hash) i := by
      refine ⟨by simpa using hlt, peek_put_self hlt none, ?_⟩
      intro j hj hbefore
      rw [capacity_put] at hj
      rw [capacity_put, home_put] at hbefore
      have hne : j ≠ i := by
        rintro rfl
        omega
      rw [peek_put_of_ne hlt _ hne]
      exact (hsenior.before hi hj hbefore).1
    have hmark : x.2.Marked := hmarked x (by simp)
    rw [List.map_append, List.map_singleton, replay_append_singleton, ← ih, lay_eq hmark hfirst, ← hi]
    exact (put_put_peek hlt none).symm

end Table

end LinearProbing
