import LinearProbing.Proofs.Growth

set_option autoImplicit false

/-!
# Stores as associations

A store whose keys are hashed and compared by their contents represents an association: a list of keys
and values in which no content occurs twice. Each call on the store answers what the association
answers, and leaves a store that represents what becomes of the association.
-/

namespace LinearProbing

variable {K V C α : Type} {m : Type → Type}

/-- How keys are looked up: by their content, under a hash that equal contents share. -/
structure Keying (K C : Type) [BEq C] where
  content : K → C
  hash : C → UInt32
  hash_eq : ∀ {c c' : C}, (c == c') = true → hash c = hash c'

namespace Keying

variable [BEq C]

def same (k : Keying K C) (c : C) (key : K) : Bool := k.content key == c

def entry (k : Keying K C) (p : K × V) : Entry K V :=
  ⟨markHash (k.hash (k.content p.1)), p.1, p.2⟩

theorem entry_marked (k : Keying K C) (p : K × V) : (k.entry p).Marked := Entry.marked_mk ..

end Keying

abbrev Association (K V : Type) : Type := List (K × V)

namespace Association

variable [BEq C] (k : Keying K C)

/-- No two keys have the same content. -/
def Distinct (d : Association K V) : Prop :=
  d.Pairwise fun p q => ¬ k.same (k.content p.1) q.1

def find (c : C) (d : Association K V) : Option (K × V) := d.find? fun p => k.same c p.1

/-- Adds a key, unless its content is there already, and tells whether it did. -/
def insert (key : K) (value : V) (d : Association K V) : Bool × Association K V :=
  match find k (k.content key) d with
  | some _ => (false, d)
  | none => (true, d ++ [(key, value)])

/-- Replaces the value of a content, and tells what `f` makes of the old one. -/
def update (c : C) (f : V → α × V) (d : Association K V) : Option α × Association K V :=
  ((find k c d).map fun p => (f p.2).1, d.map fun p => if k.same c p.1 then (p.1, (f p.2).2) else p)

def remove (c : C) (d : Association K V) : Option (K × V) × Association K V :=
  (find k c d, d.filter fun p => !k.same c p.1)

variable {k}

theorem find_eq_none_iff {c : C} {d : Association K V} :
    find k c d = none ↔ ∀ p ∈ d, ¬ k.same c p.1 := List.find?_eq_none

theorem filter_absent {c : C} {d : Association K V} (h : ∀ p ∈ d, ¬ k.same c p.1) :
    (d.filter fun p => !k.same c p.1) = d := by
  rw [List.filter_eq_self]
  intro p hp
  simpa using h p hp

theorem map_absent {c : C} {d : Association K V} (h : ∀ p ∈ d, ¬ k.same c p.1) (f : V → α × V) :
    (d.map fun p => if k.same c p.1 then (p.1, (f p.2).2) else p) = d := by
  refine (List.map_congr_left fun p hp => ?_).trans d.map_id
  rw [if_neg (h p hp)]
  rfl

theorem Distinct.split [EquivBEq C] {d : Association K V} (h : Distinct k d) {c : C} {p : K × V}
    (hp : p ∈ d) (hsame : k.same c p.1) :
    find k c d = some p ∧ ∃ before after, d = before ++ p :: after ∧
      (remove k c d).2 = before ++ after ∧
      ∀ f : V → α × V, (update k c f d).2 = before ++ (p.1, (f p.2).2) :: after := by
  obtain ⟨before, after, rfl⟩ := List.append_of_mem hp
  rw [Distinct, List.pairwise_append, List.pairwise_cons] at h
  obtain ⟨-, ⟨hafter, -⟩, hbefore⟩ := h
  have hp' : (c == k.content p.1) = true := BEq.symm hsame
  have hbefore : ∀ q ∈ before, ¬ k.same c q.1 := by
    intro q hq hqc
    have hqp : (k.content q.1 == k.content p.1) = true := BEq.trans hqc hp'
    exact hbefore q hq p (by simp) (BEq.symm hqp)
  have hafter : ∀ q ∈ after, ¬ k.same c q.1 := by
    intro q hq hqc
    exact hafter q hq (BEq.trans hqc hp')
  refine ⟨?_, before, after, rfl, ?_, fun f => ?_⟩
  · rw [find, List.find?_append, List.find?_eq_none.2 hbefore]
    simp [hsame]
  · rw [remove, List.filter_append, List.filter_cons, filter_absent hbefore, filter_absent hafter]
    simp [hsame]
  · rw [update, List.map_append, List.map_cons, map_absent hbefore, map_absent hafter]
    simp [hsame]

theorem Distinct.find_eq [EquivBEq C] {d : Association K V} (h : Distinct k d) {c : C} {p : K × V}
    (hp : p ∈ d) (hsame : k.same c p.1) : find k c d = some p := (h.split (α := Unit) hp hsame).1

theorem Distinct.insert [EquivBEq C] {d : Association K V} (h : Distinct k d) (key : K) (value : V) :
    Distinct k (insert k key value d).2 := by
  unfold Association.insert
  cases hfind : find k (k.content key) d with
  | some p => exact h
  | none =>
    rw [find_eq_none_iff] at hfind
    simp only [Distinct, List.pairwise_append]
    refine ⟨h, List.pairwise_singleton _ _, ?_⟩
    intro p hp q hq hsame
    rw [List.mem_singleton.1 hq] at hsame
    exact hfind p hp (BEq.symm hsame)

theorem Distinct.update {d : Association K V} (h : Distinct k d) (c : C) (f : V → α × V) :
    Distinct k (update k c f d).2 := by
  have hfst : ∀ p : K × V, (if k.same c p.1 then (p.1, (f p.2).2) else p).1 = p.1 := by
    intro p
    split <;> rfl
  rw [Association.update, Distinct, List.pairwise_map]
  simp only [hfst]
  exact h

theorem Distinct.remove {d : Association K V} (h : Distinct k d) (c : C) :
    Distinct k (remove k c d).2 := List.Pairwise.filter _ h

theorem insert_of_none {key : K} {d : Association K V} (h : find k (k.content key) d = none)
    (value : V) : insert k key value d = (true, d ++ [(key, value)]) := by
  rw [insert, h]

theorem insert_of_some {key : K} {d : Association K V} {p : K × V}
    (h : find k (k.content key) d = some p) (value : V) : insert k key value d = (false, d) := by
  rw [insert, h]

theorem update_of_none {c : C} {d : Association K V} (h : find k c d = none) (f : V → α × V) :
    update k c f d = (none, d) := by
  rw [update, h, map_absent (find_eq_none_iff.1 h)]
  rfl

theorem remove_of_none {c : C} {d : Association K V} (h : find k c d = none) :
    remove k c d = (none, d) := by
  rw [remove, h, filter_absent (find_eq_none_iff.1 h)]

end Association

theorem findM?_congr [Monad m] {l : List α} {accept accept' : α → m Bool}
    (h : ∀ x ∈ l, accept x = accept' x) : l.findM? accept = l.findM? accept' := by
  induction l with
  | nil => rfl
  | cons x l ih =>
    simp only [List.findM?]
    rw [h x (by simp), ih fun y hy => h y (List.mem_cons_of_mem x hy)]

namespace Store

theorem probing_pure [Monad m] [LawfulMonad m] {s : Store K V} (hidle : s.busy = false)
    {hash : UInt32} {accept : Store K V → K → ExceptT Fault m Bool} (accepts : K → Bool)
    (hask : ∀ x ∈ s.table.candidates hash, accept s.enter x.2.key = pure (accepts x.2.key))
    (commit : Landing → Store K V → Outcome (Store K V) α) :
    s.probing hash accept commit =
      pure ((commit (s.table.landing hash
        ((s.table.candidates hash).find? fun x => accepts x.2.key)) s.enter).within leave) := by
  have hprobe : s.enter.table.probe hash (accept s.enter) =
      pure (s.table.landing hash
        ((s.table.candidates hash).find? fun x => accepts x.2.key)) := by
    rw [show s.enter.table = s.table from rfl, Table.probe_eq, findM?_congr hask, List.findM?_pure,
      map_pure]
  rw [probing, hidle]
  simp [hprobe]

variable [BEq C] {k : Keying K C} {s : Store K V} {d : Association K V}

/-- A store represents an association if its entries are those of the association. -/
structure Represents (s : Store K V) (k : Keying K C) (d : Association K V) : Prop where
  steady : s.Steady
  entries : s.table.entries.Perm (d.map k.entry)
  distinct : Association.Distinct k d

def candidate (s : Store K V) (k : Keying K C) (c : C) : Option (Nat × Entry K V) :=
  (s.table.candidates (k.hash c)).find? fun x => k.same c x.2.key

namespace Represents

theorem congr {k' : Keying K C} (h : s.Represents k d) (hhash : k'.hash = k.hash)
    (hcontent : ∀ p ∈ d, k'.content p.1 = k.content p.1) : s.Represents k' d := by
  refine ⟨h.steady, ?_, ?_⟩
  · have hentries : d.map k'.entry = d.map k.entry := by
      apply List.map_congr_left
      intro p hp
      rw [Keying.entry, Keying.entry, hhash, hcontent p hp]
    rw [hentries]
    exact h.entries
  · refine List.Pairwise.imp_of_mem ?_ h.distinct
    intro p q hp hq hne
    rw [Keying.same, hcontent p hp, hcontent q hq]
    exact hne

theorem of_mem_candidates (h : s.Represents k d) {hash : UInt32} {x : Nat × Entry K V}
    (hx : x ∈ s.table.candidates hash) :
    ∃ p ∈ d, x.2 = k.entry p ∧ s.table.peek x.1 = some (k.entry p) := by
  have hpeek : s.table.peek x.1 = some x.2 := (h.steady.sound.mem_candidates_iff.1 hx).1
  have hmem : x.2 ∈ d.map k.entry := h.entries.mem_iff.1 (Table.mem_entries.2 ⟨x.1, hpeek⟩)
  obtain ⟨p, hp, hentry⟩ := List.mem_map.1 hmem
  exact ⟨p, hp, hentry.symm, by rw [hpeek, hentry]⟩

theorem candidate_cases [EquivBEq C] (h : s.Represents k d) (c : C) :
    (s.candidate k c = none ∧ Association.find k c d = none) ∨
      ∃ i p, s.candidate k c = some (i, k.entry p) ∧ s.table.peek i = some (k.entry p) ∧
        p ∈ d ∧ k.same c p.1 := by
  cases hfound : s.candidate k c with
  | none =>
    refine .inl ⟨rfl, Association.find_eq_none_iff.2 fun p hp hsame => ?_⟩
    have hmem : k.entry p ∈ s.table.entries := h.entries.mem_iff.2 (List.mem_map_of_mem hp)
    obtain ⟨i, hi⟩ := Table.mem_entries.1 hmem
    have hhash : (k.entry p).hash = markHash (k.hash c) := by
      rw [Keying.entry, k.hash_eq hsame]
    have hcand : (i, k.entry p) ∈ s.table.candidates (k.hash c) :=
      h.steady.sound.mem_candidates_iff.2 ⟨hi, hhash⟩
    exact List.find?_eq_none.1 hfound _ hcand hsame
  | some x =>
    obtain ⟨p, hp, hentry, hpeek⟩ := h.of_mem_candidates (List.mem_of_find?_eq_some hfound)
    have hsame : k.same c x.2.key = true := by simpa using List.find?_some hfound
    refine .inr ⟨x.1, p, by rw [← hentry], hpeek, hp, ?_⟩
    rw [hentry] at hsame
    exact hsame

/-- A probe with a predicate that tells the content apart from the others present lands where the
candidate for the content is. -/
theorem probing_eq [Monad m] [LawfulMonad m] (h : s.Represents k d) {c : C}
    {accept : Store K V → K → ExceptT Fault m Bool}
    (hask : ∀ p ∈ d, accept s.enter p.1 = pure (k.same c p.1))
    (commit : Landing → Store K V → Outcome (Store K V) α) :
    s.probing (k.hash c) accept commit =
      pure ((commit (s.table.landing (k.hash c) (s.candidate k c)) s.enter).within leave) := by
  refine probing_pure h.steady.idle (k.same c) (fun x hx => ?_) commit
  obtain ⟨p, hp, hentry, -⟩ := h.of_mem_candidates hx
  rw [hentry]
  exact hask p hp

end Represents

end Store

end LinearProbing
