import LinearProbing.Proofs.Upkeep
import LinearProbing.Proofs.Values
import LinearProbing.Proofs.Walking

set_option autoImplicit false

/-!
# Writing on a walk

A reviser passes the same entries as a cursor and may give each of them another value, whatever it likes.
Nothing but these values changes, so every search takes the same way and ends in the same bucket, where it
sees the value that was written there.
-/

namespace LinearProbing

variable {K V α : Type} {m : Type → Type}

def Entry.rewrite (f : K → V → α × V) (e : Entry K V) : Entry K V := ⟨e.hash, e.key, (f e.key e.value).2⟩

/-- What writers answer that pass the first entries of a list, one each. -/
def replies (l : List (Nat × Entry K V)) (fs : List (K → V → α × V)) : List (Option α) :=
  fs.mapIdx fun k f => l[k]?.map fun x => (f x.2.key x.2.value).1

namespace Table

/-- The table `t'` is `t` after the writers have passed the first entries of a list, one each. -/
structure Rewrites (t : Table K V) (l : List (Nat × Entry K V)) (fs : List (K → V → α × V))
    (t' : Table K V) : Prop where
  capacity : t'.capacity = t.capacity
  passed : ∀ (k i : Nat) (e : Entry K V) (f : K → V → α × V), l[k]? = some (i, e) → fs[k]? = some f →
    t'.peek i = some (e.rewrite f)
  others : ∀ i, (∀ (k : Nat) (e : Entry K V), l[k]? = some (i, e) → fs.length ≤ k) →
    t'.peek i = t.peek i

theorem Rewrites.cons {t t' : Table K V} {l : List (Nat × Entry K V)} {fs : List (K → V → α × V)}
    {i : Nat} {e : Entry K V} {f : K → V → α × V} (he : t.peek i = some e) (hother : ∀ x ∈ l, x.1 ≠ i)
    (h : (t.put i (some (e.rewrite f))).Rewrites l fs t') : t.Rewrites ((i, e) :: l) (f :: fs) t' := by
  have hi := lt_capacity_of_peek he
  refine ⟨h.capacity.trans (capacity_put ..), ?_, ?_⟩
  · intro k j a g hk hg
    cases k with
    | zero =>
      cases hk
      cases hg
      rw [h.others i fun k a hk => absurd rfl (hother (i, a) (List.mem_of_getElem? hk)),
        peek_put_self hi]
    | succ k => exact h.passed k j a g hk hg
  · intro j hj
    have hji : j ≠ i := by
      rintro rfl
      exact absurd (hj 0 e rfl) (Nat.not_succ_le_zero _)
    rw [h.others j fun k a hk => Nat.le_of_succ_le_succ (hj (k + 1) a hk), peek_put_of_ne hi _ hji]

theorem le_of_mem_filledFrom {t : Table K V} {i : Nat} {x : Nat × Entry K V}
    (hx : x ∈ t.filledFrom i) : i ≤ x.1 := by
  obtain ⟨j, hj, hpeek⟩ := List.mem_filterMap.1 hx
  obtain ⟨e, -, rfl⟩ := Option.map_eq_some_iff.1 hpeek
  exact (List.mem_range'_1.1 hj).1

theorem filledFrom_put {t : Table K V} {i j : Nat} (hi : i < t.capacity) (hij : i < j)
    (content : Option (Entry K V)) : (t.put i content).filledFrom j = t.filledFrom j := by
  rw [filledFrom, filledFrom, capacity_put]
  apply List.filterMap_congr
  intro k hk
  have hjk := (List.mem_range'_1.1 hk).1
  rw [peek_put_of_ne hi _ (by omega)]

namespace Reviser

def cursor (r : Reviser K V) : Cursor K V := ⟨r.slots, r.position⟩

theorem next_cases (r : Reviser K V) (f : K → V → α × V) :
    (r.cursor.upcoming = [] ∧ r.next f = (none, ⟨r.slots, r.slots.size⟩)) ∨
      ∃ i e, r.cursor.upcoming = (i, e) :: r.finish.filledFrom (i + 1) ∧ r.finish.peek i = some e ∧
        r.next f = (some (f e.key e.value).1, ⟨(r.finish.put i (some (e.rewrite f))).slots, i + 1⟩) := by
  rcases seekEntry_cases r.finish r.position with ⟨hseek, hnone⟩ | ⟨i, e, hseek, -, hpeek, hsome⟩
  · refine .inl ⟨hnone, ?_⟩
    rw [next, show seekEntry r.slots r.position = none from hseek]
  · refine .inr ⟨i, e, hsome, hpeek, ?_⟩
    rw [next, show seekEntry r.slots r.position = some (i, e) from hseek]
    rfl

theorem next_answer (r : Reviser K V) (f : K → V → α × V) :
    (r.next f).1 = r.cursor.upcoming.head?.map fun x => (f x.2.key x.2.value).1 := by
  rcases r.next_cases f with ⟨hnone, hnext⟩ | ⟨i, e, hsome, -, hnext⟩
  · rw [hnone, hnext]
    rfl
  · rw [hsome, hnext]
    rfl

theorem upcoming_next (r : Reviser K V) (f : K → V → α × V) :
    (r.next f).2.cursor.upcoming = r.cursor.upcoming.tail := by
  rcases r.next_cases f with ⟨hnone, hnext⟩ | ⟨i, e, hsome, hpeek, hnext⟩
  · rw [hnone, hnext]
    exact filledFrom_of_le (Nat.le_refl _)
  · rw [hsome, hnext]
    exact filledFrom_put (lt_capacity_of_peek hpeek) (Nat.lt_succ_self i) _

theorem position_next (r : Reviser K V) (f : K → V → α × V) :
    (r.next f).2.position = r.cursor.visited 1 := by
  rcases r.next_cases f with ⟨hnone, hnext⟩ | ⟨i, e, hsome, -, hnext⟩
  · rw [Cursor.visited, hnone, hnext]
    rfl
  · rw [Cursor.visited, hsome, hnext]
    rfl

theorem size_next (r : Reviser K V) (f : K → V → α × V) : (r.next f).2.slots.size = r.slots.size := by
  rcases r.next_cases f with ⟨-, hnext⟩ | ⟨i, e, -, -, hnext⟩
  · rw [hnext]
  · rw [hnext]
    exact capacity_put ..

theorem takeWith_answers (fs : List (K → V → α × V)) (r : Reviser K V) :
    (takeWith fs r).1 = replies r.cursor.upcoming fs := by
  induction fs generalizing r with
  | nil => rfl
  | cons f fs ih =>
    change (r.next f).1 :: (takeWith fs (r.next f).2).1 = _
    rw [ih, next_answer, upcoming_next, replies, replies, List.mapIdx_cons, List.head?_eq_getElem?]
    simp only [List.getElem?_tail]

theorem upcoming_takeWith (fs : List (K → V → α × V)) (r : Reviser K V) :
    (takeWith fs r).2.cursor.upcoming = r.cursor.upcoming.drop fs.length := by
  induction fs generalizing r with
  | nil => rfl
  | cons f fs ih =>
    change (takeWith fs (r.next f).2).2.cursor.upcoming = _
    rw [ih, upcoming_next, List.drop_tail, List.length_cons]

theorem size_takeWith (fs : List (K → V → α × V)) (r : Reviser K V) :
    (takeWith fs r).2.slots.size = r.slots.size := by
  induction fs generalizing r with
  | nil => rfl
  | cons f fs ih => exact (ih (r.next f).2).trans (r.size_next f)

theorem position_takeWith (fs : List (K → V → α × V)) (r : Reviser K V) :
    (takeWith fs r).2.position = r.cursor.visited fs.length := by
  induction fs generalizing r with
  | nil => rfl
  | cons f fs ih =>
    have hvisited : (r.next f).2.cursor.visited fs.length = r.cursor.visited (fs.length + 1) :=
      Cursor.visited_succ (r.position_next f) (r.upcoming_next f) (r.size_next f) fs.length
    exact (ih (r.next f).2).trans hvisited

theorem bounds_takeWith (fs : List (K → V → α × V)) (r : Reviser K V) :
    (takeWith fs r).2.bounds = (0, r.slots.size - r.cursor.visited fs.length) := by
  rw [bounds, size_takeWith, position_takeWith]

theorem takeWith_rewrites (fs : List (K → V → α × V)) (r : Reviser K V) :
    r.finish.Rewrites r.cursor.upcoming fs (takeWith fs r).2.finish := by
  induction fs generalizing r with
  | nil => exact ⟨rfl, nofun, fun _ _ => rfl⟩
  | cons f fs ih =>
    have hrest := ih (r.next f).2
    rw [upcoming_next] at hrest
    change r.finish.Rewrites _ _ (takeWith fs (r.next f).2).2.finish
    rcases r.next_cases f with ⟨hnone, hnext⟩ | ⟨i, e, hsome, hpeek, hnext⟩
    · rw [hnone, hnext] at hrest
      rw [hnone, hnext]
      exact ⟨hrest.capacity, nofun, fun i _ => hrest.others i nofun⟩
    · rw [hsome, hnext] at hrest
      rw [hsome, hnext]
      exact hrest.cons hpeek fun x hx => Nat.ne_of_gt (le_of_mem_filledFrom hx)

end Reviser

namespace Rewrites

variable {t t' : Table K V} {fs : List (K → V → α × V)}

theorem peek_cases (h : t.Rewrites t.filled fs t') (i : Nat) :
    t'.peek i = t.peek i ∨
      ∃ (k : Nat) (e : Entry K V) (f : K → V → α × V), t.filled[k]? = some (i, e) ∧
        fs[k]? = some f ∧ t.peek i = some e ∧ t'.peek i = some (e.rewrite f) := by
  by_cases hpassed : ∀ (k : Nat) (e : Entry K V), t.filled[k]? = some (i, e) → fs.length ≤ k
  · exact .inl (h.others i hpassed)
  · simp only [not_forall, Nat.not_le] at hpassed
    obtain ⟨k, e, hk, hlt⟩ := hpassed
    have hf : fs[k]? = some fs[k] := List.getElem?_eq_getElem hlt
    exact .inr ⟨k, e, fs[k], hk, hf, mem_filled.1 (List.mem_of_getElem? hk), h.passed k i e fs[k] hk hf⟩

theorem erased (h : t.Rewrites t.filled fs t') :
    t'.mapValues (fun _ => ()) = t.mapValues fun _ => () := by
  apply ext_peek
  · rw [capacity_mapValues, capacity_mapValues, h.capacity]
  · intro i
    rw [peek_mapValues, peek_mapValues]
    rcases h.peek_cases i with hsame | ⟨k, e, f, -, -, he, he'⟩
    · rw [hsame]
    · rw [he, he']
      rfl

theorem peek_hash (h : t.Rewrites t.filled fs t') (i : Nat) :
    (t'.peek i).map Entry.hash = (t.peek i).map Entry.hash := by
  rcases h.peek_cases i with hsame | ⟨k, e, f, -, -, he, he'⟩
  · rw [hsame]
  · rw [he, he']
    rfl

theorem sound (h : t.Rewrites t.filled fs t') (hsound : t.Sound) : t'.Sound :=
  hsound.congr h.capacity h.peek_hash

/-- A search with any predicate asks the same questions and ends in the same bucket. -/
theorem find_eq [Monad m] [LawfulMonad m] (h : t.Rewrites t.filled fs t') (hash : UInt32)
    (accept : K → m Bool) : t'.find hash accept = t.find hash accept := by
  rw [← find_mapValues (fun _ => ()) t', h.erased, find_mapValues]

theorem occupied_eq (h : t.Rewrites t.filled fs t') : t'.occupied = t.occupied := by
  rw [← occupied_mapValues (fun _ => ()) t', h.erased, occupied_mapValues]

end Rewrites

end Table

namespace Store

namespace Reviser

def Exact (r : Reviser K V) : Prop := r.remaining = r.inner.cursor.upcoming.length

theorem Exact.next {r : Reviser K V} (h : r.Exact) (f : K → V → α × V) :
    r.next f = .ok (r.inner.next f).1 ⟨(r.inner.next f).2, r.remaining - 1⟩ ∧
      (⟨(r.inner.next f).2, r.remaining - 1⟩ : Reviser K V).Exact := by
  rcases r with ⟨inner, remaining⟩
  have hexact : remaining = inner.cursor.upcoming.length := h
  have hless : remaining - 1 = (inner.next f).2.cursor.upcoming.length := by
    rw [inner.upcoming_next, List.length_tail, hexact]
  refine ⟨?_, hless⟩
  rcases inner.next_cases f with ⟨hnone, hrun⟩ | ⟨i, e, hsome, -, hrun⟩
  · have hzero : remaining = 0 := by rw [hexact, hnone]; rfl
    rw [Reviser.next, hrun, hzero]
    rfl
  · have hsub : Size.sub remaining 1 = .ok (remaining - 1) := by
      rw [Size.sub_eq_ok_iff, hexact, hsome]
      exact ⟨Nat.succ_pos _, rfl⟩
    rw [Reviser.next, hrun]
    simp only [hsub]

theorem Exact.takeWith {r : Reviser K V} (h : r.Exact) (fs : List (K → V → α × V)) :
    r.takeWith fs =
      .ok (r.inner.takeWith fs).1 ⟨(r.inner.takeWith fs).2, r.remaining - fs.length⟩ := by
  induction fs generalizing r with
  | nil => rfl
  | cons f fs ih =>
    obtain ⟨hrun, hexact⟩ := h.next f
    rw [Reviser.takeWith, hrun, Outcome.ok_bind, ih hexact, Nat.sub_sub, Nat.add_comm 1]
    rfl

end Reviser

theorem rewrite_eq {s : Store K V} {fs : List (K → V → α × V)} {answers : List (Option α)}
    {r : Reviser K V} (h : s.reviser.takeWith fs = .ok answers r) :
    s.rewrite fs = .ok answers ⟨r.inner.finish, s.len, s.busy⟩ := by
  rcases s with ⟨table, len, busy⟩
  rw [reviser] at h
  rw [rewrite, h]
  rfl

theorem takeWith_reviser {s : Store K V} (hcounted : s.len = s.table.occupied)
    (fs : List (K → V → α × V)) :
    s.reviser.takeWith fs = .ok (replies s.table.filled fs)
        ⟨(s.table.reviser.takeWith fs).2, s.len - fs.length⟩ ∧
      s.table.Rewrites s.table.filled fs (s.table.reviser.takeWith fs).2.finish := by
  have hcursor : s.table.reviser.cursor.upcoming = s.table.filled := s.table.filledFrom_zero
  have hexact : s.reviser.Exact := by
    rw [Reviser.Exact, reviser, hcursor, Table.length_filled, hcounted]
  have hrun := hexact.takeWith fs
  have hrewrites := s.table.reviser.takeWith_rewrites fs
  rw [hcursor] at hrewrites
  rw [reviser, Table.Reviser.takeWith_answers, hcursor] at hrun
  exact ⟨hrun, hrewrites⟩

theorem rests_rewrite {s : Store K V} (hsound : s.table.Sound) (hcounted : s.len = s.table.occupied)
    (fs : List (K → V → α × V)) : Rests s (s.rewrite fs) := by
  obtain ⟨hrun, hrewrites⟩ := takeWith_reviser hcounted fs
  refine ⟨_, _, s.len, rewrite_eq hrun, hrewrites.sound hsound, hrewrites.capacity, ?_, Nat.le_refl _⟩
  rw [hcounted, hrewrites.occupied_eq]

/-- What a lookup shows of the bucket that a search ends in. -/
def shows (s : Store K V) : Except Fault (Option Nat) → Outcome (Store K V) (Option (K × V))
  | .error fault => .fail fault s
  | .ok (some i) => s.read (.found i)
  | .ok none => .ok none s

variable {s s' : Store K V}

theorem shows_of_peek {i : Nat} {e : Entry K V} (he : s.table.peek i = some e) :
    s.shows (.ok (some i)) = .ok (some e.pair) s := by
  rw [shows, read, Table.entryAt_eq_ok_iff.2 he]
  rfl

theorem findWithHash_eq [Monad m] [LawfulMonad m] (hidle : s.busy = false) (hash : UInt32)
    (accept : K → ExceptT Fault m Bool) :
    s.findWithHash hash (fun _ => accept) = s.shows <$> (s.table.find hash accept).run := by
  have hread : ∀ landing, (s.enter.read landing).within leave = s.read landing := by
    intro landing
    cases landing with
    | found i => exact congrArg (Outcome.ofExcept _) (leave_enter hidle)
    | vacant i => exact congrArg (Outcome.ok none) (leave_enter hidle)
    | exhausted => exact congrArg (Outcome.ok none) (leave_enter hidle)
  have hprobe : s.enter.table.probe hash accept = s.table.probe hash accept := rfl
  simp only [findWithHash, probing, hidle, Bool.false_eq_true, if_false, hprobe, Table.probe_eq,
    Table.find_eq, ExceptT.run_map, bind_map_left, Functor.map_map, hread, leave_enter hidle]
  rw [map_eq_pure_bind]
  apply bind_congr
  rintro (fault | found)
  · rfl
  · cases found with
    | some x => rfl
    | none =>
      simp only [Except.map]
      rw [read_landing_none]
      rfl

theorem updateWithHash_answers [Monad m] [LawfulMonad m] (s : Store K V) (hash : UInt32)
    (accept : Store K V → K → ExceptT Fault m Bool) (f : V → α × V) :
    Outcome.result <$> s.updateWithHash hash accept f =
      (fun o => o.result.map (Option.map fun x => (f x.2).1)) <$> s.findWithHash hash accept := by
  have hanswer : ∀ landing, (s.enter.revise f landing).result =
      (s.enter.read landing).result.map (Option.map fun x => (f x.2).1) := by
    rintro (i | i | _)
    · rw [revise, read, Table.updateAt]
      cases s.enter.table.entryAt i <;> rfl
    · rfl
    · rfl
  rw [updateWithHash, findWithHash, probing, probing]
  split
  · rw [map_pure, map_pure]
    rfl
  · rw [map_bind, map_bind]
    apply bind_congr
    rintro (fault | landing)
    · rw [map_pure, map_pure]
      rfl
    · rw [map_pure, map_pure]
      exact congrArg pure (hanswer landing)

end Store

end LinearProbing
