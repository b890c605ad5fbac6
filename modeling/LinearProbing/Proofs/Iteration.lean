import LinearProbing.Proofs.Steps

set_option autoImplicit false

/-!
# Walks through maps and sets

In every map and set that calls lead to, the count of entries is right, so a walk that begins with it knows
at every step how many entries are to come, and a walk that writes leaves everything but the values as it
was.
-/

namespace LinearProbing

variable {σ K V α : Type}

namespace Store

/-- A cursor that has been asked `n` times stands behind the first `n` entries. As it is a value, a copy of
it goes on from there in the same way, whatever is done with it. -/
structure Cursor.Past (s : Store K V) (n : Nat) (c : Cursor K V) : Prop where
  bounds : c.bounds = (s.len - n, s.len - n)
  left : s.len - n = (s.table.filled.drop n).length
  /-- The cursor of the table only knows how many buckets it has not visited. -/
  inner : c.inner.bounds = (0, s.capacity - s.table.cursor.visited n)
  valid : s.len - n ≤ c.inner.bounds.2
  rest : c.rest = (s.table.filled.drop n).map fun x => x.2.pair
  onward : ∀ k, ∃ c', c.take k = .ok (walked ((s.table.filled.drop n).map fun x => x.2.pair) k) c'

structure Reviser.Past (s : Store K V) (n : Nat) (r : Reviser K V) : Prop where
  bounds : r.bounds = (s.len - n, s.len - n)
  left : s.len - n = (s.table.filled.drop n).length
  inner : r.inner.bounds = (0, s.capacity - s.table.cursor.visited n)
  valid : s.len - n ≤ r.inner.bounds.2
  ahead : r.inner.cursor.upcoming = s.table.filled.drop n

/-- The store `s'` differs from `s` in values only, so a lookup goes the same way in both of them and sees
the entry in the bucket where it ends. -/
structure Alike (s s' : Store K V) : Prop where
  len : s'.len = s.len
  /-- Hashes, keys and their buckets are the same. -/
  erased : s'.table.mapValues (fun _ => ()) = s.table.mapValues fun _ => ()
  search : ∀ (M : Type → Type) [Monad M] [LawfulMonad M] (hash : UInt32)
    (accept : K → ExceptT Fault M Bool),
    s.findWithHash hash (fun _ => accept) = s.shows <$> (s.table.find hash accept).run ∧
      s'.findWithHash hash (fun _ => accept) = s'.shows <$> (s.table.find hash accept).run
  shown : ∀ (i : Nat) (e : Entry K V), s.table.peek i = some e →
    ∃ e', s'.table.peek i = some e' ∧ e'.hash = e.hash ∧ e'.key = e.key ∧
      s.shows (.ok (some i)) = .ok (some e.pair) s ∧ s'.shows (.ok (some i)) = .ok (some e'.pair) s'

variable {s : Store K V}

theorem cursor_exact (hcounted : s.len = s.table.occupied) : s.cursor.Exact := by
  rw [Cursor.Exact, cursor, Table.Cursor.upcoming_cursor, Table.length_filled, hcounted]

theorem left_eq (hcounted : s.len = s.table.occupied) (n : Nat) :
    s.len - n = (s.table.filled.drop n).length := by
  rw [List.length_drop, Table.length_filled, hcounted]

theorem cursor_take (hcounted : s.len = s.table.occupied) (n : Nat) :
    ∃ c, s.cursor.take n = .ok (walked (s.table.filled.map fun x => x.2.pair) n) c ∧ c.Past s n := by
  have hleft := left_eq hcounted n
  have hrun := (cursor_exact hcounted).take n
  have hahead : (s.table.cursor.take n).2.upcoming = s.table.filled.drop n := by
    rw [Table.Cursor.upcoming_take, Table.Cursor.upcoming_cursor]
  have hexact : (⟨(s.table.cursor.take n).2, s.len - n⟩ : Cursor K V).Exact := by
    rw [Cursor.Exact, hahead, hleft]
  rw [cursor, Table.Cursor.take_answers, Table.Cursor.upcoming_cursor] at hrun
  refine ⟨_, hrun, rfl, hleft, Table.Cursor.bounds_take n s.table.cursor, ?_, ?_, fun k => ?_⟩
  · have hle := (s.table.cursor.take n).2.length_upcoming_le
    rwa [hahead, ← hleft] at hle
  · have hrest := (s.table.cursor.take n).2.rest_eq
    rwa [hahead] at hrest
  · have honward := hexact.take k
    rw [Table.Cursor.take_answers, hahead] at honward
    exact ⟨_, honward⟩

theorem reviser_takeWith (hcounted : s.len = s.table.occupied) (fs : List (K → V → α × V)) :
    ∃ r, s.reviser.takeWith fs = .ok (replies s.table.filled fs) r ∧ r.Past s fs.length ∧
      s.table.Rewrites s.table.filled fs r.inner.finish := by
  have hleft := left_eq hcounted fs.length
  have hcursor : s.table.reviser.cursor.upcoming = s.table.filled := s.table.filledFrom_zero
  have hahead : (s.table.reviser.takeWith fs).2.cursor.upcoming = s.table.filled.drop fs.length := by
    rw [Table.Reviser.upcoming_takeWith, hcursor]
  obtain ⟨hrun, hrewrites⟩ := takeWith_reviser hcounted fs
  refine ⟨_, hrun, ⟨rfl, hleft, Table.Reviser.bounds_takeWith fs s.table.reviser, ?_, hahead⟩, hrewrites⟩
  have hle := (s.table.reviser.takeWith fs).2.cursor.length_upcoming_le
  rwa [hahead, ← hleft] at hle

theorem rewrite_alike (hidle : s.busy = false) {fs : List (K → V → α × V)} {t' : Table K V}
    (h : s.table.Rewrites s.table.filled fs t') : s.Alike ⟨t', s.len, s.busy⟩ := by
  refine ⟨rfl, h.erased, fun M _ _ hash accept => ⟨findWithHash_eq hidle hash accept, ?_⟩,
    fun i e he => ?_⟩
  · rw [← h.find_eq hash accept]
    exact findWithHash_eq (s := ⟨t', s.len, s.busy⟩) hidle hash accept
  · rcases h.peek_cases i with hsame | ⟨k, a, f, -, -, ha, hwritten⟩
    · have he' : t'.peek i = some e := by rw [hsame, he]
      exact ⟨e, he', rfl, rfl, shows_of_peek he, shows_of_peek (s := ⟨t', s.len, s.busy⟩) he'⟩
    · rw [he] at ha
      cases ha
      exact ⟨e.rewrite f, hwritten, rfl, rfl, shows_of_peek he,
        shows_of_peek (s := ⟨t', s.len, s.busy⟩) hwritten⟩

end Store

namespace Map

variable [BEq K]

def seek (m : Map K V) (key : K) : Option Nat :=
  Id.run (m.table.find (bucketHash m.hashOf key) fun stored => pure (stored == key))

theorem findEntry_eq {m : Map K V} (hidle : m.busy = false) (key : K) :
    m.findEntry key = (m.toStore.shows (.ok (m.seek key))).within (⟨·, m.hashOf⟩) := by
  rcases m with ⟨store, hashOf⟩
  have hsearch : (store.table.find (bucketHash hashOf key)
      fun stored => (pure (stored == key) : ExceptT Fault Id Bool)).run =
      .ok (Id.run (store.table.find (bucketHash hashOf key) fun stored => pure (stored == key))) := by
    rw [Table.find_eq, Table.find_eq, List.findM?_pure, List.findM?_pure]
    rfl
  have hlookup := Store.findWithHash_eq (m := Id) hidle (bucketHash hashOf key)
    fun stored => pure (stored == key)
  rw [hsearch] at hlookup
  exact congrArg (Outcome.within fun store : Store K V => (⟨store, hashOf⟩ : Map K V)) hlookup

/-- Neither of two maps finds a key, or both find it in the same bucket, each with the value that it has
there. -/
def FindAlike (m m' : Map K V) (key : K) : Prop :=
  (m.findEntry key = .ok none m ∧ m'.findEntry key = .ok none m') ∨
    ∃ i e e', m.table.peek i = some e ∧ m'.table.peek i = some e' ∧ e'.hash = e.hash ∧
      e'.key = e.key ∧ m.findEntry key = .ok (some e.pair) m ∧ m'.findEntry key = .ok (some e'.pair) m'

theorem findEntry_alike {m m' : Map K V} (hsound : m.table.Sound) (hidle : m.busy = false)
    (hidle' : m'.busy = false) (h : m.toStore.Alike m'.toStore) {key : K}
    (hseek : m'.seek key = m.seek key) : FindAlike m m' key := by
  rw [FindAlike, findEntry_eq hidle, findEntry_eq hidle', hseek]
  cases hfound : m.seek key with
  | none => exact .inl ⟨rfl, rfl⟩
  | some i =>
    obtain ⟨⟨e, he, -⟩, -⟩ := hsound.find_first hfound
    obtain ⟨e', he', hhash, hkey, hshown, hshown'⟩ := h.shown i e he
    rw [hshown, hshown']
    exact .inr ⟨i, e, e', he, he', hhash, hkey, rfl, rfl⟩

/-- The map `m'` is `m` after writers have passed its first entries, one each. -/
structure Written (m : Map K V) (fs : List (K → V → α × V)) (m' : Map K V) : Prop where
  rewrites : m.table.Rewrites m.table.filled fs m'.table
  hashOf : m'.hashOf = m.hashOf
  alike : m.toStore.Alike m'.toStore
  keyed : ∀ key : K, FindAlike m m' key

theorem rewrite_written {faults : List Fault} {m : Map K V} (h : m.Fit faults) (fs : List (K → V → α × V)) :
    ∃ r m', m.reviser.takeWith fs = .ok (replies m.table.filled fs) r ∧ r.Past m.toStore fs.length ∧
      m.rewrite fs = .ok (replies m.table.filled fs) m' ∧ m'.table = r.inner.finish ∧
      m.Written fs m' := by
  obtain ⟨r, hrun, hpast, hrewrites⟩ := Store.reviser_takeWith h.kept.counted fs
  rcases m with ⟨store, hashOf⟩
  have halike := Store.rewrite_alike h.idle hrewrites
  refine ⟨r, ⟨⟨r.inner.finish, store.len, store.busy⟩, hashOf⟩, hrun, hpast, ?_, rfl, hrewrites, rfl,
    halike, fun key => ?_⟩
  · rw [rewrite, Store.rewrite_eq hrun]
    rfl
  · have hseek : (⟨⟨r.inner.finish, store.len, store.busy⟩, hashOf⟩ : Map K V).seek key =
        (⟨store, hashOf⟩ : Map K V).seek key :=
      congrArg Id.run (hrewrites.find_eq (bucketHash hashOf key) _)
    refine findEntry_alike (m := ⟨store, hashOf⟩) h.kept.sound h.idle ?_ halike hseek
    exact h.idle

theorem update_answers (m : Map K V) (key : K) (f : V → α × V) :
    (m.update key f).result = (m.findEntry key).result.map (Option.map fun x => (f x.2).1) := by
  rcases m with ⟨store, hashOf⟩
  exact congrArg Id.run (Store.updateWithHash_answers (m := Id) store (bucketHash hashOf key)
    (fun busy stored => sameKey busy stored key) f)

/-- Walks through a map pass its entries in the order of their buckets, each one once, and know at every
step how many are to come. A walk that writes changes values only, and a lookup sees what was written. -/
structure Walks (m : Map K V) : Prop where
  ascending : m.table.filled.Pairwise fun x y => x.1 < y.1
  complete : ∀ (i : Nat) (e : Entry K V), (i, e) ∈ m.table.filled ↔ m.table.peek i = some e
  reads : ∀ k, ∃ c, m.cursor.take k = .ok (walked (m.table.filled.map fun x => x.2.pair) k) c ∧
    c.Past m.toStore k
  writes : ∀ {α : Type} (fs : List (K → V → α × V)), ∃ r m',
    m.reviser.takeWith fs = .ok (replies m.table.filled fs) r ∧ r.Past m.toStore fs.length ∧
      m.rewrite fs = .ok (replies m.table.filled fs) m' ∧ m'.table = r.inner.finish ∧ m.Written fs m'
  /-- A lookup that may change the value sees what any lookup sees, with any predicate. -/
  updates : ∀ {α : Type} (f : V → α × V),
    (∀ (M : Type → Type) [Monad M] [LawfulMonad M] (hash : UInt32)
      (accept : Store K V → K → ExceptT Fault M Bool),
        Outcome.result <$> m.updateWithHash hash accept f =
          (fun o => o.result.map (Option.map fun x => (f x.2).1)) <$> m.findWithHash hash accept) ∧
      ∀ key : K, (m.update key f).result =
        (m.findEntry key).result.map (Option.map fun x => (f x.2).1)

theorem walks_of_fit {faults : List Fault} {m : Map K V} (h : m.Fit faults) : m.Walks where
  ascending := m.table.filled_pairwise
  complete _ _ := Table.mem_filled
  reads := Store.cursor_take h.kept.counted
  writes := rewrite_written h
  updates f := ⟨fun _ _ _ hash accept => m.updateWithHash_answers hash accept f,
    fun key => m.update_answers key f⟩

end Map

structure KeySet.Cursor.Past (s : KeySet K) (n : Nat) (c : KeySet.Cursor K) : Prop where
  inner : c.inner.Past s.map.toStore n
  bounds : c.bounds = (s.len - n, s.len - n)
  rest : c.rest = (s.map.table.filled.drop n).map fun x => x.2.key
  onward : ∀ k, ∃ c', c.take k = .ok (walked ((s.map.table.filled.drop n).map fun x => x.2.key) k) c'

theorem KeySet.cursor_take {s : KeySet K} (hcounted : s.map.len = s.map.table.occupied) (n : Nat) :
    ∃ c, s.cursor.take n = .ok (walked (s.map.table.filled.map fun x => x.2.key) n) c ∧ c.Past s n := by
  obtain ⟨c, hrun, hpast⟩ := Store.cursor_take (s := s.map.toStore) hcounted n
  refine ⟨⟨c⟩, ?_, hpast, hpast.bounds, ?_, fun k => ?_⟩
  · rw [cursor, Cursor.take_eq, hrun, Outcome.map_ok, map_walked, List.map_map]
    rfl
  · rw [Cursor.rest, hpast.rest, List.map_map]
    rfl
  · obtain ⟨c', honward⟩ := hpast.onward k
    rw [Cursor.take_eq, honward, Outcome.map_ok, map_walked, List.map_map]
    exact ⟨⟨c'⟩, rfl⟩

structure KeySet.Walks (s : KeySet K) : Prop where
  ascending : s.map.table.filled.Pairwise fun x y => x.1 < y.1
  complete : ∀ (i : Nat) (e : Entry K Unit), (i, e) ∈ s.map.table.filled ↔ s.map.table.peek i = some e
  reads : ∀ k, ∃ c, s.cursor.take k = .ok (walked (s.map.table.filled.map fun x => x.2.key) k) c ∧
    c.Past s k

/-- Walks are exact in every map and every set, whatever has been done to it and whatever the hashes and
predicates were. -/
theorem walks_exact [BEq K] {n : Nat} (hn : n < Size.limit) (hashOf : K → UInt64) :
    (∀ past (m : Map K V), Trace MapAct.run (.withCapacity n hashOf) past m → m.Walks) ∧
      ∀ past (s : KeySet K), Trace SetAct.run (.withCapacity n hashOf) past s → s.Walks := by
  refine ⟨fun past m h => Map.walks_of_fit (Map.fit_of_trace hn h), fun past s h => ?_⟩
  exact ⟨s.map.table.filled_pairwise, fun _ _ => Table.mem_filled,
    KeySet.cursor_take (KeySet.fit_of_trace hn h).kept.counted⟩

/-- Of three keys under one hash the first one lies in the last bucket, so a walk comes to it at the end. -/
theorem walks_exact_wrapped :
    ∃ (m : Map Nat Nat) (c : Store.Cursor Nat Nat) (m' : Map Nat Nat) (s : KeySet Nat)
      (d : KeySet.Cursor Nat),
      m.cursor.take 2 = .ok [some (2, 20), some (3, 30)] c ∧ c.bounds = (1, 1) ∧
      c.inner.bounds = (0, 5) ∧ c.rest = [(1, 10)] ∧
      m.rewrite [fun _ value => ((), value + 1)] = .ok [some ()] m' ∧
      m'.table.peek 0 = some ⟨0x80000004, 2, 21⟩ ∧
      s.cursor.take 2 = .ok [some 5, none] d ∧ d.bounds = (0, 0) := by
  have hmap : Trace MapAct.run (.withCapacity 0 fun _ => 4 : Map Nat Nat) _ _ :=
    ((Trace.start.step (.keyed (.insert 1 10))).step (.keyed (.insert 2 20))).step
      (.serve (σ := Unit) (.insert ⟨none, fun _ _ _ => pure false⟩ 3 30) ())
  have hset : Trace SetAct.run (.withCapacity 0 fun _ => 4 : KeySet Nat) _ _ :=
    Trace.start.step (.keyed (.insert 5))
  obtain ⟨hmaps, hsets⟩ := walks_exact (K := Nat) (V := Nat) (n := 0) (by decide) fun _ => 4
  obtain ⟨c, hread, hpast⟩ := (hmaps _ _ hmap).reads 2
  obtain ⟨r, m', -, -, hwrite, -, hwritten⟩ :=
    (hmaps _ _ hmap).writes [fun _ value => ((), value + 1)]
  obtain ⟨d, hmembers, hend⟩ := (hsets _ _ hset).reads 2
  exact ⟨_, c, m', _, d, hread, hpast.bounds, hpast.inner, hpast.rest, hwrite,
    hwritten.rewrites.passed 0 _ _ _ (by rfl) (by rfl), hmembers, hend.bounds⟩

end LinearProbing
