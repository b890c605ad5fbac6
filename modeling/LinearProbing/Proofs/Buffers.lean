import LinearProbing.Proofs.Lifetime

set_option autoImplicit false

/-!
# Three ways to pool the same elements

A buffer is pooled in place, a list after sorting a copy of it, and a canonical list as it stands. All
three answer the same handle and leave the same sets behind. The buffer keeps its elements, with one of
each value in front, in ascending order.
-/

namespace LinearProbing

namespace Canonical

open Std

variable {α : Type} [BEq α]

/-- How many values a list has: each element is counted where its value comes for the last time. -/
def countDistinct : List α → Nat
  | [] => 0
  | x :: rest => if rest.contains x then countDistinct rest else countDistinct rest + 1

section Order

variable [Ord α]

variable [LawfulBEqOrd α] [TransOrd α]

theorem contains_without {before after : List α} {y : α} (h : Ascending (before ++ y :: after)) (z : α) :
    (before ++ after).contains z = ((before ++ y :: after).contains z && !(z == y)) := by
  obtain ⟨-, hafter, hbefore⟩ := List.pairwise_append.1 h
  rw [List.contains_append, List.contains_append, List.contains_cons]
  cases hzy : z == y with
  | false => rw [Bool.false_or, Bool.not_false, Bool.and_true]
  | true =>
    have hnotBefore : before.contains z = false := by
      rw [List.contains_eq_any_beq, List.any_eq_false]
      intro w hw hzw
      have hwy : (w == y) = true := BEq.trans (BEq.symm hzw) hzy
      rw [beq_iff, hbefore w hw y List.mem_cons_self] at hwy
      cases hwy
    have hnotAfter : after.contains z = false := by
      rw [List.contains_congr hzy]
      exact not_contains_of_lt (ascending_cons.1 hafter).1
    rw [hnotBefore, hnotAfter]
    rfl

theorem length_eq_countDistinct {l m : List α} (hl : Ascending l) (hsame : SameElements l m) :
    l.length = countDistinct m := by
  induction m generalizing l with
  | nil =>
    cases l with
    | nil => rfl
    | cons y l =>
      have hy := hsame y
      simp at hy
  | cons x rest ih =>
    rw [countDistinct]
    split
    · rename_i hmem
      refine ih hl (hsame.trans fun z => ?_)
      rw [List.contains_cons]
      cases hzx : z == x with
      | true => rw [List.contains_congr hzx, hmem, Bool.true_or]
      | false => rw [Bool.false_or]
    · rename_i hnot
      -- without the element that is equal to `x` the list has the values of the rest
      have hx : l.contains x = true := by rw [hsame x, List.contains_cons, BEq.rfl, Bool.true_or]
      obtain ⟨y, hy, hxy⟩ := List.contains_iff_exists_mem_beq.1 hx
      obtain ⟨before, after, rfl⟩ := List.append_of_mem hy
      have hrest : SameElements (before ++ after) rest := by
        intro z
        rw [contains_without hl, hsame z, List.contains_cons, ← BEq.congr_right hxy]
        cases hzx : z == x with
        | true =>
          rw [List.contains_congr hzx, Bool.eq_false_iff.2 hnot]
          rfl
        | false => rw [Bool.false_or, Bool.not_false, Bool.and_true]
      have hascending : Ascending (before ++ after) :=
        hl.sublist ((List.sublist_cons_self y after).append_left before)
      rw [← ih hascending hrest, List.length_append, List.length_append, List.length_cons]
      rfl

end Order

end Canonical

open Canonical

/-- An arena that gives a value its handle without looking at the value. -/
class BlindSlots (A : Type) {H α : Type} [Slots A H α] : Prop extends LawfulSlots A where
  add_handle : ∀ {a b b' : A} {value value' : α} {h h' : H},
    Slots.add a value = some (h, b) → Slots.add a value' = some (h', b') → h' = h

namespace Arena

instance blindSlots {α : Type} : BlindSlots (Arena α) where
  add_handle h h' := by
    obtain ⟨-, rfl, -⟩ := slots_add_eq_some_iff.1 h
    obtain ⟨-, rfl, -⟩ := slots_add_eq_some_iff.1 h'
    rfl

end Arena

namespace SlotPool

variable {A H α : Type} [Slots A H (PooledSet α)] {elems elems' : List α}

theorem get?_add_cases [LawfulSlots A] {arena b b' : A} {new : H}
    (hadd : Slots.add arena (PooledSet.mk elems.toArray) = some (new, b))
    (hadd' : Slots.add arena (PooledSet.mk elems'.toArray) = some (new, b')) (h : H) :
    (h = new ∧ Slots.get? b h = some ⟨elems.toArray⟩ ∧ Slots.get? b' h = some ⟨elems'.toArray⟩) ∨
      Slots.get? b h = Slots.get? b' h := by
  by_cases hnew : h = new
  · rw [hnew]
    exact .inl ⟨rfl, LawfulSlots.get?_add_self hadd, LawfulSlots.get?_add_self hadd'⟩
  · right
    rw [LawfulSlots.get?_add_of_ne hadd hnew, LawfulSlots.get?_add_of_ne hadd' hnew]

variable [BEq α]

/-- Two outcomes of pooling with the same answer and the same sets, of which one may hold other copies
of equal elements. -/
structure Alike (o o' : Outcome (SlotPool A H α) H) : Prop where
  result : o.result = o'.result
  events : o.events = o'.events
  index : o.state.index = o'.state.index
  len : o.state.len = o'.state.len
  elems : ∀ h, (o.state.elems? h == o'.state.elems? h) = true

theorem Alike.of_arenas {result : Except Fault H} {contentHash : List α → UInt64}
    {index : Store H Unit} {b b' : A} {events : List Event} (hlen : Slots.len b = Slots.len b')
    (helems : ∀ h, ((Slots.get? b h).map PooledSet.toList ==
      (Slots.get? b' h).map PooledSet.toList) = true) :
    Alike ⟨result, ⟨contentHash, index, b⟩, events⟩ ⟨result, ⟨contentHash, index, b'⟩, events⟩ :=
  ⟨rfl, rfl, rfl, hlen, helems⟩

section Copies

variable [EquivBEq α] {p : SlotPool A H α}

theorem Alike.refl (o : Outcome (SlotPool A H α) H) : Alike o o :=
  ⟨rfl, rfl, rfl, rfl, fun _ => BEq.rfl⟩

theorem lookup_congr (heq : (elems == elems') = true) (hash : UInt32) :
    p.lookup hash elems = p.lookup hash elems' := by
  have hask : ∀ l : List α, (l == elems) = (l == elems') := fun l => BEq.congr_right heq
  rcases p with ⟨contentHash, index, arena⟩
  simp only [lookup, hask]

section Adding

variable [LawfulSlots A] {arena b b' : A} {new : H} (heq : (elems == elems') = true)
  (hadd : Slots.add arena (PooledSet.mk elems.toArray) = some (new, b))
  (hadd' : Slots.add arena (PooledSet.mk elems'.toArray) = some (new, b'))

include heq hadd hadd'

theorem elems_add_congr (h : H) :
    ((Slots.get? b h).map PooledSet.toList == (Slots.get? b' h).map PooledSet.toList) = true := by
  rcases get?_add_cases hadd hadd' h with ⟨-, hget, hget'⟩ | hget
  · rw [hget, hget']
    exact heq
  · rw [hget]
    exact BEq.rfl

theorem sameContent_congr (busy : Store H Unit) (stored : H) :
    sameContent b busy stored new = sameContent b' busy stored new := by
  have hnew := LawfulSlots.get?_add_self hadd
  have hnew' := LawfulSlots.get?_add_self hadd'
  rcases get?_add_cases hadd hadd' stored with ⟨-, hget, hget'⟩ | hget
  · rw [sameContent_eq busy hget hnew, sameContent_eq busy hget' hnew', BEq.rfl, BEq.rfl]
  · have hold : contentOf b stored = contentOf b' stored := by rw [contentOf, contentOf, hget]
    have hask : ∀ l : List α, (l == elems) = (l == elems') := fun l => BEq.congr_right heq
    rw [sameContent, sameContent, hold, contentOf_eq hnew, contentOf_eq hnew']
    cases contentOf b' stored with
    | error fault => rfl
    | ok l => exact congrArg (fun answer => (pure answer : ExceptT Fault Id Bool)) (hask l)

end Adding

variable [BlindSlots A]

theorem store_congr (heq : (elems == elems') = true) (hash : UInt32) :
    Alike (p.store hash elems) (p.store hash elems') := by
  rcases p with ⟨contentHash, index, arena⟩
  cases hadd : Slots.add arena (PooledSet.mk elems.toArray) with
  | none =>
    have hadd' : Slots.add arena (PooledSet.mk elems'.toArray) = none :=
      LawfulSlots.add_eq_none_iff.2 (LawfulSlots.add_eq_none_iff.1 hadd)
    rw [store, store, hadd, hadd']
    exact .refl _
  | some added =>
    rcases added with ⟨new, b⟩
    cases hadd' : Slots.add arena (PooledSet.mk elems'.toArray) with
    | none =>
      rw [LawfulSlots.add_eq_none_iff.2 (LawfulSlots.add_eq_none_iff.1 hadd')] at hadd
      cases hadd
    | some added' =>
      rcases added' with ⟨new', b'⟩
      obtain rfl : new' = new := BlindSlots.add_handle hadd hadd'
      have hindex : index.insertWithHash (m := Id) hash new' () (sameContent b) =
          index.insertWithHash hash new' () (sameContent b') := by
        rw [Store.insertWithHash, Store.insertWithHash]
        simp only [sameContent_congr heq hadd hadd']
      have hlen : Slots.len b = Slots.len b' :=
        (LawfulSlots.len_add hadd).trans (LawfulSlots.len_add hadd').symm
      have helems := elems_add_congr heq hadd hadd'
      rw [store, store, hadd, hadd']
      change Alike (((Id.run (index.insertWithHash hash new' () (sameContent b))).within _).bind _)
        (((Id.run (index.insertWithHash hash new' () (sameContent b'))).within _).bind _)
      rw [hindex]
      rcases Id.run (index.insertWithHash hash new' () (sameContent b')) with ⟨result, index', events⟩
      cases result with
      | error fault => exact .of_arenas hlen helems
      | ok isNew =>
        cases isNew with
        | true => exact .of_arenas hlen helems
        | false => exact .of_arenas hlen helems

theorem insertSorted_congr [Ord α] [Std.TransOrd α]
    (hhash : ∀ xs ys : List α, (xs == ys) = true → p.contentHash xs = p.contentHash ys)
    (hascending : Ascending elems) (hascending' : Ascending elems') (heq : (elems == elems') = true) :
    Alike (p.insertSorted elems) (p.insertSorted elems') := by
  have hindexHash : p.indexHash elems = p.indexHash elems' := by
    rw [indexHash, indexHash, hhash _ _ heq]
  rw [insertSorted, insertSorted, if_pos (isCanonical_iff.2 hascending),
    if_pos (isCanonical_iff.2 hascending')]
  simp only [hindexHash, lookup_congr heq]
  rcases p.lookup (p.indexHash elems') elems' with ⟨result, q, events⟩
  cases result with
  | error fault => exact .refl _
  | ok found =>
    cases found with
    | some handle => exact .refl _
    | none =>
      have hstore : Alike (q.store _ elems) (q.store _ elems') :=
        store_congr heq (p.indexHash elems')
      exact ⟨hstore.result, congrArg (events ++ ·) hstore.events, hstore.index, hstore.len,
        hstore.elems⟩

end Copies

/-- A buffer is pooled like a list of its elements, and like any canonical list of its values, and keeps
its elements with the canonical list in front. -/
theorem pooled_three_ways [BlindSlots A] [Ord α] [Std.TransOrd α] [Std.LawfulBEqOrd α]
    (contentHash : List α → UInt64)
    (hhash : ∀ xs ys : List α, (xs == ys) = true → contentHash xs = contentHash ys)
    {p : SlotPool A H α} {log : List (H × List α)} (h : Run contentHash p log) (buffer : Array α) :
    (p.insertBuffer buffer).1 = p.insert buffer.toList ∧
    (∀ elems, SameElements elems buffer.toList →
      Alike (p.insertBuffer buffer).1 (p.insert elems) ∧
      (Ascending elems → Alike (p.insertBuffer buffer).1 (p.insertSorted elems))) ∧
    Pooling p buffer.toList (p.insertBuffer buffer).1 ∧
    (p.insertBuffer buffer).1.result ≠ .error .notCanonical ∧
    (p.len < Arena.maxLen → ∃ handle, (p.insertBuffer buffer).1.result = .ok handle) ∧
    (p.insertBuffer buffer).2.toList.Perm buffer.toList ∧
    ((p.insertBuffer buffer).2.toList.take (countDistinct buffer.toList)).length =
      countDistinct buffer.toList ∧
    Ascending ((p.insertBuffer buffer).2.toList.take (countDistinct buffer.toList)) ∧
    SameElements ((p.insertBuffer buffer).2.toList.take (countDistinct buffer.toList))
      buffer.toList := by
  obtain ⟨⟨d, hindexes⟩, -⟩ : (∃ d, p.Indexes contentHash hhash d) ∧ _ := h.indexes
  have hhash' : ∀ xs ys : List α, (xs == ys) = true → p.contentHash xs = p.contentHash ys := by
    rw [hindexes.hasher]
    exact hhash
  obtain ⟨hascending, hsame⟩ := ofList_spec buffer.toList
  obtain ⟨n, buffer', -, hn, hperm, hfront, hrun⟩ := p.insertBuffer_spec buffer
  have hbuffer : (p.insertBuffer buffer).1 = p.insert buffer.toList := congrArg Prod.fst hrun
  have hsorted : ∀ elems, SameElements elems buffer.toList → Ascending elems →
      Alike (p.insertBuffer buffer).1 (p.insertSorted elems) := by
    intro elems helems hascending'
    rw [hbuffer]
    exact insertSorted_congr hhash' hascending hascending'
      (beq_of_sameElements hascending hascending' (hsame.trans helems.symm))
  have hpooling : Pooling p buffer.toList (p.insertBuffer buffer).1 :=
    (hindexes.call (c := .insertBuffer buffer) rfl).1
  refine ⟨hbuffer, fun elems helems => ⟨?_, hsorted elems helems⟩, hpooling, ?_,
    hpooling.exists_answer, by rwa [hrun], ?_⟩
  · obtain ⟨hascending', hsame'⟩ := ofList_spec elems
    exact hsorted _ (hsame'.trans helems) hascending'
  · intro hfault
    rw [hpooling.eq_fail hfault] at hfault
    cases hfault
  · have hcount : n = countDistinct buffer.toList := by
      rw [← length_eq_countDistinct hascending hsame, ← hfront, List.length_take,
        Array.length_toList, Nat.min_eq_left hn]
    rw [hrun, ← hcount, hfront]
    exact ⟨(length_eq_countDistinct hascending hsame).trans hcount.symm, hascending, hsame⟩

/-- A buffer with two copies of a record, and a canonical list of other copies, are pooled under one
handle, and two records are left in front of the buffer. -/
theorem pooled_three_ways_copies :
    ∃ p : SetPool Record, p.len = 1 ∧
      (p.insertBuffer #[⟨2, 20⟩, ⟨1, 10⟩, ⟨2, 21⟩]).1 = p.insert [⟨2, 20⟩, ⟨1, 10⟩, ⟨2, 21⟩] ∧
      (p.insertSorted [⟨1, 0⟩, ⟨2, 0⟩]).result = .ok ⟨1⟩ ∧
      (p.insertBuffer #[⟨2, 20⟩, ⟨1, 10⟩, ⟨2, 21⟩]).1.result = .ok ⟨1⟩ ∧
      Ascending ((p.insertBuffer #[⟨2, 20⟩, ⟨1, 10⟩, ⟨2, 21⟩]).2.toList.take 2) := by
  have hstart : Run (fun _ => 0) (empty fun _ => 0 : SetPool Record) [] := .start
  have hrun := hstart.call (.insertSorted [⟨1, 10⟩])
  obtain ⟨hbuffer, hsorted, -, -, -, -, -, hascending, -⟩ :=
    pooled_three_ways (fun _ => 0) (fun _ _ _ => rfl) hrun #[⟨2, 20⟩, ⟨1, 10⟩, ⟨2, 21⟩]
  have hsame : SameElements [⟨1, 0⟩, ⟨2, 0⟩] [⟨2, 20⟩, ⟨1, 10⟩, (⟨2, 21⟩ : Record)] := by
    intro x
    simp only [List.contains_cons, List.contains_nil]
    change (x.id == 1 || (x.id == 2 || false)) = (x.id == 2 || (x.id == 1 || (x.id == 2 || false)))
    cases x.id == 1 <;> cases x.id == 2 <;> rfl
  have hlist : Ascending [⟨1, 0⟩, (⟨2, 0⟩ : Record)] := isCanonical_iff.1 rfl
  have halike := (hsorted _ hsame).2 hlist
  exact ⟨_, rfl, hbuffer, rfl, halike.result.trans rfl, hascending⟩

end SlotPool

end LinearProbing
