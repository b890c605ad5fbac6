import LinearProbing.Key.Record
import LinearProbing.Proofs.Calls
import LinearProbing.Proofs.StoreCalls

set_option autoImplicit false

/-!
# Maps and sets refine associations

Whatever calls are made on a map or a set, it answers what an association with the same calls answers.
The hash of a key may be any function of the key that equal keys share, however badly it spreads.
-/

namespace LinearProbing

variable {ι χ χ' K V U C α β : Type}

/-- A call about the keys with a content, under the hash of the content, or a clearing. -/
inductive ContentCall (C K V U : Type) where
  | request (c : Request Unit C K V U)
  | clear

def ContentCall.onMap : ContentCall C K Unit Empty → ContentCall C K Unit (Unit → Unit)
  | .request c => .request c.onMap
  | .clear => .clear

namespace Association

section Contents

variable [BEq C] (k : Keying K C)

def extend (pairs : List (K × V)) (d : Association K V) : Association K V :=
  pairs.foldl (fun d p => (insert k p.1 p.2 d).2) d

/-- What an association answers to a call about a content, and what becomes of it. -/
def replyContent (c : ContentCall C K V (V → V)) (d : Association K V) :
    Reply K V × Association K V :=
  match c with
  | .request (.insert _ key value) => (.flag (insert k key value d).1, (insert k key value d).2)
  | .request (.find content) => (.entry (find k content d), d)
  | .request (.update content f) =>
    let r := update k content (fun value => (value, f value)) d
    (.value r.1, r.2)
  | .request (.remove content) => (.entry (remove k content d).1, (remove k content d).2)
  | .clear => (.done, [])

def replyContentSet (c : ContentCall C K Unit Empty) (d : Association K Unit) :
    Reply K Unit × Association K Unit :=
  (KeySet.member (replyContent k c.onMap d).1, (replyContent k c.onMap d).2)

end Contents

variable [BEq K] (k : Keying K K)

/-- What an association answers to a call on a map, and what becomes of it. -/
def reply (c : MapCall K V) (d : Association K V) : Reply K V × Association K V :=
  match c with
  | .insert key value => (.flag (insert k key value d).1, (insert k key value d).2)
  | .extend pairs => (.done, extend k pairs d)
  | .find key => (.value ((find k key d).map Prod.snd), d)
  | .findEntry key => (.entry (find k key d), d)
  | .update key f =>
    let r := update k key (fun value => (value, f value)) d
    (.value r.1, r.2)
  | .contains key => (.flag (find k key d).isSome, d)
  | .remove key => (.flag (find k key d).isSome, (remove k key d).2)
  | .removeEntry key => (.entry (find k key d), (remove k key d).2)
  | .clear => (.done, [])

def replySet (c : SetCall K) (d : Association K Unit) : Reply K Unit × Association K Unit :=
  match c with
  | .insert key => (.flag (insert k key () d).1, (insert k key () d).2)
  | .extend keys => (.done, extend k (keys.map fun key => (key, ())) d)
  | .find key => (.key ((find k key d).map Prod.fst), d)
  | .contains key => (.flag (find k key d).isSome, d)
  | .remove key => (.flag (find k key d).isSome, (remove k key d).2)
  | .take key => (.key ((find k key d).map Prod.fst), (remove k key d).2)
  | .clear => (.done, [])

theorem replySet_eq (c : SetCall K) (d : Association K Unit) :
    replySet k c d = (KeySet.member (reply k c.onMap d).1, (reply k c.onMap d).2) := by
  cases c <;> rfl

end Association

namespace Keying

variable [BEq C] (k : Keying K C)

/-- The request under the hash of its content, whose predicate accepts the keys with the content. -/
def guarded : Request Unit C K V U → Guarded Bool K V U
  | .insert _ key value =>
    .insert ⟨some (k.hash (k.content key)), fun stored new => k.same (k.content new) stored⟩ key value
  | .find content => .find (.under (k.hash content) (k.same content))
  | .update content change => .update (.under (k.hash content) (k.same content)) change
  | .remove content => .remove (.under (k.hash content) (k.same content))

theorem onMap_guarded (c : Request Unit C K Unit Empty) :
    (k.guarded c).onMap = k.guarded c.onMap := by
  rcases c with _ | _ | ⟨_, ⟨⟩⟩ | _ <;> rfl

end Keying

def Map.replyContent [BEq C] (k : Keying K C) (c : ContentCall C K V (V → V)) (s : Map K V) :
    Outcome (Map K V) (Reply K V) :=
  match c with
  | .request c => s.answer (k.guarded c)
  | .clear => s.clear.map fun _ => .done

def KeySet.replyContent [BEq C] (k : Keying K C) (c : ContentCall C K Unit Empty) (s : KeySet K) :
    Outcome (KeySet K) (Reply K Unit) :=
  match c with
  | .request c => s.answer (k.guarded c)
  | .clear => s.clear.map fun _ => .done

theorem KeySet.replyContent_eq [BEq C] (k : Keying K C) (c : ContentCall C K Unit Empty)
    (s : KeySet K) :
    s.replyContent k c = ((s.map.replyContent k c.onMap).map member).within mk := by
  cases c with
  | request c =>
    rw [replyContent, answer_eq, k.onMap_guarded]
    rfl
  | clear =>
    rw [replyContent, clear, ContentCall.onMap, Map.replyContent]
    rcases s.map.clear with ⟨fault | _, s', events⟩ <;> rfl

/-- What becomes of an empty association in a run. -/
def after (spec : ι → Association K V → α × Association K V) (past : List (ι × Outcome χ α)) :
    Association K V :=
  past.foldl (fun d x => (spec x.1 d).2) []

/-- After any calls a container counts what the association counts, and it answers the next call as the
association does, as long as the capacity stays below the limit of the load test. -/
def Refines (call : ι → χ → Outcome χ α) (spec : ι → Association K V → α × Association K V)
    (capacity len : χ → Nat) (start : χ) : Prop :=
  ∀ past c, Trace call start past c → (∀ x ∈ past, capacity x.2.state < Capacity.loadLimit) →
    len c = (after spec past).length ∧
      ∀ i, capacity (call i c).state < Capacity.loadLimit →
        (call i c).result = .ok (spec i (after spec past)).1

/-- An operation on the container of a store answers `x.1` and leaves a store that represents `x.2`. -/
def Agrees [BEq C] (k : Keying K C) (wrap : Store K V → χ) (o : Outcome χ α)
    (x : α × Association K V) : Prop :=
  ∃ s events, o = ⟨.ok x.1, wrap s, events⟩ ∧ s.Represents k x.2

namespace Agrees

variable [BEq C] {k : Keying K C} {wrap : Store K V → χ} {o : Outcome χ α} {x : α × Association K V}

theorem map (h : Agrees k wrap o x) (f : α → β) : Agrees k wrap (o.map f) (f x.1, x.2) := by
  obtain ⟨s, events, rfl, hrep⟩ := h
  exact ⟨s, events, rfl, hrep⟩

theorem within (h : Agrees k wrap o x) (outer : χ → χ') :
    Agrees k (fun s => outer (wrap s)) (o.within outer) x := by
  obtain ⟨s, events, rfl, hrep⟩ := h
  exact ⟨s, events, rfl, hrep⟩

theorem bind (h : Agrees k wrap o x) {next : α → χ → Outcome χ β} {y : β × Association K V}
    (hnext : ∀ s : Store K V, o.state = wrap s → s.Represents k x.2 → Agrees k wrap (next x.1 (wrap s)) y) :
    Agrees k wrap (o.bind next) y := by
  obtain ⟨s, events, rfl, hrep⟩ := h
  obtain ⟨s', events', hrun, hrep'⟩ := hnext s rfl hrep
  refine ⟨s', events ++ events', ?_, hrep'⟩
  rw [Outcome.bind_of_ok rfl, hrun]

end Agrees

/-- It is enough that one call answers and leaves the store as the association says. -/
theorem refines_of_agrees [BEq C] {k : Keying K C} {call : ι → χ → Outcome χ α}
    {spec : ι → Association K V → α × Association K V} {capacity len : χ → Nat}
    (wrap : Store K V → χ) (hlen : ∀ s, len (wrap s) = s.len)
    (hstep : ∀ i (s : Store K V) d, s.Represents k d →
      capacity (call i (wrap s)).state < Capacity.loadLimit →
      Agrees k wrap (call i (wrap s)) (spec i d)) (n : Nat) :
    Refines call spec capacity len (wrap (.withCapacity n)) := by
  have htrace : ∀ past c, Trace call (wrap (.withCapacity n)) past c →
      (∀ x ∈ past, capacity x.2.state < Capacity.loadLimit) →
        ∃ s, c = wrap s ∧ s.Represents k (after spec past) := by
    intro past c h
    induction h with
    | start => exact fun _ => ⟨_, rfl, Store.represents_withCapacity n k⟩
    | @step past c i _ ih =>
      intro hbelow
      obtain ⟨s, rfl, hrep⟩ := ih fun x hx => hbelow x (List.mem_append_left _ hx)
      have hcap := hbelow _ (List.mem_append_right past (List.mem_singleton_self (i, call i (wrap s))))
      obtain ⟨s', events, hrun, hrep'⟩ := hstep i s _ hrep hcap
      rw [after, List.foldl_append, hrun]
      exact ⟨s', rfl, hrep'⟩
  intro past c h hbelow
  obtain ⟨s, rfl, hrep⟩ := htrace past c h hbelow
  refine ⟨(hlen s).trans hrep.len_eq, fun i hcap => ?_⟩
  obtain ⟨s', events, hrun, -⟩ := hstep i s _ hrep hcap
  rw [hrun]

namespace Store.Represents

variable [BEq C] {k : Keying K C} {s : Store K V} {d : Association K V}

theorem clear_agrees (h : s.Represents k d) : Agrees k id s.clear ((), []) := by
  obtain ⟨s', hrun, hrep, -⟩ := h.clear
  exact ⟨s', [], hrun, hrep⟩

variable [EquivBEq C]

theorem insert_agrees (h : s.Represents k d) (key : K) (value : V)
    (eq : Store K V → K → K → ExceptT Fault Id Bool)
    (hask : ∀ stored, eq s.enter stored key = pure (k.same (k.content key) stored))
    (hcap : s.capacity < Capacity.loadLimit) :
    Agrees k id (Id.run (s.insertWithHash (k.hash (k.content key)) key value eq))
      (Association.insert k key value d) := by
  obtain ⟨s', events, hrun, hrep, -⟩ := h.insertWithHash value eq (fun p _ => hask p.1) hcap
  exact ⟨s', events, hrun, hrep⟩

variable {accept : Store K V → K → ExceptT Fault Id Bool}

theorem find_agrees (h : s.Represents k d) (content : C)
    (hask : ∀ stored, accept s.enter stored = pure (k.same content stored)) :
    Agrees k id (Id.run (s.findWithHash (k.hash content) accept)) (Association.find k content d, d) :=
  ⟨s, [], h.findWithHash content accept fun p _ => hask p.1, h⟩

theorem update_agrees (h : s.Represents k d) (content : C) (f : V → α × V)
    (hask : ∀ stored, accept s.enter stored = pure (k.same content stored)) :
    Agrees k id (Id.run (s.updateWithHash (k.hash content) accept f))
      (Association.update k content f d) := by
  obtain ⟨s', hrun, hrep, -⟩ := h.updateWithHash content accept (fun p _ => hask p.1) f
  exact ⟨s', [], hrun, hrep⟩

theorem remove_agrees (h : s.Represents k d) (content : C)
    (hask : ∀ stored, accept s.enter stored = pure (k.same content stored)) :
    Agrees k id (Id.run (s.removeWithHash (k.hash content) accept))
      (Association.remove k content d) := by
  obtain ⟨s', hrun, hrep, -⟩ := h.removeWithHash content accept fun p _ => hask p.1
  exact ⟨s', [], hrun, hrep⟩

end Store.Represents

namespace Map

theorem replyContent_agrees [BEq C] [EquivBEq C] {k : Keying K C} {s : Store K V}
    {d : Association K V} (h : s.Represents k d) (hashOf : K → UInt64) (c : ContentCall C K V (V → V))
    (hcap : ((Map.mk s hashOf).replyContent k c).state.capacity < Capacity.loadLimit) :
    Agrees k (Map.mk · hashOf) ((Map.mk s hashOf).replyContent k c) (Association.replyContent k c d) := by
  rcases c with (⟨_, key, value⟩ | content | ⟨content, f⟩ | content) | _
  · let eq : Store K V → K → K → ExceptT Fault Id Bool := fun _ stored new =>
      pure (k.same (k.content new) stored)
    have hbefore := Nat.lt_of_le_of_lt (s.le_capacity_insertWithHash _ key value eq) hcap
    have hinsert := h.insert_agrees key value eq (fun _ => rfl) hbefore
    exact (hinsert.map Reply.flag).within (Map.mk · hashOf)
  · exact ((h.find_agrees content fun _ => rfl).map Reply.entry).within (Map.mk · hashOf)
  · exact ((h.update_agrees content (fun value => (value, f value)) fun _ => rfl).map
      Reply.value).within (Map.mk · hashOf)
  · exact ((h.remove_agrees content fun _ => rfl).map Reply.entry).within (Map.mk · hashOf)
  · exact (h.clear_agrees.within (Map.mk · hashOf)).map fun _ => Reply.done

variable [BEq K]

/-- The keys of a map are their own contents. -/
def keying (hashOf : K → UInt64)
    (hhash : ∀ key key' : K, (key == key') = true → hashOf key = hashOf key') : Keying K K :=
  ⟨id, bucketHash hashOf, fun h => by rw [bucketHash, bucketHash, hhash _ _ h]⟩

theorem le_capacity_insert (m : Map K V) (key : K) (value : V) :
    m.capacity ≤ (m.insert key value).state.capacity :=
  m.toStore.le_capacity_insertWithHash (bucketHash m.hashOf key) key value sameKey

theorem le_capacity_extend (m : Map K V) (pairs : List (K × V)) (p : K × V) :
    (m.extend pairs).state.capacity ≤ (m.extend (pairs ++ [p])).state.capacity := by
  rw [extend_append_singleton]
  apply Outcome.state_bind (P := fun m' : Map K V =>
    (m.extend pairs).state.capacity ≤ m'.capacity) (Nat.le_refl _)
  intro _ m' hm
  exact hm.trans (m'.le_capacity_insert p.1 p.2)

variable [EquivBEq K] {hashOf : K → UInt64}
  {hhash : ∀ key key' : K, (key == key') = true → hashOf key = hashOf key'}
  {s : Store K V} {d : Association K V}

theorem insert_agrees (h : s.Represents (keying hashOf hhash) d) (key : K) (value : V)
    (hcap : s.capacity < Capacity.loadLimit) :
    Agrees (keying hashOf hhash) (Map.mk · hashOf) ((Map.mk s hashOf).insert key value)
      (Association.insert (keying hashOf hhash) key value d) :=
  (h.insert_agrees key value sameKey (fun _ => rfl) hcap).within (Map.mk · hashOf)

theorem extend_agrees (h : s.Represents (keying hashOf hhash) d) (pairs : List (K × V))
    (hcap : ((Map.mk s hashOf).extend pairs).state.capacity < Capacity.loadLimit) :
    Agrees (keying hashOf hhash) (Map.mk · hashOf) ((Map.mk s hashOf).extend pairs)
      ((), Association.extend (keying hashOf hhash) pairs d) := by
  induction pairs using List.reverseRecOn with
  | nil => exact ⟨s, [], rfl, h⟩
  | append_singleton pairs p ih =>
    have hgrow := Nat.lt_of_le_of_lt (le_capacity_extend ⟨s, hashOf⟩ pairs p) hcap
    rw [extend_append_singleton, Association.extend, List.foldl_append]
    refine (ih hgrow).bind fun s' hstate hrep => ?_
    rw [hstate] at hgrow
    exact (insert_agrees hrep p.1 p.2 hgrow).map fun _ => ()

theorem reply_agrees (h : s.Represents (keying hashOf hhash) d) (c : MapCall K V)
    (hcap : ((Map.mk s hashOf).reply c).state.capacity < Capacity.loadLimit) :
    Agrees (keying hashOf hhash) (Map.mk · hashOf) ((Map.mk s hashOf).reply c)
      (Association.reply (keying hashOf hhash) c d) := by
  have hfind : ∀ key, Agrees (keying hashOf hhash) (Map.mk · hashOf) ((Map.mk s hashOf).findEntry key)
      (Association.find (keying hashOf hhash) key d, d) := fun key =>
    (h.find_agrees key fun _ => rfl).within (Map.mk · hashOf)
  have hremove : ∀ key, Agrees (keying hashOf hhash) (Map.mk · hashOf)
      ((Map.mk s hashOf).removeEntry key) (Association.remove (keying hashOf hhash) key d) := fun key =>
    (h.remove_agrees key fun _ => rfl).within (Map.mk · hashOf)
  cases c with
  | insert key value =>
    have hbefore := Nat.lt_of_le_of_lt (le_capacity_insert ⟨s, hashOf⟩ key value) hcap
    exact (insert_agrees h key value hbefore).map Reply.flag
  | extend pairs => exact (extend_agrees h pairs hcap).map fun _ => Reply.done
  | find key => exact ((hfind key).map (·.map Prod.snd)).map Reply.value
  | findEntry key => exact (hfind key).map Reply.entry
  | update key f =>
    exact ((h.update_agrees key (fun value => (value, f value)) fun _ => rfl).within
      (Map.mk · hashOf)).map Reply.value
  | contains key => exact ((hfind key).map Option.isSome).map Reply.flag
  | remove key => exact ((hremove key).map Option.isSome).map Reply.flag
  | removeEntry key => exact (hremove key).map Reply.entry
  | clear => exact (h.clear_agrees.within (Map.mk · hashOf)).map fun _ => Reply.done

end Map

namespace KeySet

theorem reply_agrees [BEq K] [EquivBEq K] {hashOf : K → UInt64}
    {hhash : ∀ key key' : K, (key == key') = true → hashOf key = hashOf key'} {s : Store K Unit}
    {d : Association K Unit} (h : s.Represents (Map.keying hashOf hhash) d) (c : SetCall K)
    (hcap : ((KeySet.mk ⟨s, hashOf⟩).reply c).state.capacity < Capacity.loadLimit) :
    Agrees (Map.keying hashOf hhash) (fun s => KeySet.mk ⟨s, hashOf⟩)
      ((KeySet.mk ⟨s, hashOf⟩).reply c) (Association.replySet (Map.keying hashOf hhash) c d) := by
  rw [reply_eq] at hcap ⊢
  rw [Association.replySet_eq]
  exact ((Map.reply_agrees h c.onMap hcap).map member).within mk

theorem replyContent_agrees [BEq C] [EquivBEq C] {k : Keying K C} {s : Store K Unit}
    {d : Association K Unit} (h : s.Represents k d) (hashOf : K → UInt64)
    (c : ContentCall C K Unit Empty)
    (hcap : ((KeySet.mk ⟨s, hashOf⟩).replyContent k c).state.capacity < Capacity.loadLimit) :
    Agrees k (fun s => KeySet.mk ⟨s, hashOf⟩) ((KeySet.mk ⟨s, hashOf⟩).replyContent k c)
      (Association.replyContentSet k c d) := by
  rw [replyContent_eq] at hcap ⊢
  exact ((Map.replyContent_agrees h hashOf c.onMap hcap).map member).within mk

end KeySet

/-- Maps and sets answer as associations do: those whose keys are compared by an equality, under any hash
that respects it, and those whose calls come with the hash and the comparison of one content of the keys.
A container made from a list is an empty one that takes in the list. -/
theorem containers_refine_associations [BEq K] [EquivBEq K] (hashOf : K → UInt64)
    (hhash : ∀ key key' : K, (key == key') = true → hashOf key = hashOf key') (n : Nat) :
    Refines Map.reply (Association.reply (Map.keying hashOf hhash)) (fun m => m.capacity)
        (fun m => m.len) (Map.withCapacity n hashOf : Map K V) ∧
      Refines KeySet.reply (Association.replySet (Map.keying hashOf hhash)) KeySet.capacity KeySet.len
        (KeySet.withCapacity n hashOf) ∧
      (∀ pairs : List (K × V),
        Map.ofList hashOf pairs = (Map.withCapacity Capacity.standard hashOf).extend pairs) ∧
      (∀ keys : List K,
        KeySet.ofList hashOf keys = (KeySet.withCapacity Capacity.standard hashOf).extend keys) ∧
      ∀ (H C : Type) [BEq C] [EquivBEq C] (k : Keying H C) (unused : H → UInt64),
        Refines (Map.replyContent k) (Association.replyContent k) (fun m => m.capacity)
            (fun m => m.len) (Map.withCapacity n unused : Map H V) ∧
          Refines (KeySet.replyContent k) (Association.replyContentSet k) KeySet.capacity KeySet.len
            (KeySet.withCapacity n unused) := by
  refine ⟨?_, ?_, fun _ => rfl, fun _ => rfl, fun H C _ _ k unused => ⟨?_, ?_⟩⟩
  · exact refines_of_agrees (Map.mk · hashOf) (fun _ => rfl)
      (fun c s d h hcap => Map.reply_agrees h c hcap) n
  · exact refines_of_agrees (fun s => KeySet.mk ⟨s, hashOf⟩) (fun _ => rfl)
      (fun c s d h hcap => KeySet.reply_agrees h c hcap) n
  · exact refines_of_agrees (Map.mk · unused) (fun _ => rfl)
      (fun c s d h hcap => Map.replyContent_agrees h unused c hcap) n
  · exact refines_of_agrees (fun s => KeySet.mk ⟨s, unused⟩) (fun _ => rfl)
      (fun c s d h hcap => KeySet.replyContent_agrees h unused c hcap) n

instance equivBEqRecord : EquivBEq Record where
  rfl := by simp [BEq.beq]
  symm := by
    intro a b h
    simp only [BEq.beq, decide_eq_true_eq] at h ⊢
    exact h.symm
  trans := by
    intro a b c h h'
    simp only [BEq.beq, decide_eq_true_eq] at h h' ⊢
    exact h.trans h'

/-- The first copy of a record stays, with its value, when a second one comes. -/
theorem containers_refine_associations_copies :
    ∃ m : Map Record Nat, m.len = 1 ∧
      (m.reply (.findEntry ⟨1, 3⟩)).result = .ok (.entry (some (⟨1, 1⟩, 10))) := by
  have hhash : ∀ a b : Record, (a == b) = true → a.id.toUInt64 = b.id.toUInt64 := by
    intro a b h
    rw [show a.id = b.id by simpa [BEq.beq] using h]
  have hrefines := (containers_refine_associations (V := Nat) (fun r : Record => r.id.toUInt64)
    hhash 0).1
  have hstart : Trace Map.reply (Map.withCapacity 0 fun r : Record => r.id.toUInt64 : Map Record Nat)
      _ _ := .start
  have htwo := (hstart.step (.insert ⟨1, 1⟩ 10)).step (.insert ⟨1, 2⟩ 20)
  obtain ⟨hlen, hnext⟩ := hrefines _ _ htwo (by decide)
  exact ⟨_, hlen, hnext (.findEntry ⟨1, 3⟩) (by decide)⟩

end LinearProbing
