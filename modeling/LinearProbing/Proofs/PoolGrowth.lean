import LinearProbing.Proofs.Interning
import LinearProbing.Proofs.Lifetime
import LinearProbing.Proofs.Steps

set_option autoImplicit false

/-!
# Growth of the index of a pool

The index of a pool has one entry for each string or each live set, and what is looked up leaves it
alone. So its capacity follows the largest number of them, as that of any store.
-/

namespace LinearProbing

open Capacity

universe u

variable {K V α χ : Type}

theorem Climbs.settled {store : χ → Store K V} {c : χ} {o : Outcome χ Bool} {inserts : Nat}
    (h : Climbs store c o inserts) (a : α) (fault : Fault) :
    Climbs store c (o.bind fun isNew c => if isNew then .ok a c else .fail fault c) inserts := by
  rcases o with ⟨unanswered | isNew, c', events⟩
  · exact h
  · cases isNew with
    | true => simpa [Outcome.bind, Climbs] using h
    | false => simpa [Outcome.bind, Climbs] using h

inductive StringPoolAct where
  | intern (s : String)
  | get (s : String)

namespace StringPoolAct

def run (a : StringPoolAct) (p : StringPool) : Outcome StringPool (Option Symbol) :=
  match a with
  | .intern s => (p.intern s).map some
  | .get s => p.get s

def inserts : StringPoolAct → Nat
  | .intern _ => 1
  | .get _ => 0

def string? : StringPoolAct → Option String
  | .intern s => some s
  | .get _ => none

end StringPoolAct

/-- The strings that were to be interned, each one once and in the order of first appearance. -/
def interned (past : List (StringPoolAct × Outcome StringPool (Option Symbol))) : List String :=
  (past.filterMap fun x => x.1.string?).eraseDups

namespace StringPool

variable {p : StringPool} {known : List String} {s : String}

theorem Aligned.index_len (h : p.Aligned known) : p.index.len = p.len := by
  rw [h.represents.len_eq, len, h.size_strings]
  simp [symbols]

theorem Aligned.climbs_store (h : p.Aligned known) (hnew : s ∉ known) :
    Climbs index p (p.store (Fnv.addString Fnv.seed s) s) 1 := by
  have hsteady := h.represents.steady
  have hcap : p.index.capacity < loadLimit := Nat.lt_of_le_of_lt h.roomy (by decide)
  have hsize := h.size_strings
  obtain ⟨-, hrep, -, hask⟩ := h.represents_push hnew
  have hinsert : Climbs id p.index (Id.run (p.index.insertWithHash (Fnv.addString Fnv.seed s)
      (symbolAt known.length) () (sameString (p.strings.push s)))) 1 := by
    rw [Store.insertWithHash, show Fnv.addString Fnv.seed s = (keying (p.strings.push s)).hash s from rfl,
      hrep.probing_eq hask]
    exact hsteady.climbs_settle hcap _ _ _ ()
  rcases p with ⟨index, strings⟩
  change strings.size = known.length at hsize
  rw [StringPool.store]
  split
  · rw [hsize]
    refine Climbs.settled ?_ _ _
    exact hinsert
  · exact .same hsteady _ 1

theorem Aligned.run (h : p.Aligned known) (a : StringPoolAct) :
    ∃ known', (a.run p).state.Aligned known' := by
  cases a with
  | get s =>
    rw [StringPoolAct.run, h.get]
    exact ⟨known, h⟩
  | intern s =>
    obtain ⟨-, hfull | ⟨symbol, -, haligned⟩⟩ := h.intern s
    · exact ⟨known, by rwa [StringPoolAct.run, hfull]⟩
    · exact ⟨_, haligned⟩

theorem Aligned.climbs_run (h : p.Aligned known) (a : StringPoolAct) :
    Climbs index p (a.run p) a.inserts := by
  have hsteady := h.represents.steady
  cases a with
  | get s =>
    rw [StringPoolAct.run, h.get]
    exact .same hsteady _ 0
  | intern s =>
    refine Climbs.map ?_ some
    rw [StringPool.intern, h.lookup]
    cases hplace : known.idxOf? s with
    | some i => exact .same hsteady _ 1
    | none => exact h.climbs_store (List.idxOf?_eq_none_iff.1 hplace)

end StringPool

theorem take_learn {l : List String} {s : String} {n : Nat}
    (hroom : (StringPool.learn s (l.take n)).length ≤ n) :
    (StringPool.learn s l).take n = StringPool.learn s (l.take n) := by
  unfold StringPool.learn at hroom ⊢
  by_cases hknown : s ∈ l.take n
  · rw [if_pos hknown, if_pos (List.mem_of_mem_take hknown)]
  · rw [if_neg hknown, List.length_append, List.length_singleton, List.length_take] at hroom
    have hall : l.take n = l := List.take_of_length_le (by omega)
    rw [hall] at hknown ⊢
    rw [if_neg hknown, List.take_of_length_le (by simp; omega)]

theorem take_learn_of_le {l : List String} {n : Nat} (h : n ≤ (l.take n).length) (s : String) :
    (StringPool.learn s l).take n = l.take n := by
  rw [List.length_take] at h
  unfold StringPool.learn
  split
  · rfl
  · exact List.take_append_of_le_length (by omega)

/-- A pool knows the strings that were to be interned, the first ones of them if it cannot hold all. -/
theorem StringPool.aligned_of_trace {p : StringPool}
    {past : List (StringPoolAct × Outcome StringPool (Option Symbol))}
    (h : Trace StringPoolAct.run empty past p) :
    p.Aligned ((interned past).take maxLen) ∧ peak len empty past = p.len := by
  induction h with
  | start => exact ⟨.start, rfl⟩
  | @step past p a h ih =>
    obtain ⟨haligned, hpeak⟩ := ih
    rw [peak_append_single, hpeak]
    cases a with
    | get s =>
      have hsame : interned (past ++ [(.get s, (StringPoolAct.get s).run p)]) = interned past := by
        simp [interned, StringPoolAct.string?]
      have hrun : (StringPoolAct.get s).run p = _ := haligned.get s
      rw [hsame, hrun]
      exact ⟨haligned, max_self _⟩
    | intern s =>
      have hlearn : interned (past ++ [(.intern s, (StringPoolAct.intern s).run p)]) =
          learn s (interned past) := by
        rw [interned, List.filterMap_append]
        exact eraseDups_append_single ..
      rw [hlearn]
      obtain ⟨hinterning, hfull | ⟨symbol, -, haligned'⟩⟩ := haligned.intern s
      · rw [hfull] at hinterning
        cases hinterning with
        | full hnew hmax =>
          rw [take_learn_of_le hmax, StringPoolAct.run, hfull]
          exact ⟨haligned, max_self _⟩
      · rw [take_learn haligned'.bounded]
        refine ⟨haligned', max_eq_right ?_⟩
        have hclimb := (haligned.climbs_run (.intern s)).2.longer one_ne_zero
        change p.index.len ≤ (p.intern s).state.index.len at hclimb
        rwa [haligned.index_len, haligned'.index_len] at hclimb

inductive SlotPoolAct (H α : Type) where
  | call (c : PoolCall H α)
  | reset

namespace SlotPoolAct

variable {A H : Type} [Slots A H (PooledSet α)] [Ord α] [BEq α]

def run (a : SlotPoolAct H α) (p : SlotPool A H α) : Outcome (SlotPool A H α) (Option H) :=
  match a with
  | .call c => (p.call c).map some
  | .reset => p.reset.map fun _ => none

def inserts : SlotPoolAct H α → Nat
  | .call _ => 1
  | .reset => 0

end SlotPoolAct

namespace SlotPool

variable {A H : Type} [Slots A H (PooledSet α)]

/-- The index of a pool is in order and holds one handle for each set. Nothing is said about the order or
the equality of the elements. -/
structure Stocked (p : SlotPool A H α) : Prop where
  steady : p.index.Steady
  live : ∀ e ∈ p.index.table.entries, (p.get? e.key).isSome
  counted : p.index.len = p.len

namespace Stocked

variable {p : SlotPool A H α}

theorem mem_entries (h : p.Stocked) {hash : UInt32} {x : Nat × Entry H Unit}
    (hx : x ∈ p.index.table.candidates hash) : x.2 ∈ p.index.table.entries :=
  Table.mem_entries.2 ⟨x.1, (h.steady.sound.mem_candidates_iff.1 hx).1⟩

theorem get?_add [LawfulSlots A] (h : p.Stocked) {arena' : A} {value : PooledSet α} {new : H}
    (hadd : Slots.add p.arena value = some (new, arena')) {e : Entry H Unit}
    (he : e ∈ p.index.table.entries) :
    ∃ set, Slots.get? p.arena e.key = some set ∧ Slots.get? arena' e.key = some set := by
  obtain ⟨set, hget⟩ := Option.isSome_iff_exists.1 (h.live e he)
  have hne : e.key ≠ new := by
    intro heq
    have hfresh : p.get? new = none := LawfulSlots.get?_fresh hadd
    rw [heq, hfresh] at hget
    cases hget
  exact ⟨set, hget, (LawfulSlots.get?_add_of_ne hadd hne).trans hget⟩

theorem start [LawfulSlots A] (contentHash : List α → UInt64) :
    (empty contentHash : SlotPool A H α).Stocked := by
  refine ⟨Store.steady_withCapacity _, fun e he => ?_, LawfulSlots.len_empty.symm⟩
  change e ∈ (Table.withCapacity Capacity.standard : Table H Unit).entries at he
  rw [Table.entries_of_vacant (Table.peek_withCapacity _)] at he
  exact absurd he List.not_mem_nil

theorem reset [LawfulSlots A] (h : p.Stocked) :
    p.reset.state.Stocked ∧ Climbs index p p.reset 0 := by
  rcases p with ⟨contentHash, index, arena⟩
  have hclimbs : Climbs id index index.clear 0 :=
    h.steady.climbs_rest (Store.rests_clear h.steady.sound h.steady.idle)
  have hclear : index.clear = .ok () ⟨index.table.clear, 0, false⟩ := by
    rw [Store.clear, if_neg (by rw [h.steady.idle]; exact Bool.false_ne_true)]
  rw [hclear] at hclimbs
  rw [SlotPool.reset, hclear]
  refine ⟨⟨hclimbs.1, fun e he => ?_, (LawfulSlots.len_clear arena).symm⟩, hclimbs.1, ?_⟩
  · change e ∈ index.table.clear.entries at he
    rw [Table.entries_of_vacant (Table.peek_clear _)] at he
    exact absurd he List.not_mem_nil
  · exact hclimbs.2.after (Slots.len arena)

variable [BEq α]

def candidate (p : SlotPool A H α) (hash : UInt32) (elems : List α) : Option (Nat × Entry H Unit) :=
  (p.index.table.candidates hash).find? fun x => contentAt p.arena x.2.key == elems

theorem lookup (h : p.Stocked) (hash : UInt32) (elems : List α) :
    p.lookup hash elems = .ok ((candidate p hash elems).map (·.2.key)) p := by
  have hask : ∀ x ∈ p.index.table.candidates hash, hasContent p.arena elems p.index.enter x.2.key =
      pure (contentAt p.arena x.2.key == elems) := by
    intro x hx
    obtain ⟨set, hget⟩ := Option.isSome_iff_exists.1 (h.live x.2 (h.mem_entries hx))
    rw [hasContent_eq _ hget, contentAt_eq hget]
  have hkeys : ((candidate p hash elems).map (·.2.pair)).map Prod.fst =
      (candidate p hash elems).map (·.2.key) := by
    rw [Option.map_map]
    rfl
  rw [← hkeys]
  exact lookup_of_find (Store.findWithHash_pure h.steady.sound h.steady.idle
    (fun handle => contentAt p.arena handle == elems) hask)

variable [LawfulSlots A]

theorem store (h : p.Stocked) (hcap : p.index.capacity < loadLimit) {hash : UInt32} {elems : List α}
    (hnone : candidate p hash elems = none) :
    (p.store hash elems).state.Stocked ∧ Climbs index p (p.store hash elems) 1 := by
  cases hadd : Slots.add p.arena (PooledSet.mk elems.toArray) with
  | none =>
    have hfull : p.store hash elems = .fail .slotsExhausted p := by rw [SlotPool.store, hadd]
    rw [hfull]
    exact ⟨h, .same h.steady _ 1⟩
  | some added =>
    obtain ⟨new, arena'⟩ := added
    have hnew := LawfulSlots.get?_add_self hadd
    -- the new handle is not in the index yet, so the second search sees what the first one saw
    have hask : ∀ x ∈ p.index.table.candidates hash, sameContent arena' p.index.enter x.2.key new =
        pure (contentAt p.arena x.2.key == elems) := by
      intro x hx
      obtain ⟨set, hold, hget⟩ := h.get?_add hadd (h.mem_entries hx)
      rw [sameContent_eq _ hget hnew, contentAt_eq hold]
      rfl
    obtain ⟨t', events, hrun, hclimbs, hperm⟩ := h.steady.settle_none hcap hash new ()
    have hinsert : p.index.insertWithHash hash new () (sameContent arena') =
        (pure ⟨.ok true, ⟨t', p.index.len + 1, false⟩, events⟩ : Id _) := by
      rw [Store.insertWithHash,
        Store.probing_pure h.steady.idle (fun stored => contentAt p.arena stored == elems) hask,
        show (p.index.table.candidates hash).find? _ = none from hnone, hrun]
    rw [store_of_insert hadd hinsert]
    refine ⟨⟨hclimbs.1, fun e he => ?_, ?_⟩, hclimbs⟩
    · rcases List.mem_cons.1 (hperm.mem_iff.1 he) with rfl | hold
      · exact Option.isSome_iff_exists.2 ⟨_, hnew⟩
      · obtain ⟨set, -, hget⟩ := h.get?_add hadd hold
        exact Option.isSome_iff_exists.2 ⟨set, hget⟩
    · change p.index.len + 1 = Slots.len arena'
      rw [h.counted, LawfulSlots.len_add hadd]
      rfl

variable [Ord α]

theorem insertSorted (h : p.Stocked) (hcap : p.index.capacity < loadLimit) (elems : List α) :
    (p.insertSorted elems).state.Stocked ∧ Climbs index p (p.insertSorted elems) 1 := by
  rw [SlotPool.insertSorted]
  split
  · simp only [h.lookup, Outcome.ok_bind]
    cases hfind : candidate p (p.indexHash elems) elems with
    | some x => exact ⟨h, .same h.steady _ 1⟩
    | none => exact h.store hcap hfind
  · exact ⟨h, .same h.steady _ 1⟩

theorem run (h : p.Stocked) (hcap : p.index.capacity < loadLimit) (a : SlotPoolAct H α) :
    (a.run p).state.Stocked ∧ Climbs index p (a.run p) a.inserts := by
  cases a with
  | reset => exact h.reset
  | call c =>
    have hcall : (p.call c).state.Stocked ∧ Climbs index p (p.call c) 1 := by
      rw [call_eq_slice]
      cases p.slice? c with
      | some slice => exact h.insertSorted hcap slice
      | none => exact ⟨h, .same h.steady _ 1⟩
    exact hcall

end Stocked

end SlotPool

theorem highWater_of_step {ι : Type u} {ρ : Type} {act : ι → χ → Outcome χ ρ} {inserts : ι → Nat}
    (store : χ → Store K V) {stops : ι → χ → Fault → Prop} {n : Nat} {start : χ}
    (hstart : store start = .withCapacity n)
    (hstep : ∀ i c, (store c).Kept → (store c).busy = false →
      Step store (stops i c) (inserts i) c (act i c)) :
    HighWater act inserts (fun c => (store c).capacity) (fun c => (store c).len) n start := by
  have hsteady : (store start).Steady := hstart ▸ Store.steady_withCapacity n
  refine highWater_of_climb (fun c => (store c).Kept ∧ (store c).busy = false ∧ (store c).Light)
    (fun hcap => ⟨hsteady.kept hcap, hsteady.idle, hsteady.calm⟩) ?_ ?_ fun i c h hcap hcap' => ?_
  · rw [hstart]
    exact Table.capacity_withCapacity n
  · rw [hstart]
    rfl
  · obtain ⟨hkept, hidle, hlight⟩ := h
    have hrun := hstep i c hkept hidle
    refine ⟨⟨hrun.kept, hrun.idle, ?_⟩, hrun.climbs hlight hcap'⟩
    rcases hrun.ends hlight with ⟨hlight', -⟩ | ⟨hlarge, -⟩
    · exact hlight'
    · exact absurd hcap' (Nat.not_lt.2 hlarge)

/-- The capacity of a container is a function of the largest number of entries that it has had. So is the
capacity of the index of a pool, of the number of distinct strings that were interned or of the largest
number of live sets. -/
theorem capacity_high_water {A H : Type} [BEq K] [Slots A H (PooledSet α)] [LawfulSlots A] [Ord α]
    [BEq α] (n : Nat) (hashOf : K → UInt64) (contentHash : List α → UInt64) :
    HighWater MapAct.run MapAct.inserts (fun m : Map K V => m.capacity) (fun m => m.len) n
      (.withCapacity n hashOf) ∧
    HighWater SetAct.run SetAct.inserts KeySet.capacity KeySet.len n (.withCapacity n hashOf) ∧
    (HighWater StringPoolAct.run StringPoolAct.inserts (·.index.capacity) StringPool.len standard
        .empty ∧
      ∀ past p, Trace StringPoolAct.run .empty past p →
        p.strings.toList = (interned past).take StringPool.maxLen ∧
          peak StringPool.len .empty past = min StringPool.maxLen (interned past).length) ∧
    HighWater SlotPoolAct.run SlotPoolAct.inserts (fun p : SlotPool A H α => p.index.capacity)
      SlotPool.len standard (.empty contentHash) := by
  have hstandard : ∀ {K V : Type},
      (Store.withCapacity standard : Store K V).capacity = roundUp standard :=
    Table.capacity_withCapacity standard
  refine ⟨?_, ?_, ⟨?_, ?_⟩, ?_⟩
  · exact highWater_of_step Map.toStore rfl fun a m h hidle => MapAct.step h hidle a
  · exact highWater_of_step (fun s : KeySet K => s.map.toStore) rfl fun a s h hidle =>
      SetAct.step h hidle a
  · refine highWater_of_climb (fun p => ∃ known, p.Aligned known) (fun _ => ⟨[], .start⟩) hstandard rfl
      fun a p h _ _ => ?_
    obtain ⟨known, haligned⟩ := h
    obtain ⟨known', haligned'⟩ := haligned.run a
    obtain ⟨-, hclimb⟩ := haligned.climbs_run a
    rw [haligned.index_len, haligned'.index_len] at hclimb
    exact ⟨⟨known', haligned'⟩, hclimb⟩
  · intro past p h
    obtain ⟨haligned, hpeak⟩ := StringPool.aligned_of_trace h
    rw [hpeak, StringPool.len, haligned.strings]
    exact ⟨rfl, List.length_take⟩
  · refine highWater_of_climb SlotPool.Stocked (fun _ => .start contentHash) hstandard
      LawfulSlots.len_empty fun a p h hcap _ => ?_
    obtain ⟨hstocked, -, hclimb⟩ := h.run hcap a
    rw [h.counted, hstocked.counted] at hclimb
    exact ⟨hstocked, hclimb⟩

/-- Five entries outgrow seven buckets, in a map, a set and the indexes of both pools, and when they are
gone the seventeen buckets stay. They have room for eleven entries. -/
theorem capacity_high_water_cleared :
    (∃ (past : List _) (m : Map Nat Unit), Trace MapAct.run (.withCapacity 5 UInt64.ofNat) past m ∧
      growths (reports past) = [.grow 7 17] ∧ peak (fun m : Map Nat Unit => m.len)
        (.withCapacity 5 UInt64.ofNat) past = 11 ∧ OnChain 5 11 m.capacity [.grow 7 17]) ∧
    (∃ (past : List _) (s : KeySet Nat), Trace SetAct.run (.withCapacity 5 UInt64.ofNat) past s ∧
      s.len = 0 ∧ OnChain 5 5 s.capacity [.grow 7 17]) ∧
    (∃ (past : List _) (p : StringPool), Trace StringPoolAct.run .empty past p ∧
      interned past = ["a", "b", "c", "d", "e"] ∧ p.strings.toList = ["a", "b", "c", "d", "e"] ∧
      OnChain standard 5 p.index.capacity [.grow 7 17]) ∧
    ∃ (past : List _) (p : SetPool Nat), Trace SlotPoolAct.run (.empty fun _ => 0) past p ∧
      p.len = 0 ∧ OnChain standard 5 p.index.capacity [.grow 7 17] := by
  obtain ⟨hmaps, hsets, ⟨hstrings, hinterned⟩, hpools⟩ := capacity_high_water (K := Nat) (V := Unit)
    (A := Arena (PooledSet Nat)) (H := Handle) (α := Nat) 5 UInt64.ofNat fun _ => 0
  let entries (count : Nat) : MapAct Nat Unit := .keyed (.extend ((List.range count).map (·, ())))
  have hmap : Trace MapAct.run (.withCapacity 5 UInt64.ofNat : Map Nat Unit) _ _ :=
    ((Trace.start.step (entries 5)).step (.keyed .clear)).step (entries 11)
  have hset : Trace SetAct.run (.withCapacity 5 UInt64.ofNat : KeySet Nat) _ _ :=
    (Trace.start.step (.keyed (.extend (List.range 5)))).step (.keyed .clear)
  have hstring : Trace StringPoolAct.run .empty _ _ :=
    (((((Trace.start.step (.intern "a")).step (.intern "b")).step (.intern "c")).step
      (.intern "b")).step (.intern "d")).step (.intern "e")
  have hpool : Trace SlotPoolAct.run (.empty fun _ => 0 : SetPool Nat) _ _ :=
    (((((Trace.start.step (.call (.insertSorted [1]))).step (.call (.insertSorted [2]))).step
      (.call (.insertSorted [3]))).step (.call (.insertSorted [4]))).step
      (.call (.insertSorted [5]))).step .reset
  obtain ⟨hmap', -⟩ := hmaps _ _ hmap ⟨by decide, by decide⟩
  obtain ⟨hset', -⟩ := hsets _ _ hset ⟨by decide, by decide⟩
  obtain ⟨hstring', -⟩ := hstrings _ _ hstring ⟨by decide, by decide⟩
  obtain ⟨hheld, -⟩ := hinterned _ _ hstring
  obtain ⟨hpool', -⟩ := hpools _ _ hpool ⟨by decide, by decide⟩
  exact ⟨⟨_, _, hmap, by decide, by decide, hmap'⟩, ⟨_, _, hset, by decide, hset'⟩,
    ⟨_, _, hstring, by decide, hheld, hstring'⟩, ⟨_, _, hpool, by decide, hpool'⟩⟩

end LinearProbing
