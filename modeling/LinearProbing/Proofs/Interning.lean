import LinearProbing.StringPool
import LinearProbing.Proofs.StoreCalls

set_option autoImplicit false

/-!
# One symbol for each string

A pool of strings holds the strings that were interned, each one once and in the order of first
appearance, and the symbol of a string is its place in this order. The index holds the symbols of all
places and nothing else, each one under the hash of the string at its place. Strings whose hashes
collide are kept apart by the strings themselves.
-/

namespace LinearProbing

theorem Symbol.index_injective : Function.Injective Symbol.index := by
  rintro ⟨a⟩ ⟨b⟩ h
  exact congrArg Symbol.mk (UInt32.toNat_inj.1 h)

theorem idxOf?_eq_some_of_nodup {l : List String} (h : l.Nodup) {s : String} {i : Nat} :
    l.idxOf? s = some i ↔ l[i]? = some s := by
  rw [List.idxOf?_eq_some_iff, List.getElem?_eq_some_iff]
  refine exists_congr fun hi => ⟨And.left, fun hs => ⟨hs, fun j hj heq => ?_⟩⟩
  exact Nat.ne_of_lt hj ((h.getElem_inj_iff).1 (heq.trans hs.symm))

namespace StringPool

def symbolAt (i : Nat) : Symbol := ⟨UInt32.ofNat i⟩

theorem index_symbolAt {i : Nat} (h : i ≤ maxLen) : (symbolAt i).index = i :=
  UInt32.toNat_ofNat_of_lt' (Nat.lt_of_le_of_lt h (by decide))

def symbols (n : Nat) : Association Symbol Unit := (List.range n).map fun i => (symbolAt i, ())

theorem symbols_succ (n : Nat) : symbols (n + 1) = symbols n ++ [(symbolAt n, ())] := by
  rw [symbols, List.range_succ, List.map_append]
  rfl

/-- The string of a symbol, which is empty for the symbols that the pool has not reached. -/
def contentAt (strings : Array String) (symbol : Symbol) : String := strings[symbol.index]?.getD ""

def keying (strings : Array String) : Keying Symbol String :=
  ⟨contentAt strings, Fnv.addString Fnv.seed, fun h => by rw [eq_of_beq h]⟩

def sameString (strings : Array String) (_ : Store Symbol Unit) (stored new : Symbol) :
    ExceptT Fault Id Bool :=
  ExceptT.mk (pure do
    let old ← stringOf strings stored
    let fresh ← stringOf strings new
    return old == fresh)

section Lookups

variable {strings : Array String} {symbol : Symbol} {s : String}

theorem contentAt_eq (h : strings[symbol.index]? = some s) : contentAt strings symbol = s := by
  rw [contentAt, h]
  rfl

theorem stringOf_eq (h : strings[symbol.index]? = some s) : stringOf strings symbol = .ok s := by
  rw [stringOf, h]

end Lookups

/-- The strings of a pool are these, and all its symbols are in the index. -/
structure Aligned (p : StringPool) (known : List String) : Prop where
  strings : p.strings = known.toArray
  distinct : known.Nodup
  bounded : known.length ≤ maxLen
  represents : p.index.Represents (keying p.strings) (symbols known.length)
  roomy : p.index.capacity ≤ Capacity.greatest + 3 * maxLen

/-- What a pool tells of the strings that it knows. -/
structure Holds (p : StringPool) (known : List String) : Prop where
  strings : p.strings.toList = known
  distinct : known.Nodup
  /-- A symbol has the string at its place, and none if nothing is at its place. -/
  resolve_iff : ∀ symbol s, p.resolve symbol = some s ↔ known[symbol.index]? = some s
  /-- The strings are listed in order, each one with the symbol of its place. -/
  listed : p.toList.map (fun x => (x.1.index, x.2)) = known.mapIdx fun i s => (i, s)

/-- The strings that are known after another one has been interned. -/
def learn (s : String) (known : List String) : List String :=
  if s ∈ known then known else known ++ [s]

theorem getElem?_learn {s s' : String} {known : List String} {i : Nat} (h : known[i]? = some s') :
    (learn s known)[i]? = some s' := by
  unfold learn
  split
  · exact h
  · rw [List.getElem?_append_left (List.getElem?_eq_some_iff.1 h).1, h]

/-- The outcomes of interning a string: it is found where it is and nothing changes, or it is put
behind the strings that are there, or nothing changes because the pool is full. -/
inductive Interning (p : StringPool) (known : List String) (s : String) :
    Outcome StringPool Symbol → Prop where
  | found {symbol : Symbol} (hknown : s ∈ known) (hindex : symbol.index = known.idxOf s) :
      Interning p known s (.ok symbol p)
  | added {symbol : Symbol} {p' : StringPool} {events : List Event} (hnew : s ∉ known)
      (hroom : known.length < maxLen) (hindex : symbol.index = known.length)
      (hholds : p'.Holds (known ++ [s])) : Interning p known s ⟨.ok symbol, p', events⟩
  | full (hnew : s ∉ known) (hfull : maxLen ≤ known.length) :
      Interning p known s (.fail .symbolsExhausted p)

theorem Interning.answered {p : StringPool} {known : List String} {s : String}
    {o : Outcome StringPool Symbol} (h : Interning p known s o) {symbol : Symbol}
    (hresult : o.result = .ok symbol) : (learn s known)[symbol.index]? = some s := by
  cases h with
  | found hknown hindex =>
    cases hresult
    rw [learn, if_pos hknown, hindex, List.getElem?_idxOf hknown]
  | added hnew _ hindex _ =>
    cases hresult
    rw [learn, if_neg hnew, hindex, List.getElem?_concat_length]
  | full => cases hresult

namespace Aligned

variable {p : StringPool} {known : List String} {s : String}

theorem start : empty.Aligned [] := by
  refine ⟨rfl, .nil, Nat.zero_le _, Store.represents_withCapacity _ _, ?_⟩
  exact Store.capacity_standard_le.trans (Nat.le_add_right _ _)

theorem getElem?_strings (h : p.Aligned known) (i : Nat) : p.strings[i]? = known[i]? := by
  rw [h.strings, List.getElem?_toArray]

theorem size_strings (h : p.Aligned known) : p.strings.size = known.length := by
  rw [h.strings, List.size_toArray]

theorem exists_of_mem (h : p.Aligned known) {q : Symbol × Unit} (hq : q ∈ symbols known.length) :
    ∃ s ∈ known, p.strings[q.1.index]? = some s := by
  obtain ⟨i, hi, rfl⟩ := List.mem_map.1 hq
  have hlt : i < known.length := List.mem_range.1 hi
  have hindex : (symbolAt i).index = i := index_symbolAt (hlt.le.trans h.bounded)
  refine ⟨known[i], List.getElem_mem hlt, ?_⟩
  rw [hindex, h.getElem?_strings, List.getElem?_eq_getElem hlt]

theorem holds (h : p.Aligned known) : p.Holds known where
  strings := by rw [h.strings]
  distinct := h.distinct
  resolve_iff symbol s := by rw [resolve, h.getElem?_strings]
  listed := by
    rw [toList, h.strings, List.mapIdx_eq_zipIdx_map, List.map_map, List.mapIdx_eq_zipIdx_map]
    apply List.map_congr_left
    rintro ⟨s, i⟩ hmem
    have hlt : i < known.length := by
      simpa using List.snd_lt_of_mem_zipIdx hmem
    exact congrArg (fun i => (i, s)) (index_symbolAt (hlt.le.trans h.bounded))

theorem map_index_symbolAt (h : p.Aligned known) (s : String) :
    ((known.idxOf? s).map symbolAt).map Symbol.index = known.idxOf? s := by
  cases hplace : known.idxOf? s with
  | none => rfl
  | some i =>
    obtain ⟨hlt, -⟩ := List.idxOf?_eq_some_iff.1 hplace
    exact congrArg some (index_symbolAt (hlt.le.trans h.bounded))

theorem find_eq (h : p.Aligned known) (s : String) :
    Association.find (keying p.strings) s (symbols known.length) =
      (known.idxOf? s).map fun i => (symbolAt i, ()) := by
  cases hplace : known.idxOf? s with
  | none =>
    rw [List.idxOf?_eq_none_iff] at hplace
    rw [Option.map_none, Association.find_eq_none_iff]
    intro q hq hsame
    obtain ⟨s', hs', hget⟩ := h.exists_of_mem hq
    have heq : contentAt p.strings q.1 = s := eq_of_beq hsame
    rw [contentAt_eq hget] at heq
    exact hplace (heq ▸ hs')
  | some i =>
    obtain ⟨hlt, hi, -⟩ := List.idxOf?_eq_some_iff.1 hplace
    have hindex : (symbolAt i).index = i := index_symbolAt (hlt.le.trans h.bounded)
    have hget : p.strings[(symbolAt i).index]? = some s := by
      rw [hindex, h.getElem?_strings, List.getElem?_eq_getElem hlt, hi]
    refine h.represents.distinct.find_eq (List.mem_map_of_mem (List.mem_range.2 hlt)) ?_
    show (contentAt p.strings (symbolAt i) == s) = true
    rw [contentAt_eq hget]
    exact BEq.rfl

theorem lookup (h : p.Aligned known) (s : String) :
    p.lookup (Fnv.addString Fnv.seed s) s = .ok ((known.idxOf? s).map symbolAt) p := by
  have hfind := h.find_eq s
  have hstrings := fun q => h.exists_of_mem (q := q)
  have hrep := h.represents
  rcases p with ⟨index, strings⟩
  let accept : Store Symbol Unit → Symbol → ExceptT Fault Id Bool := fun _ symbol =>
    ExceptT.mk (pure ((stringOf strings symbol).map (· == s)))
  have hask : ∀ q ∈ symbols known.length,
      accept index.enter q.1 = pure ((keying strings).same s q.1) := by
    intro q hq
    obtain ⟨s', -, hget⟩ := hstrings q hq
    show ExceptT.mk (pure ((stringOf strings q.1).map (· == s))) =
      pure (contentAt strings q.1 == s)
    rw [stringOf_eq hget, contentAt_eq hget]
    rfl
  have hrun := hrep.findWithHash s accept hask
  rw [hfind] at hrun
  have hanswer : ((known.idxOf? s).map fun i => (symbolAt i, ())).map Prod.fst =
      (known.idxOf? s).map symbolAt := by
    rw [Option.map_map]
    rfl
  rw [← hanswer]
  exact congrArg (fun o : Id (Outcome (Store Symbol Unit) (Option (Symbol × Unit))) =>
    ((Id.run o).map (·.map Prod.fst)).within fun index => StringPool.mk index strings) hrun

theorem get (h : p.Aligned known) (s : String) :
    p.get s = .ok ((known.idxOf? s).map symbolAt) p := h.lookup s

theorem represents_push (h : p.Aligned known) (hnew : s ∉ known) :
    (keying (p.strings.push s)).content (symbolAt known.length) = s ∧
      p.index.Represents (keying (p.strings.push s)) (symbols known.length) ∧
      Association.find (keying (p.strings.push s)) s (symbols known.length) = none ∧
      ∀ q ∈ symbols known.length,
        sameString (p.strings.push s) p.index.enter q.1 (symbolAt known.length) =
          pure ((keying (p.strings.push s)).same s q.1) := by
  have hindex : (symbolAt known.length).index = known.length := index_symbolAt h.bounded
  have hlast : (p.strings.push s)[(symbolAt known.length).index]? = some s := by
    rw [hindex, Array.getElem?_push, h.size_strings, if_pos rfl]
  -- the places of the other symbols come before the new string
  have hold : ∀ q ∈ symbols known.length, ∃ s' ∈ known, p.strings[q.1.index]? = some s' ∧
      (p.strings.push s)[q.1.index]? = some s' := by
    intro q hq
    obtain ⟨s', hs', hget⟩ := h.exists_of_mem hq
    obtain ⟨hlt, -⟩ := Array.getElem?_eq_some_iff.1 hget
    refine ⟨s', hs', hget, ?_⟩
    rw [Array.getElem?_push, if_neg (Nat.ne_of_lt hlt), hget]
  refine ⟨contentAt_eq hlast, ?_, ?_, ?_⟩
  · refine h.represents.congr rfl fun q hq => ?_
    obtain ⟨s', -, hget, hget'⟩ := hold q hq
    exact (contentAt_eq hget').trans (contentAt_eq hget).symm
  · rw [Association.find_eq_none_iff]
    intro q hq hsame
    obtain ⟨s', hs', -, hget'⟩ := hold q hq
    have heq : contentAt (p.strings.push s) q.1 = s := eq_of_beq hsame
    rw [contentAt_eq hget'] at heq
    exact hnew (heq ▸ hs')
  · intro q hq
    obtain ⟨s', -, -, hget'⟩ := hold q hq
    show _ = pure (contentAt _ q.1 == s)
    rw [sameString, stringOf_eq hget', stringOf_eq hlast, contentAt_eq hget']
    rfl

theorem insertWithHash (h : p.Aligned known) (hnew : s ∉ known) :
    ∃ index' events, p.index.insertWithHash (Fnv.addString Fnv.seed s) (symbolAt known.length) ()
        (sameString (p.strings.push s)) =
          (pure ⟨.ok true, index', events⟩ : Id (Outcome (Store Symbol Unit) Bool)) ∧
      index'.Represents (keying (p.strings.push s)) (symbols (known.length + 1)) ∧
      index'.capacity ≤ max p.index.capacity (Capacity.greatest + 3 * (known.length + 1)) := by
  obtain ⟨hcontent, hrep, hfind, hask⟩ := h.represents_push hnew
  have hcap : p.index.capacity < Capacity.loadLimit := Nat.lt_of_le_of_lt h.roomy (by decide)
  obtain ⟨index', events, hrun, hrep', hcap'⟩ :=
    hrep.insertWithHash (m := Id) () (sameString (p.strings.push s)) (by rwa [hcontent]) hcap
  rw [Association.insert_of_none (by rwa [hcontent])] at hrun hrep'
  rw [← symbols_succ] at hrep'
  rw [hcontent] at hrun
  refine ⟨index', events, hrun, hrep', ?_⟩
  have hlen : (symbols known.length).length = known.length := by simp [symbols]
  rwa [hlen] at hcap'

theorem store (h : p.Aligned known) (hnew : s ∉ known) (hroom : known.length < maxLen) :
    ∃ p' events, p.store (Fnv.addString Fnv.seed s) s =
        ⟨.ok (symbolAt known.length), p', events⟩ ∧ p'.Aligned (known ++ [s]) := by
  obtain ⟨index', events, hrun, hrep, hcap⟩ := h.insertWithHash hnew
  have hroomy : index'.capacity ≤ Capacity.greatest + 3 * maxLen := by
    have := h.roomy
    omega
  have hsize := h.size_strings
  have hlen : (known ++ [s]).length = known.length + 1 := by simp
  refine ⟨⟨index', p.strings.push s⟩, events ++ [], ?_, ?_, ?_, ?_, ?_, hroomy⟩
  · rcases p with ⟨index, strings⟩
    change strings.size = known.length at hsize
    rw [StringPool.store, if_pos (hsize ▸ hroom), hsize]
    exact congrArg (fun o : Id (Outcome (Store Symbol Unit) Bool) =>
      ((Id.run o).within fun index => StringPool.mk index (strings.push s)).bind fun isNew p =>
        if isNew then .ok (symbolAt known.length) p else .fail (.broken .contentIsNew) p) hrun
  · rw [h.strings, List.push_toArray]
  · exact List.nodup_append'.2 ⟨h.distinct, List.nodup_singleton s, by simpa using hnew⟩
  · rw [hlen]
    exact hroom
  · rw [hlen]
    exact hrep

theorem intern (h : p.Aligned known) (s : String) :
    Interning p known s (p.intern s) ∧
      (p.intern s = .fail .symbolsExhausted p ∨
        ∃ symbol, (p.intern s).result = .ok symbol ∧ (p.intern s).state.Aligned (learn s known)) := by
  have hlookup := h.lookup s
  cases hplace : known.idxOf? s with
  | some i =>
    rw [hplace] at hlookup
    have hrun : p.intern s = .ok (symbolAt i) p := by
      rw [StringPool.intern]
      simp only [hlookup, Outcome.ok_bind]
      rfl
    obtain ⟨hlt, hi, -⟩ := List.idxOf?_eq_some_iff.1 hplace
    have hknown : s ∈ known := hi ▸ List.getElem_mem hlt
    have hindex : (symbolAt i).index = known.idxOf s := by
      rw [index_symbolAt (hlt.le.trans h.bounded), List.idxOf_eq_getD_idxOf?, hplace]
      rfl
    rw [hrun, learn, if_pos hknown]
    exact ⟨.found hknown hindex, .inr ⟨_, rfl, h⟩⟩
  | none =>
    rw [hplace] at hlookup
    have hrun : p.intern s = p.store (Fnv.addString Fnv.seed s) s := by
      rw [StringPool.intern]
      simp only [hlookup, Outcome.ok_bind]
      rfl
    have hnew : s ∉ known := List.idxOf?_eq_none_iff.1 hplace
    rw [hrun, learn, if_neg hnew]
    by_cases hroom : known.length < maxLen
    · obtain ⟨p', events, hstore, haligned⟩ := h.store hnew hroom
      rw [hstore]
      exact ⟨.added hnew hroom (index_symbolAt h.bounded) haligned.holds, .inr ⟨_, rfl, haligned⟩⟩
    · have hfull : p.store (Fnv.addString Fnv.seed s) s = .fail .symbolsExhausted p := by
        have hsize := h.size_strings
        rcases p with ⟨index, strings⟩
        change strings.size = known.length at hsize
        rw [StringPool.store, if_neg (hsize ▸ hroom)]
      rw [hfull]
      exact ⟨.full hnew (Nat.le_of_not_lt hroom), .inl rfl⟩

end Aligned

def answered (s : String) (p : StringPool) : List (Symbol × String) :=
  match (p.intern s).result with
  | .ok symbol => [(symbol, s)]
  | .error _ => []

/-- The states of a pool, and the strings that were interned so far with the symbols answered. -/
inductive Run : StringPool → List (Symbol × String) → Prop where
  | start : Run empty []
  | intern {p : StringPool} {log : List (Symbol × String)} (s : String) :
      Run p log → Run (p.intern s).state (log ++ p.answered s)
  | get {p : StringPool} {log : List (Symbol × String)} (s : String) :
      Run p log → Run (p.get s).state log

/-- The strings of a history, each one once and in the order of first appearance. -/
def firsts (log : List (Symbol × String)) : List String := (log.map Prod.snd).eraseDups

theorem mem_firsts {log : List (Symbol × String)} {s : String} :
    s ∈ firsts log ↔ ∃ symbol, (symbol, s) ∈ log := by
  rw [firsts, List.mem_eraseDups, List.mem_map]
  constructor
  · rintro ⟨x, hx, rfl⟩
    exact ⟨x.1, hx⟩
  · rintro ⟨symbol, hx⟩
    exact ⟨_, hx, rfl⟩

theorem eraseDups_append_single (l : List String) (s : String) :
    (l ++ [s]).eraseDups = learn s l.eraseDups := by
  have hmem : s ∈ l.eraseDups ↔ s ∈ l := List.mem_eraseDups
  rw [List.eraseDups_append, learn]
  by_cases hknown : s ∈ l
  · rw [if_pos (hmem.2 hknown)]
    simp [List.removeAll, hknown]
  · rw [if_neg (mt hmem.1 hknown)]
    simp [List.removeAll, hknown, List.eraseDups_cons]

theorem firsts_append_single (log : List (Symbol × String)) (x : Symbol × String) :
    firsts (log ++ [x]) = learn x.2 (firsts log) := by
  rw [firsts, List.map_append, List.map_singleton, eraseDups_append_single]
  rfl

/-- A pool knows the strings of its history, and its answers were the places of the strings. -/
theorem Run.aligned {p : StringPool} {log : List (Symbol × String)} (h : Run p log) :
    p.Aligned (firsts log) ∧ ∀ x ∈ log, (firsts log)[x.1.index]? = some x.2 := by
  induction h with
  | start => exact ⟨.start, fun x hx => absurd hx List.not_mem_nil⟩
  | @get p log s h ih =>
    rw [ih.1.get]
    exact ih
  | @intern p log s h ih =>
    obtain ⟨haligned, hlog⟩ := ih
    obtain ⟨hinterning, hfull | ⟨symbol, hresult, haligned'⟩⟩ := haligned.intern s
    · rw [answered, hfull, Outcome.result_fail, List.append_nil]
      exact ⟨haligned, hlog⟩
    · rw [answered, hresult, firsts_append_single]
      refine ⟨haligned', fun x hx => ?_⟩
      rcases List.mem_append.1 hx with hx | hx
      · exact getElem?_learn (hlog x hx)
      · rw [List.mem_singleton.1 hx]
        exact hinterning.answered hresult

/-- A pool holds the strings of its history in the order of first appearance, and a string and its
symbol are found under each other for good. -/
theorem one_symbol_for_each_string {p : StringPool} {log : List (Symbol × String)} (h : Run p log) :
    p.Holds (firsts log) ∧
      (∀ s, Interning p (firsts log) s (p.intern s)) ∧
      (∀ s symbol, (p.intern s).result = .ok symbol → (p.intern s).state.resolve symbol = some s) ∧
      (∀ s, (p.intern s).result ≠ .error (.broken .contentIsNew)) ∧
      (∀ s, ∃ found, p.get s = .ok found p ∧ found.map Symbol.index = (firsts log).idxOf? s ∧
        ∀ symbol, found = some symbol ↔ (symbol, s) ∈ log) ∧
      (∀ x ∈ log, p.resolve x.1 = some x.2) ∧
      (∀ x ∈ log, ∀ y ∈ log, x.1 = y.1 ↔ x.2 = y.2) := by
  obtain ⟨haligned, hlog⟩ := h.aligned
  have hholds := haligned.holds
  have hresolve : ∀ x ∈ log, p.resolve x.1 = some x.2 := by
    intro x hx
    rw [hholds.resolve_iff]
    exact hlog x hx
  have hunique : ∀ x ∈ log, ∀ symbol, p.resolve symbol = some x.2 → symbol = x.1 := by
    intro x hx symbol hsymbol
    rw [hholds.resolve_iff, ← idxOf?_eq_some_of_nodup hholds.distinct] at hsymbol
    have hplace := (idxOf?_eq_some_of_nodup hholds.distinct).2 (hlog x hx)
    exact Symbol.index_injective (Option.some.inj (hsymbol.symm.trans hplace))
  refine ⟨hholds, fun s => (haligned.intern s).1, ?_, ?_, ?_, hresolve, ?_⟩
  · intro s symbol hresult
    obtain ⟨hinterning, hfull | ⟨symbol', hresult', haligned'⟩⟩ := haligned.intern s
    · rw [hfull] at hresult
      cases hresult
    · rw [haligned'.holds.resolve_iff]
      exact hinterning.answered hresult
  · intro s hfault
    obtain ⟨-, hfull | ⟨symbol, hresult, -⟩⟩ := haligned.intern s
    · rw [hfull] at hfault
      cases hfault
    · rw [hresult] at hfault
      cases hfault
  · intro s
    have hplace := haligned.map_index_symbolAt s
    refine ⟨_, haligned.get s, hplace, fun symbol => ?_⟩
    rw [← (Option.map_injective Symbol.index_injective).eq_iff, hplace, Option.map_some,
      idxOf?_eq_some_of_nodup hholds.distinct, ← hholds.resolve_iff]
    constructor
    · intro hsymbol
      obtain ⟨symbol', hmem⟩ : ∃ symbol', (symbol', s) ∈ log :=
        mem_firsts.1 (List.mem_of_getElem? ((hholds.resolve_iff symbol s).1 hsymbol))
      rw [hunique _ hmem symbol hsymbol]
      exact hmem
    · exact hresolve _
  · intro x hx y hy
    constructor
    · intro heq
      have hget := hresolve x hx
      rw [heq, hresolve y hy] at hget
      exact (Option.some.inj hget).symm
    · intro heq
      exact hunique y hy x.1 (heq ▸ hresolve x hx)

/-- Two strings whose hashes collide get symbols of their own, and the first one keeps its symbol. -/
theorem one_symbol_for_each_string_colliding :
    Fnv.addString Fnv.seed "liquid" = Fnv.addString Fnv.seed "costarring" ∧
      ∃ (p : StringPool) (log : List (Symbol × String)),
        log = [(⟨0⟩, "liquid"), (⟨1⟩, "costarring"), (⟨0⟩, "liquid")] ∧
          p.Holds ["liquid", "costarring"] ∧ ∀ x ∈ log, p.resolve x.1 = some x.2 := by
  have hrun := (((Run.start.intern "liquid").get "costarring").intern "costarring").intern "liquid"
  obtain ⟨hholds, -, -, -, -, hresolve, -⟩ := one_symbol_for_each_string hrun
  exact ⟨by decide, _, _, by decide, hholds, hresolve⟩

end StringPool

end LinearProbing
