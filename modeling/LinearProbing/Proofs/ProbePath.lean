import LinearProbing.Proofs.Bucket
import LinearProbing.Proofs.Path

set_option autoImplicit false

/-!
# What a probe meets

A probe walks from the home of a hash to the first empty bucket. The predicate is asked about the
candidates, which are the entries on this way that are stored under the hash. What it answers decides
which of them is found; where the way ends does not depend on the answers.
-/

namespace LinearProbing.Table

open LinearProbing.Cycle

variable {K V : Type} {m : Type → Type}

/-- The entries stored under a hash among the next `steps` buckets, up to the first empty one, each
with its bucket. -/
def candidatesFrom (t : Table K V) (stored : UInt32) : (steps i : Nat) → List (Nat × Entry K V)
  | 0, _ => []
  | steps + 1, i =>
    match t.peek i with
    | none => []
    | some e =>
      if e.hash = stored then (i, e) :: t.candidatesFrom stored steps (t.next i)
      else t.candidatesFrom stored steps (t.next i)

/-- The entries on the probe path of a hash that are stored under it, each with its bucket. -/
def candidates (t : Table K V) (hash : UInt32) : List (Nat × Entry K V) :=
  t.candidatesFrom (markHash hash) t.capacity (t.home hash)

/-- Where a probe lands once it is known which candidate was accepted, if any was. -/
def landing (t : Table K V) (hash : UInt32) : Option (Nat × Entry K V) → Landing
  | some x => .found x.1
  | none =>
    match t.firstVacant t.capacity (t.home hash) with
    | some i => .vacant i
    | none => .exhausted

theorem evict_landing_none (t : Table K V) (hash : UInt32) :
    t.evict (t.landing hash none) = .ok none t := by
  rw [landing]
  cases t.firstVacant t.capacity (t.home hash) <;> rfl

private theorem probeFrom_eq [Monad m] [LawfulMonad m] (t : Table K V) (stored : UInt32)
    (accept : K → m Bool) (steps i : Nat) :
    t.probeFrom stored accept steps i =
      (fun
        | some x => Landing.found x.1
        | none => match t.firstVacant steps i with
          | some j => .vacant j
          | none => .exhausted) <$>
      (t.candidatesFrom stored steps i).findM? fun x => accept x.2.key := by
  induction steps generalizing i with
  | zero => simp [probeFrom, candidatesFrom, firstVacant]
  | succ steps ih =>
    simp only [probeFrom, candidatesFrom, firstVacant]
    cases hpeek : t.peek i with
    | none => simp
    | some e =>
      simp only
      split
      · rw [List.findM?, map_bind]
        apply bind_congr
        intro answer
        cases answer with
        | true => simp
        | false => simpa using ih (t.next i)
      · exact ih (t.next i)

/-- A probe asks about the candidates in turn, up to the first one that is accepted, and about
nothing else. -/
theorem probe_eq [Monad m] [LawfulMonad m] (t : Table K V) (hash : UInt32) (accept : K → m Bool) :
    t.probe hash accept =
      t.landing hash <$> (t.candidates hash).findM? fun x => accept x.2.key := by
  rw [probe, probeFrom_eq]
  rfl

theorem insert_eq [Monad m] [LawfulMonad m] (t : Table K V) (hash : UInt32) (key : K) (value : V)
    (eq : K → K → m Bool) :
    t.insert hash key value eq =
      (fun found => t.settle (t.landing hash found) hash key value) <$>
        (t.candidates hash).findM? fun x => eq x.2.key key := by
  rw [insert, probe_eq]
  simp

theorem remove_eq [Monad m] [LawfulMonad m] (t : Table K V) (hash : UInt32) (accept : K → m Bool) :
    t.remove hash accept =
      (fun found => t.evict (t.landing hash found)) <$>
        (t.candidates hash).findM? fun x => accept x.2.key := by
  rw [remove, probe_eq]
  simp

theorem find_eq [Monad m] [LawfulMonad m] (t : Table K V) (hash : UInt32) (accept : K → m Bool) :
    t.find hash accept =
      Option.map Prod.fst <$> (t.candidates hash).findM? fun x => accept x.2.key := by
  rw [find, probe_eq, bind_map_left, map_eq_pure_bind]
  apply bind_congr
  intro found
  cases found with
  | some x => rfl
  | none =>
    simp only [landing, Option.map_none]
    cases t.firstVacant t.capacity (t.home hash) <;> rfl

private theorem firstVacant_spec {t : Table K V} {h d steps : Nat} (hh : h < t.capacity)
    (hsteps : d + steps = t.capacity) :
    match t.firstVacant steps (ahead t.capacity h d) with
    | some i => i < t.capacity ∧ t.peek i = none ∧ ∀ j < t.capacity, d ≤ distance t.capacity h j →
        distance t.capacity h j < distance t.capacity h i → (t.peek j).isSome
    | none => ∀ j < t.capacity, d ≤ distance t.capacity h j → (t.peek j).isSome := by
  induction steps generalizing d with
  | zero =>
    intro j hj hd
    have := distance_lt (show 0 < t.capacity by omega) h j
    omega
  | succ steps ih =>
    have hat : distance t.capacity h (ahead t.capacity h d) = d := distance_ahead hh (by omega)
    have hlt : ahead t.capacity h d < t.capacity := ahead_lt (by omega) h d
    cases hpeek : t.peek (ahead t.capacity h d) with
    | none =>
      simp only [firstVacant, hpeek]
      exact ⟨hlt, trivial, fun j _ hd hj => by omega⟩
    | some e =>
      have hfirst : ∀ j < t.capacity, distance t.capacity h j = d → (t.peek j).isSome := by
        intro j hj hd
        have hjd : j = ahead t.capacity h d := distance_inj hh hj hlt (by omega)
        rw [hjd, hpeek]
        rfl
      have ih := ih (d := d + 1) (by omega)
      rw [← next_ahead hh d] at ih
      simp only [firstVacant, hpeek, next]
      cases hnext : t.firstVacant steps (Cycle.next t.capacity (ahead t.capacity h d)) with
      | some i =>
        rw [hnext] at ih
        obtain ⟨hi, hempty, hbefore⟩ := ih
        refine ⟨hi, hempty, fun j hj hd hji => ?_⟩
        rcases Nat.eq_or_lt_of_le hd with heq | hgt
        · exact hfirst j hj heq.symm
        · exact hbefore j hj hgt hji
      | none =>
        rw [hnext] at ih
        intro j hj hd
        rcases Nat.eq_or_lt_of_le hd with heq | hgt
        · exact hfirst j hj heq.symm
        · exact ih j hj hgt

/-- The bucket `i` is empty, and all buckets before it on the way from bucket `h` are occupied. -/
structure FirstVacant (t : Table K V) (h i : Nat) : Prop where
  lt : i < t.capacity
  empty : t.peek i = none
  before : ∀ j < t.capacity, distance t.capacity h j < distance t.capacity h i → (t.peek j).isSome

theorem FirstVacant.unique {t : Table K V} {h i j : Nat} (hh : h < t.capacity)
    (hi : t.FirstVacant h i) (hj : t.FirstVacant h j) : i = j := by
  rcases Nat.lt_trichotomy (distance t.capacity h i) (distance t.capacity h j) with hlt | heq | hgt
  · have := hj.before i hi.lt hlt
    simp [hi.empty] at this
  · exact distance_inj hh hi.lt hj.lt heq
  · have := hi.before j hj.lt hgt
    simp [hj.empty] at this

theorem firstVacant_eq_some_iff {t : Table K V} {h i : Nat} (hh : h < t.capacity) :
    t.firstVacant t.capacity h = some i ↔ t.FirstVacant h i := by
  have hspec := firstVacant_spec (d := 0) hh (Nat.zero_add t.capacity)
  rw [ahead_zero hh] at hspec
  cases hfirst : t.firstVacant t.capacity h with
  | some j =>
    rw [hfirst] at hspec
    have hj : t.FirstVacant h j :=
      ⟨hspec.1, hspec.2.1, fun k hk hlt => hspec.2.2 k hk (Nat.zero_le _) hlt⟩
    constructor
    · intro heq
      cases heq
      exact hj
    · intro hi
      rw [hj.unique hh hi]
  | none =>
    rw [hfirst] at hspec
    constructor
    · intro heq
      cases heq
    · intro hi
      have := hspec i hi.lt (Nat.zero_le _)
      simp [hi.empty] at this

theorem firstVacant_eq_none_iff {t : Table K V} {h : Nat} (hh : h < t.capacity) :
    t.firstVacant t.capacity h = none ↔ ∀ j < t.capacity, (t.peek j).isSome := by
  have hspec := firstVacant_spec (d := 0) hh (Nat.zero_add t.capacity)
  rw [ahead_zero hh] at hspec
  cases hfirst : t.firstVacant t.capacity h with
  | some j =>
    rw [hfirst] at hspec
    constructor
    · intro heq
      cases heq
    · intro hall
      have := hall j hspec.1
      simp [hspec.2.1] at this
  | none =>
    rw [hfirst] at hspec
    exact ⟨fun _ j hj => hspec j hj (Nat.zero_le _), fun _ => rfl⟩

private theorem occupied_from_iff {t : Table K V} {h d bound : Nat} (hh : h < t.capacity)
    (hocc : (t.peek (ahead t.capacity h d)).isSome) :
    (∀ j < t.capacity, d ≤ distance t.capacity h j → distance t.capacity h j < bound →
        (t.peek j).isSome) ↔
      ∀ j < t.capacity, d + 1 ≤ distance t.capacity h j → distance t.capacity h j < bound →
        (t.peek j).isSome := by
  constructor
  · intro hrest j hj hdj hjb
    exact hrest j hj (by omega) hjb
  · intro hrest j hj hdj hjb
    rcases Nat.eq_or_lt_of_le hdj with heq | hgt
    · have hjd : j = ahead t.capacity h d := by rw [heq, ahead_distance hh hj]
      rw [hjd]
      exact hocc
    · exact hrest j hj hgt hjb

private theorem mem_candidatesFrom {t : Table K V} {stored : UInt32} {h d steps : Nat}
    (hh : h < t.capacity) (hsteps : d + steps = t.capacity) {i : Nat} {e : Entry K V} :
    (i, e) ∈ t.candidatesFrom stored steps (ahead t.capacity h d) ↔
      t.peek i = some e ∧ e.hash = stored ∧ d ≤ distance t.capacity h i ∧
        ∀ j < t.capacity, d ≤ distance t.capacity h j →
          distance t.capacity h j < distance t.capacity h i → (t.peek j).isSome := by
  induction steps generalizing d with
  | zero =>
    simp only [candidatesFrom, List.not_mem_nil, false_iff, not_and]
    intro hpeek _ hd
    have := distance_lt (show 0 < t.capacity by omega) h i
    omega
  | succ steps ih =>
    have hat : distance t.capacity h (ahead t.capacity h d) = d := distance_ahead hh (by omega)
    have hlt : ahead t.capacity h d < t.capacity := ahead_lt (by omega) h d
    have ih := ih (d := d + 1) (by omega)
    rw [← next_ahead hh d] at ih
    cases hpeek : t.peek (ahead t.capacity h d) with
    | none =>
      -- what lies behind an empty bucket is no candidate
      simp only [candidatesFrom, hpeek, List.not_mem_nil, false_iff, not_and]
      intro hi _ hd hbefore
      rcases Nat.eq_or_lt_of_le hd with heq | hgt
      · have hid : i = ahead t.capacity h d :=
          distance_inj hh (lt_capacity_of_peek hi) hlt (by omega)
        rw [hid, hpeek] at hi
        cases hi
      · have := hbefore _ hlt (by omega) (by omega)
        simp [hpeek] at this
    | some a =>
      have hocc : (t.peek (ahead t.capacity h d)).isSome := by
        rw [hpeek]
        rfl
      have htail : (i, e) ∈ t.candidatesFrom stored steps (t.next (ahead t.capacity h d)) ↔
          t.peek i = some e ∧ e.hash = stored ∧ d + 1 ≤ distance t.capacity h i ∧
            ∀ j < t.capacity, d ≤ distance t.capacity h j →
              distance t.capacity h j < distance t.capacity h i → (t.peek j).isSome := by
        rw [next, ih, ← occupied_from_iff hh hocc]
      have hhead : t.peek i = some e → distance t.capacity h i = d →
          i = ahead t.capacity h d ∧ a = e := by
        intro hi heq
        have hid : i = ahead t.capacity h d :=
          distance_inj hh (lt_capacity_of_peek hi) hlt (by omega)
        rw [hid, hpeek] at hi
        exact ⟨hid, Option.some.inj hi⟩
      simp only [candidatesFrom, hpeek]
      split
      · rename_i hstored
        rw [List.mem_cons, htail, Prod.mk.injEq]
        constructor
        · rintro (⟨rfl, rfl⟩ | ⟨hi, he, hd, hbefore⟩)
          · exact ⟨hpeek, hstored, by omega, fun j _ hd hji => by omega⟩
          · exact ⟨hi, he, by omega, hbefore⟩
        · rintro ⟨hi, he, hd, hbefore⟩
          rcases Nat.eq_or_lt_of_le hd with heq | hgt
          · obtain ⟨hid, hae⟩ := hhead hi heq.symm
            exact .inl ⟨hid, hae.symm⟩
          · exact .inr ⟨hi, he, hgt, hbefore⟩
      · rename_i hstored
        rw [htail]
        constructor
        · rintro ⟨hi, he, hd, hbefore⟩
          exact ⟨hi, he, by omega, hbefore⟩
        · rintro ⟨hi, he, hd, hbefore⟩
          rcases Nat.eq_or_lt_of_le hd with heq | hgt
          · obtain ⟨-, hae⟩ := hhead hi heq.symm
            exact absurd (hae ▸ he) hstored
          · exact ⟨hi, he, hgt, hbefore⟩

/-- The candidates are the entries under the hash whose way from home is occupied. -/
theorem mem_candidates {t : Table K V} {hash : UInt32} (hpos : 0 < t.capacity) {i : Nat}
    {e : Entry K V} :
    (i, e) ∈ t.candidates hash ↔
      t.peek i = some e ∧ e.hash = markHash hash ∧
        ∀ j < t.capacity, distance t.capacity (t.home hash) j <
          distance t.capacity (t.home hash) i → (t.peek j).isSome := by
  have hh : t.home hash < t.capacity := home_lt hpos hash
  rw [candidates, ← ahead_zero hh, mem_candidatesFrom hh (Nat.zero_add t.capacity), ahead_zero hh]
  simp

private theorem candidatesFrom_pairwise {t : Table K V} {stored : UInt32} {h d steps : Nat}
    (hh : h < t.capacity) (hsteps : d + steps = t.capacity) :
    (t.candidatesFrom stored steps (ahead t.capacity h d)).Pairwise fun x y =>
      distance t.capacity h x.1 < distance t.capacity h y.1 := by
  induction steps generalizing d with
  | zero => exact .nil
  | succ steps ih =>
    have hat : distance t.capacity h (ahead t.capacity h d) = d := distance_ahead hh (by omega)
    have htail := ih (d := d + 1) (by omega)
    have hmem : ∀ x ∈ t.candidatesFrom stored steps (t.next (ahead t.capacity h d)),
        d < distance t.capacity h x.1 := by
      intro x hx
      rw [next, next_ahead hh d] at hx
      exact ((mem_candidatesFrom hh (by omega)).1 hx).2.2.1
    rw [← next_ahead hh d] at htail
    simp only [candidatesFrom]
    cases hpeek : t.peek (ahead t.capacity h d) with
    | none => exact .nil
    | some e =>
      simp only
      split
      · refine List.Pairwise.cons ?_ htail
        intro x hx
        have := hmem x hx
        simpa only [hat] using this
      · exact htail

theorem candidates_pairwise {t : Table K V} (hpos : 0 < t.capacity) (hash : UInt32) :
    (t.candidates hash).Pairwise fun x y =>
      distance t.capacity (t.home hash) x.1 < distance t.capacity (t.home hash) y.1 := by
  have hh : t.home hash < t.capacity := home_lt hpos hash
  have hcandidates : t.candidates hash =
      t.candidatesFrom (markHash hash) t.capacity (ahead t.capacity (t.home hash) 0) := by
    rw [ahead_zero hh]
    rfl
  rw [hcandidates]
  exact candidatesFrom_pairwise hh (Nat.zero_add t.capacity)

end LinearProbing.Table
