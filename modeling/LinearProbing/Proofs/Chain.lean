import LinearProbing.Proofs.Capacity
import LinearProbing.Proofs.Runs
import Mathlib.Logic.Function.Iterate
import Mathlib.Order.MinMax

set_option autoImplicit false

/-!
# The chain of capacities

Growth takes a container along one chain of capacities, which begins with the capacity it was made with.
The largest number of entries that it has had tells how far it has come: to the first capacity of the
chain that this number does not crowd.
-/

namespace LinearProbing

namespace Capacity

/-- The least listed capacity above a given one, and half as much again from the largest listed one
on. -/
def larger (capacity : Nat) : Nat :=
  (primes.find? fun p => decide (capacity < p)).getD (capacity + capacity / 2)

/-- The capacity of a container for `n` buckets after `k` growths. -/
def chain (n k : Nat) : Nat := larger^[k] (roundUp n)

@[simp] theorem chain_zero (n : Nat) : chain n 0 = roundUp n := rfl

theorem chain_succ (n k : Nat) : chain n (k + 1) = larger (chain n k) :=
  Function.iterate_succ_apply' larger k (roundUp n)

/-- Below the limit of the load test a table grows to the next capacity of the chain. -/
theorem next_eq_larger {capacity : Nat} (hcap : capacity < loadLimit) :
    next capacity = .ok (larger capacity) := by
  unfold loadLimit at hcap
  unfold next larger
  split
  · rename_i hsmall
    have hadd : Size.add capacity 1 = .ok (capacity + 1) := by
      rw [Size.add_eq_ok_iff]
      exact ⟨by unfold Size.limit UInt64.size; omega, rfl⟩
    rw [hadd]
    change Except.ok ((primes.find? fun p => decide (capacity < p)).getD (capacity + 1)) = _
    cases hfind : primes.find? fun p => decide (capacity < p) with
    | some p => rfl
    | none =>
      rw [List.find?_eq_none] at hfind
      have := hfind greatest (by decide)
      simp [hsmall] at this
  · rename_i hlarge
    have hadd : Size.add capacity (capacity / 2) = .ok (capacity + capacity / 2) := by
      rw [Size.add_eq_ok_iff]
      exact ⟨by unfold Size.limit UInt64.size; omega, rfl⟩
    have hnone : primes.find? (fun p => decide (capacity < p)) = none := by
      rw [List.find?_eq_none]
      intro p hp
      have hle : ∀ q ∈ primes, q ≤ greatest := by decide
      have := hle p hp
      simp only [decide_eq_true_eq]
      omega
    rw [hadd, hnone]
    rfl

end Capacity

open Capacity

def growths (events : List Event) : List Event :=
  events.filter fun
    | .grow _ _ => true
    | .reset _ => false

@[simp] theorem growths_append (events events' : List Event) :
    growths (events ++ events') = growths events ++ growths events' := List.filter_append ..

/-- A container for `n` buckets that never had more than `m` entries has the first capacity of the chain
that `m` entries do not crowd. It has reported one growth for each step of the chain up to there, and this
is what the messages say. -/
def OnChain (n m capacity : Nat) (grown : List Event) : Prop :=
  ∃ k, capacity = chain n k ∧ m * 100 < chain n k * maxLoad ∧
    (∀ j < k, chain n j * maxLoad ≤ m * 100) ∧
    grown = ((List.range k).map fun j => .grow (chain n j) (chain n (j + 1))) ∧
    grown.map Event.text = (List.range k).map fun j =>
      "hash table grow: " ++ toString (chain n j) ++ " -> " ++ toString (chain n (j + 1)) ++ " buckets"

theorem onChain_of {n m k : Nat} {grown : List Event} (hload : m * 100 < chain n k * maxLoad)
    (hbefore : ∀ j < k, chain n j * maxLoad ≤ m * 100)
    (hgrown : grown = (List.range k).map fun j => .grow (chain n j) (chain n (j + 1))) :
    OnChain n m (chain n k) grown := by
  refine ⟨k, rfl, hload, hbefore, hgrown, ?_⟩
  rw [hgrown, List.map_map]
  rfl

/-- How an operation with so many insertions changes capacity and length, and what it reports. -/
structure Climb (capacity len capacity' len' : Nat) (events : List Event) (inserts : Nat) : Prop where
  onward : ∀ {n m : Nat} {grown : List Event}, len ≤ m → OnChain n m capacity grown →
    OnChain n (max m len') capacity' (grown ++ growths events)
  le : capacity ≤ capacity'
  longer : inserts ≠ 0 → len ≤ len'
  few : (growths events).length ≤ inserts
  /-- Growth means that the old capacity was too small. -/
  crowded : growths events ≠ [] → capacity * maxLoad ≤ len' * 100

namespace Climb

variable {capacity len capacity' len' capacity'' len'' inserts inserts' : Nat}
  {events events' : List Event}

theorem rest (hlen : len' ≤ len) : Climb capacity len capacity len' [] 0 := by
  refine ⟨fun {n m grown} hm h => ?_, Nat.le_refl _, fun hinserts => absurd rfl hinserts,
    Nat.le_refl _, fun hgrown => absurd rfl hgrown⟩
  rw [max_eq_left (hlen.trans hm)]
  exact (List.append_nil grown).symm ▸ h

theorem same (inserts : Nat) : Climb capacity len capacity len [] inserts := by
  refine ⟨(rest (Nat.le_refl len)).onward, Nat.le_refl _, fun _ => Nat.le_refl _, Nat.zero_le _,
    fun hgrown => absurd rfl hgrown⟩

theorem after (h : Climb capacity len capacity' len' events inserts) (n : Nat) :
    Climb capacity len capacity' len' (.reset n :: events) inserts :=
  ⟨h.onward, h.le, h.longer, h.few, h.crowded⟩

theorem room (hcalm : (len + 1) * 100 < capacity * maxLoad) :
    Climb capacity len capacity (len + 1) [] 1 := by
  refine ⟨fun {n m grown} hm h => ?_, Nat.le_refl _, fun _ => Nat.le_succ _, Nat.zero_le _,
    fun hgrown => absurd rfl hgrown⟩
  obtain ⟨k, rfl, hload, hbefore, hgrown, -⟩ := h
  refine onChain_of ?_ (fun j hj => ?_) (by rw [hgrown]; exact List.append_nil _)
  · rcases max_choice m (len + 1) with hmax | hmax <;> rw [hmax] <;> assumption
  · have := hbefore j hj
    have := le_max_left m (len + 1)
    omega

theorem grow (hcrowded : capacity * maxLoad ≤ (len + 1) * 100)
    (hcalm : (len + 1) * 100 < larger capacity * maxLoad) (hle : capacity ≤ larger capacity) :
    Climb capacity len (larger capacity) (len + 1) [.grow capacity (larger capacity)] 1 := by
  refine ⟨fun {n m grown} hm h => ?_, hle, fun _ => Nat.le_succ _, Nat.le_refl _, fun _ => hcrowded⟩
  obtain ⟨k, rfl, hload, hbefore, hgrown, -⟩ := h
  have hmax : max m (len + 1) = len + 1 := by omega
  rw [hmax, ← chain_succ]
  refine onChain_of (by rwa [chain_succ]) (fun j hj => ?_) ?_
  · rcases Nat.lt_succ_iff_lt_or_eq.1 hj with hlt | rfl
    · have := hbefore j hlt
      omega
    · exact hcrowded
  · rw [List.range_succ, List.map_append, ← hgrown]
    rfl

theorem trans (h : Climb capacity len capacity' len' events inserts)
    (h' : Climb capacity' len' capacity'' len'' events' inserts') (hlen : len ≤ len')
    (hlen' : len' ≤ len'') :
    Climb capacity len capacity'' len'' (events ++ events') (inserts + inserts') := by
  refine ⟨fun {n m grown} hm hchain => ?_, h.le.trans h'.le, fun _ => hlen.trans hlen', ?_,
    fun hgrown => ?_⟩
  · have hboth := h'.onward (le_max_right m len') (h.onward hm hchain)
    rwa [max_assoc, max_eq_right hlen', List.append_assoc, ← growths_append] at hboth
  · rw [growths_append, List.length_append]
    exact Nat.add_le_add h.few h'.few
  · rw [growths_append] at hgrown
    by_cases hfirst : growths events = []
    · rw [hfirst, List.nil_append] at hgrown
      exact (Nat.mul_le_mul_right _ h.le).trans (h'.crowded hgrown)
    · exact (h.crowded hfirst).trans (Nat.mul_le_mul_right _ hlen')

theorem lt_of_growths (h : Climb capacity len capacity' len' events inserts) {n m : Nat}
    {grown : List Event} (hchain : OnChain n m capacity grown) (hgrown : growths events ≠ []) :
    m < len' := by
  obtain ⟨k, rfl, hload, -, -⟩ := hchain
  have := h.crowded hgrown
  omega

end Climb

universe u

variable {ι : Type u} {χ ρ : Type}

def Below (capacity : χ → Nat) (start : χ) (past : List (ι × Outcome χ ρ)) : Prop :=
  capacity start < loadLimit ∧ ∀ x ∈ past, capacity x.2.state < loadLimit

/-- The capacity is a function of the largest number of entries so far. Each insertion grows at most
once, and only if there were never as many entries as after it. -/
def HighWater (act : ι → χ → Outcome χ ρ) (inserts : ι → Nat) (capacity len : χ → Nat) (n : Nat)
    (start : χ) : Prop :=
  ∀ past c, Trace act start past c → Below capacity start past →
    OnChain n (peak len start past) (capacity c) (growths (reports past)) ∧
      ∀ i, capacity (act i c).state < loadLimit →
        (growths (act i c).events).length ≤ inserts i ∧
          (growths (act i c).events ≠ [] → peak len start past < len (act i c).state)

/-- It is enough to know what one operation does to a container in order. -/
theorem highWater_of_climb {act : ι → χ → Outcome χ ρ} {inserts : ι → Nat} {capacity len : χ → Nat}
    {n : Nat} {start : χ} (ordered : χ → Prop) (hstart : capacity start < loadLimit → ordered start)
    (hcapacity : capacity start = roundUp n) (hlen : len start = 0)
    (hstep : ∀ i c, ordered c → capacity c < loadLimit → capacity (act i c).state < loadLimit →
      ordered (act i c).state ∧ Climb (capacity c) (len c) (capacity (act i c).state)
        (len (act i c).state) (act i c).events (inserts i)) :
    HighWater act inserts capacity len n start := by
  have htrace : ∀ past c, Trace act start past c → Below capacity start past →
      ordered c ∧ capacity c < loadLimit ∧ len c ≤ peak len start past ∧
        OnChain n (peak len start past) (capacity c) (growths (reports past)) := by
    intro past c h
    induction h with
    | start =>
      intro hbelow
      refine ⟨hstart hbelow.1, hbelow.1, Nat.le_refl _, ?_⟩
      rw [hcapacity, show peak len start [] = 0 from hlen]
      refine onChain_of (k := 0) ?_ (fun j hj => absurd hj (Nat.not_lt_zero j)) rfl
      have hpos := roundUp_pos n
      rw [chain_zero]
      unfold maxLoad
      omega
    | @step past c i h ih =>
      intro hbelow
      have hcap' := hbelow.2 _ (List.mem_append_right past (List.mem_singleton_self (i, act i c)))
      obtain ⟨hordered, hcap, hle, hchain⟩ :=
        ih ⟨hbelow.1, fun x hx => hbelow.2 x (List.mem_append_left _ hx)⟩
      obtain ⟨hordered', hclimb⟩ := hstep i c hordered hcap hcap'
      rw [peak_append_single, reports_append_single, growths_append]
      exact ⟨hordered', hcap', le_max_right _ _, hclimb.onward hle hchain⟩
  intro past c h hbelow
  obtain ⟨hordered, hcap, -, hchain⟩ := htrace past c h hbelow
  refine ⟨hchain, fun i hcap' => ?_⟩
  obtain ⟨-, hclimb⟩ := hstep i c hordered hcap hcap'
  exact ⟨hclimb.few, hclimb.lt_of_growths hchain⟩

end LinearProbing
