import LinearProbing.Proofs.Chain
import LinearProbing.Proofs.Upkeep

set_option autoImplicit false

/-!
# High water

What each call on a store does to its capacity. Only the call that adds an entry may grow, and only to
the next capacity of the chain.
-/

namespace LinearProbing

open Capacity

variable {K V α β χ : Type}

/-- An operation with so many insertions leaves the store of a container in order and climbs. -/
def Climbs (store : χ → Store K V) (c : χ) (o : Outcome χ α) (inserts : Nat) : Prop :=
  (store o.state).Steady ∧ Climb (store c).capacity (store c).len (store o.state).capacity
    (store o.state).len o.events inserts

theorem Climbs.map {store : χ → Store K V} {c : χ} {o : Outcome χ α} {inserts : Nat}
    (h : Climbs store c o inserts) (f : α → β) : Climbs store c (o.map f) inserts := h

theorem Climbs.same {store : χ → Store K V} {c : χ} (h : (store c).Steady) (r : Except Fault α)
    (inserts : Nat) : Climbs store c ⟨r, c, []⟩ inserts := ⟨h, .same inserts⟩

namespace Store

namespace Steady

variable {s : Store K V}

theorem kept (h : s.Steady) (hcap : s.capacity < loadLimit) : s.Kept :=
  ⟨h.sound, h.rounded, Nat.lt_of_lt_of_le hcap (by decide), h.counted⟩

theorem climbs_rest {o : Outcome (Store K V) α} (h : s.Steady) (hrests : Rests s o) :
    Climbs id s o 0 := by
  obtain ⟨a, t', len', rfl, hsound, hcap, hlen, hle⟩ := hrests
  rcases s with ⟨t, len, busy⟩
  change t'.capacity = t.capacity at hcap
  change len' ≤ len at hle
  have hrounded : roundUp t'.capacity = t'.capacity := by
    rw [hcap]
    exact h.rounded
  have hcalm : len * 100 < t.capacity * maxLoad := h.calm
  have hcalm' : len' * 100 < t'.capacity * maxLoad := by
    rw [hcap]
    omega
  refine ⟨⟨hsound, hrounded, hlen, h.idle, hcalm'⟩, ?_⟩
  change Climb t.capacity len t'.capacity len' [] 0
  rw [hcap]
  exact .rest hle

theorem settle_none (h : s.Steady) (hcap : s.capacity < loadLimit) (hash : UInt32) (key : K)
    (value : V) :
    ∃ t' events, (s.enter.settle (s.table.landing hash none) hash key value).within leave =
        ⟨.ok true, ⟨t', s.len + 1, false⟩, events⟩ ∧
      Climbs id s ⟨.ok true, ⟨t', s.len + 1, false⟩, events⟩ 1 ∧
      t'.entries.Perm (⟨markHash hash, key, value⟩ :: s.table.entries) := by
  have hkept := h.kept hcap
  rcases s with ⟨t, len, busy⟩
  obtain rfl : busy = false := h.idle
  obtain rfl : len = t.occupied := h.counted
  have hcalm : t.occupied * 100 < t.capacity * maxLoad := h.calm
  have hroom : t.occupied < t.capacity := by
    unfold maxLoad at hcalm
    omega
  obtain ⟨i, hi⟩ := Table.exists_firstVacant hroom hash
  have hbusy : Kept ⟨t, t.occupied, true⟩ := ⟨hkept.sound, hkept.rounded, hkept.sized, rfl⟩
  obtain ⟨u, hsettle, hcapacity, hcount, hfilled, hentries⟩ := hbusy.fill hi key value
  have hocc : t.occupied + 1 = u.occupied := hfilled.counted
  change t.capacity < loadLimit at hcap
  obtain ⟨t', events, hrun, hsound, hrounded, hperm, hlight, -, hgrown⟩ :=
    relieve_spec true hfilled.sound hfilled.rounded (by rw [← hocc, hcapacity]; omega)
      (by rwa [hcapacity])
  have hcounted := Table.occupied_eq_of_perm hperm
  rw [← hocc] at hrun hlight hgrown hcounted
  refine ⟨t', events, ?_, ⟨⟨hsound, hrounded, hcounted.symm, rfl, hlight⟩, ?_⟩, hperm.trans hentries⟩
  · rw [show (Store.enter ⟨t, t.occupied, false⟩ : Store K V) = ⟨t, t.occupied, true⟩ from rfl,
      Store.settle, hsettle]
    simp only [Outcome.within_ok, Outcome.ok_bind, if_true, hcount]
    rw [hrun]
    rfl
  · change Climb t.capacity t.occupied t'.capacity (t.occupied + 1) events 1
    rcases hgrown with ⟨hsame, rfl⟩ | ⟨hcrowded, hnext, rfl⟩
    · rw [hsame, hcapacity] at hlight ⊢
      exact .room hlight
    · rw [hcapacity] at hcrowded hnext ⊢
      have hle := le_next hnext
      rw [next_eq_larger hcap] at hnext
      rw [← Except.ok.inj hnext] at hlight hle ⊢
      exact .grow hcrowded hlight hle

theorem climbs_settle (h : s.Steady) (hcap : s.capacity < loadLimit) (hash : UInt32)
    (found : Option (Nat × Entry K V)) (key : K) (value : V) :
    Climbs id s ((s.enter.settle (s.table.landing hash found) hash key value).within leave) 1 := by
  cases found with
  | some x =>
    have hsame : Climbs id s (.ok false s) 1 := .same h _ 1
    rwa [← leave_enter h.idle] at hsame
  | none =>
    obtain ⟨t', events, hrun, hclimbs, -⟩ := h.settle_none hcap hash key value
    rw [hrun]
    exact hclimbs

end Steady

theorem Rests.leave {s : Store K V} {o : Outcome (Store K V) α} (h : Rests s.enter o)
    (hidle : s.busy = false) : Rests s (o.within leave) := by
  obtain ⟨a, t', len', rfl, hrest⟩ := h
  rcases s with ⟨t, len, busy⟩
  cases hidle
  exact ⟨a, t', len', rfl, hrest⟩

end Store

end LinearProbing
