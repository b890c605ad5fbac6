import LinearProbing.Key.Record
import LinearProbing.Proofs.BinarySearch
import LinearProbing.Proofs.HashConsing

set_option autoImplicit false

/-!
# The life of a handle

A handle lives from the moment its set is put into the arena to the next reset. All that time it stands
for the very list that was put in, even when an equal list is pooled again. After the reset it stands for
nothing, and no set will ever get it again.
-/

namespace LinearProbing

open Canonical

namespace Slots

variable {A H α : Type} [Slots A H α]

inductive Later (a : A) : A → Prop where
  | refl : Later a a
  | add {b c : A} {value : α} {h : H} : Later a b → Slots.add b value = some (h, c) → Later a c
  | clear {b : A} : Later a b → Later a (Slots.clear b)

/-- The handle was given to a value, in this arena or in one that led to it. -/
def Issued (a : A) (h : H) : Prop :=
  ∃ (b c : A) (value : α), Slots.add b value = some (h, c) ∧ Later c a

/-- The handle was given to a value, and the arena was cleared since. -/
def Retired (a : A) (h : H) : Prop := ∃ b : A, Issued b h ∧ Later (Slots.clear b) a

end Slots

/-- An arena that does not take up the handles of values it has let go of. -/
class RetiringSlots (A : Type) {H α : Type} [Slots A H α] : Prop extends LawfulSlots A where
  /-- A handle from before a clearing has no value after it. -/
  get?_retired : ∀ {a b c d : A} {value : α} {h : H}, Slots.add a value = some (h, b) →
    Slots.Later b c → Slots.Later (Slots.clear c) d → Slots.get? d h = none

namespace Slots

variable {A H α : Type} [Slots A H α] {a b : A} {h : H}

theorem issued_of_add {value : α} (hadd : Slots.add a value = some (h, b)) : Issued b h :=
  ⟨a, b, value, hadd, .refl⟩

theorem Issued.add {value : α} {new : H} (hissued : Issued a h)
    (hadd : Slots.add a value = some (new, b)) : Issued b h := by
  obtain ⟨c, d, old, hold, hlater⟩ := hissued
  exact ⟨c, d, old, hold, hlater.add hadd⟩

theorem Issued.clear (hissued : Issued a h) : Retired (Slots.clear a) h := ⟨a, hissued, .refl⟩

theorem Retired.add {value : α} {new : H} (hretired : Retired a h)
    (hadd : Slots.add a value = some (new, b)) : Retired b h := by
  obtain ⟨c, hissued, hlater⟩ := hretired
  exact ⟨c, hissued, hlater.add hadd⟩

theorem Retired.clear (hretired : Retired a h) : Retired (Slots.clear a) h := by
  obtain ⟨c, hissued, hlater⟩ := hretired
  exact ⟨c, hissued, hlater.clear⟩

theorem Retired.get? [RetiringSlots A] (hretired : Retired a h) : Slots.get? a h = none := by
  obtain ⟨c, ⟨_, _, _, hadd, hissued⟩, hlater⟩ := hretired
  exact RetiringSlots.get?_retired hadd hissued hlater

end Slots

namespace Arena

variable {α : Type}

theorem le_of_later {a b : Arena α} (h : Slots.Later a b) :
    a.retired ≤ b.retired ∧ a.retired + a.live.size ≤ b.retired + b.live.size := by
  induction h with
  | refl => exact ⟨Nat.le_refl _, Nat.le_refl _⟩
  | add _ hadd ih =>
    obtain ⟨-, -, rfl⟩ := slots_add_eq_some_iff.1 hadd
    simp only [Arena.add, Array.size_push]
    omega
  | @clear b _ ih =>
    change a.retired ≤ b.retired + b.live.size ∧
      a.retired + a.live.size ≤ b.retired + b.live.size + 0
    omega

instance retiringSlots : RetiringSlots (Arena α) where
  get?_retired {a b c d value h} hadd hissued hlater := by
    obtain ⟨-, rfl, rfl⟩ := slots_add_eq_some_iff.1 hadd
    have hc := (le_of_later hissued).2
    have hd : c.retired + c.live.size ≤ d.retired := (le_of_later hlater).1
    simp only [Arena.add, Array.size_push] at hc
    have hold : ¬ d.retired ≤ (nextHandle a).serial := by
      simp only [nextHandle]
      omega
    exact if_neg hold

end Arena

namespace SlotPool

variable {A H α : Type} [Slots A H (PooledSet α)] [Ord α] [BEq α]

def issue (c : PoolCall H α) (p : SlotPool A H α) : List (H × List α) :=
  match (p.call c).result, p.slice? c with
  | .ok h, some slice => [(h, slice)]
  | _, _ => []

/-- The states of a pool, the handles that it answered since the last reset, each with the list that was
asked for, and the handles that it answered before. -/
inductive Lived (contentHash : List α → UInt64) :
    SlotPool A H α → List (H × List α) → List H → Prop where
  | start : Lived contentHash (empty contentHash) [] []
  | call {p : SlotPool A H α} {log : List (H × List α)} {retired : List H} (c : PoolCall H α) :
      Lived contentHash p log retired →
      Lived contentHash (p.call c).state (log ++ p.issue c) retired
  | reset {p : SlotPool A H α} {log : List (H × List α)} {retired : List H} :
      Lived contentHash p log retired →
      Lived contentHash p.reset.state [] (retired ++ log.map Prod.fst)

section Logs

omit [Ord α]

variable {p : SlotPool A H α} {log : List (H × List α)}

/-- The list that a handle of the log stands for: the first one of the log that is equal to it. -/
def Shelved (p : SlotPool A H α) (log : List (H × List α)) (x : H × List α) : Prop :=
  ∃ first, log.find? (·.2 == x.2) = some first ∧ first.1 = x.1 ∧ p.get? x.1 = some ⟨first.2.toArray⟩

/-- The log names the live handles, each one with the list that it stands for. -/
structure Logs (p : SlotPool A H α) (log : List (H × List α)) : Prop where
  named : ∀ {h set}, p.get? h = some set → (h, set.toList) ∈ log
  shelved : ∀ x ∈ log, p.Shelved log x
  issued : ∀ x ∈ log, Slots.Issued p.arena x.1

theorem Shelved.append {x : H × List α} (h : p.Shelved log x) (more : List (H × List α)) :
    p.Shelved (log ++ more) x := by
  obtain ⟨first, hfirst, hhandle, hget⟩ := h
  exact ⟨first, by rw [List.find?_append, hfirst, Option.some_or], hhandle, hget⟩

theorem logs_nil (hdead : ∀ h, p.get? h = none) : p.Logs [] := by
  refine ⟨fun hget => ?_, fun x hx => absurd hx List.not_mem_nil,
    fun x hx => absurd hx List.not_mem_nil⟩
  rw [hdead] at hget
  cases hget

end Logs

section Lives

variable [Std.TransOrd α] [Std.LawfulBEqOrd α] {contentHash : List α → UInt64}
  {hhash : ∀ xs ys : List α, (xs == ys) = true → contentHash xs = contentHash ys}
  {p : SlotPool A H α} {log : List (H × List α)}

theorem Indexes.call_cases [LawfulSlots A] {d : Association H Unit}
    (h : p.Indexes contentHash hhash d) (c : PoolCall H α) :
    (∃ d', (p.call c).state.Indexes contentHash hhash d') ∧
      ((p.call c = .fail (refusal c) p ∧ p.issue c = []) ∨
        ∃ slice, p.slice? c = some slice ∧ Filed p slice (p.call c)) := by
  cases hslice : p.slice? c with
  | none =>
    have hrefused : p.call c = .fail (refusal c) p := by rw [call_eq_slice, hslice]
    refine ⟨⟨d, by rwa [hrefused]⟩, .inl ⟨hrefused, ?_⟩⟩
    rw [issue, hslice, hrefused]
    rfl
  | some slice =>
    obtain ⟨hfiled, hindexes⟩ := h.filed (h.slice?_spec hslice).1
    have hcall : p.call c = p.insertSorted slice := by rw [call_eq_slice, hslice]
    rw [hcall]
    exact ⟨hindexes, .inr ⟨slice, rfl, hfiled⟩⟩

theorem Shelved.congr {h : H} {slice slice' : List α} (hshelved : p.Shelved log (h, slice))
    (heq : (slice == slice') = true) : p.Shelved log (h, slice') := by
  have hsame : ∀ y : H × List α, (y.2 == slice) = (y.2 == slice') := by
    intro y
    rw [Bool.eq_iff_iff]
    exact ⟨fun hy => BEq.trans hy heq, fun hy => BEq.trans hy (BEq.symm heq)⟩
  obtain ⟨first, hfirst, hhandle, hget⟩ := hshelved
  refine ⟨first, ?_, hhandle, hget⟩
  rw [← hfirst]
  exact congrArg (log.find? ·) (funext fun y => (hsame y).symm)

namespace Logs

theorem known (h : p.Logs log) {handle : H} {set : PooledSet α} {slice : List α}
    (hget : p.get? handle = some set) (heq : (set.toList == slice) = true) :
    p.Logs (log ++ [(handle, slice)]) := by
  have hmem := h.named hget
  refine ⟨fun hget' => List.mem_append_left _ (h.named hget'), ?_, ?_⟩
  · intro x hx
    rcases List.mem_append.1 hx with hold | hnew
    · exact (h.shelved x hold).append _
    · rw [List.mem_singleton.1 hnew]
      exact ((h.shelved _ hmem).congr heq).append _
  · intro x hx
    rcases List.mem_append.1 hx with hold | hnew
    · exact h.issued x hold
    · rw [List.mem_singleton.1 hnew]
      exact h.issued (handle, set.toList) hmem

theorem stored [LawfulSlots A] (h : p.Logs log) {p' : SlotPool A H α} {new : H} {slice : List α}
    (hlacks : p.Lacks slice) (hadd : Slots.add p.arena ⟨slice.toArray⟩ = some (new, p'.arena)) :
    p'.Logs (log ++ [(new, slice)]) := by
  have hnew : p'.get? new = some ⟨slice.toArray⟩ := LawfulSlots.get?_add_self hadd
  have hother : ∀ {handle : H}, handle ≠ new → p'.get? handle = p.get? handle :=
    fun hne => LawfulSlots.get?_add_of_ne hadd hne
  have hfresh : p.get? new = none := LawfulSlots.get?_fresh hadd
  -- nothing in the log is equal to the new list, because all of it is in the pool
  have hfirst : log.find? (·.2 == slice) = none := by
    rw [List.find?_eq_none]
    intro x hx heq
    obtain ⟨first, hfind, -, hget⟩ := h.shelved x hx
    have hfound : (first.2 == x.2) = true := by simpa using List.find?_some hfind
    exact hlacks _ _ hget (sameElements_of_beq (BEq.trans hfound heq))
  refine ⟨?_, ?_, ?_⟩
  · intro handle set hget
    by_cases hne : handle = new
    · rw [hne, hnew] at hget
      cases hget
      rw [hne]
      exact List.mem_append_right _ (List.mem_singleton_self _)
    · rw [hother hne] at hget
      exact List.mem_append_left _ (h.named hget)
  · intro x hx
    rcases List.mem_append.1 hx with hold | hx
    · obtain ⟨first, hfind, hhandle, hget⟩ := h.shelved x hold
      have hne : x.1 ≠ new := by
        intro heq
        rw [heq, hfresh] at hget
        cases hget
      have hkept : p'.Shelved log x := ⟨first, hfind, hhandle, by rw [hother hne, hget]⟩
      exact hkept.append _
    · rw [List.mem_singleton.1 hx]
      refine ⟨(new, slice), ?_, rfl, hnew⟩
      rw [List.find?_append, hfirst, Option.none_or]
      exact List.find?_cons_of_pos BEq.rfl
  · intro x hx
    rcases List.mem_append.1 hx with hold | hx
    · exact (h.issued x hold).add hadd
    · rw [List.mem_singleton.1 hx]
      exact Slots.issued_of_add hadd

end Logs

section Resetting

omit [Std.TransOrd α] [Std.LawfulBEqOrd α]

theorem Indexes.dead (h : p.Indexes contentHash hhash []) (handle : H) : p.get? handle = none := by
  rw [← Option.not_isSome_iff_eq_none, ← h.live handle]
  exact List.not_mem_nil

theorem Indexes.arena_reset {d : Association H Unit} (h : p.Indexes contentHash hhash d) :
    p.reset.state.arena = Slots.clear p.arena := by
  rcases p with ⟨hasher, index, arena⟩
  obtain ⟨index', hclear, -⟩ := h.represents.clear
  rw [SlotPool.reset, hclear]
  rfl

end Resetting

variable [RetiringSlots A] {retired : List H}

theorem Indexes.retired_call {d : Association H Unit} (h : p.Indexes contentHash hhash d)
    (c : PoolCall H α) {handle : H} (hretired : Slots.Retired p.arena handle) :
    Slots.Retired (p.call c).state.arena handle ∧ (p.call c).result ≠ .ok handle := by
  obtain ⟨-, ⟨hrefused, -⟩ | ⟨slice, -, hfiled⟩⟩ := h.call_cases c
  · rw [hrefused]
    exact ⟨hretired, fun heq => by cases heq⟩
  · generalize p.call c = o at hfiled
    cases hfiled with
    | known hget _ =>
      refine ⟨hretired, fun heq => ?_⟩
      cases heq
      have hdead : p.get? handle = none := hretired.get?
      rw [hdead] at hget
      cases hget
    | full => exact ⟨hretired, fun heq => by cases heq⟩
    | stored _ hadd =>
      refine ⟨hretired.add hadd, fun heq => ?_⟩
      cases heq
      have hdead := (hretired.add hadd).get?
      rw [LawfulSlots.get?_add_self hadd] at hdead
      cases hdead

theorem Logs.call {d : Association H Unit} (hlogs : p.Logs log)
    (h : p.Indexes contentHash hhash d) (c : PoolCall H α) :
    (p.call c).state.Logs (log ++ p.issue c) := by
  obtain ⟨-, ⟨hrefused, hissue⟩ | ⟨slice, hslice, hfiled⟩⟩ := h.call_cases c
  · rw [hrefused, hissue, List.append_nil]
    exact hlogs
  · rw [issue, hslice]
    generalize p.call c = o at hfiled
    cases hfiled with
    | known hget heq => exact hlogs.known hget heq
    | full =>
      change p.Logs (log ++ [])
      rwa [List.append_nil]
    | stored hlacks hadd => exact hlogs.stored hlacks hadd

/-- Calls and resets keep the log of the live handles and the graveyard of the others. -/
theorem Lived.logs (h : Lived contentHash p log retired) :
    (∃ d, p.Indexes contentHash hhash d) ∧ p.Logs log ∧
      ∀ handle ∈ retired, Slots.Retired p.arena handle := by
  induction h with
  | start =>
    exact ⟨⟨[], .start⟩, logs_nil LawfulSlots.get?_empty,
      fun handle hmem => absurd hmem List.not_mem_nil⟩
  | @call p log retired c h ih =>
    obtain ⟨⟨d, hindexes⟩, hlogs, hretired⟩ := ih
    exact ⟨(hindexes.call_cases c).1, hlogs.call hindexes c,
      fun handle hmem => (hindexes.retired_call c (hretired handle hmem)).1⟩
  | @reset p log retired h ih =>
    obtain ⟨⟨d, hindexes⟩, hlogs, hretired⟩ := ih
    have harena := hindexes.arena_reset
    obtain ⟨p', events, hrun, hreset⟩ := hindexes.reset
    rw [hrun] at harena ⊢
    refine ⟨⟨[], hreset⟩, logs_nil hreset.dead, ?_⟩
    intro handle hmem
    change Slots.Retired p'.arena handle
    rw [show p'.arena = Slots.clear p.arena from harena]
    rcases List.mem_append.1 hmem with hold | hnew
    · exact (hretired handle hold).clear
    · obtain ⟨x, hx, rfl⟩ := List.mem_map.1 hnew
      exact (hlogs.issued x hx).clear

end Lives

/-- Since the last reset, a handle that was answered stands for the list that was put in first among
those equal to the one asked for. A handle from before stands for nothing and is not answered again. -/
theorem handle_lifetime [RetiringSlots A] [Std.TransOrd α] [Std.LawfulBEqOrd α]
    (contentHash : List α → UInt64)
    (hhash : ∀ xs ys : List α, (xs == ys) = true → contentHash xs = contentHash ys)
    {p : SlotPool A H α} {log : List (H × List α)} {retired : List H}
    (h : Lived contentHash p log retired) :
    (∀ x ∈ log, ∃ first, log.find? (·.2 == x.2) = some first ∧ first.1 = x.1 ∧
      p.get? x.1 = some ⟨first.2.toArray⟩ ∧ p.elems? x.1 = some first.2 ∧
      (∀ e, p.find x.1 e = first.2.find? (compare · e == .eq)) ∧
      ∀ c, (p.call c).state.get? x.1 = p.get? x.1) ∧
    ∀ handle ∈ retired, p.get? handle = none ∧ p.elems? handle = none ∧
      (∀ e, p.find handle e = none) ∧ ∀ c, (p.call c).result ≠ .ok handle := by
  obtain ⟨⟨d, hindexes⟩, hlogs, hretired⟩ : (∃ d, p.Indexes contentHash hhash d) ∧ _ := h.logs
  constructor
  · intro x hx
    obtain ⟨first, hfirst, hhandle, hget⟩ := hlogs.shelved x hx
    refine ⟨first, hfirst, hhandle, hget, ?_, fun e => ?_, fun c => ?_⟩
    · rw [elems?, hget]
      rfl
    · rw [find, hget]
      exact PooledSet.find_eq_find? (hindexes.ascending hget) e
    · have hlogs' := hlogs.call hindexes c
      obtain ⟨first', hfirst', -, hget'⟩ := hlogs'.shelved x (List.mem_append_left _ hx)
      rw [List.find?_append, hfirst, Option.some_or] at hfirst'
      cases hfirst'
      rw [hget', hget]
  · intro handle hmem
    have hdead : p.get? handle = none := (hretired handle hmem).get?
    refine ⟨hdead, ?_, fun e => ?_, fun c => (hindexes.retired_call c (hretired handle hmem)).2⟩
    · rw [elems?, hdead]
      rfl
    · rw [find, hdead]
      rfl

/-- Of two equal records the one that came first is kept. After a reset the other one is pooled anew,
under a handle of its own. -/
theorem handle_lifetime_copies :
    ∃ p q : SetPool Record, p.call (.insertSorted [⟨1, 20⟩]) = .ok ⟨0⟩ p ∧
      (p.elems? ⟨0⟩).map (·.map Record.tag) = some [10] ∧
      (∀ tag, (p.find ⟨0⟩ ⟨1, tag⟩).map Record.tag = some 10) ∧
      (∀ c, (p.call c).state.get? ⟨0⟩ = p.get? ⟨0⟩) ∧
      p.reset.state.call (.insertSorted [⟨1, 20⟩]) = .ok ⟨1⟩ q ∧
      (q.elems? ⟨1⟩).map (·.map Record.tag) = some [20] ∧
      q.elems? ⟨0⟩ = none ∧ ∀ c, (q.call c).result ≠ .ok ⟨0⟩ := by
  have hstart : Lived (fun _ => 0) (empty fun _ => 0 : SetPool Record) [] [] := .start
  have hone := hstart.call (.insertSorted [⟨1, 10⟩])
  have htwo := hone.reset.call (.insertSorted [⟨1, 20⟩])
  obtain ⟨hlive, -⟩ := handle_lifetime (fun _ => 0) (fun _ _ _ => rfl) hone
  obtain ⟨-, hretired⟩ := handle_lifetime (fun _ => 0) (fun _ _ _ => rfl) htwo
  have hlog : [] ++ issue (.insertSorted [⟨1, 10⟩]) (empty fun _ => 0 : SetPool Record) =
      [(⟨0⟩, [⟨1, 10⟩])] := by rfl
  rw [hlog] at hlive
  obtain ⟨first, hfirst, -, -, -, hfinds, hstays⟩ := hlive _ (List.mem_singleton_self _)
  obtain rfl : (⟨0⟩, [⟨1, 10⟩]) = first := Option.some.inj hfirst
  obtain ⟨-, hnothing, -, hnever⟩ := hretired ⟨0⟩ (.head _)
  have hfound : ∀ tag, _ := fun tag => congrArg (Option.map Record.tag) (hfinds ⟨1, tag⟩)
  exact ⟨_, _, by rfl, by rfl, hfound, hstays, by rfl, by rfl, hnothing, hnever⟩

end SlotPool

end LinearProbing
