import LinearProbing.Proofs.Run

set_option autoImplicit false

/-!
# Scripts

A predicate may go back to the container that asks it. A script says what it does there, call by call.
As long as the container refuses every lookup, the first one ends the script, and all that a script
learns before is what the container shows without a lookup.
-/

namespace LinearProbing

variable {σ α β E L A χ χ' ρ ρ' : Type}

inductive Glance where
  | len
  | isEmpty
  | capacity
  | list

inductive Sight (E : Type) where
  | number (n : Nat)
  | flag (b : Bool)
  | list (entries : List E)

/-- What a predicate does when it is asked about a key. It knows the state of its caller, and it may make
lookups `L` in the container that asks, which answer with `A`. -/
inductive Script (σ E L A : Type) where
  | answer (accepted : Bool)
  | stop (fault : Fault)
  | consult (next : σ → Script σ E L A)
  | note (w : σ) (next : Script σ E L A)
  | glance (g : Glance) (next : Sight E → Script σ E L A)
  | lookUp (l : L) (next : A → Script σ E L A)

/-- A call that a script made, and what came of it. -/
inductive Glimpse (E L A : Type) where
  | glance (g : Glance) (sight : Sight E)
  | lookUp (l : L) (result : Except Fault A)

def Script.ask (lookUp : L → StateM σ (Except Fault A)) (l : L) :
    Query (σ × List (Glimpse E L A)) A :=
  ExceptT.mk fun (w, seen) =>
    let (result, w) := (lookUp l).run w
    (result, w, seen ++ [.lookUp l result])

/-- Follows a script in a container that shows `sight`, and keeps a log of its calls. A lookup that fails
ends the script. -/
def Script.run (sight : Glance → Sight E) (lookUp : L → StateM σ (Except Fault A)) :
    Script σ E L A → Query (σ × List (Glimpse E L A)) Bool
  | .answer accepted => pure accepted
  | .stop fault => throw fault
  | .consult next => do
    let before ← get
    (next before.1).run sight lookUp
  | .note w next => do
    modify fun before => (w, before.2)
    next.run sight lookUp
  | .glance g next => do
    modify fun before => (before.1, before.2 ++ [.glance g (sight g)])
    (next (sight g)).run sight lookUp
  | .lookUp l next => do
    let a ← ask lookUp l
    (next a).run sight lookUp

def Script.meddle (l : L) : Script σ E L A :=
  .glance .list fun _ => .glance .len fun _ => .lookUp l fun _ => .answer true

/-- Nothing was looked up, and all that was shown is `sight`. -/
def Quiet (sight : Glance → Sight E) (seen : List (Glimpse E L A)) : Prop :=
  ∀ x ∈ seen, ∃ g, x = .glance g (sight g)

/-- A lookup was refused, and it was the last call. -/
def Refused (sight : Glance → Sight E) (seen : List (Glimpse E L A)) : Prop :=
  ∃ before l, Quiet sight before ∧ seen = before ++ [.lookUp l (.error .reentrant)]

/-- A question ends without a lookup, or with the refusal of one. -/
def Ended (sight : Glance → Sight E) : Except Fault α × σ × List (Glimpse E L A) → Prop
  | (.ok _, _, seen) => Quiet sight seen
  | (.error fault, _, seen) => Quiet sight seen ∨ fault = .reentrant ∧ Refused sight seen

variable {sight : Glance → Sight E} {seen : List (Glimpse E L A)}

theorem Quiet.concat (h : Quiet sight seen) (g : Glance) :
    Quiet sight (seen ++ [.glance g (sight g)]) := by
  intro x hx
  rcases List.mem_append.1 hx with hold | hnew
  · exact h x hold
  · exact ⟨g, List.mem_singleton.1 hnew⟩

theorem Script.run_ended {lookUp : L → StateM σ (Except Fault A)}
    (hrefuse : ∀ l w, (lookUp l).run w = (.error .reentrant, w)) (script : Script σ E L A) (w : σ)
    (hquiet : Quiet sight seen) :
    Ended sight ((script.run sight lookUp).run.run (w, seen)) := by
  induction script generalizing w seen with
  | answer accepted => exact hquiet
  | stop fault => exact .inl hquiet
  | consult next ih => exact ih w w hquiet
  | note w' next ih => exact ih w' hquiet
  | glance g next ih => exact ih (sight g) w (hquiet.concat g)
  | lookUp l next ih =>
    have hask : (ask lookUp l).run.run (w, seen) =
        (.error .reentrant, w, seen ++ [Glimpse.lookUp l (.error .reentrant)]) :=
      congrArg (fun r : Except Fault A × σ => (r.1, r.2, seen ++ [Glimpse.lookUp l r.1])) (hrefuse l w)
    rw [Script.run, ExceptT.run_bind, StateT.run_bind, hask]
    exact .inr ⟨rfl, seen, l, hquiet, rfl⟩

theorem findM?_ended {accept : α → Query (σ × List (Glimpse E L A)) Bool}
    (hask : ∀ x w seen, Quiet sight seen → Ended sight ((accept x).run.run (w, seen))) (l : List α)
    (w : σ) (hquiet : Quiet sight seen) :
    Ended sight ((l.findM? accept).run.run (w, seen)) := by
  induction l generalizing w seen with
  | nil => exact hquiet
  | cons x l ih =>
    have hfirst := hask x w seen hquiet
    rw [findM?_cons_run]
    rcases hrun : (accept x).run.run (w, seen) with ⟨fault | accepted, w', seen'⟩
    · rw [hrun] at hfirst
      exact hfirst
    · rw [hrun] at hfirst
      cases accepted with
      | true => exact hfirst
      | false => exact ih w' hfirst

/-- All that scripts saw during a call is the container as it was before. A lookup of a script was refused
and ended the call, which left the container as it was. -/
def Shielded (sight : Glance → Sight E) (c : χ) (o : Outcome χ ρ) (seen : List (Glimpse E L A)) : Prop :=
  ∀ before x after, seen = before ++ x :: after →
    match x with
    | .glance g shown => shown = sight g
    | .lookUp _ result => result = .error .reentrant ∧ after = [] ∧ o = .fail .reentrant c

theorem Quiet.shielded (h : Quiet sight seen) (c : χ) (o : Outcome χ ρ) :
    Shielded sight c o seen := by
  intro before x after hseen
  obtain ⟨g, rfl⟩ := h x (by simp [hseen])
  rfl

theorem Refused.shielded (h : Refused sight seen) (c : χ) :
    Shielded sight c (.fail .reentrant c : Outcome χ ρ) seen := by
  obtain ⟨quiet, l, hquiet, rfl⟩ := h
  intro before x after hseen
  rcases List.eq_nil_or_concat after with rfl | ⟨after, last, rfl⟩
  · obtain ⟨-, hlast⟩ := List.append_inj' hseen rfl
    cases hlast
    exact ⟨rfl, rfl, rfl⟩
  · have hsplit : quiet ++ [.lookUp l (.error .reentrant)] = before ++ x :: after ++ [last] := by
      simpa using hseen
    obtain ⟨rfl, -⟩ := List.append_inj' hsplit rfl
    obtain ⟨g, rfl⟩ := hquiet x (by simp)
    rfl

theorem Shielded.within {c : χ} {o : Outcome χ ρ} (h : Shielded sight c o seen) (f : ρ → ρ')
    (wrap : χ → χ') : Shielded sight (wrap c) ((o.map f).within wrap) seen := by
  intro before x after hseen
  have hx := h before x after hseen
  cases x with
  | glance g shown => exact hx
  | lookUp l result =>
    obtain ⟨hresult, hlast, rfl⟩ := hx
    exact ⟨hresult, hlast, rfl⟩

/-- How a call ends whose predicate follows one of these scripts for each key that it is asked about, with
the state and the log of its caller. It is not under probe any more. With no key to ask about it is the
call `plain`, whose predicate never accepts, and that one is answered in a container of a proper size. -/
structure Withstands (sight : Glance → Sight E) (lookUp : L → StateM σ (Except Fault A))
    (busy : χ → Bool) (scripts : List (Script σ E L A)) (plain : Outcome χ ρ) (sized : Prop) (c : χ)
    (w : σ) (r : Outcome χ ρ × σ × List (Glimpse E L A)) : Prop where
  shielded : Shielded sight c r.1 r.2.2
  idle : busy r.1.state = false
  /-- The scripts are followed one after the other, up to the first one that accepts or stops. -/
  asked : r.2 = ((scripts.findM? (Script.run sight lookUp)).run.run (w, [])).2
  unasked : scripts = [] → r = (plain, w, []) ∧ (sized → ∃ reply, plain.result = .ok reply)

theorem Withstands.within {lookUp : L → StateM σ (Except Fault A)} {busy : χ → Bool}
    {scripts : List (Script σ E L A)} {plain : Outcome χ ρ} {sized : Prop} {c : χ} {w : σ}
    {r : Outcome χ ρ × σ × List (Glimpse E L A)}
    (h : Withstands sight lookUp busy scripts plain sized c w r) (f : ρ → ρ') (wrap : χ → χ')
    (busy' : χ' → Bool) (hbusy : ∀ c, busy' (wrap c) = busy c) :
    Withstands sight lookUp busy' scripts ((plain.map f).within wrap) sized (wrap c) w
      ((r.1.map f).within wrap, r.2) := by
  refine ⟨h.shielded.within f wrap, (hbusy _).trans h.idle, h.asked, fun hnone => ?_⟩
  obtain ⟨rfl, hanswer⟩ := h.unasked hnone
  refine ⟨rfl, fun hsized => ?_⟩
  obtain ⟨reply, hreply⟩ := hanswer hsized
  exact ⟨f reply, congrArg (Except.map f) hreply⟩

end LinearProbing
