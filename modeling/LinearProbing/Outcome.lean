import LinearProbing.Fault
import LinearProbing.Event

set_option autoImplicit false

/-!
# Outcomes

The outcome of an operation holds the state that the operation leaves behind, whether it answered
or stopped with a fault, and the events it reported on the way.
-/

namespace LinearProbing

/-- An answer or a fault, the state left behind, and the events reported, first one first. -/
structure Outcome (σ α : Type) where
  result : Except Fault α
  state : σ
  events : List Event

namespace Outcome

variable {σ τ α β ι : Type}

@[inline] def ok (a : α) (s : σ) : Outcome σ α := ⟨.ok a, s, []⟩

@[inline] def fail (f : Fault) (s : σ) : Outcome σ α := ⟨.error f, s, []⟩

@[inline] def ofExcept (r : Except Fault α) (s : σ) : Outcome σ α := ⟨r, s, []⟩

/-- Reports one event before all that the operation reports. -/
@[inline] def after (e : Event) (o : Outcome σ α) : Outcome σ α :=
  { o with events := e :: o.events }

/-- Goes on from the answer and the state left behind. After a fault nothing more happens. -/
@[inline] def bind (o : Outcome σ α) (next : α → σ → Outcome σ β) : Outcome σ β :=
  match o with
  | ⟨.error f, s, events⟩ => ⟨.error f, s, events⟩
  | ⟨.ok a, s, events⟩ =>
    let o := next a s
    { o with events := events ++ o.events }

@[inline] def map (f : α → β) (o : Outcome σ α) : Outcome σ β :=
  ⟨o.result.map f, o.state, o.events⟩

/-- Sees the state that is left behind as a part of a larger one. -/
@[inline] def within (f : σ → τ) (o : Outcome σ α) : Outcome τ α :=
  ⟨o.result, f o.state, o.events⟩

/-- Takes one step for each item in turn, and stops at the first fault. -/
def fold (step : α → ι → σ → Outcome σ α) (items : List ι) (a : α) (s : σ) : Outcome σ α :=
  items.foldl (fun o item => o.bind fun a s => step a item s) (ok a s)

@[simp] theorem result_ok (a : α) (s : σ) : (ok a s).result = .ok a := rfl

@[simp] theorem state_ok (a : α) (s : σ) : (ok a s).state = s := rfl

@[simp] theorem events_ok (a : α) (s : σ) : (ok a s).events = [] := rfl

@[simp] theorem result_fail (f : Fault) (s : σ) : (fail f s : Outcome σ α).result = .error f := rfl

@[simp] theorem state_fail (f : Fault) (s : σ) : (fail f s : Outcome σ α).state = s := rfl

@[simp] theorem events_fail (f : Fault) (s : σ) : (fail f s : Outcome σ α).events = [] := rfl

@[simp] theorem ok_bind (a : α) (s : σ) (next : α → σ → Outcome σ β) :
    (ok a s).bind next = next a s := rfl

@[simp] theorem map_ok (f : α → β) (a : α) (s : σ) : (ok a s).map f = ok (f a) s := rfl

@[simp] theorem state_map (f : α → β) (o : Outcome σ α) : (o.map f).state = o.state := rfl

@[simp] theorem within_ok (f : σ → τ) (a : α) (s : σ) : (ok a s).within f = ok a (f s) := rfl

@[simp] theorem within_fail (f : σ → τ) (e : Fault) (s : σ) :
    (fail e s : Outcome σ α).within f = fail e (f s) := rfl

@[simp] theorem state_within (f : σ → τ) (o : Outcome σ α) : (o.within f).state = f o.state := rfl

theorem bind_of_ok {o : Outcome σ α} {a : α} (h : o.result = .ok a)
    (next : α → σ → Outcome σ β) :
    o.bind next =
      ⟨(next a o.state).result, (next a o.state).state, o.events ++ (next a o.state).events⟩ := by
  rcases o with ⟨r, s, events⟩
  cases h
  rfl

theorem bind_of_error {o : Outcome σ α} {f : Fault} (h : o.result = .error f)
    (next : α → σ → Outcome σ β) : o.bind next = ⟨.error f, o.state, o.events⟩ := by
  rcases o with ⟨r, s, events⟩
  cases h
  rfl

@[simp] theorem bind_ok (o : Outcome σ α) : o.bind ok = o := by
  rcases o with ⟨fault | a, s, events⟩
  · rfl
  · exact congrArg (Outcome.mk _ _) (List.append_nil events)

theorem bind_assoc {γ : Type} (o : Outcome σ α) (next : α → σ → Outcome σ β)
    (last : β → σ → Outcome σ γ) :
    (o.bind next).bind last = o.bind fun a s => (next a s).bind last := by
  rcases o with ⟨fault | a, s, events⟩
  · rfl
  · simp only [bind]
    rcases next a s with ⟨fault | b, s', events'⟩
    · rfl
    · simp only [List.append_assoc]

theorem fold_cons (step : α → ι → σ → Outcome σ α) (item : ι) (items : List ι) (a : α) (s : σ) :
    fold step (item :: items) a s = (step a item s).bind fun a s => fold step items a s := by
  have hbind : ∀ o : Outcome σ α, items.foldl (fun o item => o.bind fun a s => step a item s) o =
      o.bind fun a s => fold step items a s := by
    induction items with
    | nil => exact fun o => o.bind_ok.symm
    | cons item items ih =>
      intro o
      rw [List.foldl_cons, ih, bind_assoc]
      congr 1
      funext a s
      exact (ih (step a item s)).symm
  exact hbind (step a item s)

theorem fold_append_single (step : α → ι → σ → Outcome σ α) (items : List ι) (item : ι) (a : α)
    (s : σ) :
    fold step (items ++ [item]) a s = (fold step items a s).bind fun a s => step a item s := by
  simp [fold, List.foldl_append]

end Outcome

end LinearProbing
