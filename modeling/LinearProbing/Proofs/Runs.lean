import LinearProbing.Outcome

set_option autoImplicit false

/-!
# Runs

A container is put through one operation after the other, whatever came of the operations before. A trace
keeps what was done with what came of it, so the faults, the reports and the largest number of entries of
a whole run are read off its trace.
-/

namespace LinearProbing

universe u

variable {ι : Type u} {χ ρ : Type}

/-- What was done to a container so far, each operation with its outcome, and the container after it. -/
inductive Trace (act : ι → χ → Outcome χ ρ) (start : χ) : List (ι × Outcome χ ρ) → χ → Prop where
  | start : Trace act start [] start
  | step {past : List (ι × Outcome χ ρ)} {c : χ} (i : ι) : Trace act start past c →
    Trace act start (past ++ [(i, act i c)]) (act i c).state

def faultOf (o : Outcome χ ρ) : List Fault :=
  match o.result with
  | .ok _ => []
  | .error fault => [fault]

def faults (past : List (ι × Outcome χ ρ)) : List Fault := past.flatMap fun x => faultOf x.2

def reports (past : List (ι × Outcome χ ρ)) : List Event := past.flatMap fun x => x.2.events

/-- The largest number of entries at the start and after each operation. -/
def peak (len : χ → Nat) (start : χ) (past : List (ι × Outcome χ ρ)) : Nat :=
  past.foldl (fun m x => max m (len x.2.state)) (len start)

variable (past : List (ι × Outcome χ ρ)) (x : ι × Outcome χ ρ)

@[simp] theorem faults_append_single : faults (past ++ [x]) = faults past ++ faultOf x.2 := by
  simp [faults]

@[simp] theorem reports_append_single : reports (past ++ [x]) = reports past ++ x.2.events := by
  simp [reports]

@[simp] theorem peak_append_single (len : χ → Nat) (start : χ) :
    peak len start (past ++ [x]) = max (peak len start past) (len x.2.state) := by
  simp [peak]

end LinearProbing
