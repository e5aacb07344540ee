import Ubl.Lib.RwLock
import Mathlib.Data.Fin.VecNotation
import Mathlib.Data.Fintype.Basic
import Mathlib.Tactic.FinCases

/-!
# The lock of the stage secrets

Every stage of a request signs its entry of the receipt under a read guard of `stage_secrets`, and
`ubl/key.rotate` takes a write guard.  A denied request, and one rejected by KNOCK, keeps a read
guard while `append_stage_receipt` takes another one.  If a rotation asks in between, all requests
wait for ever (`secrets_stuck`); this is the only way (`secrets_not_stuck`).
-/

namespace Ubl.Pipeline.Secrets

open RwLock

/-- `append_stage_receipt`: the guard lives until the entry is appended. -/
def appendStageReceipt : List Op := [.lock .read, .drop]

/-- WA, CHECK, TR and WF of an allowed request. -/
def processAllowed : List Op :=
  appendStageReceipt ++ appendStageReceipt ++ appendStageReceipt ++ appendStageReceipt

/-- A rotation writes the new secret when its chips are stored. -/
def processKeyRotate : List Op := processAllowed ++ [.lock .write, .drop]

/-- The guard under which the receipt is marked as denied lives to the end of the block. -/
def denyBlock : List Op := .lock .read :: appendStageReceipt ++ [.drop]

/-- WA, CHECK and the short circuit. -/
def processDenied : List Op := appendStageReceipt ++ appendStageReceipt ++ denyBlock

/-- `process_knock_rejection`. -/
def processKnockRejection : List Op := appendStageReceipt ++ denyBlock

/-- How a request goes; one that fails or is replayed stops earlier. -/
inductive Course where
  | allowed
  | keyRotate
  | denied
  | knockRejected
deriving DecidableEq

def Course.program : Course → List Op
  | .allowed => processAllowed
  | .keyRotate => processKeyRotate
  | .denied => processDenied
  | .knockRejected => processKnockRejection

variable {ι : Type} [DecidableEq ι]

/-- Requests that have not started. -/
def requests (courses : ι → Course) : State ι := State.init fun i => (courses i).program

theorem wellNested_program (course : Course) : wellNested [] course.program := by
  cases course <;> rfl

/-- While rotations ask for the lock only when no other request stands between its first guard of
a deny block and the second one, somebody can always go on. -/
theorem secrets_not_stuck (courses : ι → Course) (s : State ι)
    (h : Reaches WriterClear (requests courses) s) : ¬ s.Stuck :=
  not_stuck (fun i => wellNested_program (courses i)) h

/-! ## A run that gets stuck -/

/-- A request rejected by KNOCK, and a rotation. -/
def rejectionAndRotation : Fin 2 → Course := ![.knockRejected, .keyRotate]

/-- The events of `append_stage_receipt`. -/
def appends (i : Fin 2) : List (Event (Fin 2)) := [.queue i, .grant i, .drop i]

/-- The rotation up to where it asks for the write guard. -/
def rotates : List (Event (Fin 2)) := appends 1 ++ appends 1 ++ appends 1 ++ appends 1 ++ [.queue 1]

/-- The rejection is between its two guards when the rotation asks. -/
def rotatesBetween : List (Event (Fin 2)) :=
  appends 0 ++ [.queue 0, .grant 0] ++ rotates ++ [.queue 0]

/-- The rejection has asked for its second guard. -/
def rotatesAfter : List (Event (Fin 2)) :=
  appends 0 ++ [.queue 0, .grant 0, .queue 0] ++ [.grant 0] ++ rotates

theorem secrets_stuck : ∃ s : State (Fin 2),
    Reaches (fun _ _ => True) (requests rejectionAndRotation) s ∧ s.Stuck := by
  obtain ⟨s, hs⟩ : ∃ s, run (fun _ _ => true) (requests rejectionAndRotation) rotatesBetween =
      some s := ⟨_, rfl⟩
  refine ⟨s, (reaches_of_run .start hs).mono fun _ _ _ => trivial, ?_⟩
  obtain rfl := Option.some.inj hs
  refine ⟨⟨1, by decide⟩, fun e => ?_⟩
  cases e with
  | queue i | grant i | drop i | leave i => fin_cases i <;> rfl

theorem secrets_not_stuck_rotation : ∃ s : State (Fin 2),
    run (fun s e => decide (WriterClear s e)) (requests rejectionAndRotation) rotatesAfter =
      some s ∧ s.wants 1 = some .write ∧ ¬ s.Stuck := by
  obtain ⟨s, hs⟩ : ∃ s, run (fun s e => decide (WriterClear s e)) (requests rejectionAndRotation)
      rotatesAfter = some s := ⟨_, rfl⟩
  have hreaches := (reaches_of_run .start hs).mono fun _ _ => of_decide_eq_true
  refine ⟨s, hs, ?_, secrets_not_stuck rejectionAndRotation s hreaches⟩
  obtain rfl := Option.some.inj hs
  rfl

end Ubl.Pipeline.Secrets
