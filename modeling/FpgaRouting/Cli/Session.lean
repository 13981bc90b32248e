import FpgaRouting.Cli.Invocation
import FpgaRouting.Cli.Milestone

/-!
# Cli/Session — what a run leaves behind

A session prints, notes milestones and may end early.  **What was printed and noted before the end
remains.**  Its report is what the caller of the program gets to see.
-/

namespace FpgaRouting.Cli

/-- The early ends of a run. -/
inductive Ending
  | refused (error : Refusal)
  | usage (error : UsageError)
  /-- Nothing can be said about the input. -/
  | aborted (reason : String)
deriving DecidableEq, Repr

namespace Ending

def exitCode : Ending → Nat
  | refused _ => 1
  | usage _ => 2
  | aborted _ => 101

def message : Ending → String
  | refused error => "Build failed: " ++ error.message ++ "\n"
  | usage error => "error: " ++ error.message ++ "\n"
  | aborted reason => "aborted: " ++ reason ++ "\n"

end Ending

/-- What has been printed, and the milestones passed. -/
structure Transcript where
  printed : String := ""
  milestones : List Milestone := []
deriving DecidableEq, Repr

structure Report where
  exitCode : Nat
  stdout : String
  stderr : String
deriving DecidableEq, Repr

abbrev Session (m : Type → Type) := ExceptT Ending (StateT Transcript m)

namespace Session

variable {m : Type → Type} [Monad m]

def print (text : String) : Session m Unit :=
  modify fun t => { t with printed := t.printed ++ text }

def note (milestone : Milestone) : Session m Unit :=
  modify fun t => { t with milestones := t.milestones ++ [milestone] }

def stop {α : Type} (ending : Ending) : Session m α := throw ending

/-- A step of a build. -/
def ofOutcome {α : Type} : Outcome α → Session m α
  | .ok a => pure a
  | .error (.refused error) => stop (.refused error)
  | .error (.aborted fault) => stop (.aborted fault.message)

/-- Runs a session and reports on it, with the milestones if the log level shows them. -/
def report (level : Nat) (s : Session m Unit) : m Report := do
  let (ending, t) ← (s.run).run {}
  let log := if milestoneLevel ≤ level then t.milestones.map Milestone.line else []
  match ending with
  | .ok () => return ⟨0, t.printed, String.join log⟩
  | .error e => return ⟨e.exitCode, t.printed, String.join log ++ e.message⟩

end Session

end FpgaRouting.Cli
