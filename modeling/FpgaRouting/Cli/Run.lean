import FpgaRouting.Build.Parallel
import FpgaRouting.Cli.Session
import FpgaRouting.Connections.Export
import FpgaRouting.Directory

/-!
# Cli/Run — the program

`run` opens the architecture and does what the command line asks: it builds all connections, prints
a summary and exports them if there is a file to export to, or it answers a query about one track.
Files are reached through `Files`, on a disk or in a `Directory`.
-/

namespace FpgaRouting.Cli

/-- How a program reaches its files. -/
structure Files (m : Type → Type) where
  /-- The file at a path, if it can be opened. -/
  find : String → m (Option StoredFile)
  /-- Writes a file, and says whether it could. -/
  write : String → StoredFile → m Bool

/-- The files of a directory that is held in memory. -/
def Files.inDirectory : Files (StateM Directory) where
  find path := return (← get).find? path
  write path file := do
    match (← get).write? path file with
    | some d => do set d; return true
    | none => return false

variable {m : Type → Type} [Monad m]

open Session

/-- Opens the architecture that a command works on. -/
def load (files : Files m) (i : Invocation) : Session m Architecture := do
  match Architecture.ofFile i.compressed (← files.find i.architecture) with
  | .ok a =>
    note (.ofArchitecture i.architecture a)
    return a
  | .error e => stop (.aborted e.message)

def accept (a : Architecture) : Session m Fabric := do
  let f ← ofOutcome (Fabric.ofArchitecture a)
  for milestone in Milestone.ofFabric f do
    note milestone
  return f

/-- The plan to stamp with, if the device is to be stamped and can be. -/
def plan? (f : Fabric) : Session m (Option Stamping) := do
  let decision ← ofOutcome (Outcome.ofWord (StampDecision.of f))
  note (.ofDecision f (← ofOutcome (Outcome.ofWord f.longestPeriod)) decision)
  return decision.plan?

/-- All connections, built by one worker. -/
def buildAlone (f : Fabric) (plan : Option Stamping) : Session m Connections := do
  match plan with
  | some p =>
    note (.stampedBuild (p.computedTiles f).length (p.copiedTiles f).length)
    ofOutcome (f.stampedConnections p)
  | none =>
    note (.directBuild f.tiles.length)
    ofOutcome f.computedConnections

/-- What is printed about a build. -/
def summary (f : Fabric) (period : Option Nat) (longestPeriod : Nat) (built : Connections) :
    String :=
  "Switchblock connections:\n"
    ++ "    Device:                 " ++ Milestone.size f.device ++ ", W="
    ++ toString f.device.channelWidth ++ ", " ++ f.directionality.name ++ "\n"
    ++ "    Stamp period:           " ++ (period.map toString).getD "none (direct build)" ++ "\n"
    ++ "    Max. lcm:               " ++ toString longestPeriod ++ "\n"
    ++ "    No. of keys:            " ++ toString built.size ++ "\n"
    ++ "    No. of connections:     " ++ toString built.targetCount ++ "\n"

/-- What is exported of a build. -/
def document (f : Fabric) (period : Option Nat) (longestPeriod workers : Nat)
    (built : Connections) : Document :=
  Document.empty
    |>.add "summary" (.object [
      ("keys", .nat built.size),
      ("connections", .nat built.targetCount),
      ("stamp_period", .option .nat period),
      ("max_lcm", .nat longestPeriod),
      ("threads", .nat workers)])
    |>.add "switchblocks" (built.document f period)

/-- The build command.  **Several workers plan the stamping once more by themselves.** -/
def build (files : Files m) (f : Fabric) (workers : Nat) (stamp : Bool) (json : Option String) :
    Session m Unit := do
  let plan ← if stamp then plan? f else pure none
  let period := plan.map (·.period)
  let longestPeriod ← ofOutcome (Outcome.ofWord f.longestPeriod)
  let built ←
    if workers = 1 then buildAlone f plan
    else do
      if stamp then
        let _ ← plan? f
      ofOutcome (f.parallelConnections workers stamp)
  print (summary f period longestPeriod built)
  match json with
  | none => return
  | some path =>
    let file := (document f period longestPeriod workers built).file path
    if ← files.write path file then note (.exported path)
    else stop (.aborted ("can't write " ++ path))

/-- What is printed about the targets of a key. -/
def answer (k : Key) : Option (List Target) → String
  | none => "No connections for " ++ k.text ++ "\n"
  | some targets =>
    "Track " ++ toString k.track ++ " at (" ++ toString k.x ++ ", " ++ toString k.y ++ "), "
      ++ k.enter.name ++ " -> " ++ k.leave.name ++ ":\n"
      ++ String.join (targets.map fun t =>
        "    track " ++ toString t.track ++ " via " ++ t.switchName ++ "\n")

/-- The query command. -/
def query (f : Fabric) (k : Key) : Session m Unit := do
  let built ← ofOutcome (f.connectionsAt k.tile)
  print (answer k (built.get? k))

def perform (files : Files m) (i : Invocation) : Session m Unit := do
  if let .build 0 .. := i.command then
    stop (.aborted "there must be a worker")
  let a ← load files i
  let f ← accept a
  match i.command with
  | .build workers stamp json => build files f workers stamp json
  | .query k => query f k

/-- Runs the program, called by a name, on its arguments. -/
def run (files : Files m) (program : String) (level : Nat) (args : List String) : m Report :=
  report level <|
    match Invocation.parse args with
    | .ok i => perform files i
    | .error .help => print (Invocation.usage program)
    | .error .version => print (program ++ " 0.1.0\n")
    | .error (.usage e) => stop (.usage e)

end FpgaRouting.Cli
