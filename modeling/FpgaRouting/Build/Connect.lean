import FpgaRouting.Channel.Candidates
import FpgaRouting.Connections.Basic
import FpgaRouting.Fabric

/-!
# Build/Connect — the targets of one source track

A rule of a switchblock joins a source track to destinations when it names the source's wire type
and wirepoint.  With `W` destination candidates, and the source the `t`-th of its own candidates,
each formula of the side pair selects one destination.  **A side without a channel, a rule without
destinations and a source that is not driven towards the switchblock contribute nothing**; none of
them is an error.
-/

namespace FpgaRouting

/-- Whether a rule names the wire type and the wirepoint of a source. -/
def Rule.namesSource (r : Rule) (wireType wirepoint : Nat) : Bool :=
  r.fromTypes.contains wireType && r.fromPoints.all (·.contains wirepoint)

namespace Switchblock

/-- The destination that a formula selects for the `t`-th source candidate. -/
def select (s : Switchblock) (p : SidePair) (destinations : List Nat) (t : Nat) (f : Formula) :
    Outcome Nat :=
  match f.eval ⟨Word.toSigned destinations.length, Word.toSigned t⟩ with
  | .error e => Outcome.refuse (.formula s.name p e)
  | .ok result => do
    match ← Formula.wrap result destinations.length with
    | none => Outcome.refuse (.internal (.selection f.text result destinations.length))
    | some index =>
      match destinations[index]? with
      | some track => return track
      | none => throw (.aborted .outOfRange)

/-- What one rule contributes to the targets of a source. -/
def ruleTargets (s : Switchblock) (d : Directionality) (p : SidePair) (source destination : Channel)
    (wireType wirepoint track : Nat) (r : Rule) : Outcome (List Target) := do
  if !r.namesSource wireType wirepoint then return []
  let destinations ← destination.candidates p.leave r.toTypes r.toPoints
    (p.leave.destinationHeading d)
  if destinations.isEmpty then return []
  let sources ← source.candidates p.enter r.fromTypes r.fromPoints (p.enter.sourceHeading d)
  match sources.idxOf? track with
  | none => return []
  | some t =>
    (s.formulas p).mapM fun f => do
      return ⟨← s.select p destinations t f, r.switchName⟩

/-- The targets of a track of one channel in another. -/
def route (s : Switchblock) (d : Directionality) (p : SidePair) (source destination : Channel)
    (track : Nat) : Outcome (List Target) := do
  let wire ← source.track track
  let wirepoint ← source.wirepoint track p.enter
  let found ← s.rules.mapM
    (s.ruleTargets d p source destination wire.wireType wirepoint track)
  return found.flatten

end Switchblock

namespace Fabric

/-- The targets of a key in one switchblock, rule by rule. -/
def targetsIn (f : Fabric) (k : Key) (s : Switchblock) : Outcome (List Target) := do
  match SidePair.of? k.enter k.leave with
  | none => return []
  | some p =>
    if (s.formulas p).isEmpty then return []
    let source? ← f.layout.channelAt? k.tile p.enter
    let destination? ← f.layout.channelAt? k.tile p.leave
    match source?, destination? with
    | some source, some destination =>
      if source.tracks.size ≤ k.track then return []
      s.route f.directionality p source destination k.track
    | _, _ => return []

/-- The targets of a key over all switchblocks, each once. -/
def targets (f : Fabric) (k : Key) : Outcome (List Target) :=
  f.switchblocks.foldlM (fun ts s => do return (← f.targetsIn k s).foldl addOnce ts) []

end Fabric

end FpgaRouting
