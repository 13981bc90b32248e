import FpgaRouting.Stamp.Plan
import FpgaRouting.Text.Blank
import FpgaRouting.Text.Numeral

/-!
# Cli/Milestone — the log of a run

A run notes the milestones that it passes.  They are shown to whoever asks for them by a log level:
**a level that is no number shows none**.
-/

namespace FpgaRouting.Cli

inductive Milestone
  | loaded (path : String) (wireTypes switchblocks : Nat)
  | laidOut (channels channelWidth : Nat) (tracksPerType : List Nat)
  | accepted (device : Device) (directionality : Directionality) (wireTypes switchblocks : Nat)
  | noRules
  | unfit (device : Device) (period longest : Nat)
  | stamping (period longestPeriod : Nat)
  | stampedBuild (computed stamped : Nat)
  | directBuild (tiles : Nat)
  | exported (path : String)
deriving DecidableEq, Repr

namespace Milestone

/-- A number with the noun that it counts; the noun keeps its plural. -/
def counted (n : Nat) (noun : String) : String := toString n ++ " " ++ noun

def size (d : Device) : String := toString d.width ++ "x" ++ toString d.height

def text : Milestone → String
  | loaded path wireTypes switchblocks =>
    "Loaded " ++ path ++ ": " ++ counted wireTypes "wire types" ++ ", "
      ++ counted switchblocks "switchblocks"
  | laidOut channels channelWidth tracksPerType =>
    "Built " ++ counted channels "channels" ++ ", " ++ counted channelWidth "tracks each"
      ++ " (per type: [" ++ String.intercalate ", " (tracksPerType.map toString) ++ "])"
  | accepted d directionality wireTypes switchblocks =>
    "Build context: " ++ size d ++ " tiles, W=" ++ toString d.channelWidth ++ ", "
      ++ directionality.name ++ ", " ++ counted wireTypes "wire types" ++ ", "
      ++ counted switchblocks "switchblocks"
  | noRules => "No wireconn rules, stamping disabled"
  | unfit d period longest =>
    "Device " ++ size d ++ " can't be stamped with period " ++ toString period
      ++ " (longest wire " ++ toString longest ++ ")"
  | stamping period longestPeriod =>
    "Stamping with period " ++ toString period ++ " (max lcm " ++ toString longestPeriod ++ ")"
  | stampedBuild computed stamped =>
    "Computing " ++ counted computed "tiles" ++ ", stamping " ++ counted stamped "tiles"
  | directBuild tiles => "Computing " ++ counted tiles "tiles" ++ " directly"
  | exported path => "Exported connection map to " ++ path

/-- A milestone as a line of the log. -/
def line (m : Milestone) : String := "INFO: " ++ m.text ++ "\n"

/-- What an architecture passes when it is loaded from a file. -/
def ofArchitecture (path : String) (a : Architecture) : Milestone :=
  loaded path a.wireTypes.length a.switchblocks.length

/-- What a fabric has passed when it is accepted. -/
def ofFabric (f : Fabric) : List Milestone :=
  [laidOut f.layout.channelCount f.device.channelWidth f.layout.counts,
    accepted f.device f.directionality f.wireTypes.length f.switchblocks.length]

/-- What a decision about stamping passes. -/
def ofDecision (f : Fabric) (longestPeriod : Nat) : StampDecision → Milestone
  | .noRules => noRules
  | .unfit period longest => unfit f.device period longest
  | .stamp plan => stamping plan.period longestPeriod

end Milestone

/-- The log level at which milestones are shown. -/
def milestoneLevel : Nat := 2

/-- The level that the text of a setting spells, `0` without a number. -/
def logLevel (setting : Option String) : Nat :=
  ((setting.bind fun text => Text.word? (Text.trim text.toList)).getD 0)

end FpgaRouting.Cli
