import FpgaRouting.Architecture
import FpgaRouting.Formula.Basic

/-!
# Failure — how a build can end without a result

A build is all or nothing.  It is **refused** with a `Refusal` that names its cause, or it is
**aborted** by a `Fault` where word arithmetic has no answer; in neither case is there a partial
result.
-/

namespace FpgaRouting

/-- Records that disagree with each other or with the device. -/
inductive Mismatch
  | duplicateWireType (name : String)
  | directionality (switchblock : String) (own device : Directionality)
  | unknownWireType (switchblock name : String)
  | noTiles (width height : Nat)
  | zeroLength (wireType : String)
  | unevenWidth (channelWidth : Nat) (directionality : Directionality)
  | zeroFrequencies
deriving DecidableEq, Repr

def Mismatch.message : Mismatch → String
  | .duplicateWireType name => "wire type " ++ name ++ " is defined more than once"
  | .directionality switchblock own device =>
    "switchblock " ++ switchblock ++ " is " ++ own.name ++ ", but the device is " ++ device.name
  | .unknownWireType switchblock name =>
    "switchblock " ++ switchblock ++ " refers to unknown wire type " ++ name
  | .noTiles width height =>
    "device of size " ++ toString width ++ "x" ++ toString height ++ " has no tiles"
  | .zeroLength wireType => "wire type " ++ wireType ++ " has zero length"
  | .unevenWidth channelWidth d =>
    "channel width " ++ toString channelWidth ++ " is not a multiple of "
      ++ toString d.tracksPerWire ++ " required by a " ++ d.name ++ " architecture"
  | .zeroFrequencies => "wire type frequencies add up to zero"

/-- A violated invariant of the geometry: a track whose group at a seg is none of its wire, or a
result that selects no destination. -/
inductive Inconsistency
  | group (track firstSeg lastSeg length : Nat) (value seg : Int)
  | selection (formula : String) (result : Int) (destinations : Nat)
deriving DecidableEq, Repr

def Inconsistency.message : Inconsistency → String
  | .group track firstSeg lastSeg length value seg =>
    "track " ++ toString track ++ " (seg " ++ toString firstSeg ++ ".." ++ toString lastSeg
      ++ ", L=" ++ toString length ++ ") has invalid group " ++ toString value ++ " at seg "
      ++ toString seg
  | .selection text result destinations =>
    "formula \"" ++ text ++ "\" result " ++ toString result ++ " can't index "
      ++ toString destinations ++ " destinations"

/-- Why a build is refused. -/
inductive Refusal
  | config (mismatch : Mismatch)
  | formula (switchblock : String) (sides : SidePair) (error : Formula.Error)
  | internal (inconsistency : Inconsistency)
deriving DecidableEq, Repr

def Refusal.message : Refusal → String
  | .config mismatch => "configuration mismatch: " ++ mismatch.message
  | .formula switchblock sides error =>
    "switchblock " ++ switchblock ++ ", permutation " ++ sides.code ++ " (" ++ sides.enter.name
      ++ " -> " ++ sides.leave.name ++ "): " ++ error.message
  | .internal inconsistency => "internal consistency error: " ++ inconsistency.message

inductive Failure
  | refused (error : Refusal)
  | aborted (fault : Fault)
deriving DecidableEq, Repr

/-- The result of a step of a build. -/
abbrev Outcome := Except Failure

namespace Outcome

/-- Word arithmetic inside a build: its faults abort. -/
def ofWord {α : Type} : Except Fault α → Outcome α
  | .ok a => .ok a
  | .error fault => .error (.aborted fault)

instance : MonadLift (Except Fault) Outcome := ⟨ofWord⟩

@[simp] theorem ofWord_ok {α : Type} (a : α) : ofWord (.ok a) = .ok a := rfl

@[simp] theorem ofWord_error {α : Type} (fault : Fault) :
    (ofWord (.error fault) : Outcome α) = .error (.aborted fault) := rfl

def refuse {α : Type} (error : Refusal) : Outcome α := .error (.refused error)

end Outcome

end FpgaRouting
