import FpgaRouting.Connections.Basic
import FpgaRouting.Fabric
import FpgaRouting.Json.Text

/-!
# Connections/Export — connections as a JSON document

A JSON object is keyed by strings, so **each key is flattened to its written form** and leads to the
array of its targets.  The full document says also for which device the connections were built.
-/

namespace FpgaRouting

def Target.toJson (t : Target) : Json :=
  .object [("to_track", .nat t.track), ("switch_name", .string t.switchName)]

/-- The connections, in the order of their keys. -/
def Connections.toJson (m : Connections) : Json :=
  .object (m.toList.map fun (k, ts) => (k.text, .array (ts.map Target.toJson)))

def Device.toJson (d : Device) : Json :=
  .object [("width", .nat d.width), ("height", .nat d.height),
    ("channel_width", .nat d.channelWidth)]

/-- The connections together with the device and the period they were stamped with. -/
def Connections.document (m : Connections) (f : Fabric) (period : Option Nat) : Json :=
  .object [
    ("device", f.device.toJson),
    ("directionality", .string f.directionality.name),
    ("stamp_period", .option .nat period),
    ("connection_count", .nat m.targetCount),
    ("connections", m.toJson)]

end FpgaRouting
