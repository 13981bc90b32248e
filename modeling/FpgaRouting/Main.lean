import FpgaRouting.Cli.Run
import FpgaRouting.Gzip.File

/-!
# Main — the program on a disk

Reads and writes the files that a command names, and hands the report to the caller.
-/

namespace FpgaRouting

/-- The files of the disk. -/
def disk : Cli.Files IO where
  find path := do
    try return StoredFile.ofBytes? (← IO.FS.readBinFile path)
    catch _ => return none
  write path file := do
    try
      IO.FS.writeBinFile path file.toBytes
      return true
    catch _ => return false

end FpgaRouting

def main (args : List String) : IO UInt32 := do
  let level := FpgaRouting.Cli.logLevel (← IO.getEnv "SBGEN_DBG_LOG_LEVEL")
  let report ← FpgaRouting.Cli.run FpgaRouting.disk "sbgen" level args
  (← IO.getStdout).putStr report.stdout
  (← IO.getStderr).putStr report.stderr
  return report.exitCode.toUInt32
