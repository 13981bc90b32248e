import FpgaRouting.Main
import FpgaRouting.Records.Json
import FpgaRouting.Proofs.Formula.Acceptance
import FpgaRouting.Proofs.Build.Legality
import FpgaRouting.Proofs.Build.Reversal
import FpgaRouting.Proofs.Formula.Evaluation
import FpgaRouting.Proofs.Formula.Offences
import FpgaRouting.Proofs.Formula.Refusals
import FpgaRouting.Proofs.Build.Failures
import FpgaRouting.Proofs.Stamp.Decision
import FpgaRouting.Proofs.Stamp.Partition
import FpgaRouting.Proofs.Stamp.Copying
import FpgaRouting.Proofs.Acceptance.Violations
import FpgaRouting.Proofs.Acceptance.Report
import FpgaRouting.Proofs.Build.Composition
import FpgaRouting.Proofs.Build.Identity
import FpgaRouting.Proofs.Build.Missing
import FpgaRouting.Proofs.Build.TileSets
import FpgaRouting.Proofs.Cli.Export
import FpgaRouting.Proofs.Connections.Histories
import FpgaRouting.Proofs.Records.RoundTrip
import FpgaRouting.Proofs.Channel.LargestRemainder
import FpgaRouting.Proofs.Channel.Rows
import FpgaRouting.Proofs.Channel.Arena
import FpgaRouting.Proofs.Channel.Spacing
import FpgaRouting.Proofs.Stamp.PairPeriods
