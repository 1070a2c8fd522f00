import PointsTo.CommandDump
import PointsTo.Document.Report
import PointsTo.Document.ScriptListing
import PointsTo.OptionsText
import PointsTo.Proofs.CallStrings
import PointsTo.Proofs.Combining
import PointsTo.Proofs.Handles
import PointsTo.Proofs.Injection
import PointsTo.Proofs.LeastSolution
import PointsTo.Proofs.Listing
import PointsTo.Proofs.Merging
import PointsTo.Proofs.Readiness
import PointsTo.Proofs.Reporting
import PointsTo.Proofs.SetHistory
import PointsTo.Proofs.Spellings
import PointsTo.Proofs.Throwing
import PointsTo.Proofs.Transfers
import PointsTo.Proofs.VariantNames
import PointsTo.Proofs.WorkHistory
