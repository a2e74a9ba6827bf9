import GrammarLens.Editor
import GrammarLens.Json.Write
import GrammarLens.Main
import GrammarLens.Server
import GrammarLens.Template
import GrammarLens.Proofs.Operations
import GrammarLens.Proofs.Consumption
import GrammarLens.Proofs.Scanning
import GrammarLens.Proofs.Mentions
import GrammarLens.Proofs.Definitions
import GrammarLens.Proofs.Machine
import GrammarLens.Proofs.Progress
import GrammarLens.Proofs.CallLimit
import GrammarLens.Proofs.Written
import GrammarLens.Proofs.Recovery
import GrammarLens.Proofs.History
import GrammarLens.Proofs.Caret
import GrammarLens.Proofs.Locality
import GrammarLens.Proofs.Epilogue
import GrammarLens.Proofs.Likeness
import GrammarLens.Proofs.Profile
import GrammarLens.Proofs.TrailingBlanks
import GrammarLens.Proofs.Lowering
import GrammarLens.Proofs.Silencing
import GrammarLens.Proofs.Declaring
import GrammarLens.Proofs.Sections
import GrammarLens.Proofs.Rescanning
import GrammarLens.Proofs.LatestAnalysis
import GrammarLens.Proofs.Publishing
import GrammarLens.Proofs.ScanSteps
import GrammarLens.Proofs.Reporting
import GrammarLens.Proofs.Splitting
import GrammarLens.Proofs.Aliases
import GrammarLens.Proofs.Quotes
import GrammarLens.Proofs.Placeholders
import GrammarLens.Proofs.StartSymbol
import GrammarLens.Proofs.Nesting
import GrammarLens.Proofs.EndMark
import GrammarLens.Proofs.Redefinition
import GrammarLens.Proofs.Tiers
import GrammarLens.Proofs.Offers
import GrammarLens.Proofs.Previews
import GrammarLens.Proofs.Verdict
import GrammarLens.Proofs.Words
import GrammarLens.Proofs.Overlap
import GrammarLens.Proofs.Balance
import GrammarLens.Proofs.Offsets
import GrammarLens.Proofs.FileUris
