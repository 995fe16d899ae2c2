import Packrat.Main
import Packrat.Session
import Packrat.Proofs.Stream
import Packrat.Proofs.Furthest
import Packrat.Proofs.Reading
import Packrat.Proofs.Steps
import Packrat.Proofs.PlainRules
import Packrat.Proofs.PlainRun
import Packrat.Proofs.Closure
import Packrat.Proofs.Latch
import Packrat.Proofs.Discipline
import Packrat.Proofs.Lockstep
import Packrat.Proofs.Transcript
import Packrat.Proofs.OwnRules
import Packrat.Proofs.Language
import Packrat.Proofs.Outlook
import Packrat.Proofs.Verdict
import Packrat.Proofs.ListReading
import Packrat.Proofs.EntryReading
import Packrat.Proofs.PlainRecognition
import Packrat.Proofs.Brackets
import Packrat.Proofs.ListSession
import Packrat.Proofs.Acceptance
import Packrat.Proofs.SyntaxErrors
import Packrat.Proofs.Atomicity
import Packrat.Proofs.Coherence
import Packrat.Proofs.Reach
import Packrat.Proofs.Safety
import Packrat.Proofs.Scanning
import Packrat.Proofs.SourceParse
import Packrat.Proofs.Backtracking
import Packrat.Proofs.Tracking
import Packrat.Proofs.Refinement
import Packrat.Proofs.Matches
import Packrat.Proofs.DepthLimit
import Packrat.Proofs.LimitedMemo
import Packrat.Proofs.Drained
import Packrat.Proofs.Twins
import Packrat.Proofs.Compaction
import Packrat.Proofs.Layout
import Packrat.Proofs.Foresight
import Packrat.Proofs.Retries
import Packrat.Proofs.Demand
import Packrat.Proofs.Starts
import Packrat.Proofs.Descent
import Packrat.Proofs.Ledger
import Packrat.Proofs.OncePerPlace
import Packrat.Proofs.ListRow
import Packrat.Proofs.Onward
import Packrat.Proofs.Termination
import Packrat.Proofs.Tape
import Packrat.Proofs.LazyScanning
import Packrat.Proofs.Printing
import Packrat.Proofs.Reports
import Packrat.Proofs.Carets
import Packrat.Proofs.Locating
import Packrat.Proofs.Rendering
import Packrat.Proofs.Snippets
import Packrat.Proofs.Agreement
import Packrat.Proofs.Colors
import Packrat.Proofs.Flags
import Packrat.Proofs.ExitStatus
