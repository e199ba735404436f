import Lookahead.Entries.Document
import Lookahead.Record
import Lookahead.Session.Run
import Lookahead.Source.Endless
import Lookahead.Source.Script
import Lookahead.Source.Slice
import Lookahead.Proofs.Steps
import Lookahead.Proofs.Fidelity
import Lookahead.Proofs.Pinning
import Lookahead.Proofs.Speculation
import Lookahead.Proofs.Client
import Lookahead.Proofs.Documents
import Lookahead.Proofs.Overflow
import Lookahead.Proofs.LineEndings
import Lookahead.Proofs.Positions
import Lookahead.Proofs.ShortReads
import Lookahead.Proofs.Marks
import Lookahead.Proofs.Surrogates
import Lookahead.Proofs.Transcoding
import Lookahead.Proofs.Printing
import Lookahead.Proofs.Consumption
import Lookahead.Proofs.Outcomes
import Lookahead.Proofs.Spans
import Lookahead.Proofs.Twins
import Lookahead.Proofs.Failures
import Lookahead.Proofs.Writing
import Lookahead.Proofs.WellFormed
import Lookahead.Proofs.Pulling
import Lookahead.Proofs.Filling
import Lookahead.Proofs.Surfacing
import Lookahead.Proofs.Termination
import Lookahead.Proofs.Compacting
import Lookahead.Proofs.Shortcuts
import Lookahead.Proofs.Hexadecimal
import Lookahead.Proofs.CodePoints
import Lookahead.Proofs.Bookkeeping
import Lookahead.Proofs.Handover
