import Dncl.Span
import Dncl.Text.CharSet
import Dncl.Text.Letter
import Dncl.Text.Numeral
import Dncl.Text.Blank
import Dncl.Text.Cells
import Dncl.Text.Quoted
import Dncl.Text.Line
import Dncl.Text.Utf8
import Dncl.Text.Decimal
import Dncl.Token
import Dncl.Token.Reading
import Dncl.Token.Word
import Dncl.Token.Literal
import Dncl.Token.Mark
import Dncl.Token.Error
import Dncl.Token.Scanner
import Dncl.Token.Stepping
import Dncl.Token.Stream
import Dncl.Token.Listing
import Dncl.Syntax
import Dncl.Syntax.Printer
import Dncl.Syntax.Outline
import Dncl.Grammar.Error
import Dncl.Grammar.Window
import Dncl.Grammar.Phrase
import Dncl.Grammar
import Dncl.Value
import Dncl.Store
import Dncl.Store.Inspect
import Dncl.Fault
import Dncl.Operation
import Dncl.Host
import Dncl.Machine.Frame
import Dncl.Machine.Step
import Dncl.Machine
import Dncl.Console
import Dncl.Text.Place
import Dncl.Report.Excerpt
import Dncl.Report.Snippet
import Dncl.Report.Diagnostic
import Dncl.Report.Failure
import Dncl.Shell.Help
import Dncl.Shell.Request
import Dncl.Shell.Reply
import Dncl.Shell.Stage
import Dncl.Shell
import Dncl.Main
import Dncl.Proofs.Parts
import Dncl.Proofs.Run
import Dncl.Proofs.Unwind
import Dncl.Proofs.Stored
import Dncl.Proofs.SignalFree
import Dncl.Proofs.CodeLaw
import Dncl.Proofs.Acyclic
import Dncl.Proofs.Erase
import Dncl.Proofs.Derivation
import Dncl.Proofs.Stream
import Dncl.Proofs.Soundness
import Dncl.Proofs.Completeness
import Dncl.Proofs.Layout
import Dncl.Proofs.Rendering
import Dncl.Proofs.Digits
import Dncl.Proofs.Scan
import Dncl.Proofs.Spelling
import Dncl.Proofs.Lines
import Dncl.Proofs.Indentation
import Dncl.Proofs.Printing
import Dncl.Proofs.RoundTrip
import Dncl.Proofs.Words
import Dncl.Proofs.Targets
import Dncl.Proofs.Reprint
import Dncl.Proofs.Precedence
import Dncl.Proofs.Scoping
import Dncl.Proofs.Locality
import Dncl.Proofs.Tiling
import Dncl.Proofs.Blocks
import Dncl.Proofs.Offside
import Dncl.Proofs.Alike
import Dncl.Proofs.Lockstep
import Dncl.Proofs.Blame
import Dncl.Proofs.Counters
import Dncl.Proofs.Entries
import Dncl.Proofs.Termination
import Dncl.Proofs.Located
import Dncl.Proofs.Placed
import Dncl.Proofs.Locations
import Dncl.Proofs.Followed
import Dncl.Proofs.Sequel
import Dncl.Proofs.Joining
import Dncl.Proofs.Forest
import Dncl.Proofs.CallDepth
import Dncl.Proofs.Range
import Dncl.Proofs.Facing
import Dncl.Proofs.Batch
import Dncl.Proofs.Elements
import Dncl.Proofs.Operators
import Dncl.Proofs.Increments
import Dncl.Proofs.Overwriting
import Dncl.Proofs.Equality
import Dncl.Proofs.Variants
import Dncl.Proofs.Integers
import Dncl.Proofs.Tandem
import Dncl.Proofs.Placeless
import Dncl.Proofs.Returns
import Dncl.Proofs.Rescaled
import Dncl.Proofs.Pointing
import Dncl.Proofs.Quoted
import Dncl.Proofs.BareLines
import Dncl.Proofs.Inlaid
import Dncl.Proofs.OneLine
import Dncl.Proofs.Budget
import Dncl.Proofs.Segments
import Dncl.Proofs.Input
import Dncl.Proofs.Headway
import Dncl.Proofs.Matching
