import Vau.Text.Blank
import Vau.Text.Decimal
import Vau.Text.Inspected
import Vau.Text.Lines
import Vau.Text.Quoted
import Vau.Location
import Vau.Primitive
import Vau.Value
import Vau.Store
import Vau.Environment
import Vau.Failure
import Vau.Printer
import Vau.Description
import Vau.Equality
import Vau.Formals
import Vau.Nested
import Vau.Keys
import Vau.Reader.Datum
import Vau.Reader.Node
import Vau.Reader.Grammar
import Vau.Machine
import Vau.Arithmetic
import Vau.Operation
import Vau.Eval
import Vau.Prelude
import Vau.Report
import Vau.Session
import Vau.Probe
import Vau.Proofs.Change
import Vau.Proofs.Respect
import Vau.Proofs.CallStack
import Vau.Proofs.Metering
import Vau.Proofs.Direct
import Vau.Proofs.Room
import Vau.Proofs.Refinement
import Vau.Proofs.Tree
import Vau.Proofs.Comparison
import Vau.Proofs.Decimal
import Vau.Proofs.Literal
import Vau.Proofs.Word
import Vau.Proofs.Written
import Vau.Proofs.Reading
import Vau.Proofs.RoundTrip
import Vau.Proofs.Admitted
import Vau.Proofs.Reprint
import Vau.Proofs.Evolution
import Vau.Proofs.Cycle
import Vau.Proofs.FormalTree
import Vau.Proofs.Upkeep
import Vau.Proofs.Conduct
import Vau.Proofs.Reachable
import Vau.Proofs.Lineage
import Vau.Proofs.Vetting
import Vau.Proofs.Budget
import Vau.Proofs.Protocol
import Vau.Proofs.Unplaced
import Vau.Proofs.Layout
import Vau.Proofs.Insensitivity
import Vau.Proofs.Tokens
import Vau.Proofs.Placed
import Vau.Proofs.Locations
import Vau.Proofs.FailureLocation
import Vau.Proofs.Bulky
import Vau.Proofs.Refusal
import Vau.Proofs.Boundary
import Vau.Proofs.Truncation
import Vau.Proofs.Link
import Vau.Proofs.Linkage
import Vau.Proofs.InStep
import Vau.Proofs.Renaming
import Vau.Proofs.Splicing
import Vau.Proofs.Splitting
import Vau.Proofs.Wording
import Vau.Proofs.Library
import Vau.Proofs.Yields
import Vau.Proofs.Scene
import Vau.Proofs.Items
import Vau.Proofs.Rules
import Vau.Proofs.Procedures
import Vau.Proofs.Intact
import Vau.Proofs.Loading
import Vau.Proofs.Integrity
import Vau.Proofs.Matching
import Vau.Proofs.Worklist
import Vau.Proofs.Shadowing
import Vau.Proofs.Binding
import Vau.Proofs.Folding
import Vau.Proofs.Traversal
import Vau.Proofs.Counting
import Vau.Proofs.Hiding
import Vau.Proofs.Nesting
import Vau.Proofs.Appearance
import Vau.Proofs.Forms
import Vau.Proofs.Located
import Vau.Proofs.Rounds
import Vau.Proofs.Handing
import Vau.Proofs.Applying
import Vau.Proofs.Endings
import Vau.Proofs.Waiting
import Vau.Proofs.Consulting
import Vau.Proofs.Selecting
import Vau.Proofs.ShortCircuit
import Vau.Proofs.Passing
import Vau.Proofs.Relaying
import Vau.Proofs.Effects
import Vau.Proofs.Making
import Vau.Proofs.Bindings
import Vau.Proofs.Scoping
import Vau.Proofs.Division
import Vau.Proofs.Traceless
import Vau.Proofs.Bounded
import Vau.Proofs.Failing
import Vau.Proofs.Dotted
import Vau.Proofs.Listing
import Vau.Proofs.Tracing
import Vau.Proofs.Marking
import Vau.Proofs.Flaws
import Vau.Proofs.Variadic
