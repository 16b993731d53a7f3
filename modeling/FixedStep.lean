import FixedStep.Abort
import FixedStep.Backend
import FixedStep.Catalog.Basic
import FixedStep.Catalog.Builtin
import FixedStep.Catalog.Function
import FixedStep.Catalog.Listing
import FixedStep.Clock
import FixedStep.CodeObject
import FixedStep.CommandLine.Arguments
import FixedStep.CommandLine.Files
import FixedStep.CommandLine.Session
import FixedStep.CompileError
import FixedStep.Decimal.Binary
import FixedStep.Decimal.Layout
import FixedStep.Decimal.Reading
import FixedStep.Decimal.Shortest
import FixedStep.Decimal.Whole
import FixedStep.Diagnostic
import FixedStep.Digest.Sha256
import FixedStep.Dimension.Annotation
import FixedStep.Dimension.Basic
import FixedStep.Dimension.Error
import FixedStep.Dimension.Named
import FixedStep.Dimension.Power
import FixedStep.Dimension.Rule
import FixedStep.Dimension.Text
import FixedStep.Evaluation
import FixedStep.Expr.Basic
import FixedStep.Expr.Combinator
import FixedStep.Expr.Grammar
import FixedStep.Expr.Parse
import FixedStep.Expr.Text
import FixedStep.Fault
import FixedStep.Group
import FixedStep.Identifier
import FixedStep.Json.Basic
import FixedStep.Json.Reading
import FixedStep.Kernel
import FixedStep.Lowering
import FixedStep.Main
import FixedStep.Monitor
import FixedStep.NameMap
import FixedStep.Network
import FixedStep.Proofs.Alignment
import FixedStep.Proofs.Annotation
import FixedStep.Proofs.Building
import FixedStep.Proofs.Called
import FixedStep.Proofs.Calls
import FixedStep.Proofs.CodeObject
import FixedStep.Proofs.Decimal.Nearest
import FixedStep.Proofs.Decimal.Packing
import FixedStep.Proofs.Decimal.Printing
import FixedStep.Proofs.Decimal.Rational
import FixedStep.Proofs.Decimal.Rounding
import FixedStep.Proofs.Decimal.Whole
import FixedStep.Proofs.Dimension
import FixedStep.Proofs.Dimension.Arithmetic
import FixedStep.Proofs.Dimension.Text
import FixedStep.Proofs.Draft
import FixedStep.Proofs.Environment
import FixedStep.Proofs.Evaluation
import FixedStep.Proofs.Failure
import FixedStep.Proofs.Fault
import FixedStep.Proofs.Float
import FixedStep.Proofs.Grammar.Agreement
import FixedStep.Proofs.Grammar.Alone
import FixedStep.Proofs.Grammar.Balance
import FixedStep.Proofs.Grammar.Combinator
import FixedStep.Proofs.Grammar.Context
import FixedStep.Proofs.Grammar.Derivation
import FixedStep.Proofs.Grammar.Extent
import FixedStep.Proofs.Grammar.Follow
import FixedStep.Proofs.Grammar.Layout
import FixedStep.Proofs.Grammar.Legible
import FixedStep.Proofs.Grammar.Operand
import FixedStep.Proofs.Grammar.Prefix
import FixedStep.Proofs.Grammar.Printed
import FixedStep.Proofs.Grammar.Reader
import FixedStep.Proofs.Grammar.Reading
import FixedStep.Proofs.Grammar.Sentence
import FixedStep.Proofs.Grammar.Strength
import FixedStep.Proofs.Group
import FixedStep.Proofs.History
import FixedStep.Proofs.Inputs
import FixedStep.Proofs.Json
import FixedStep.Proofs.Kernel.Determined
import FixedStep.Proofs.Kernel.Equivalence
import FixedStep.Proofs.Kernel.Literal
import FixedStep.Proofs.Kernel.Machine
import FixedStep.Proofs.Kernel.Manifest
import FixedStep.Proofs.Kernel.Reading
import FixedStep.Proofs.Kernel.Simulation
import FixedStep.Proofs.Kernel.Substitution
import FixedStep.Proofs.Kernel.Term
import FixedStep.Proofs.Kernel.Uses
import FixedStep.Proofs.Kernel.Word
import FixedStep.Proofs.Listing
import FixedStep.Proofs.Lookup
import FixedStep.Proofs.Lowered
import FixedStep.Proofs.NameMap
import FixedStep.Proofs.Network
import FixedStep.Proofs.Onset
import FixedStep.Proofs.Overflow
import FixedStep.Proofs.Permanence
import FixedStep.Proofs.Plain
import FixedStep.Proofs.Protocol
import FixedStep.Proofs.Range
import FixedStep.Proofs.Registration
import FixedStep.Proofs.Relevance
import FixedStep.Proofs.Reordering
import FixedStep.Proofs.Replay
import FixedStep.Proofs.Restore
import FixedStep.Proofs.Run
import FixedStep.Proofs.Scope
import FixedStep.Proofs.Selection
import FixedStep.Proofs.StepCount
import FixedStep.Proofs.Token
import FixedStep.Proofs.Token.Class
import FixedStep.Proofs.Token.Coverage
import FixedStep.Proofs.Token.Excerpt
import FixedStep.Proofs.Token.Longest
import FixedStep.Proofs.Token.Number
import FixedStep.Proofs.Token.Spacing
import FixedStep.Proofs.Toolchain
import FixedStep.Proofs.Typing
import FixedStep.Proofs.WellFormed
import FixedStep.Protocol
import FixedStep.Scope
import FixedStep.Settings
import FixedStep.Snapshot
import FixedStep.Span
import FixedStep.Text.Blank
import FixedStep.Text.Bytes
import FixedStep.Text.Printable
import FixedStep.Text.Quoted
import FixedStep.Token.Basic
import FixedStep.Token.Lexeme
import FixedStep.Token.Scan
import FixedStep.Toolchain
