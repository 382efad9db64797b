import TaggedLisp.Builtin
import TaggedLisp.Check
import TaggedLisp.CommandLine
import TaggedLisp.Expr
import TaggedLisp.Expr.Printer
import TaggedLisp.Fault
import TaggedLisp.Form
import TaggedLisp.Form.Printer
import TaggedLisp.Form.Reader
import TaggedLisp.Ir.Block
import TaggedLisp.Ir.Copies
import TaggedLisp.Ir.Flatten
import TaggedLisp.Ir.Lower
import TaggedLisp.Ir.Printer
import TaggedLisp.Ir.Tree
import TaggedLisp.Label
import TaggedLisp.Layout.Doc
import TaggedLisp.Layout.Page
import TaggedLisp.Machine.Code
import TaggedLisp.Machine.Text
import TaggedLisp.Machine.Translate
import TaggedLisp.Main
import TaggedLisp.Options
import TaggedLisp.Pass
import TaggedLisp.Proofs.Captures
import TaggedLisp.Proofs.Dialogue
import TaggedLisp.Proofs.Expr.Evaluation
import TaggedLisp.Proofs.Expr.Induction
import TaggedLisp.Proofs.Expr.Outline
import TaggedLisp.Proofs.Expr.Values
import TaggedLisp.Proofs.Form.Grammar
import TaggedLisp.Proofs.Form.Lexing
import TaggedLisp.Proofs.Form.RoundTrip
import TaggedLisp.Proofs.Form.Scanning
import TaggedLisp.Proofs.Form.Unexpected
import TaggedLisp.Proofs.Form.Writing
import TaggedLisp.Proofs.Integers
import TaggedLisp.Proofs.Ir.Apart
import TaggedLisp.Proofs.Ir.Arity
import TaggedLisp.Proofs.Ir.Closures
import TaggedLisp.Proofs.Ir.Execution
import TaggedLisp.Proofs.Ir.Flattening
import TaggedLisp.Proofs.Ir.Flow
import TaggedLisp.Proofs.Ir.Joins
import TaggedLisp.Proofs.Ir.Jumps
import TaggedLisp.Proofs.Ir.Lowering
import TaggedLisp.Proofs.Ir.Numbering
import TaggedLisp.Proofs.Ir.Origins
import TaggedLisp.Proofs.Ir.Outline
import TaggedLisp.Proofs.Ir.Parts
import TaggedLisp.Proofs.Ir.Paths
import TaggedLisp.Proofs.Ir.Propagation
import TaggedLisp.Proofs.Ir.Resolution
import TaggedLisp.Proofs.Ir.Restoring
import TaggedLisp.Proofs.Ir.Stages
import TaggedLisp.Proofs.Ir.Trimming
import TaggedLisp.Proofs.Label
import TaggedLisp.Proofs.Layout
import TaggedLisp.Proofs.Machine.Agreement
import TaggedLisp.Proofs.Machine.Bodies
import TaggedLisp.Proofs.Machine.Calls
import TaggedLisp.Proofs.Machine.Constructs
import TaggedLisp.Proofs.Machine.Convention
import TaggedLisp.Proofs.Machine.Correctness
import TaggedLisp.Proofs.Machine.Data
import TaggedLisp.Proofs.Machine.Discipline
import TaggedLisp.Proofs.Machine.Emission
import TaggedLisp.Proofs.Machine.Execution
import TaggedLisp.Proofs.Machine.Frames
import TaggedLisp.Proofs.Machine.Functions
import TaggedLisp.Proofs.Machine.Labels
import TaggedLisp.Proofs.Machine.Order
import TaggedLisp.Proofs.Machine.Outline
import TaggedLisp.Proofs.Machine.Places
import TaggedLisp.Proofs.Machine.Renumbering
import TaggedLisp.Proofs.Machine.Resolution
import TaggedLisp.Proofs.Machine.Restoring
import TaggedLisp.Proofs.Machine.Section
import TaggedLisp.Proofs.Machine.Snapshots
import TaggedLisp.Proofs.Machine.Stack
import TaggedLisp.Proofs.Machine.State
import TaggedLisp.Proofs.Machine.Visibility
import TaggedLisp.Proofs.Pass
import TaggedLisp.Proofs.Restoring
import TaggedLisp.Proofs.Scopes
import TaggedLisp.Proofs.Scopes.Environments
import TaggedLisp.Proofs.Scoping
import TaggedLisp.Proofs.Session
import TaggedLisp.Proofs.Spelling
import TaggedLisp.Proofs.Steps
import TaggedLisp.Proofs.Ty.Acyclic
import TaggedLisp.Proofs.Ty.Chain
import TaggedLisp.Proofs.Ty.Consistency
import TaggedLisp.Proofs.Ty.Expansion
import TaggedLisp.Proofs.Ty.Later
import TaggedLisp.Proofs.Ty.Loops
import TaggedLisp.Proofs.Ty.Outcomes
import TaggedLisp.Proofs.Ty.Placeholders
import TaggedLisp.Proofs.Ty.Reach
import TaggedLisp.Proofs.Ty.Runs
import TaggedLisp.Proofs.Ty.View
import TaggedLisp.Proofs.Typing
import TaggedLisp.Proofs.Typing.Calls
import TaggedLisp.Proofs.Typing.Finite
import TaggedLisp.Proofs.Typing.Mirrored
import TaggedLisp.Proofs.Typing.Narrowing
import TaggedLisp.Proofs.Typing.Packing
import TaggedLisp.Proofs.Typing.Recursion
import TaggedLisp.Proofs.Typing.Shape
import TaggedLisp.Proofs.Typing.Stability
import TaggedLisp.Scopes
import TaggedLisp.Session
import TaggedLisp.Tag
import TaggedLisp.Text.Alphanumeric
import TaggedLisp.Text.Blank
import TaggedLisp.Text.CharColumns
import TaggedLisp.Text.Columns
import TaggedLisp.Text.Emoji
import TaggedLisp.Text.Ligature
import TaggedLisp.Text.Printable
import TaggedLisp.Text.Quoted
import TaggedLisp.Text.Ranges
import TaggedLisp.Token
import TaggedLisp.Token.Lexer
import TaggedLisp.Ty
import TaggedLisp.Ty.Table
