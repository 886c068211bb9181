import Lox.Command
import Lox.Decimal.Nearest
import Lox.Decimal.Numeral
import Lox.Decimal.Shortest
import Lox.Defect
import Lox.Fault
import Lox.Frame
import Lox.Frame.Store
import Lox.Line
import Lox.Literal
import Lox.Machine
import Lox.Machine.Eval
import Lox.Main
import Lox.Piece
import Lox.Proofs.Frame
import Lox.Proofs.Frame.Nearest
import Lox.Proofs.Frame.Slots
import Lox.Proofs.Frame.Strict
import Lox.Proofs.Machine.Anonymous
import Lox.Proofs.Machine.Bounds
import Lox.Proofs.Machine.Calls
import Lox.Proofs.Machine.Chain
import Lox.Proofs.Machine.Confined
import Lox.Proofs.Machine.Conservation
import Lox.Proofs.Machine.Conserve
import Lox.Proofs.Machine.Construct
import Lox.Proofs.Machine.CountingLoop
import Lox.Proofs.Machine.Covenant
import Lox.Proofs.Machine.Fulfilment
import Lox.Proofs.Machine.Getters
import Lox.Proofs.Machine.Heap
import Lox.Proofs.Machine.Inherit
import Lox.Proofs.Machine.Initializers
import Lox.Proofs.Machine.Layout
import Lox.Proofs.Machine.Likeness
import Lox.Proofs.Machine.MethodKinds
import Lox.Proofs.Machine.Obedience
import Lox.Proofs.Machine.Observe
import Lox.Proofs.Machine.Origins
import Lox.Proofs.Machine.Parameters
import Lox.Proofs.Machine.Policy
import Lox.Proofs.Machine.Preservation
import Lox.Proofs.Machine.Recast
import Lox.Proofs.Machine.Receivers
import Lox.Proofs.Machine.Returns
import Lox.Proofs.Machine.Simulate
import Lox.Proofs.Machine.Sites
import Lox.Proofs.Machine.Undeclared
import Lox.Proofs.Machine.Unwinding
import Lox.Proofs.Machine.Visit
import Lox.Proofs.Machine.Written
import Lox.Proofs.Mirror
import Lox.Proofs.Nested
import Lox.Proofs.Outcome
import Lox.Proofs.Scope.Balance
import Lox.Proofs.Scope.Walk
import Lox.Proofs.Scope.Checks
import Lox.Proofs.Scope.Declarations
import Lox.Proofs.Scope.Forms
import Lox.Proofs.Scope.Inside
import Lox.Proofs.Scope.Loops
import Lox.Proofs.Scope.Marks
import Lox.Proofs.Scope.Nest
import Lox.Proofs.Scope.Positions
import Lox.Proofs.Scope.Recast
import Lox.Proofs.Scope.Resolved
import Lox.Proofs.Scope.Simulate
import Lox.Proofs.Scope.Supers
import Lox.Proofs.Scope.Usage
import Lox.Proofs.Session.Access
import Lox.Proofs.Session.Breaks
import Lox.Proofs.Session.Course
import Lox.Proofs.Session.Echo
import Lox.Proofs.Session.Evaluate
import Lox.Proofs.Session.Notices
import Lox.Proofs.Session.Reachable
import Lox.Proofs.Session.Recast
import Lox.Proofs.Session.Reject
import Lox.Proofs.Session.Run
import Lox.Proofs.Session.Scripts
import Lox.Proofs.Session.SelfReference
import Lox.Proofs.Session.Split
import Lox.Proofs.Session.Statics
import Lox.Proofs.Session.Steps
import Lox.Proofs.Session.Told
import Lox.Proofs.Session.Tracing
import Lox.Proofs.Session.Unnamed
import Lox.Proofs.Table
import Lox.Proofs.Token.Head
import Lox.Proofs.Token.Join
import Lox.Proofs.Token.Munch
import Lox.Proofs.Token.Respace
import Lox.Proofs.Tree.Completeness
import Lox.Proofs.Tree.Formation
import Lox.Proofs.Tree.Join
import Lox.Proofs.Tree.Lines
import Lox.Proofs.Tree.Outline
import Lox.Proofs.Tree.Progress
import Lox.Proofs.Tree.Readable
import Lox.Proofs.Tree.Same
import Lox.Proofs.Tree.Soundness
import Lox.Report
import Lox.Scope
import Lox.Scope.Indexed
import Lox.Scope.Resolve
import Lox.Session
import Lox.Session.Lambda
import Lox.Session.Positional
import Lox.Session.Prompt
import Lox.Session.Script
import Lox.Table
import Lox.Text.Digit
import Lox.Text.Printable
import Lox.Text.Quoted
import Lox.Text.Utf8
import Lox.Token
import Lox.Token.Scan
import Lox.Tree
import Lox.Tree.Outline
import Lox.Tree.Parse
import Lox.Value
import Lox.Value.Text
