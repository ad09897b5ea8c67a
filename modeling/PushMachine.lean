import PushMachine.Bindings
import PushMachine.Command.Arguments
import PushMachine.Command.Basic
import PushMachine.Command.Execute
import PushMachine.Fault
import PushMachine.Instruction.Basic
import PushMachine.Instruction.Boolean
import PushMachine.Instruction.Code
import PushMachine.Instruction.Exec
import PushMachine.Instruction.Float
import PushMachine.Instruction.Integer
import PushMachine.Instruction.Manipulate
import PushMachine.Instruction.Name
import PushMachine.Interpreter.Instruction
import PushMachine.Interpreter.Run
import PushMachine.Interpreter.State
import PushMachine.Json
import PushMachine.Kind
import PushMachine.Log
import PushMachine.Machine.Execute
import PushMachine.Machine.Run
import PushMachine.Machine.State
import PushMachine.Machine.View
import PushMachine.Main
import PushMachine.Number.Binary
import PushMachine.Number.Decimal
import PushMachine.Number.FloatText
import PushMachine.Number.Int64
import PushMachine.Number.Shortest
import PushMachine.Options.Basic
import PushMachine.Options.Configuration
import PushMachine.Options.View
import PushMachine.Proofs.CodeLimit
import PushMachine.Proofs.Course
import PushMachine.Proofs.Ending
import PushMachine.Proofs.Evaluation
import PushMachine.Proofs.Failure
import PushMachine.Proofs.FloatRange
import PushMachine.Proofs.Form
import PushMachine.Proofs.Frame
import PushMachine.Proofs.Growth.Basic
import PushMachine.Proofs.Growth.Code
import PushMachine.Proofs.Growth.Run
import PushMachine.Proofs.IntegerRange
import PushMachine.Proofs.Lexical
import PushMachine.Proofs.Literal
import PushMachine.Proofs.Origin
import PushMachine.Proofs.Parsing
import PushMachine.Proofs.Precondition.Basic
import PushMachine.Proofs.Precondition.Code
import PushMachine.Proofs.Precondition.Literal
import PushMachine.Proofs.RandomSize
import PushMachine.Proofs.Reference
import PushMachine.Proofs.RoundTrip
import PushMachine.Proofs.Session
import PushMachine.Proofs.Spelling
import PushMachine.Proofs.Stack
import PushMachine.Proofs.Weight
import PushMachine.Random.Code
import PushMachine.Random.Source
import PushMachine.Random.Supply
import PushMachine.Random.Twister
import PushMachine.Registry
import PushMachine.Service.Body
import PushMachine.Service.Handle
import PushMachine.Service.Number
import PushMachine.Service.Resource
import PushMachine.Stack
import PushMachine.Text.Blank
import PushMachine.Text.Control
import PushMachine.Text.Digit
import PushMachine.Text.Lines
import PushMachine.Text.Lowercase
import PushMachine.Text.Lowercase.Table
import PushMachine.Text.Printable
import PushMachine.Text.Quoted
import PushMachine.Token
import PushMachine.Tree.Basic
import PushMachine.Tree.Parse
import PushMachine.Tree.Print
import PushMachine.Tree.Scan
import PushMachine.Tree.Value
import PushMachine.Proofs.Canonical
import PushMachine.Proofs.Call
import PushMachine.Proofs.Footprint
import PushMachine.Proofs.RandomLeaves
import PushMachine.Proofs.Interpreter.Access
import PushMachine.Proofs.Interpreter.Instruction
import PushMachine.Proofs.Interpreter.Run
import PushMachine.Proofs.Interpreter.Course
import PushMachine.Proofs.Interpreter.Session
import PushMachine.Proofs.Interpreter.Failure
import PushMachine.Proofs.Restriction
import PushMachine.Proofs.Referring
import PushMachine.Proofs.Provenance
import PushMachine.Proofs.Budget
import PushMachine.Proofs.Likeness.Basic
import PushMachine.Proofs.Likeness.Instruction
import PushMachine.Proofs.CaseFolding
import PushMachine.Proofs.Nesting
import PushMachine.Proofs.Rounding
import PushMachine.Proofs.Shortest
import PushMachine.Proofs.Reproduction
import PushMachine.Proofs.Running
import PushMachine.Proofs.History
import PushMachine.Proofs.SmallLetters
import PushMachine.Proofs.Naming
import PushMachine.Proofs.CountedLoop
import PushMachine.Proofs.Quoting
import PushMachine.Proofs.Requests
import PushMachine.Proofs.RandomTree
import PushMachine.Proofs.Minting
import PushMachine.Proofs.Expression
import PushMachine.Proofs.Locality
import PushMachine.Proofs.Classification
import PushMachine.Proofs.Depth
import PushMachine.Proofs.CodeList
import PushMachine.Proofs.Configuration.Line
import PushMachine.Proofs.Configuration.Effect
import PushMachine.Proofs.FloatOrder
import PushMachine.Proofs.Configuration.Verdict
import PushMachine.Proofs.Configuration.Revision
import PushMachine.Proofs.Configuration.Separators
import PushMachine.Proofs.Json.Grammar
import PushMachine.Proofs.Json.Printing
import PushMachine.Proofs.Json.Output
import PushMachine.Proofs.Scanning
import PushMachine.Proofs.Traversal
