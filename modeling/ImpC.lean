import ImpC.Text.Basic
import ImpC.Text.Location
import ImpC.Text.Shape
import ImpC.Token.Basic
import ImpC.Token.Lexer
import ImpC.Tree.Basic
import ImpC.Tree.Expression
import ImpC.Tree.Program
import ImpC.Operation
import ImpC.Surface
import ImpC.Number
import ImpC.Program.Basic
import ImpC.Program.Resolve
import ImpC.Target.Lower
import ImpC.Target.Basic
import ImpC.Target.Emit
import ImpC.Dump
import ImpC.Diagnostic
import ImpC.Compilation
import ImpC.CommandLine.Arguments
import ImpC.CommandLine.Files
import ImpC.CommandLine.Run
import ImpC.Main
import ImpC.Proofs.Token.Partition
import ImpC.Proofs.Grammar.Basic
import ImpC.Proofs.Grammar.Shape
import ImpC.Proofs.Grammar.Kinds
import ImpC.Proofs.Grammar.Soundness
import ImpC.Proofs.Grammar.Recovery
import ImpC.Proofs.Grammar.Completeness
import ImpC.Proofs.Grammar.Malformed
import ImpC.Proofs.Grammar.Rereading
import ImpC.Proofs.Grammar.Acceptance
import ImpC.Proofs.Grammar.Course
import ImpC.Proofs.Grammar.Isolation
import ImpC.Proofs.Grammar.Braces
import ImpC.Proofs.C.Lexeme
import ImpC.Proofs.C.Literal
import ImpC.Proofs.Token.Accepted
import ImpC.Proofs.C.Expression
import ImpC.Proofs.C.Emitted
import ImpC.Proofs.C.Scope
import ImpC.Proofs.Target.Name
import ImpC.Proofs.Surface.Words
import ImpC.Proofs.Surface.Written
import ImpC.Proofs.Surface.Occurrence
import ImpC.Proofs.Program.RoundTrip
import ImpC.Proofs.Program.Scoping
import ImpC.Proofs.Program.Lexical
import ImpC.Proofs.Target.Binding
import ImpC.Proofs.Target.Expression
import ImpC.Proofs.Program.Sites
import ImpC.Proofs.Target.Declaring
import ImpC.Proofs.Program.Unplaced
import ImpC.Proofs.Layout
import ImpC.Proofs.Grammar.ErrorNodes
import ImpC.Proofs.Surface.Reading
import ImpC.Proofs.Program.Correspondence
import ImpC.Proofs.Program.Table
import ImpC.Proofs.Program.Declarations
import ImpC.Proofs.C.Call
import ImpC.Proofs.Target.Calls
import ImpC.Proofs.C.StringLiteral
import ImpC.Proofs.Program.StringLiteral
import ImpC.Proofs.C.Printf
import ImpC.Proofs.Target.Printing
import ImpC.Proofs.Surface.Numeral
import ImpC.Proofs.Program.Integers
import ImpC.Proofs.Token.Regular
import ImpC.Proofs.Token.LongestMatch
import ImpC.Proofs.Token.Lexes
import ImpC.Proofs.Token.Gaps
import ImpC.Proofs.Token.Lines
import ImpC.Proofs.Token.Respelling
import ImpC.Proofs.Grammar.Order
import ImpC.Proofs.Grammar.Blame
import ImpC.Proofs.Token.Run
import ImpC.Proofs.Grammar.Places
import ImpC.Proofs.Surface.Places
import ImpC.Proofs.Program.Places
import ImpC.Proofs.Diagnostic.Places
import ImpC.Proofs.Diagnostic.Excerpt
import ImpC.Proofs.Program.Alone
import ImpC.Proofs.C.Outline
import ImpC.Proofs.Target.Lines
import ImpC.Proofs.Target.Outline
import ImpC.Proofs.Text.Sink
import ImpC.Proofs.Target.Emission
import ImpC.Proofs.Dump.Writing
import ImpC.Proofs.Dump.Reading
import ImpC.Proofs.Dump.Program
import ImpC.Proofs.Grammar.Walk
import ImpC.Proofs.Grammar.Following
import ImpC.Proofs.Grammar.Depth
import ImpC.Proofs.Grammar.Progress
