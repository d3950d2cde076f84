import Imp32.Operator
import Imp32.Fault
import Imp32.Value
import Imp32.Token
import Imp32.SyntaxError
import Imp32.Token.Scanner
import Imp32.Expr
import Imp32.Stmt
import Imp32.Layout
import Imp32.Parsed
import Imp32.Expr.Parser
import Imp32.Stmt.Parser
import Imp32.Program
import Imp32.Env
import Imp32.Sink
import Imp32.Expr.Eval
import Imp32.Machine
import Imp32.Stmt.Exec
import Imp32.Stmt.Budget
import Imp32.Run
import Imp32.Cli
import Imp32.Main
import Imp32.Proofs.Parses
import Imp32.Proofs.Grammar
import Imp32.Proofs.Soundness
import Imp32.Proofs.Completeness
import Imp32.Proofs.Lines
import Imp32.Proofs.Scanning
import Imp32.Proofs.Nodes
import Imp32.Proofs.PrintedTokens
import Imp32.Proofs.Normal
import Imp32.Proofs.Reparse
import Imp32.Proofs.RoundTrip
import Imp32.Proofs.FaultLines
import Imp32.Proofs.Simulation
import Imp32.Proofs.Scopes
import Imp32.Proofs.PrintedMeaning
import Imp32.Proofs.ScopeDiscipline
import Imp32.Proofs.FaultOrigins
import Imp32.Proofs.VisibleValues
import Imp32.Proofs.Foresight
import Imp32.Proofs.EarliestError
import Imp32.Proofs.ReportedLines
import Imp32.Proofs.Desugaring
import Imp32.Proofs.LoopLaws
import Imp32.Proofs.Behaviour
import Imp32.Proofs.BoundedOutput
import Imp32.Proofs.Relabelling
import Imp32.Proofs.LayoutIndependence
import Imp32.Proofs.LexicalGrammar
import Imp32.Proofs.TokenLines
import Imp32.Proofs.Separation
import Imp32.Proofs.Concatenation
import Imp32.Proofs.NoShadowing
import Imp32.Proofs.OversizedLiterals
import Imp32.Proofs.PrintedFixpoint
import Imp32.Proofs.ForeignText
import Imp32.Proofs.Assignments
import Imp32.Proofs.WrittenNames
import Imp32.Proofs.OperandOrder
import Imp32.Proofs.CountingLoops
import Imp32.Proofs.Effects
import Imp32.Proofs.ScopeExit
import Imp32.Proofs.WrappedArithmetic
import Imp32.Proofs.PrintedLiterals
import Imp32.Proofs.SpelledTokens
import Imp32.Proofs.Lookahead
import Imp32.Proofs.Termination
import Imp32.Proofs.OpenBranches
import Imp32.Proofs.Precedence
import Imp32.Proofs.ErrorCursor
