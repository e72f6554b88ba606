import ScriptEngine.Engine
import ScriptEngine.Handles
import ScriptEngine.Samples.Natives
import ScriptEngine.Syntax.Dump
import ScriptEngine.Proofs.Parser.Moves
import ScriptEngine.Proofs.Parser.Steps
import ScriptEngine.Proofs.Parser.Layered
import ScriptEngine.Proofs.Parser.Chains
import ScriptEngine.Proofs.Parser.Precedence
import ScriptEngine.Proofs.Parser.Derivation
import ScriptEngine.Proofs.Parser.Spans
import ScriptEngine.Proofs.Token.Kinds
import ScriptEngine.Proofs.Parser.Coverage
import ScriptEngine.Proofs.Code.Translation
import ScriptEngine.Proofs.Code.Compiled
import ScriptEngine.Proofs.Decimal.Equality
import ScriptEngine.Proofs.Decimal.Unsigned
import ScriptEngine.Proofs.Code.Depth
import ScriptEngine.Proofs.Run.Steps
import ScriptEngine.Proofs.Code.Balance
import ScriptEngine.Proofs.Run.Discipline
import ScriptEngine.Proofs.Direct.Evaluation
import ScriptEngine.Proofs.Direct.Simulation
import ScriptEngine.Proofs.Direct.Instructions
import ScriptEngine.Proofs.Direct.Expressions
import ScriptEngine.Proofs.Direct.Statements
import ScriptEngine.Proofs.Parser.Literals
import ScriptEngine.Proofs.Direct.Room
import ScriptEngine.Proofs.Direct.Correct
import ScriptEngine.Proofs.Syntax.Places
import ScriptEngine.Proofs.Parser.Layout
import ScriptEngine.Proofs.Parser.Lockstep
import ScriptEngine.Proofs.Token.Scanning
import ScriptEngine.Proofs.Token.Pieces
import ScriptEngine.Proofs.Parser.Kinds
import ScriptEngine.Proofs.Parser.Respacing
import ScriptEngine.Proofs.Parser.Independence
import ScriptEngine.Proofs.Parser.LineStart
import ScriptEngine.Proofs.Printing.Words
import ScriptEngine.Proofs.Printing.Lexing
import ScriptEngine.Proofs.Printing.Expressions
import ScriptEngine.Proofs.Printing.RoundTrip
import ScriptEngine.Proofs.Registry.Mangling
import ScriptEngine.Proofs.Registry.Directory
import ScriptEngine.Proofs.Registry.Rollback
import ScriptEngine.Proofs.Registry.Scoping
import ScriptEngine.Proofs.Run.Appending
import ScriptEngine.Proofs.Code.References
import ScriptEngine.Proofs.Engine.Isolation
import ScriptEngine.Proofs.Engine.Sessions
import ScriptEngine.Proofs.Parser.Counters
import ScriptEngine.Proofs.Parser.Forgetting
import ScriptEngine.Proofs.Parser.Resumption
import ScriptEngine.Proofs.Token.Partition
import ScriptEngine.Proofs.Registry.Demangling
import ScriptEngine.Proofs.Run.Faults
import ScriptEngine.Proofs.Run.Linking
import ScriptEngine.Proofs.Parser.Tally
import ScriptEngine.Proofs.Parser.Recovery
import ScriptEngine.Proofs.Parser.Reporting
import ScriptEngine.Proofs.Code.Demands
import ScriptEngine.Proofs.Parser.Names
import ScriptEngine.Proofs.Code.Resolution
import ScriptEngine.Proofs.Code.Declarations
import ScriptEngine.Proofs.Code.Jumps
import ScriptEngine.Proofs.Run.Halting
import ScriptEngine.Proofs.Run.Locality
import ScriptEngine.Proofs.Library.Templates
import ScriptEngine.Proofs.Code.Constants
import ScriptEngine.Proofs.Native.Integers
import ScriptEngine.Proofs.Native.Checks
import ScriptEngine.Proofs.Registry.Refusals
import ScriptEngine.Proofs.Parser.Separators
import ScriptEngine.Proofs.Parser.Warnings
import ScriptEngine.Proofs.Code.Bookkeeping
import ScriptEngine.Proofs.Library.Writing
import ScriptEngine.Proofs.Registry.Members
import ScriptEngine.Proofs.Native.Objects
import ScriptEngine.Proofs.Decimal.Rounding
import ScriptEngine.Proofs.Library.Colors
import ScriptEngine.Proofs.Decimal.Text
import ScriptEngine.Proofs.Printing.Quoted
import ScriptEngine.Proofs.Parser.Identifiers
import ScriptEngine.Proofs.Syntax.Forest
import ScriptEngine.Proofs.Syntax.Outline
