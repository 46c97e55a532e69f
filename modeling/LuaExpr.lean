import LuaExpr.Main
import LuaExpr.Proofs.Expr.Layout
import LuaExpr.Proofs.Expr.Spine
import LuaExpr.Proofs.Chunk.Pool
import LuaExpr.Proofs.Compiler.Steps
import LuaExpr.Proofs.Expr.Code
import LuaExpr.Proofs.Expr.Unambiguity
import LuaExpr.Proofs.Compiler.Reading
import LuaExpr.Proofs.Compiler.Soundness
import LuaExpr.Proofs.Lexeme.Outcomes
import LuaExpr.Proofs.Lexeme.Language
import LuaExpr.Proofs.Lexeme.Longest
import LuaExpr.Proofs.Compiler.Progress
import LuaExpr.Proofs.Compiler.Acceptance
import LuaExpr.Proofs.Machine.Placement
import LuaExpr.Proofs.Expr.Evaluation
import LuaExpr.Proofs.Machine.Instructions
import LuaExpr.Proofs.Machine.Runs
import LuaExpr.Proofs.Machine.Simulation
import LuaExpr.Proofs.Lexeme.Spelling
import LuaExpr.Proofs.Machine.Discipline
import LuaExpr.Proofs.Machine.Limits
import LuaExpr.Proofs.Lexeme.Continuation
import LuaExpr.Proofs.Expr.Concatenation
import LuaExpr.Proofs.Expr.Mapping
import LuaExpr.Proofs.Expr.Relocation
import LuaExpr.Proofs.Expr.Erasure
import LuaExpr.Proofs.Compiler.Linking
import LuaExpr.Proofs.Compiler.Failures
import LuaExpr.Proofs.Compiler.Remains
import LuaExpr.Proofs.Machine.Gaps
import LuaExpr.Proofs.Compiler.Sessions
import LuaExpr.Proofs.Machine.Forward
import LuaExpr.Proofs.Machine.Height
import LuaExpr.Proofs.Lexeme.Insertion
import LuaExpr.Proofs.Compiler.Spacing
import LuaExpr.Proofs.Expr.Marks
import LuaExpr.Proofs.Compiler.SourceMap
import LuaExpr.Proofs.Binary64.Bits
import LuaExpr.Proofs.Compiler.Literals
import LuaExpr.Proofs.Compiler.Lasting
import LuaExpr.Proofs.Lexeme.Places
import LuaExpr.Proofs.Compiler.Blame
import LuaExpr.Proofs.Compiler.Checked
import LuaExpr.Proofs.Compiler.Domains
import LuaExpr.Proofs.Lexeme.Tiling
import LuaExpr.Proofs.Lexeme.Printing
import LuaExpr.Proofs.Lexeme.Extension
import LuaExpr.Proofs.Compiler.Budget
import LuaExpr.Proofs.Compiler.Persistence
import LuaExpr.Proofs.Compiler.OnDemand
import LuaExpr.Proofs.Compiler.OnePass
import LuaExpr.Proofs.Lexeme.Escapes
import LuaExpr.Proofs.Lexeme.Lines
import LuaExpr.Proofs.Compiler.Exhaustion
import LuaExpr.Proofs.Compiler.Appending
import LuaExpr.Proofs.Expr.Enclosure
import LuaExpr.Proofs.Compiler.Parentheses
import LuaExpr.Proofs.Binary64.Rounding
import LuaExpr.Proofs.Binary64.Integer
import LuaExpr.Proofs.Machine.Shifts
import LuaExpr.Proofs.Machine.Bitwise
import LuaExpr.Proofs.Decimal.Digits
import LuaExpr.Proofs.Decimal.Rounding
import LuaExpr.Proofs.Decimal.Numerals
import LuaExpr.Proofs.Decimal.General
import LuaExpr.Proofs.Decimal.RoundTrip
import LuaExpr.Proofs.Chunk.Listing
import LuaExpr.Proofs.Chunk.Interning
import LuaExpr.Proofs.Machine.Globals
import LuaExpr.Proofs.Binary64.Remainder
import LuaExpr.Proofs.Binary64.Words
