import OnePass.Main
import OnePass.Parser.Call
import OnePass.Proofs.Compile.Discipline
import OnePass.Proofs.Diagnostics.Tally
import OnePass.Proofs.Grammar.Viable
import OnePass.Proofs.Diagnostics.Misfit
import OnePass.Proofs.Diagnostics.Expression
import OnePass.Proofs.Diagnostics.Recovery
import OnePass.Proofs.Lexical.Join
import OnePass.Proofs.Diagnostics.Alike
import OnePass.Proofs.Diagnostics.Row
import OnePass.Proofs.Code.WellFormed
import OnePass.Proofs.Code.Pooled
import OnePass.Proofs.Diagnostics.Unreadable
import OnePass.Proofs.Scope.Refinement
import OnePass.Proofs.Compile.Concat
import OnePass.Proofs.Compile.Wrapped
import OnePass.Proofs.Compile.Lexemes
import OnePass.Proofs.Compile.Session
import OnePass.Proofs.Code.Decoding
import OnePass.Proofs.Parser.Screened
import OnePass.Proofs.Scope.Balanced
import OnePass.Proofs.Diagnostics.Located
import OnePass.Proofs.Scope.Named
import OnePass.Proofs.Compile.Renamed
import OnePass.Proofs.Compile.Listing
import OnePass.Proofs.Lexical.OnDemand
import OnePass.Proofs.Compile.Rendered
import OnePass.Proofs.Code.Lines
import OnePass.Proofs.Parser.Phrase
import OnePass.Proofs.Course.Nesting
import OnePass.Proofs.Course.Cursor
import OnePass.Proofs.Code.Texts
