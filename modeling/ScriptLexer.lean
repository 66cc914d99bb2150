import ScriptLexer.Main
import ScriptLexer.Proofs.Defect
import ScriptLexer.Proofs.FileByLine
import ScriptLexer.Proofs.Iteration
import ScriptLexer.Proofs.LineEnds
import ScriptLexer.Proofs.LineTerminator
import ScriptLexer.Proofs.LongestMatch
import ScriptLexer.Proofs.Lookahead
import ScriptLexer.Proofs.NumberDigits
import ScriptLexer.Proofs.NumberLiteral
import ScriptLexer.Proofs.OpenString
import ScriptLexer.Proofs.Output
import ScriptLexer.Proofs.Printing
import ScriptLexer.Proofs.Recovery
import ScriptLexer.Proofs.Reporter
import ScriptLexer.Proofs.Restart
import ScriptLexer.Proofs.Session
import ScriptLexer.Proofs.Spacing
import ScriptLexer.Proofs.StringContents
import ScriptLexer.Proofs.Tiling
import ScriptLexer.Proofs.Utf8.Boundary
import ScriptLexer.Proofs.Utf8.InvalidParts
