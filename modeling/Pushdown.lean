import Pushdown.Main
import Pushdown.Proofs.Lexer.Ending
import Pushdown.Proofs.Lexer.IncludeLoop
import Pushdown.Proofs.Parser.Recursion
import Pushdown.Proofs.Parser.Conservation
import Pushdown.Proofs.Parser.ReadAhead
import Pushdown.Proofs.Table.Interning
import Pushdown.Proofs.Table.Steps
import Pushdown.Proofs.Parser.Range
import Pushdown.Proofs.Table.Validation
import Pushdown.Proofs.Table.Sharing
import Pushdown.Proofs.Table.Description
import Pushdown.Proofs.Table.CanonicalText
import Pushdown.Proofs.Parser.EmptyMoves
import Pushdown.Proofs.Table.MemberOrder
import Pushdown.Proofs.Lexer.Renewal
import Pushdown.Proofs.Lexer.Cutting
import Pushdown.Proofs.Parser.Unexpected
import Pushdown.Proofs.Lexer.Resumption
import Pushdown.Proofs.Lexer.StringLiteral
import Pushdown.Proofs.Lexer.ListedLines
import Pushdown.Proofs.Parser.NumberValue
import Pushdown.Proofs.Table.Writes
import Pushdown.Proofs.Lexer.TokenKinds
import Pushdown.Proofs.Lexer.Chunks
import Pushdown.Proofs.Lexer.DirectiveGrammar
import Pushdown.Proofs.Repl.Outline
import Pushdown.Proofs.Repl.Conversation
