/-
  A lexer as a token source: it reads from a fixed disk and collects its warnings.
-/
import Pushdown.Lexer.Next
import Pushdown.Parser.Lookahead

namespace Pushdown

/-- A lexer that reads from a disk, with the warnings it has given so far, in order. -/
structure TokenStream where
  disk : Disk
  lexer : Lexer
  warnings : List Diagnostic := []

/-- A token source that asks its lexer; an error of the lexer is passed on as a diagnostic. -/
instance : TokenSource TokenStream where
  next s :=
    let r := s.lexer.next s.disk
    (match r.outcome with
      | .ok t => .ok t
      | .error e => .error (.diagnostic e),
      { s with lexer := r.lexer, warnings := s.warnings ++ r.warnings })
  location s := s.lexer.location

end Pushdown
