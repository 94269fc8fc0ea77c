/-
  Lookahead: a queue of tokens in front of a token source.

  A token is pulled from the source only when the queue is empty, and tokens may be put back.  Once
  the source has signalled the end of its input it is not asked again.  The tokens yet to come are
  the queue followed by what the source has left.
-/
import Pushdown.Parser.Value

namespace Pushdown

/-- Something that delivers tokens one by one and knows where it stands.  After the last token it
    delivers the end of input. -/
class TokenSource (σ : Type) where
  next : σ → Except Failure Token × σ
  location : σ → Location

/-- A fixed list of tokens is a source without locations. -/
instance : TokenSource (List Token) where
  next
    | [] => (.ok .eof, [])
    | t :: ts => (.ok t, ts)
  location _ := {}

/-- Tokens that were looked at or put back, in front of a source. -/
structure Lookahead (σ : Type) where
  source : σ
  /-- The tokens to deliver before the source is asked again. -/
  queue : List Token := []
  /-- Has the source signalled the end of its input? -/
  ended : Bool := false
  deriving Repr

namespace Lookahead

variable {σ : Type} [TokenSource σ]

/-- The next token, which stays to be delivered again. -/
def peek (la : Lookahead σ) : Except Failure Token × Lookahead σ :=
  match la.queue with
  | t :: _ => (.ok t, la)
  | [] =>
    if la.ended then (.ok .eof, la)
    else match TokenSource.next la.source with
      | (.error e, source) => (.error e, { la with source })
      | (.ok t, source) =>
        if t.isEof then (.ok .eof, { la with source, ended := true })
        else (.ok t, { la with source, queue := [t] })

/-- Takes the next token. -/
def get (la : Lookahead σ) : Except Failure Token × Lookahead σ :=
  match la.peek with
  | (.ok t, la) => (.ok t, if t.isEof then la else { la with queue := la.queue.tail })
  | (.error e, la) => (.error e, la)

omit [TokenSource σ] in
/-- Puts tokens back, to be delivered in the given order.  Ends of input are ignored. -/
def unget (la : Lookahead σ) (ts : List Token) : Lookahead σ :=
  { la with queue := ts.filter (!·.isEof) ++ la.queue }

/-- Where the source stands. -/
def location (la : Lookahead σ) : Location := TokenSource.location la.source

end Lookahead
end Pushdown
