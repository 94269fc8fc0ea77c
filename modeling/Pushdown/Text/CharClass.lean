/-
  Classes of characters, written as the ascending list of the code points at which membership
  changes: a code point belongs to the class when an odd number of entries are at or below it.
  The list `[0x41, 0x5B, 0x61, 0x7B]` is the class of the ASCII letters.
-/

namespace Pushdown.CharClass

/-- Is the number of entries at or below `n` odd?  The list ascends, so the first greater entry
    ends the search. -/
def contains : List Nat → Nat → Bool
  | [], _ => false
  | b :: bs, n => if n < b then false else !contains bs n

end Pushdown.CharClass
