/-
  The MD5 digest of a text: sixteen bytes computed from blocks of sixteen little-endian words.

  A message is padded to whole blocks (`padded`), every block is folded into a state of four
  words by sixty-four rounds, and the state is written out little-endian.
-/
import Pushdown.Text.Basic

namespace Pushdown.Digest

/-- The four chaining words. -/
structure State where
  a : UInt32
  b : UInt32
  c : UInt32
  d : UInt32
  deriving DecidableEq, Repr

/-- The state before the first block. -/
def initial : State := ⟨0x67452301, 0xefcdab89, 0x98badcfe, 0x10325476⟩

/-- The additive constant of each round: the whole part of `2^32 * |sin (i + 1)|`. -/
def constants : List UInt32 :=
  [0xd76aa478, 0xe8c7b756, 0x242070db, 0xc1bdceee,
   0xf57c0faf, 0x4787c62a, 0xa8304613, 0xfd469501,
   0x698098d8, 0x8b44f7af, 0xffff5bb1, 0x895cd7be,
   0x6b901122, 0xfd987193, 0xa679438e, 0x49b40821,
   0xf61e2562, 0xc040b340, 0x265e5a51, 0xe9b6c7aa,
   0xd62f105d, 0x02441453, 0xd8a1e681, 0xe7d3fbc8,
   0x21e1cde6, 0xc33707d6, 0xf4d50d87, 0x455a14ed,
   0xa9e3e905, 0xfcefa3f8, 0x676f02d9, 0x8d2a4c8a,
   0xfffa3942, 0x8771f681, 0x6d9d6122, 0xfde5380c,
   0xa4beea44, 0x4bdecfa9, 0xf6bb4b60, 0xbebfbc70,
   0x289b7ec6, 0xeaa127fa, 0xd4ef3085, 0x04881d05,
   0xd9d4d039, 0xe6db99e5, 0x1fa27cf8, 0xc4ac5665,
   0xf4292244, 0x432aff97, 0xab9423a7, 0xfc93a039,
   0x655b59c3, 0x8f0ccc92, 0xffeff47d, 0x85845dd1,
   0x6fa87e4f, 0xfe2ce6e0, 0xa3014314, 0x4e0811a1,
   0xf7537e82, 0xbd3af235, 0x2ad7d2bb, 0xeb86d391]

/-- The rotation of each round: four amounts for each of the four groups of rounds. -/
def rotations : List UInt32 :=
  [[7, 12, 17, 22], [5, 9, 14, 20], [4, 11, 16, 23], [6, 10, 15, 21]].flatMap fun r =>
    (List.replicate 4 r).flatten

/-- Rotation to the left by `n` bits, for `0 < n < 32`. -/
def rotate (x n : UInt32) : UInt32 := (x <<< n) ||| (x >>> (32 - n))

/-- The message of `t` with one bit, zeros and the length in bits appended, a multiple of
    sixty-four bytes long. -/
def padded (t : Text) : Text :=
  let zeros := (119 - t.length % 64) % 64
  let bits := t.length * 8
  let size : Text := (List.range 8).map fun i => (bits >>> (8 * i)).toUInt8
  t ++ [0x80] ++ List.replicate zeros 0 ++ size

/-- Four bytes as a little-endian word. -/
def word (p q r s : UInt8) : UInt32 :=
  p.toUInt32 ||| (q.toUInt32 <<< 8) ||| (r.toUInt32 <<< 16) ||| (s.toUInt32 <<< 24)

/-- The little-endian words of a text; a rest of fewer than four bytes is dropped. -/
def words : Text → List UInt32
  | p :: q :: r :: s :: t => word p q r s :: words t
  | _ => []

/-- The four bytes of a word, little-endian. -/
def bytes (w : UInt32) : Text :=
  [w.toUInt8, (w >>> 8).toUInt8, (w >>> 16).toUInt8, (w >>> 24).toUInt8]

/-- Round `i` on a block: mix three words, add a word of the block, rotate and shift the state. -/
def round (block : Array UInt32) (s : State) (i : Nat) (k r : UInt32) : State :=
  let (f, g) :=
    if i < 16 then ((s.b &&& s.c) ||| (~~~s.b &&& s.d), i)
    else if i < 32 then ((s.d &&& s.b) ||| (~~~s.d &&& s.c), (5 * i + 1) % 16)
    else if i < 48 then (s.b ^^^ s.c ^^^ s.d, (3 * i + 5) % 16)
    else (s.c ^^^ (s.b ||| ~~~s.d), (7 * i) % 16)
  ⟨s.d, s.b + rotate (f + s.a + k + block.getD g 0) r, s.b, s.c⟩

/-- All rounds on a block, added to the state they started from. -/
def compress (s : State) (block : Array UInt32) : State :=
  let steps := (List.range 64).zip (constants.zip rotations)
  let z := steps.foldl (fun z (i, k, r) => round block z i k r) s
  ⟨s.a + z.a, s.b + z.b, s.c + z.c, s.d + z.d⟩

/-- The digest state after a number of whole blocks of words. -/
def absorb : Nat → State → List UInt32 → State
  | 0, s, _ => s
  | n + 1, s, ws => absorb n (compress s (ws.take 16).toArray) (ws.drop 16)

/-- The sixteen bytes of the digest of a text. -/
def md5 (t : Text) : Text :=
  let ws := words (padded t)
  let s := absorb (ws.length / 16) initial ws
  bytes s.a ++ bytes s.b ++ bytes s.c ++ bytes s.d

end Pushdown.Digest
