/-!
# `Digest`: the SHA-1 digest of a message

The message is padded to blocks of 64 bytes. Each block is stretched to eighty words, and the
words are mixed one after another into a state of five words.
-/

namespace Cityscape.NameId

/-- The five words of the digest while it is computed. -/
structure Digest where
  a : UInt32
  b : UInt32
  c : UInt32
  d : UInt32
  e : UInt32
deriving DecidableEq

namespace Digest

/-- The digest of no block. -/
def initial : Digest := ⟨0x67452301, 0xEFCDAB89, 0x98BADCFE, 0x10325476, 0xC3D2E1F0⟩

/-- The word turned left by `n` bits. -/
def rotate (n : UInt32) (w : UInt32) : UInt32 := (w <<< n) ||| (w >>> (32 - n))

/-- The bytes of a number, most significant first. -/
def bigEndian (count n : Nat) : List UInt8 :=
  (List.range count).map fun i => .ofNat (n / Nat.pow 256 (count - 1 - i))

/-- The message, a bit that ends it, zeros up to 8 bytes before the end of a block, and the
length of the message in bits. -/
def pad (message : List UInt8) : List UInt8 :=
  let n := message.length
  message ++ 0x80 :: List.replicate ((119 - n % 64) % 64) 0 ++ bigEndian 8 (8 * n)

/-- Cuts a list into parts of `n` elements; there are at most `fuel` parts. -/
def chunks {α : Type} (n : Nat) : Nat → List α → List (List α)
  | 0, _ => []
  | fuel + 1, l => if l.isEmpty then [] else l.take n :: chunks n fuel (l.drop n)

/-- The word of four bytes. -/
def word (bytes : List UInt8) : UInt32 :=
  bytes.foldl (fun w b => (w <<< 8) ||| b.toUInt32) 0

/-- Adds `n` words to a block, the newest word first: each is the sum without carry of the
words 3, 8, 14 and 16 places before it, turned by one bit. -/
def stretch : Nat → List UInt32 → List UInt32
  | 0, ws => ws
  | n + 1, ws =>
    let w := ws.getD 2 0 ^^^ ws.getD 7 0 ^^^ ws.getD 13 0 ^^^ ws.getD 15 0
    stretch n (rotate 1 w :: ws)

/-- The function and the constant of a round. -/
def round (t : Nat) (b c d : UInt32) : UInt32 × UInt32 :=
  if t < 20 then ((b &&& c) ||| (~~~b &&& d), 0x5A827999)
  else if t < 40 then (b ^^^ c ^^^ d, 0x6ED9EBA1)
  else if t < 60 then ((b &&& c) ||| (b &&& d) ||| (c &&& d), 0x8F1BBCDC)
  else (b ^^^ c ^^^ d, 0xCA62C1D6)

/-- Mixes one word into the state. -/
def mixWord (s : Digest) (tw : Nat × UInt32) : Digest :=
  let (f, k) := round tw.1 s.b s.c s.d
  ⟨rotate 5 s.a + f + s.e + k + tw.2, s.a, rotate 30 s.b, s.c, s.d⟩

/-- Mixes one block into the state. -/
def mixBlock (s : Digest) (block : List UInt8) : Digest :=
  let words := (chunks 4 16 block).map word
  let schedule := (stretch 64 words.reverse).reverse
  let m := ((List.range 80).zip schedule).foldl mixWord s
  ⟨s.a + m.a, s.b + m.b, s.c + m.c, s.d + m.d, s.e + m.e⟩

/-- The digest of a message. -/
def ofMessage (message : List UInt8) : Digest :=
  let padded := pad message
  (chunks 64 padded.length padded).foldl mixBlock initial

/-- The twenty bytes of a digest. -/
def bytes (s : Digest) : List UInt8 :=
  [s.a, s.b, s.c, s.d, s.e].flatMap fun w => bigEndian 4 w.toNat

end Digest

end Cityscape.NameId
