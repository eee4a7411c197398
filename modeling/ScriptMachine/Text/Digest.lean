/-
# Digests

A 64-bit digest of a text or of a row of words, used to hash values.  A machine takes its digest as a
parameter, so nothing depends on how one is computed.  In the standard one words are folded in by
addition and multiplication, the bytes of a text by products of 128 bits whose halves are combined.
-/
namespace ScriptMachine

/-- How texts and rows of words are hashed. -/
structure Digest where
  words : List UInt64 → Int64
  text : String → Int64

namespace Digest

/-! ## 1. Words -/

/-- The multiplier that spreads each word. -/
def multiplier : UInt64 := 0xf1357aea2e62a9c5

/-- Fold one more word into a state. -/
def add (state word : UInt64) : UInt64 := (state + word) * multiplier

/-- The digest that a state stands for: its bits turned by 26, read as a signed integer. -/
def finish (state : UInt64) : Int64 := ((state <<< 26) ||| (state >>> 38)).toInt64

/-- The digest of a row of words. -/
def ofWords (words : List UInt64) : Int64 := finish (words.foldl add 0)

/-! ## 2. Bytes -/

/-- The two halves of the 128-bit product, combined. -/
def mix (x y : UInt64) : UInt64 :=
  let product := x.toNat * y.toNat
  product.toUInt64 ^^^ (product >>> 64).toUInt64

/-- The byte at a position; zero past the end. -/
def byteAt (b : ByteArray) (i : Nat) : UInt64 := if h : i < b.size then b[i].toUInt64 else 0

/-- The `n` bytes from position `i` on as a number, lowest byte first. -/
def load (b : ByteArray) (i : Nat) : Nat → UInt64
  | 0 => 0
  | n + 1 => byteAt b i ||| (load b (i + 1) n <<< 8)

/-- The two running words of the digest of bytes. -/
structure Lanes where
  first : UInt64
  second : UInt64

/-- The words to start from. -/
def Lanes.start : Lanes := ⟨0x243f6a8885a308d3, 0x13198a2e03707344⟩

/-- The word that the second half of a chunk is combined with. -/
def chunkSeed : UInt64 := 0xa4093822299f31d0

/-- Fold in `n` chunks of sixteen bytes from position `i` on. -/
def Lanes.chunks (b : ByteArray) (i : Nat) : Nat → Lanes → Lanes
  | 0, l => l
  | n + 1, l =>
    let x := load b i 8
    let y := load b (i + 8) 8
    Lanes.chunks b (i + 16) n ⟨l.second, mix (l.first ^^^ x) (chunkSeed ^^^ y)⟩

/-- Both words with one more word each. -/
def Lanes.xor (l : Lanes) (x y : UInt64) : Lanes := ⟨l.first ^^^ x, l.second ^^^ y⟩

/-- The word that stands for a row of bytes.  Short rows are read from both ends; of long rows all
full chunks before the last byte are folded in, and the last sixteen bytes once more. -/
def bytes (b : ByteArray) : UInt64 :=
  let n := b.size
  let l : Lanes :=
    if n = 0 then .start
    else if n < 4 then
      Lanes.start.xor (load b 0 1) ((load b (n - 1) 1 <<< 8) ||| load b (n / 2) 1)
    else if n < 8 then Lanes.start.xor (load b 0 4) (load b (n - 4) 4)
    else if n ≤ 16 then Lanes.start.xor (load b 0 8) (load b (n - 8) 8)
    else (Lanes.chunks b 0 ((n - 1) / 16) .start).xor (load b (n - 16) 8) (load b (n - 8) 8)
  mix l.first l.second ^^^ n.toUInt64

/-- The digest of a text: its bytes, and a word that marks its end. -/
def ofText (s : String) : Int64 := ofWords [bytes s.toUTF8, 0xff]

/-- The digest that hosts get unless they bring their own. -/
def standard : Digest := ⟨ofWords, ofText⟩

end Digest

end ScriptMachine
