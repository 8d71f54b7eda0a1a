/-! # Sources of random words

Randomness enters the library as a sequence of 64-bit words, one at a time.  A source is a value:
drawing a word returns the word and the source that continues after it.

The generator xoshiro256+ has four words of state, advanced by shifts, rotations and exclusive ors.
The output is the sum of the first and the last word.  A single seed is spread over the four words
by the SplitMix64 sequence.  The state of four zeros would deliver zeros for ever and is replaced by
the one of seed zero.
-/

namespace Downhill

/-- A type whose values deliver one 64-bit word after another: the next word, and the source after
it. -/
class WordSource (γ : Type) where
  next : γ → UInt64 × γ

/-- A given sequence of words, by place, together with the number of words already drawn from
it. -/
structure Tape where
  word : Nat → UInt64
  drawn : Nat

namespace Tape

/-- The tape that repeats the given words for ever, none drawn yet. -/
def cycle (words : Array UInt64) : Tape := ⟨fun n => words.getD (n % words.size) 0, 0⟩

instance : WordSource Tape := ⟨fun t => (t.word t.drawn, { t with drawn := t.drawn + 1 })⟩

end Tape

/-- The state of an xoshiro256+ generator: four words. -/
structure Xoshiro where
  s0 : UInt64
  s1 : UInt64
  s2 : UInt64
  s3 : UInt64
deriving DecidableEq, Repr

namespace Xoshiro

/-- The word rotated towards its upper end. -/
def rotateLeft (w n : UInt64) : UInt64 := (w <<< n) ||| (w >>> (64 - n))

/-- The sum of the outer words, and the state after it. -/
def next (g : Xoshiro) : UInt64 × Xoshiro :=
  let s2 := g.s2 ^^^ g.s0
  let s3 := g.s3 ^^^ g.s1
  let s1 := g.s1 ^^^ s2
  let s0 := g.s0 ^^^ s3
  (g.s0 + g.s3, ⟨s0, s1, s2 ^^^ (g.s1 <<< 17), rotateLeft s3 45⟩)

instance : WordSource Xoshiro := ⟨next⟩

/-- The SplitMix64 output at a counter value. -/
def splitMix (counter : UInt64) : UInt64 :=
  let z := (counter ^^^ (counter >>> 30)) * 0xbf58476d1ce4e5b9
  let z := (z ^^^ (z >>> 27)) * 0x94d049bb133111eb
  z ^^^ (z >>> 31)

/-- The generator of a seed: four SplitMix64 outputs in a row. -/
def ofSeed (seed : UInt64) : Xoshiro :=
  let step : UInt64 := 0x9e3779b97f4a7c15
  ⟨splitMix (seed + step), splitMix (seed + 2 * step), splitMix (seed + 3 * step),
    splitMix (seed + 4 * step)⟩

/-- The word whose bytes are listed from the least significant one. -/
def wordOfBytes (bytes : List UInt8) : UInt64 :=
  bytes.foldr (fun byte word => (word <<< 8) ||| byte.toUInt64) 0

/-- The generator whose four words are listed byte by byte, each from its least significant
byte.  Bytes that are missing count as zero. -/
def ofBytes (bytes : List UInt8) : Xoshiro :=
  let word (i : Nat) := wordOfBytes ((bytes.drop (8 * i)).take 8)
  let g : Xoshiro := ⟨word 0, word 1, word 2, word 3⟩
  if g = ⟨0, 0, 0, 0⟩ then ofSeed 0 else g

end Xoshiro

end Downhill
