/-!
A stream of pseudorandom words: the ChaCha block function with twelve rounds, under a key that is
spread from a seed of 64 bits.
-/

namespace PayoffPricing.Random

def rotateLeft (x k : UInt32) : UInt32 := (x <<< k) ||| (x >>> (32 - k))

def rotateRight (x k : UInt32) : UInt32 := (x >>> k) ||| (x <<< (32 - k))

/-- Sixteen words: constants, key, block number and nonce. -/
abbrev Block := Vector UInt32 16

namespace Block

/-- Mixes four words of a block. -/
def quarter (s : Block) (i j k l : Fin 16) : Block :=
  let a := s[i] + s[j]
  let d := rotateLeft (s[l] ^^^ a) 16
  let c := s[k] + d
  let b := rotateLeft (s[j] ^^^ c) 12
  let a := a + b
  let d := rotateLeft (d ^^^ a) 8
  let c := c + d
  let b := rotateLeft (b ^^^ c) 7
  (((s.set i a).set j b).set k c).set l d

/-- Mixes the columns, then the diagonals. -/
def doubleRound (s : Block) : Block :=
  let s := ((s.quarter 0 4 8 12).quarter 1 5 9 13).quarter 2 6 10 14 |>.quarter 3 7 11 15
  ((s.quarter 0 5 10 15).quarter 1 6 11 12).quarter 2 7 8 13 |>.quarter 3 4 9 14

/-- The first four words of every block. -/
def constants : Vector UInt32 4 := #v[0x61707865, 0x3320646e, 0x79622d32, 0x6b206574]

/-- The block of a number under a key, before mixing. -/
def initial (key : Vector UInt32 8) (number : UInt64) : Block :=
  constants ++ key ++ #v[number.toUInt32, (number >>> 32).toUInt32, 0, 0]

/-- The words of the stream that a block contributes. -/
def mixed (s : Block) : Block := Vector.zipWith (· + ·) (Nat.repeat doubleRound 6 s) s

end Block

/-- A key, the number of the next block, and the words of the current block that are left. -/
structure Generator where
  key : Vector UInt32 8
  number : UInt64
  pending : List UInt32

namespace Generator

def spread (seed : UInt64) : UInt64 := seed * 6364136223846793005 + 11634580027462260723

/-- A word of the key, from a seed that has been spread. -/
def keyWord (s : UInt64) : UInt32 :=
  rotateRight ((((s >>> 18) ^^^ s) >>> 27).toUInt32) (s >>> 59).toUInt32

def ofSeed (seed : UInt64) : Generator where
  key := Vector.ofFn fun i => keyWord (Nat.repeat spread (i.val + 1) seed)
  number := 0
  pending := []

/-- The next word of 32 bits. -/
def word : StateM Generator UInt32 := fun g =>
  match g.pending with
  | w :: rest => (w, { g with pending := rest })
  | [] =>
    let words := (Block.initial g.key g.number).mixed.toList
    (words.headD 0, { g with number := g.number + 1, pending := words.tail })

/-- The next word of 64 bits, the low half first. -/
def longWord : StateM Generator UInt64 := do
  let low ← word
  let high ← word
  return low.toUInt64 ||| (high.toUInt64 <<< 32)

/-- A double in `[0, 1)`, a multiple of `2 ^ -53`. -/
def uniform : StateM Generator Float := do
  let fraction : UInt64 := (← longWord) >>> 11
  return fraction.toFloat / 9007199254740992

/-- A double in `(0, 1)`, an odd multiple of `2 ^ -53`. -/
def openUniform : StateM Generator Float := do
  let fraction : UInt64 := (← longWord) >>> 12
  return (1 + fraction.toFloat / 4503599627370496) - (1 - 1 / 9007199254740992)

end Generator

end PayoffPricing.Random
