import PayoffPricing.Normal
import PayoffPricing.Random.Ziggurat
import PayoffPricing.Word
/-!
Streams of draws for simulated paths. A stream hands out the draws of one path at a time and can be
placed on any path; what it hands out there depends on the path alone.
-/

namespace PayoffPricing.Random

/-- Streams `G` of draws in `R`. Filling a path moves the stream to the next one. -/
class DrawStream (R : outParam Type) (G : Type) where
  /-- Prepares for paths of a number of draws, and starts at path zero. -/
  prepare : Nat → G → G
  /-- How many draws a path has. -/
  dimension : G → Nat
  /-- As many uniform draws from `[0, 1)` as asked for. -/
  uniforms : Nat → StateM G (Array R)
  /-- As many standard normal draws as asked for. -/
  normals : Nat → StateM G (Array R)
  skipTo : Nat → G → G
  /-- Another path follows the current one. -/
  hasNext : G → Bool

/-- The draws of a path, where they have room and another path follows. -/
def DrawStream.tryFill {R G : Type} [DrawStream R G] (fill : Nat → StateM G (Array R)) (n : Nat) :
    StateT G (Except Misuse) (Array R) := fun g => do
  Word.demand n
  if hasNext g then return (fill n).run g else throw .outOfRange

/-- Scatters a word over all words of 64 bits, without collisions. -/
def splitmix64 (x : UInt64) : UInt64 :=
  let z := x + 0x9E3779B97F4A7C15
  let z := (z ^^^ (z >>> 30)) * 0xBF58476D1CE4E5B9
  let z := (z ^^^ (z >>> 27)) * 0x94D049BB133111EB
  z ^^^ (z >>> 31)

/-- Pseudorandom draws: every path has a generator of its own. -/
structure SeededStream where
  generator : Generator
  seed : UInt64
  path : Nat
  dimension : Nat

namespace SeededStream

/-- The generator of a path. -/
def pathGenerator (seed : UInt64) (path : Nat) : Generator :=
  .ofSeed (splitmix64 (seed ^^^ path.toUInt64))

def ofSeed (seed : UInt64) : SeededStream := ⟨pathGenerator seed 0, seed, 0, 0⟩

def skipTo (path : Nat) (s : SeededStream) : SeededStream :=
  { s with path := path, generator := pathGenerator s.seed path }

/-- Draws from the generator of the current path. -/
def draw (action : StateM Generator Float) : Nat → StateM SeededStream (List Float)
  | 0 => return []
  | n + 1 => fun s =>
    let (x, generator) := action.run s.generator
    let (rest, s) := draw action n { s with generator := generator }
    (x :: rest, s)

/-- Draws from the generator of the current path, where they have room. -/
def tryDraw (action : StateM Generator Float) (n : Nat) :
    StateT SeededStream (Except Misuse) (List Float) := fun s => do
  Word.demand n
  return (draw action n).run s

/-- The draws of the current path. -/
def fill (action : StateM Generator Float) (n : Nat) : StateM SeededStream (Array Float) := do
  let xs ← draw action n
  modify fun s => s.skipTo (s.path + 1)
  return xs.toArray

instance : DrawStream Float SeededStream where
  prepare n s := { s.skipTo 0 with dimension := n }
  dimension := dimension
  uniforms := fill Generator.uniform
  normals := fill Generator.normal
  skipTo := skipTo
  hasNext s := (Word.next? s.path).isSome

end SeededStream

/-- Given draws: paths go round through the rows, and each path goes round through its row. -/
structure FixedStream (R : Type) where
  rows : Array (Array R)
  path : Nat
  dimension : Nat

namespace FixedStream

variable {R : Type} [Scalar R]

/-- The same draws on every path. -/
def ofValues (values : Array R) : FixedStream R := ⟨#[values], 0, 0⟩

/-- Every path without noise. -/
def zeros : FixedStream R := ofValues #[0]

/-- The draw at a place of a path; zero where nothing is given. -/
def drawAt (s : FixedStream R) (path place : Nat) : R :=
  let row := s.rows.getD (path % s.rows.size) #[]
  row.getD (place % row.size) 0

def fill (f : R → R) (n : Nat) : StateM (FixedStream R) (Array R) := fun s =>
  (Array.ofFn fun place : Fin n => f (s.drawAt s.path place), { s with path := s.path + 1 })

instance : DrawStream R (FixedStream R) where
  prepare n s := { s with path := 0, dimension := n }
  dimension := dimension
  uniforms := fill Normal.distribution
  normals := fill fun x => x
  skipTo path s := { s with path := path }
  hasNext _ := true

end FixedStream

end PayoffPricing.Random
