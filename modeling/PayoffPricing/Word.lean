import PayoffPricing.Fault
/-!
Bounds of storage. Positions and path numbers are words, and a stretch of storage holds a bounded
number of elements. Whatever would go beyond is a misuse.
-/

namespace PayoffPricing.Word

/-- Words are below this. -/
def limit : Nat := 1 <<< 64

/-- The next word; the last word has none. -/
def next? (n : Nat) : Option Nat := if n + 1 < limit then some (n + 1) else none

/-- A stretch of storage holds fewer words than this. -/
def roomLimit : Nat := 1 <<< 60

/-- Demands room for a number of words in a row. -/
def demand (n : Nat) : Except Misuse Unit := if n < roomLimit then .ok () else .error .outOfRange

end PayoffPricing.Word
