/-!
Textual macros. A macro stands for a text wherever its name is a whole word; texts may mention
further macros, and expansion goes on until no macro is left.
-/

namespace PayoffPricing

/-- A name and the text that it stands for. -/
structure Macro where
  name : String
  text : String
deriving DecidableEq, Repr

namespace Macro

def startsWord (c : Char) : Bool := c.isAlpha || c == '_'

def continuesWord (c : Char) : Bool := c.isAlphanum || c == '_' || c == '.'

/-- The words of a text, its runs that start with a digit, and all other characters one by one. -/
def pieces (cs : List Char) : List (List Char) :=
  match cs with
  | [] => []
  | c :: rest =>
    if startsWord c || c.isDigit then
      (c :: rest.takeWhile continuesWord) :: pieces (rest.dropWhile continuesWord)
    else [c] :: pieces rest
termination_by cs.length
decreasing_by
  · have := (List.dropWhile_sublist continuesWord (l := rest)).length_le
    simp only [List.length_cons]
    omega
  · simp

/-- The macro that a piece names; of several with one name the first. -/
def named? (macros : List Macro) (piece : List Char) : Option Macro :=
  if piece.head?.any startsWord then macros.find? fun m => m.name.toList == piece else none

/-- What a piece is replaced by in one round. -/
def replace (macros : List Macro) (piece : List Char) : List Char :=
  (named? macros piece).elim piece (·.text.toList)

/-- How often texts of macros may mention macros. -/
def rounds : Nat := 32

/-- Expands until no macro is left; fails when the rounds run out. -/
def expandRounds (macros : List Macro) : Nat → List Char → Option (List Char)
  | 0, _ => none
  | n + 1, cs =>
    if (pieces cs).any fun piece => (named? macros piece).isSome then
      expandRounds macros n ((pieces cs).flatMap (replace macros))
    else some cs

/-- The text with all macros expanded. -/
def expand? (macros : List Macro) (text : String) : Option String :=
  (expandRounds macros rounds text.toList).map String.ofList

end Macro

end PayoffPricing
