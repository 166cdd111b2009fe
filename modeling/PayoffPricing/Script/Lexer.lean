import PayoffPricing.Decimal.Numeral
import PayoffPricing.Script.Token
/-!
From text to tokens. The longest token that starts at a character is taken; blanks separate tokens
and are skipped. A keyword is a name that is spelled like one.
-/

namespace PayoffPricing.Script

namespace Lexer

def isBlank (c : Char) : Bool := c = ' ' || c = '\t' || c = '\r' || c = '\n'

def isLetter (c : Char) : Bool := ('A' ≤ c && c ≤ 'Z') || ('a' ≤ c && c ≤ 'z')

def isNameChar (c : Char) : Bool := isLetter c || Numeral.isDigit c || c = '_'

/-- The bytes that a text takes up. -/
def byteSize (cs : List Char) : Nat := cs.foldl (fun n c => n + c.utf8Size) 0

/-- The signs that start with a character, given the character that follows. -/
def symbol? : Char → Option Char → Option (Symbol × Nat)
  | '+', _ => some (.plus, 1)
  | '-', _ => some (.minus, 1)
  | '*', _ => some (.star, 1)
  | '/', _ => some (.slash, 1)
  | '^', _ => some (.caret, 1)
  | '=', _ => some (.equal, 1)
  | '!', some '=' => some (.notEqual, 2)
  | '<', some '=' => some (.lessEqual, 2)
  | '<', _ => some (.less, 1)
  | '>', some '=' => some (.greaterEqual, 2)
  | '>', _ => some (.greater, 1)
  | '(', _ => some (.opening, 1)
  | ')', _ => some (.closing, 1)
  | ',', _ => some (.comma, 1)
  | ';', _ => some (.semicolon, 1)
  | ':', _ => some (.colon, 1)
  | _, _ => none

/-- The longest token at the start of a text, and its length. -/
def token? {R : Type} [Scalar R] (cs : List Char) : Option (Token R × Nat) :=
  match cs with
  | [] => none
  | c :: rest =>
    if isLetter c then
      let word := c :: rest.takeWhile isNameChar
      let text := String.ofList word
      some ((Keyword.ofText? text).elim (.name text) .keyword, word.length)
    else if Numeral.isDigit c ∨ c = '.' then (Numeral.leading? cs).map fun (x, n) => (.number x, n)
    else (symbol? c rest.head?).map fun (s, n) => (.symbol s, n)

/-- The bytes of a character that no token starts with. -/
structure Unrecognised where
  start : Nat
  stop : Nat

/-- The tokens of a text that starts at byte `at`. -/
def scanFrom {R : Type} [Scalar R] (cs : List Char) (place : Nat) :
    Except Unrecognised (List (Lexeme R)) :=
  match cs with
  | [] => .ok []
  | c :: rest =>
    if isBlank c then scanFrom rest (place + c.utf8Size)
    else
      match token? (c :: rest) with
      | none => .error ⟨place, place + c.utf8Size⟩
      | some (token, n) =>
        let stop := place + byteSize ((c :: rest).take n)
        (scanFrom (rest.drop (n - 1)) stop).map (⟨token, place, stop⟩ :: ·)
termination_by cs.length
decreasing_by
  all_goals simp only [List.length_drop, List.length_cons]
  all_goals omega

end Lexer

/-- The tokens of a text with the bytes they were read from. -/
def Lexeme.ofText {R : Type} [Scalar R] (source : String) :
    Except Lexer.Unrecognised (List (Lexeme R)) :=
  Lexer.scanFrom source.toList 0

end PayoffPricing.Script
