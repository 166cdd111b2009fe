import PayoffPricing.Decimal.Format
/-!
The words of the payoff language.
-/

namespace PayoffPricing.Script

inductive Keyword where
  | ifWord
  | thenWord
  | elseWord
  | endWord
  | endifWord
  | paysWord
  | andWord
  | orWord
deriving DecidableEq, Repr

/-- Operators and punctuation. The sign `=` assigns or compares, depending on where it stands. -/
inductive Symbol where
  | plus
  | minus
  | star
  | slash
  | caret
  | equal
  | notEqual
  | less
  | greater
  | lessEqual
  | greaterEqual
  | opening
  | closing
  | comma
  | semicolon
  | colon
deriving DecidableEq, Repr

inductive Token (R : Type) where
  | keyword (word : Keyword)
  | symbol (sign : Symbol)
  | number (value : R)
  | name (text : String)

/-- A token and the bytes `[start, stop)` of the source that it was read from. -/
structure Lexeme (R : Type) where
  token : Token R
  start : Nat
  stop : Nat

namespace Keyword

def all : List Keyword :=
  [ifWord, thenWord, elseWord, endWord, endifWord, paysWord, andWord, orWord]

def text : Keyword → String
  | ifWord => "IF"
  | thenWord => "THEN"
  | elseWord => "ELSE"
  | endWord => "END"
  | endifWord => "ENDIF"
  | paysWord => "PAYS"
  | andWord => "AND"
  | orWord => "OR"

def ofText? (s : String) : Option Keyword := all.find? fun k => k.text == s

/-- The words that close a branch. -/
def isEnd : Keyword → Bool
  | endWord => true
  | endifWord => true
  | _ => false

end Keyword

namespace Symbol

def text : Symbol → String
  | plus => "+"
  | minus => "-"
  | star => "*"
  | slash => "/"
  | caret => "^"
  | equal => "="
  | notEqual => "!="
  | less => "<"
  | greater => ">"
  | lessEqual => "<="
  | greaterEqual => ">="
  | opening => "("
  | closing => ")"
  | comma => ","
  | semicolon => ";"
  | colon => ":"

def isComparator : Symbol → Bool
  | equal => true
  | notEqual => true
  | less => true
  | greater => true
  | lessEqual => true
  | greaterEqual => true
  | _ => false

def isArithmetic : Symbol → Bool
  | plus => true
  | minus => true
  | star => true
  | slash => true
  | caret => true
  | _ => false

end Symbol

namespace Token

variable {R : Type}

def isComparator : Token R → Bool
  | symbol s => s.isComparator
  | _ => false

def isArithmetic : Token R → Bool
  | symbol s => s.isArithmetic
  | _ => false

def isEnd : Token R → Bool
  | keyword k => k.isEnd
  | _ => false

def text : Token Float → String
  | keyword k => k.text
  | symbol s => s.text
  | number x => numberText x
  | name s => s

end Token

end PayoffPricing.Script
