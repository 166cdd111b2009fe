import PayoffPricing.Calendar.Date
import PayoffPricing.Toml.Section
/-!
Reading documents. A reading takes characters from the front of a text or fails; nothing is told
about a failure. Blanks separate, comments run to the end of a line, and a value nests no deeper
than `maxNesting`.
-/

namespace PayoffPricing.Toml

abbrev Reading (α : Type) := StateT (List Char) Option α

namespace Reading

/-! ## Characters -/

def next : Reading Char := fun
  | [] => none
  | c :: rest => some (c, rest)

def expect (c : Char) : Reading Unit := do guard ((← next) = c)

/-- Takes a text if it comes next. -/
def accept (s : List Char) : Reading Bool := fun cs =>
  if s.isPrefixOf cs then some (true, cs.drop s.length) else some (false, cs)

def takeWhile (p : Char → Bool) : Reading (List Char) := fun cs => some (cs.takeWhile p, cs.dropWhile p)

def startsWith (p : Char → Bool) : Reading Bool := do return (← get).head?.any p

def manyFrom {α : Type} (item : Reading (Option α)) (cs : List Char) : Option (List α × List Char) :=
  match item cs with
  | none => none
  | some (none, rest) => some ([], rest)
  | some (some a, rest) =>
    if rest.length < cs.length then
      (manyFrom item rest).map fun (as, rest) => (a :: as, rest)
    else none
termination_by cs.length

/-- Reads items until there are no more; each of them must take a character. -/
def many {α : Type} (item : Reading (Option α)) : Reading (List α) := manyFrom item

/-- The printable characters and the tabulator. -/
def isPlain (c : Char) : Bool := c = '\t' || (' ' ≤ c && c ≠ '\x7f')

def isSpace (c : Char) : Bool := c = ' ' || c = '\t'

def spaces : Reading Unit := do let _ ← takeWhile isSpace

/-- Takes a line break if it comes next. -/
def lineBreak : Reading Bool := do
  if ← accept ['\n'] then return true else accept ['\r', '\n']

/-- What follows blanks, line breaks and comments. -/
def dropLines (inComment : Bool) : List Char → List Char
  | [] => []
  | '\n' :: rest => dropLines false rest
  | '\r' :: '\n' :: rest => dropLines false rest
  | c :: rest =>
    if inComment && isPlain c then dropLines true rest
    else if inComment then c :: rest
    else if isSpace c then dropLines false rest
    else if c = '#' then dropLines true rest
    else c :: rest

def lines : Reading Unit := modify (dropLines false)

/-- The end of a line, with a comment before it if any. -/
def lineEnd : Reading Unit := do
  spaces
  if ← accept ['#'] then
    let _ ← takeWhile isPlain
  guard ((← lineBreak) || (← get).isEmpty)

/-! ## Texts -/

def hexValue? (c : Char) : Option Nat :=
  if Numeral.isDigit c then some (Numeral.digitValue c)
  else if 'a' ≤ c ∧ c ≤ 'f' then some (c.toNat - 'a'.toNat + 10)
  else if 'A' ≤ c ∧ c ≤ 'F' then some (c.toNat - 'A'.toNat + 10)
  else none

/-- A character given by a number of hexadecimal digits. -/
def codePoint (digits : Nat) : Reading Char := do
  let values ← (List.range digits).mapM fun _ => do hexValue? (← next)
  let n := values.foldl (fun n d => n * 16 + d) 0
  if n.isValidChar then return Char.ofNat n else failure

/-- What a character after a backslash stands for. -/
def escape : Reading Char := do
  match ← next with
  | 'b' => return '\x08'
  | 't' => return '\t'
  | 'n' => return '\n'
  | 'f' => return '\x0c'
  | 'r' => return '\r'
  | '"' => return '"'
  | '\\' => return '\\'
  | 'u' => codePoint 4
  | 'U' => codePoint 8
  | _ => failure

/-- A text on one line, up to its closing quote; backslashes escape between double quotes. -/
def lineText (quote : Char) : Reading String := do
  expect quote
  let cs ← many do
    let c ← next
    if c = quote then return none
    else if c = '\\' ∧ quote = '"' then some <$> escape
    else if isPlain c then return some c
    else failure
  return String.ofList cs

/-- What follows blanks and line breaks. -/
def dropBlanks : List Char → List Char
  | '\n' :: rest => dropBlanks rest
  | '\r' :: '\n' :: rest => dropBlanks rest
  | c :: rest => if isSpace c then dropBlanks rest else c :: rest
  | [] => []

/-- Drops a line break that a backslash ends a line before, and the blanks after it. -/
def continuation : Reading Unit := do
  spaces
  guard (← lineBreak)
  modify dropBlanks

/--
A part of a text over several lines. Up to two quotes stand for themselves; of three to five, the
last three close the text.
-/
def blockPart (quote : Char) : Reading (Option (List Char)) := do
  let quotes := (← get).takeWhile (· = quote)
  if quotes.length = 3 then
    set ((← get).drop 3)
    return none
  else if !quotes.isEmpty then
    let n := if quotes.length < 3 then quotes.length else quotes.length - 3
    guard (n < 3)
    set ((← get).drop n)
    return some (quotes.take n)
  else if ← lineBreak then return some ['\n']
  else
    let c ← next
    if c = '\\' ∧ quote = '"' then
      (do continuation; return some []) <|> (do return some [← escape])
    else if isPlain c then return some [c]
    else failure

/-- A text over several lines; a line break right after the opening quotes is dropped. -/
def blockText (quote : Char) : Reading String := do
  guard (← accept [quote, quote, quote])
  let _ ← lineBreak
  return String.ofList (← many (blockPart quote)).flatten

/-! ## Keys -/

def isKeyChar (c : Char) : Bool := c.isAlphanum || c = '_' || c = '-'

def name : Reading String := do
  if ← startsWith (· = '"') then lineText '"'
  else if ← startsWith (· = '\'') then lineText '\''
  else
    let cs ← takeWhile isKeyChar
    guard !cs.isEmpty
    return String.ofList cs

/-- How deep values and keys may nest. -/
def maxNesting : Nat := 79

def key : Reading Key := do
  let part : Reading String := do
    spaces
    let s ← name
    spaces
    return s
  let first ← part
  let more ← many do if ← accept ['.'] then some <$> part else return none
  guard (more.length < maxNesting)
  let names := first :: more
  return ⟨names.dropLast, names.getLastD first⟩

/-! ## Numbers and dates -/

/-- One more digit; an underscore before it is dropped. -/
def moreDigits (isDigit : Char → Bool) : Reading (Option Char) := fun
  | '_' :: c :: rest => if isDigit c then some (some c, rest) else none
  | c :: rest => if isDigit c then some (some c, rest) else some (none, c :: rest)
  | [] => some (none, [])

/-- Digits with single underscores between them. -/
def digits (isDigit : Char → Bool) : Reading (List Char) := do
  let first ← next
  guard (isDigit first)
  return first :: (← many (moreDigits isDigit))

/-- A whole number in another base; its letter follows a zero. -/
def based (letter : Char) (base : Nat) : Reading Int := do
  guard (← accept ['0', letter])
  let ds ← digits fun c => (hexValue? c).any (· < base)
  return Int.ofNat (ds.foldl (fun n c => n * base + (hexValue? c).getD 0) 0)

/-- Whole numbers lie between the negative of this and below it. -/
def wholeLimit : Int := Int.ofNat (1 <<< 63)

def inRange (n : Int) : Reading Value := do
  guard (-wholeLimit ≤ n ∧ n < wholeLimit)
  return .whole n

/-- A sign that may stand in front of a number: whether it is a minus. -/
def sign : Reading Bool := do
  let negative ← accept ['-']
  if !negative then
    let _ ← accept ['+']
  return negative

/-- A number in decimal notation, without a zero in front. -/
def decimal : Reading Value := do
  let negative ← sign
  let signed (x : Float) : Value := .real (if negative then -x else x)
  if ← accept ['i', 'n', 'f'] then return signed (1 / 0)
  if ← accept ['n', 'a', 'n'] then return signed Scalar.undefined
  let whole ← digits Numeral.isDigit
  guard (whole.length = 1 ∨ whole.head? ≠ some '0')
  let fraction ← if ← accept ['.'] then some <$> digits Numeral.isDigit else pure none
  let power : Option Int ← if ← startsWith fun c => c = 'e' || c = 'E' then do
      let _ ← next
      let below ← sign
      let n := Int.ofNat (Numeral.value (← digits Numeral.isDigit))
      pure (some (if below then -n else n))
    else pure none
  if fraction.isNone ∧ power.isNone then
    let n := Int.ofNat (Numeral.value whole)
    inRange (if negative then -n else n)
  else
    let places := fraction.getD []
    let x := Double.ofDecimal (Numeral.value (whole ++ places))
      (power.getD 0 - Int.ofNat places.length)
    guard (negative || x.isFinite)
    return signed x

/-- A number of exactly so many digits. -/
def fixedDigits (n : Nat) : Reading Nat := do
  let ds ← (List.range n).mapM fun _ => do
    let c ← next
    guard (Numeral.isDigit c)
    return c
  return Numeral.value ds

def date : Reading Unit := do
  let year ← fixedDigits 4
  expect '-'
  let month ← fixedDigits 2
  expect '-'
  let day ← fixedDigits 2
  guard (Date.ofParts? year month day).isSome

def hourAndMinute : Reading Unit := do
  guard ((← fixedDigits 2) < 24)
  expect ':'
  guard ((← fixedDigits 2) < 60)

def clock : Reading Unit := do
  hourAndMinute
  expect ':'
  guard ((← fixedDigits 2) ≤ 60)
  if ← accept ['.'] then
    guard !(← takeWhile Numeral.isDigit).isEmpty

/-- A difference to universal time. -/
def offset : Reading Unit := do
  if ← startsWith fun c => c = 'Z' || c = 'z' then
    let _ ← next
  else if ← startsWith fun c => c = '+' || c = '-' then
    let _ ← next
    hourAndMinute

/-- A date, a time of day, or both. -/
def moment : Reading Value := do
  let before ← get
  (do
    date
    (do
      guard ((← next) ∈ ['T', 't', ' '])
      clock
      offset) <|> pure ()) <|> clock
  return .moment (String.ofList (before.take (before.length - (← get).length)))

/-! ## Values -/

def scalar : Reading Value :=
  (.text <$> blockText '"') <|> (.text <$> blockText '\'') <|> (.text <$> lineText '"') <|>
    (.text <$> lineText '\'') <|> moment <|> (do inRange (← based 'x' 16)) <|>
    (do inRange (← based 'o' 8)) <|> (do inRange (← based 'b' 2)) <|> decimal <|>
    (do guard (← accept "true".toList); return .truth true) <|>
    (do guard (← accept "false".toList); return .truth false)

/-- An item of a list, whose end closes the list. -/
def listItem (value : Reading Value) : Reading (Option Value) := do
  lines
  if ← accept [']'] then return none
  let v ← value
  lines
  guard ((← accept [',']) || (← startsWith (· = ']')))
  return some v

def assignment (value : Reading Value) : Reading (Key × Value) := do
  let k ← key
  expect '='
  spaces
  return (k, ← value)

/-- An entry of a table on one line, whose end closes the table; no comma stands before it. -/
def tableItem (value : Reading Value) : Reading (Option (Key × Value)) := do
  spaces
  if ← accept ['\x7d'] then return none
  let entry ← assignment value
  spaces
  if ← accept [','] then
    spaces
    guard !(← startsWith (· = '\x7d'))
  else guard (← startsWith (· = '\x7d'))
  return some entry

/-- A value in which lists and tables nest at most so deep. -/
def value : Nat → Reading Value
  | 0 => scalar
  | depth + 1 => do
    if ← accept ['['] then .list <$> many (listItem (value depth))
    else if ← accept ['\x7b'] then
      let entries ← many (tableItem (value depth))
      match Value.ofAssignments? entries with
      | some v => return v
      | none => failure
    else scalar

/-! ## Documents -/

def header : Reading Header := do
  expect '['
  if ← accept ['['] then
    let k ← key
    guard (← accept [']', ']'])
    return .row k
  else
    let k ← key
    expect ']'
    return .table k

/-- An assignment on a line of its own; nothing at a header or at the end. -/
def line : Reading (Option (Key × Value)) := do
  lines
  if (← get).isEmpty || (← startsWith (· = '[')) then return none
  let entry ← assignment (value maxNesting)
  lineEnd
  return some entry

/-- A header with the assignments up to the next header; nothing at the end. -/
def headed : Reading (Option Section) := do
  if (← get).isEmpty then return none
  let h ← header
  lineEnd
  return some ⟨h, ← many line⟩

def document : Reading (List Section) := do
  let _ ← accept ['\ufeff']
  let top ← many line
  return ⟨.top, top⟩ :: (← many headed)

end Reading

/-- The table that a document describes, if it is one. -/
def Value.ofText? (s : String) : Option Value := do
  let (sections, _) ← Reading.document.run s.toList
  Value.ofSections? sections

end PayoffPricing.Toml
