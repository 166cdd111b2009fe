import PayoffPricing.Text.Uppercase
import PayoffPricing.Script.Error
import PayoffPricing.Script.Lexer
import PayoffPricing.Script.Statement
/-!
From tokens to statements. Each function reads one phrase from the front of a list of lexemes and
returns what is left; a phrase in parentheses is read from the lexemes between them alone. A
condition may start with a parenthesised condition or with a parenthesised expression: it is the
latter when an operator or a comparator follows the closing parenthesis. A comparison of two
expressions becomes the comparison of their difference with zero.
-/

namespace PayoffPricing.Script

abbrev Lexemes (R : Type) := List (Lexeme R)

/-- Named numbers, the latest definition of a name first. -/
abbrev Constants (R : Type) := List (String × R)

/-- Why no phrase could be read; a text that ended too early has no offset. -/
inductive Refusal (R : Type) where
  | grammar (cause : SyntaxCause R) (offset : Option Nat)
  | arity (function : String) (count : Nat)

/-- A phrase and the lexemes behind it, of which there are fewer than `bound`. -/
structure Phrase (R α : Type) (bound : Nat) where
  value : α
  rest : Lexemes R
  length_lt : rest.length < bound

/-- Reads a phrase from the front of the lexemes. -/
abbrev Parsed (R α : Type) (before : Lexemes R) := Except (Refusal R) (Phrase R α before.length)

/-- Reads a phrase that may be empty. -/
abbrev Extended (R α : Type) (before : Lexemes R) :=
  Except (Refusal R) (Phrase R α (before.length + 1))

namespace Parser

variable {R : Type}

def refuse {α : Type} (cause : SyntaxCause R) (at_ : Lexemes R) : Except (Refusal R) α :=
  .error (.grammar cause (at_.head?.map (·.start)))

def isSymbol (s : Symbol) (l : Lexeme R) : Bool :=
  match l.token with
  | .symbol t => s == t
  | _ => false

def isKeyword (k : Keyword) (l : Lexeme R) : Bool :=
  match l.token with
  | .keyword w => k == w
  | _ => false

/-- The lexemes before the closing parenthesis that balances `depth + 1` open ones, and those behind. -/
def splitClosing (depth : Nat) : Lexemes R → Option (Lexemes R × Lexemes R)
  | [] => none
  | l :: rest =>
    if isSymbol .opening l then
      (splitClosing (depth + 1) rest).map fun (inside, after) => (l :: inside, after)
    else if isSymbol .closing l then
      match depth with
      | 0 => some ([], rest)
      | depth + 1 => (splitClosing depth rest).map fun (inside, after) => (l :: inside, after)
    else (splitClosing depth rest).map fun (inside, after) => (l :: inside, after)

theorem length_splitClosing {depth : Nat} {ts inside after : Lexemes R}
    (h : splitClosing depth ts = some (inside, after)) :
    inside.length + after.length + 1 = ts.length := by
  induction ts generalizing depth inside after with
  | nil => simp [splitClosing] at h
  | cons l rest ih =>
    have step : ∀ d, (splitClosing d rest).map (fun (i, a) => (l :: i, a)) = some (inside, after) →
        inside.length + after.length + 1 = (l :: rest).length := by
      intro d hd
      obtain ⟨⟨i, a⟩, hi, he⟩ := Option.map_eq_some_iff.1 hd
      have := ih hi
      simp only [Prod.mk.injEq] at he
      obtain ⟨rfl, rfl⟩ := he
      simp only [List.length_cons]
      omega
    simp only [splitClosing] at h
    split at h
    · exact step _ h
    · split at h
      · cases depth with
        | zero => simp at h; obtain ⟨rfl, rfl⟩ := h; simp
        | succ d => exact step _ h
      · exact step _ h

theorem length_lt_cons {l : Lexeme R} {ts rest : Lexemes R} (h : rest.length < ts.length) :
    rest.length < (l :: ts).length :=
  Nat.lt_succ_of_lt h

/-- What stands behind a parenthesised phrase is shorter than what starts with it. -/
theorem length_lt_of_splitClosing {l : Lexeme R} {depth : Nat} {ts inside after : Lexemes R}
    (h : splitClosing depth ts = some (inside, after)) : after.length < (l :: ts).length := by
  have := length_splitClosing h
  simp only [List.length_cons]
  omega

def sumOperator? (l : Lexeme R) : Option Operator :=
  if isSymbol .plus l then some .add else if isSymbol .minus l then some .sub else none

def productOperator? (l : Lexeme R) : Option Operator :=
  if isSymbol .star l then some .mul else if isSymbol .slash l then some .div else none

/-- A call with an accepted number of arguments. -/
def call (name : String) (args : List (Expr R)) : Except (Refusal R) (Expr R) :=
  match Function.ofName? name with
  | some f =>
    if args.length < f.arity.1 ∨ f.arity.2 < args.length then .error (.arity name args.length)
    else .ok (.call none f args)
  | none => if args.isEmpty then .ok .spot else .error (.arity name args.length)

/-- Names with arguments. -/
def isCallable (name : String) : Bool := name == "SPOT" || (Function.ofName? name).isSome

mutual

/-- `product ((+ | -) product)*` -/
def expr (constants : Constants R) (ts : Lexemes R) : Parsed R (Expr R) ts := do
  let ⟨first, rest, h⟩ ← product constants ts
  let ⟨e, rest, h⟩ ← sumTail constants first rest
  return ⟨e, rest, by grind⟩
termination_by (ts.length, 5)

def sumTail (constants : Constants R) (lhs : Expr R) (ts : Lexemes R) : Extended R (Expr R) ts :=
  match ts with
  | [] => .ok ⟨lhs, [], by grind⟩
  | l :: ts =>
    match sumOperator? l with
    | none => .ok ⟨lhs, l :: ts, by grind⟩
    | some op => do
      let ⟨rhs, rest, h⟩ ← product constants ts
      let ⟨e, rest, h⟩ ← sumTail constants (.binary none op lhs rhs) rest
      return ⟨e, rest, by grind⟩
termination_by (ts.length, 6)

/-- `power ((* | /) power)*` -/
def product (constants : Constants R) (ts : Lexemes R) : Parsed R (Expr R) ts := do
  let ⟨first, rest, h⟩ ← power constants ts
  let ⟨e, rest, h⟩ ← productTail constants first rest
  return ⟨e, rest, by grind⟩
termination_by (ts.length, 4)

def productTail (constants : Constants R) (lhs : Expr R) (ts : Lexemes R) : Extended R (Expr R) ts :=
  match ts with
  | [] => .ok ⟨lhs, [], by grind⟩
  | l :: ts =>
    match productOperator? l with
    | none => .ok ⟨lhs, l :: ts, by grind⟩
    | some op => do
      let ⟨rhs, rest, h⟩ ← power constants ts
      let ⟨e, rest, h⟩ ← productTail constants (.binary none op lhs rhs) rest
      return ⟨e, rest, by grind⟩
termination_by (ts.length, 5)

/-- `factor (^ factor)*`, grouped from the left -/
def power (constants : Constants R) (ts : Lexemes R) : Parsed R (Expr R) ts := do
  let ⟨first, rest, h⟩ ← factor constants ts
  let ⟨e, rest, h⟩ ← powerTail constants first rest
  return ⟨e, rest, by grind⟩
termination_by (ts.length, 3)

def powerTail (constants : Constants R) (lhs : Expr R) (ts : Lexemes R) : Extended R (Expr R) ts :=
  match ts with
  | [] => .ok ⟨lhs, [], by grind⟩
  | l :: ts =>
    if isSymbol .caret l then do
      let ⟨rhs, rest, h⟩ ← factor constants ts
      let ⟨e, rest, h⟩ ← powerTail constants (.binary none .pow lhs rhs) rest
      return ⟨e, rest, by grind⟩
    else .ok ⟨lhs, l :: ts, by grind⟩
termination_by (ts.length, 4)

/-- `(+ | -) factor | ( expr ) | NUMBER | NAME | NAME ( arguments )` -/
def factor (constants : Constants R) (ts : Lexemes R) : Parsed R (Expr R) ts :=
  match ts with
  | [] => refuse .unexpectedEnd []
  | l :: ts =>
    match l.token with
    | .symbol .plus => do
      let ⟨e, rest, h⟩ ← factor constants ts
      return ⟨.plus none e, rest, length_lt_cons h⟩
    | .symbol .minus => do
      let ⟨e, rest, h⟩ ← factor constants ts
      return ⟨.neg none e, rest, length_lt_cons h⟩
    | .symbol .opening =>
      match hs : splitClosing 0 ts with
      | none => refuse .unmatchedOpening (l :: ts)
      | some (inside, after) => do
        have := length_splitClosing hs
        let ⟨e, rest, _⟩ ← expr constants inside
        if rest.isEmpty then return ⟨e, after, length_lt_of_splitClosing hs⟩
        else refuse .trailingTokens rest
    | .number v => .ok ⟨.literal v, ts, Nat.lt_succ_self _⟩
    | .name name =>
      if isCallable name then do
        let ⟨args, rest, h⟩ ← arguments constants ts
        let e ← call name args
        return ⟨e, rest, length_lt_cons h⟩
      else
        match constants.lookup name with
        | some v => .ok ⟨.literal v, ts, Nat.lt_succ_self _⟩
        | none => .ok ⟨.read none (.ofName name), ts, Nat.lt_succ_self _⟩
    | token => refuse (.unexpectedToken token) (l :: ts)
termination_by (ts.length, 2)

/-- `( [expr (, expr)*] )` -/
def arguments (constants : Constants R) (ts : Lexemes R) : Parsed R (List (Expr R)) ts :=
  match ts with
  | [] => refuse .missingArguments []
  | l :: ts =>
    if isSymbol .opening l then
      match hs : splitClosing 0 ts with
      | none => refuse .unmatchedOpening (l :: ts)
      | some (inside, after) => do
        have := length_splitClosing hs
        let args ← argumentList constants inside
        return ⟨args, after, length_lt_of_splitClosing hs⟩
    else refuse .missingArguments (l :: ts)
termination_by (ts.length, 7)

def argumentList (constants : Constants R) (ts : Lexemes R) :
    Except (Refusal R) (List (Expr R)) :=
  if ts.isEmpty then .ok []
  else do
    let ⟨e, rest, h⟩ ← expr constants ts
    match rest, h with
    | [], _ => return [e]
    | l :: rest, h =>
      if isSymbol .comma l then
        if rest.isEmpty then refuse .unexpectedEnd rest
        else do
          have : rest.length < ts.length := by grind
          let es ← argumentList constants rest
          return e :: es
      else refuse .missingComma (l :: rest)
termination_by (ts.length, 6)

end

/-- `((; | :) NUMBER)*`, of which the last number counts -/
def tolerances (last : Option R) : (ts : Lexemes R) → Extended R (Option R) ts
  | [] => .ok ⟨last, [], by grind⟩
  | l :: ts =>
    if isSymbol .semicolon l || isSymbol .colon l then
      match ts with
      | [] => refuse .optionNotNumber []
      | m :: ts =>
        match m.token with
        | .number v => do
          let ⟨t, rest, h⟩ ← tolerances (some v) ts
          return ⟨t, rest, by grind⟩
        | _ => refuse .optionNotNumber (m :: ts)
    else .ok ⟨last, l :: ts, by grind⟩

/-- The condition that two expressions are in the relation of a comparator. -/
def comparison [Scalar R] (s : Symbol) (lhs rhs : Expr R) (tolerance : Option R) : Option (Cond R) :=
  let compare (relation : Relation) (a b : Expr R) : Cond R :=
    .compare none (.new relation (.difference a b) tolerance)
  match s with
  | .equal => some (compare .equal lhs rhs)
  | .notEqual => some (.not none (compare .equal lhs rhs))
  | .greater => some (compare .above lhs rhs)
  | .less => some (compare .above rhs lhs)
  | .greaterEqual => some (compare .aboveOrEqual lhs rhs)
  | .lessEqual => some (compare .aboveOrEqual rhs lhs)
  | _ => none

/-- `expr COMPARATOR expr ((; | :) NUMBER)*` -/
def elementary [Scalar R] (constants : Constants R) (ts : Lexemes R) : Parsed R (Cond R) ts := do
  let ⟨lhs, rest, h⟩ ← expr constants ts
  match rest, h with
  | [], _ => refuse .unexpectedEnd []
  | l :: rest, h =>
    match l.token with
    | .symbol s =>
      if s.isComparator then do
        let ⟨rhs, rest, h⟩ ← expr constants rest
        let ⟨tolerance, rest, h⟩ ← tolerances none rest
        match comparison s lhs rhs tolerance with
        | some c => return ⟨c, rest, by grind⟩
        | none => refuse .missingComparator (l :: rest)
      else refuse .missingComparator (l :: rest)
    | _ => refuse .missingComparator (l :: rest)

/-- A parenthesised expression is meant, not a condition, when this follows. -/
def continuesExpression (after : Lexemes R) : Bool :=
  after.head?.any fun l => l.token.isComparator || l.token.isArithmetic

mutual

/-- `conjunction (OR conjunction)*` -/
def cond [Scalar R] (constants : Constants R) (ts : Lexemes R) : Parsed R (Cond R) ts := do
  let ⟨first, rest, h⟩ ← conjunction constants ts
  let ⟨c, rest, h⟩ ← orTail constants first rest
  return ⟨c, rest, by grind⟩
termination_by (ts.length, 3)

def orTail [Scalar R] (constants : Constants R) (lhs : Cond R) (ts : Lexemes R) :
    Extended R (Cond R) ts :=
  match ts with
  | [] => .ok ⟨lhs, [], by grind⟩
  | l :: ts =>
    if isKeyword .orWord l then do
      let ⟨rhs, rest, h⟩ ← conjunction constants ts
      let ⟨c, rest, h⟩ ← orTail constants (.or none lhs rhs) rest
      return ⟨c, rest, by grind⟩
    else .ok ⟨lhs, l :: ts, by grind⟩
termination_by (ts.length, 4)

/-- `atom (AND atom)*` -/
def conjunction [Scalar R] (constants : Constants R) (ts : Lexemes R) : Parsed R (Cond R) ts := do
  let ⟨first, rest, h⟩ ← atom constants ts
  let ⟨c, rest, h⟩ ← andTail constants first rest
  return ⟨c, rest, by grind⟩
termination_by (ts.length, 2)

def andTail [Scalar R] (constants : Constants R) (lhs : Cond R) (ts : Lexemes R) :
    Extended R (Cond R) ts :=
  match ts with
  | [] => .ok ⟨lhs, [], by grind⟩
  | l :: ts =>
    if isKeyword .andWord l then do
      let ⟨rhs, rest, h⟩ ← atom constants ts
      let ⟨c, rest, h⟩ ← andTail constants (.and none lhs rhs) rest
      return ⟨c, rest, by grind⟩
    else .ok ⟨lhs, l :: ts, by grind⟩
termination_by (ts.length, 3)

/-- `( cond ) | expr COMPARATOR expr ((; | :) NUMBER)*` -/
def atom [Scalar R] (constants : Constants R) (ts : Lexemes R) : Parsed R (Cond R) ts :=
  match ts with
  | [] => elementary constants []
  | l :: ts =>
    if isSymbol .opening l then
      match hs : splitClosing 0 ts with
      | none => refuse .unmatchedOpening (l :: ts)
      | some (inside, after) =>
        if continuesExpression after then elementary constants (l :: ts)
        else do
          have := length_splitClosing hs
          let ⟨c, rest, _⟩ ← cond constants inside
          if rest.isEmpty then return ⟨c, after, length_lt_of_splitClosing hs⟩
          else refuse .trailingTokens rest
    else elementary constants (l :: ts)
termination_by (ts.length, 1)

end

/-- Words that close the body of a conditional statement. -/
def closesBody (k : Keyword) : Bool := k == .elseWord || k.isEnd

/-- The body goes on: there is a lexeme, and it closes nothing. -/
def goesOn (closes : Keyword → Bool) (l : Lexeme R) : Bool :=
  match l.token with
  | .keyword k => !closes k
  | _ => true

/-- The name of a variable that may be assigned to. -/
def target (constants : Constants R) (name : String) (ts : Lexemes R) : Except (Refusal R) Variable :=
  if isCallable name then refuse (.reservedName name) ts
  else if (constants.lookup name).isSome then refuse (.constantName name) ts
  else .ok (.ofName name)

mutual

/-- `IF cond THEN statement* [ELSE statement*] (END | ENDIF) | NAME = expr | NAME PAYS expr` -/
def statement [Scalar R] (constants : Constants R) (ts : Lexemes R) : Parsed R (Statement R) ts :=
  match ts with
  | [] => refuse .noStatement []
  | l :: ts =>
    match l.token with
    | .keyword .ifWord =>
      if ts.isEmpty then refuse .missingThen []
      else do
        let ⟨c, rest, h⟩ ← cond constants ts
        match rest, h with
        | [], _ => refuse .missingThen []
        | m :: rest, h =>
          have : rest.length < ts.length := by grind
          if isKeyword .thenWord m then do
            let ⟨body, rest, h⟩ ← block constants closesBody rest
            match rest, h with
            | [], _ => refuse .missingElseOrEnd []
            | n :: rest, h =>
              have : rest.length < ts.length := by grind
              if isKeyword .elseWord n then do
                let ⟨otherwise, rest, h⟩ ← block constants Keyword.isEnd rest
                match rest, h with
                | [], _ => refuse .missingEnd []
                | _ :: rest, h => return ⟨.branch c body otherwise [], rest, by grind⟩
              else return ⟨.branch c body [] [], rest, by grind⟩
          else refuse .missingThen (m :: rest)
    | .name name => do
      let v ← target constants name (l :: ts)
      match ht : ts with
      | [] => refuse .unexpectedEnd []
      | m :: rest =>
        if isSymbol .equal m then do
          let ⟨e, rest, h⟩ ← expr constants rest
          return ⟨.assign v e, rest, by grind⟩
        else if isKeyword .paysWord m then do
          let ⟨e, rest, h⟩ ← expr constants rest
          return ⟨.pays v e, rest, by grind⟩
        else refuse .noInstruction (m :: rest)
    | _ => refuse .noStatement (l :: ts)
termination_by (ts.length, 0)

/-- Statements up to the end, or up to a word that closes them. -/
def block [Scalar R] (constants : Constants R) (closes : Keyword → Bool) (ts : Lexemes R) :
    Extended R (List (Statement R)) ts :=
  match ts with
  | [] => .ok ⟨[], [], by grind⟩
  | l :: ts =>
    if goesOn closes l then do
      let ⟨s, rest, h⟩ ← statement constants (l :: ts)
      let ⟨ss, rest, h⟩ ← block constants closes rest
      return ⟨s :: ss, rest, by grind⟩
    else .ok ⟨[], l :: ts, by grind⟩
termination_by (ts.length, 1)

end

/-- The statements of a whole event. -/
def event [Scalar R] (constants : Constants R) (ts : Lexemes R) :
    Except (Refusal R) (List (Statement R)) :=
  if ts.isEmpty then .ok []
  else do
    let ⟨s, rest, _⟩ ← statement constants ts
    let ss ← event constants rest
    return s :: ss
termination_by ts.length

end Parser

namespace Excerpt

/-- Excerpts have at most this many characters. -/
def limit : Nat := 24

/-- The characters from a byte offset on. -/
def dropBytes (cs : List Char) (n : Nat) : List Char :=
  match cs with
  | [] => []
  | c :: rest => if n = 0 then c :: rest else dropBytes rest (n - c.utf8Size)

/-- The rest of the line at a byte offset, cut short. -/
def ofSource (source : String) (offset : Nat) : String :=
  let line := (dropBytes source.toList offset).takeWhile (· != '\n')
  String.ofList (Text.trimList (line.take limit))

end Excerpt

/-- The statements of an event's text; names are read in upper case. -/
def parseEvent {R : Type} [Scalar R] (text : String) (event : Nat) (constants : Constants R) :
    Except (ScriptError R) (List (Statement R)) :=
  let source := Text.uppercase text
  match Lexeme.ofText source with
  | .error e => .error (.parse event .unrecognised (Excerpt.ofSource source e.start))
  | .ok lexemes =>
    match Parser.event constants lexemes with
    | .ok statements => .ok statements
    | .error (.arity function count) => .error (.arity function count)
    | .error (.grammar cause (some offset)) =>
      .error (.parse event cause (Excerpt.ofSource source offset))
    | .error (.grammar cause none) => .error (.parse event cause "end of event")

end PayoffPricing.Script
