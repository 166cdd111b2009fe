import PayoffPricing.Market
import PayoffPricing.Calendar.Schedule
import PayoffPricing.Script.Bound
import PayoffPricing.Script.Token
/-!
What can be wrong with a script, a product or an evaluation.
-/

namespace PayoffPricing.Script

/-- Why a text does not follow the grammar. -/
inductive SyntaxCause (R : Type) where
  | unrecognised
  | unexpectedEnd
  | unmatchedOpening
  | trailingTokens
  | noInstruction
  | noStatement
  | reservedName (name : String)
  | constantName (name : String)
  | missingThen
  | missingElseOrEnd
  | missingEnd
  | missingComparator
  | optionNotNumber
  | unexpectedToken (token : Token R)
  | missingArguments
  | missingComma

/-- What analysis refuses. -/
inductive AnalysisCause (R : Type) where
  | discreteSmoothing
  | crossedBounds (left right : Bound R)
  | stackUnderflow
  | invalidOpcode (word place : Nat)

/-- What is inconsistent about a product or about its use. -/
inductive ProductCause (R : Type) where
  | noPayoff
  | noEvaluationDate (date : Date)
  | pastEvent (date today : Date)
  | invalidTime (time : R)
  | endlessExpansion
  | ambiguousTime (event : Nat)
  | calendar (cause : CalendarError)
  | smoothingWidth (width : R)
  | scenario (cause : ScenarioError R)

inductive ScriptError (R : Type) where
  | parse (event : Nat) (cause : SyntaxCause R) (fragment : String)
  | arity (function : String) (count : Nat)
  | unknownVariable (name : String)
  | domain (function : String) (argument : R)
  | analysis (cause : AnalysisCause R)
  | product (cause : ProductCause R)

namespace SyntaxCause

def message : SyntaxCause Float → String
  | unrecognised => "unrecognised character"
  | unexpectedEnd => "unexpected end of statement"
  | unmatchedOpening => "opening ( has no matching closing )"
  | trailingTokens => "unexpected token before )"
  | noInstruction => "statement without an instruction"
  | noStatement => "statement must start with IF or a variable"
  | reservedName name => s!"Variable name {name} conflicts with a keyword"
  | constantName name => s!"Variable name {name} is a product constant"
  | missingThen => "`IF` is not followed by `THEN`"
  | missingElseOrEnd => "`IF/THEN` is not followed by `ELSE` or `END`"
  | missingEnd => "`IF/THEN/ELSE` is not followed by `END`"
  | missingComparator => "elementary condition has no valid comparator"
  | optionNotNumber => "comparison option is not a number"
  | unexpectedToken token => "unexpected token `" ++ token.text ++ "`"
  | missingArguments => "No opening ( following function name"
  | missingComma => "Arguments must be separated by commas"

end SyntaxCause

namespace AnalysisCause

def message : AnalysisCause Float → String
  | discreteSmoothing => "SMOOTH called with discrete x"
  | crossedBounds left right => "inconsistent bounds [" ++ left.text ++ ", " ++ right.text ++ "]"
  | stackUnderflow => "compiled stream underflows its stack"
  | invalidOpcode word place => s!"invalid opcode {word} at {place}"

end AnalysisCause

namespace ProductCause

def message : ProductCause Float → String
  | noPayoff => "no payoff variable set"
  | noEvaluationDate date => "event dated " ++ date.text ++ " requires an evaluation date"
  | pastEvent date today =>
    "event dated " ++ date.text ++ " precedes evaluation date " ++ today.text
  | invalidTime time => "event time " ++ numberText time ++ " is negative or not finite"
  | endlessExpansion => "macro expansion does not terminate"
  | ambiguousTime event => s!"event {event} must give exactly one of time, date and schedule"
  | calendar cause => cause.message
  | smoothingWidth width => "fuzzy epsilon must be positive, got " ++ numberText width
  | scenario cause => cause.message

end ProductCause

namespace ScriptError

def message : ScriptError Float → String
  | parse event cause fragment =>
    s!"Parse error in event {event}: " ++ cause.message ++ " (at '" ++ fragment ++ "')"
  | arity function count => s!"Function {function}: wrong number of arguments (got {count})"
  | unknownVariable name => s!"Unknown variable: {name}"
  | domain function argument => function ++ " called outside its domain with " ++ numberText argument
  | analysis cause => "Analysis error: " ++ cause.message
  | product cause => "Product error: " ++ cause.message

end ScriptError

end PayoffPricing.Script
