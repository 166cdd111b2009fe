import Mathlib.Data.List.Basic
import PayoffPricing.Script.Parser
/-!
The grammar of the payoff language, as what lists of tokens derive. Operators of one level are grouped
from the left, which the rules say by left recursion. A list that derives a tree is balanced: each of its
opening parentheses is closed in it.
-/

namespace PayoffPricing.Script.Grammar

variable {R : Type}

/-- The levels of expressions: the operands of a level are of the next one. -/
inductive Level where
  | sum
  | product
  | power
  | factor
deriving DecidableEq, Repr

inductive SumSign : Symbol → Operator → Prop
  | plus : SumSign .plus .add
  | minus : SumSign .minus .sub

inductive ProductSign : Symbol → Operator → Prop
  | star : ProductSign .star .mul
  | slash : ProductSign .slash .div

theorem SumSign.ne {s : Symbol} {op : Operator} (h : SumSign s op) : s ≠ .opening ∧ s ≠ .closing := by
  cases h <;> simp

theorem ProductSign.ne {s : Symbol} {op : Operator} (h : ProductSign s op) : s ≠ .opening ∧ s ≠ .closing := by
  cases h <;> simp

/-- A name that a script may use for a variable. -/
structure IsVariable (constants : Constants R) (name : String) : Prop where
  not_spot : name ≠ "SPOT"
  not_function : Function.ofName? name = none
  not_constant : constants.lookup name = none

/-- Arguments between commas. -/
def separated (parts : List (List (Token R))) : List (Token R) := [.symbol .comma].intercalate parts

/-- The tokens derive the expression at a level. -/
inductive DerivesExpr (constants : Constants R) : Level → List (Token R) → Expr R → Prop
  | sum {us e} (h : DerivesExpr constants .product us e) : DerivesExpr constants .sum us e
  | addition {us vs a b s op} (hs : SumSign s op) (ha : DerivesExpr constants .sum us a)
      (hb : DerivesExpr constants .product vs b) :
      DerivesExpr constants .sum (us ++ .symbol s :: vs) (.binary none op a b)
  | product {us e} (h : DerivesExpr constants .power us e) : DerivesExpr constants .product us e
  | multiplication {us vs a b s op} (hs : ProductSign s op) (ha : DerivesExpr constants .product us a)
      (hb : DerivesExpr constants .power vs b) :
      DerivesExpr constants .product (us ++ .symbol s :: vs) (.binary none op a b)
  | power {us e} (h : DerivesExpr constants .factor us e) : DerivesExpr constants .power us e
  | exponentiation {us vs a b} (ha : DerivesExpr constants .power us a)
      (hb : DerivesExpr constants .factor vs b) :
      DerivesExpr constants .power (us ++ .symbol .caret :: vs) (.binary none .pow a b)
  | plus {us e} (h : DerivesExpr constants .factor us e) :
      DerivesExpr constants .factor (.symbol .plus :: us) (.plus none e)
  | minus {us e} (h : DerivesExpr constants .factor us e) :
      DerivesExpr constants .factor (.symbol .minus :: us) (.neg none e)
  | group {us e} (h : DerivesExpr constants .sum us e) :
      DerivesExpr constants .factor (.symbol .opening :: us ++ [.symbol .closing]) e
  | number (v : R) : DerivesExpr constants .factor [.number v] (.literal v)
  | constant {name v} (hspot : name ≠ "SPOT") (hf : Function.ofName? name = none)
      (hv : constants.lookup name = some v) : DerivesExpr constants .factor [.name name] (.literal v)
  | variable {name} (h : IsVariable constants name) :
      DerivesExpr constants .factor [.name name] (.read none (.ofName name))
  | spot : DerivesExpr constants .factor [.name "SPOT", .symbol .opening, .symbol .closing] .spot
  | call {name f} (args : List (List (Token R) × Expr R)) (hf : Function.ofName? name = some f)
      (hmin : f.arity.1 ≤ args.length) (hmax : args.length ≤ f.arity.2)
      (h : ∀ a ∈ args, DerivesExpr constants .sum a.1 a.2) :
      DerivesExpr constants .factor
        (.name name :: .symbol .opening :: separated (args.map (·.1)) ++ [.symbol .closing])
        (.call none f (args.map (·.2)))

/-- Tolerances behind a comparison, of which the last one counts. -/
inductive DerivesTolerance : List (Token R) → Option R → Prop
  | none : DerivesTolerance [] none
  | another {us t s} (h : DerivesTolerance us t) (hs : s = .semicolon ∨ s = .colon) (v : R) :
      DerivesTolerance (us ++ [.symbol s, .number v]) (some v)

/-- A comparison of two expressions, as one comparison with zero. -/
inductive Compares [Scalar R] (a b : Expr R) (tolerance : Option R) : Symbol → Cond R → Prop
  | equal : Compares a b tolerance .equal (.compare none (.new .equal (.difference a b) tolerance))
  | notEqual :
      Compares a b tolerance .notEqual (.not none (.compare none (.new .equal (.difference a b) tolerance)))
  | greater : Compares a b tolerance .greater (.compare none (.new .above (.difference a b) tolerance))
  | less : Compares a b tolerance .less (.compare none (.new .above (.difference b a) tolerance))
  | greaterEqual :
      Compares a b tolerance .greaterEqual (.compare none (.new .aboveOrEqual (.difference a b) tolerance))
  | lessEqual :
      Compares a b tolerance .lessEqual (.compare none (.new .aboveOrEqual (.difference b a) tolerance))

/-- The levels of conditions. -/
inductive CondLevel where
  | disjunction
  | conjunction
  | atom
deriving DecidableEq, Repr

/-- The tokens derive the condition at a level. -/
inductive DerivesCond [Scalar R] (constants : Constants R) : CondLevel → List (Token R) → Cond R → Prop
  | disjunction {us c} (h : DerivesCond constants .conjunction us c) : DerivesCond constants .disjunction us c
  | or {us vs a b} (ha : DerivesCond constants .disjunction us a) (hb : DerivesCond constants .conjunction vs b) :
      DerivesCond constants .disjunction (us ++ .keyword .orWord :: vs) (.or none a b)
  | conjunction {us c} (h : DerivesCond constants .atom us c) : DerivesCond constants .conjunction us c
  | and {us vs a b} (ha : DerivesCond constants .conjunction us a) (hb : DerivesCond constants .atom vs b) :
      DerivesCond constants .conjunction (us ++ .keyword .andWord :: vs) (.and none a b)
  | group {us c} (h : DerivesCond constants .disjunction us c) :
      DerivesCond constants .atom (.symbol .opening :: us ++ [.symbol .closing]) c
  | comparison {us vs ws a b s tolerance c} (ha : DerivesExpr constants .sum us a)
      (hb : DerivesExpr constants .sum vs b) (ht : DerivesTolerance ws tolerance)
      (hc : Compares a b tolerance s c) :
      DerivesCond constants .atom (us ++ .symbol s :: vs ++ ws) c

/-- Statements, each with its tokens, one behind the other. -/
def joined (parts : List (List (Token R) × Statement R)) : List (Token R) := (parts.map (·.1)).flatten

/-- The tokens derive the statement. -/
inductive DerivesStatement [Scalar R] (constants : Constants R) : List (Token R) → Statement R → Prop
  | assign {name us e} (hname : IsVariable constants name) (he : DerivesExpr constants .sum us e) :
      DerivesStatement constants (.name name :: .symbol .equal :: us) (.assign (.ofName name) e)
  | pays {name us e} (hname : IsVariable constants name) (he : DerivesExpr constants .sum us e) :
      DerivesStatement constants (.name name :: .keyword .paysWord :: us) (.pays (.ofName name) e)
  | branch {us c k} (body : List (List (Token R) × Statement R)) (hc : DerivesCond constants .disjunction us c)
      (hbody : ∀ p ∈ body, DerivesStatement constants p.1 p.2) (hk : k = .endWord ∨ k = .endifWord) :
      DerivesStatement constants (.keyword .ifWord :: us ++ .keyword .thenWord :: joined body ++ [.keyword k])
        (.branch c (body.map (·.2)) [] [])
  | branchElse {us c k} (body otherwise : List (List (Token R) × Statement R))
      (hc : DerivesCond constants .disjunction us c)
      (hbody : ∀ p ∈ body, DerivesStatement constants p.1 p.2)
      (hother : ∀ p ∈ otherwise, DerivesStatement constants p.1 p.2) (hk : k = .endWord ∨ k = .endifWord) :
      DerivesStatement constants
        (.keyword .ifWord :: us ++ .keyword .thenWord :: joined body ++
          .keyword .elseWord :: joined otherwise ++ [.keyword k])
        (.branch c (body.map (·.2)) (otherwise.map (·.2)) [])

/-- The tokens derive the statements of an event. -/
def DerivesEvent [Scalar R] (constants : Constants R) (us : List (Token R)) (ss : List (Statement R)) : Prop :=
  ∃ parts : List (List (Token R) × Statement R),
    us = joined parts ∧ ss = parts.map (·.2) ∧ ∀ p ∈ parts, DerivesStatement constants p.1 p.2

end PayoffPricing.Script.Grammar
