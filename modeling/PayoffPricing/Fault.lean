/-!
Why a computation stops. A `Misuse` is a broken precondition of an operation; everything that a
caller is told about as an error of the domain is kept apart from it.
-/

namespace PayoffPricing

inductive Misuse where
  | outOfRange
  | emptyBlock
  | popPastBlock
  | startOffTape
  | forwardRange
  | startBeforeMark
  | nonPositiveEpsilon
  | emptyWindow
deriving DecidableEq, Repr

namespace Misuse

/-- The assertion that was broken, where there is one to name. -/
def message : Misuse → Option String
  | outOfRange => none
  | emptyBlock => some "block_size must be positive"
  | popPastBlock => some "cannot pop past the start of a block"
  | startOffTape => some "propagation start is not on the tape"
  | forwardRange => some "propagation range runs forward"
  | startBeforeMark => some "propagation start precedes the mark"
  | nonPositiveEpsilon => some "epsilon must be positive"
  | emptyWindow => some "call spread window must be non-empty"

end Misuse

/-- A broken precondition, or an error of type `ε`. -/
inductive Fault (ε : Type) where
  | misuse (cause : Misuse)
  | error (cause : ε)

namespace Fault

def map {ε δ : Type} (f : ε → δ) : Fault ε → Fault δ
  | misuse cause => misuse cause
  | error cause => error (f cause)

/-- An indexed read that fails as a misuse when there is nothing at the index. -/
def ofOption {ε α : Type} : Option α → Except (Fault ε) α
  | some a => .ok a
  | none => .error (misuse .outOfRange)

end Fault

end PayoffPricing
