/-!
Annotation that may stop half-way. What has been annotated by then stays annotated.
-/

namespace PayoffPricing.Script

/-- A term after annotation, and what stopped the annotation, if anything did. -/
structure Annotated (ε α : Type) where
  term : α
  stop : Option ε

/-- The term, if nothing stopped the annotation. -/
def Annotated.result {ε α : Type} (r : Annotated ε α) : Except ε α := r.stop.elim (.ok r.term) .error

end PayoffPricing.Script
