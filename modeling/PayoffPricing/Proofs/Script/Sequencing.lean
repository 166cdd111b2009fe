import PayoffPricing.Proofs.Script.Lexing
import PayoffPricing.Proofs.Script.ParserCompleteness
/-!
Scripts in sequence. A text that is read stays what it is when another one follows on the next line: the statements of
both are those of the one and then those of the other, although nothing stands between statements.
-/

namespace PayoffPricing.Script

open Grammar

variable {R : Type} [Scalar R] {constants : Constants R}

theorem uppercase_append_line (text more : String) :
    (Text.uppercase (text ++ "\n" ++ more)).toList =
      (Text.uppercase text).toList ++ '\n' :: (Text.uppercase more).toList := by
  have hline : Text.uppercaseChar '\n' = ['\n'] := by decide
  simp [Text.uppercase, hline]

theorem derivesEvent_append {us vs : List (Token R)} {ss tt : List (Statement R)} (h : DerivesEvent constants us ss)
    (h' : DerivesEvent constants vs tt) : DerivesEvent constants (us ++ vs) (ss ++ tt) := by
  obtain ⟨parts, rfl, rfl, hd⟩ := h
  obtain ⟨others, rfl, rfl, hd'⟩ := h'
  refine ⟨parts ++ others, ?_, (List.map_append).symm, fun p hp => ?_⟩
  · simp [joined]
  · exact (List.mem_append.1 hp).elim (hd p) (hd' p)

/-- The statements of a text do not depend on which event it is the text of. -/
theorem parseEvent_eq_ok_of_any {text : String} {ss : List (Statement R)} (i j : Nat)
    (h : parseEvent text i constants = .ok ss) : parseEvent text j constants = .ok ss :=
  Parser.parseEvent_eq_ok.2 (Parser.parseEvent_eq_ok.1 h)

theorem parseEvent_append {text more : String} {i j : Nat} {ss tt : List (Statement R)}
    (h : parseEvent text i constants = .ok ss) (h' : parseEvent more j constants = .ok tt) (k : Nat) :
    parseEvent (text ++ "\n" ++ more) k constants = .ok (ss ++ tt) := by
  obtain ⟨ts, hts, hevent⟩ := Parser.parseEvent_eq_ok.1 h
  obtain ⟨us, hus, hevent'⟩ := Parser.parseEvent_eq_ok.1 h'
  have hline : Lexer.isBlank '\n' = true := rfl
  obtain ⟨vs, hvs, htokens⟩ := (Lexer.scans_of_scanFrom hus).move
    (0 + Lexer.byteSize (Text.uppercase text).toList + '\n'.utf8Size)
  have hscan := (Lexer.scans_of_scanFrom hts).append hline hvs
  refine Parser.parseEvent_eq_ok.2 ⟨ts ++ vs, ?_, ?_⟩
  · rw [Lexeme.ofText, uppercase_append_line]
    exact hscan.scanFrom_eq
  · have hboth := derivesEvent_append (Parser.derives_event ts hevent) (Parser.derives_event us hevent')
    rw [Parser.event_eq_ok_iff_derives, tokens, List.map_append, htokens]
    exact hboth

end PayoffPricing.Script
