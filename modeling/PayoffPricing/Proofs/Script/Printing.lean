import Mathlib.Data.List.Pairwise
import PayoffPricing.Proofs.Decimal.Format
import PayoffPricing.Proofs.Script.Lexing
/-!
Printing tokens. The text of a token that was read is read as this token, and texts with single blanks between them are
read one after the other. The bytes of the tokens of a text are apart, and all other bytes of the text are blank.
-/

namespace PayoffPricing.Script

open Double

namespace Lexer

theorem isBlank_of_isLetter {c : Char} (hc : isLetter c = true) : isBlank c = false := by
  rw [← Bool.not_eq_true]
  intro hblank
  rcases eq_of_isBlank hblank with rfl | rfl | rfl | rfl <;> exact absurd hc (by decide)

theorem starts_number {c : Char} (hc : Numeral.isDigit c = true ∨ c = '.') :
    isLetter c = false ∧ isBlank c = false := by
  rcases hc with hdigit | rfl
  · constructor
    · rw [← Bool.not_eq_true]
      intro hletter
      simp only [Numeral.isDigit, isLetter, Bool.and_eq_true, Bool.or_eq_true, decide_eq_true_eq] at hdigit hletter
      rcases hletter with h | h
      · exact absurd (h.1.trans hdigit.2) (by decide)
      · exact absurd (h.1.trans hdigit.2) (by decide)
    · rw [← Bool.not_eq_true]
      intro hblank
      rw [(stops_of_isBlank hblank).2.1] at hdigit
      cases hdigit
  · decide

end Lexer

namespace Token

/-- A token that is read from its own text, where nothing is skipped and nothing is left. -/
def Printable (t : Token Float) : Prop :=
  ∃ c word, t.text = String.ofList (c :: word) ∧ Lexer.isBlank c = false ∧
    Lexer.token? (c :: word) = some (t, (c :: word).length)

theorem printable_keyword (k : Keyword) : Printable (.keyword k) := by
  cases k <;> exact ⟨_, _, rfl, by decide, rfl⟩

theorem printable_symbol (s : Symbol) : Printable (.symbol s) := by
  cases s <;> exact ⟨_, _, rfl, by decide, rfl⟩

theorem printable_name {c : Char} {word : List Char} (hc : Lexer.isLetter c = true)
    (hword : ∀ d ∈ word, Lexer.isNameChar d = true) (hname : Keyword.ofText? (String.ofList (c :: word)) = none) :
    Printable (.name (String.ofList (c :: word))) := by
  refine ⟨c, word, rfl, Lexer.isBlank_of_isLetter hc, ?_⟩
  rw [Lexer.token?, if_pos hc, List.takeWhile_eq_self_iff.2 hword]
  dsimp only
  rw [hname, Option.elim_none]

theorem printable_number {x : Float} (hx : bits x < infinityBits) : Printable (.number x) := by
  have hread := leading?_numberText hx
  obtain ⟨c, word, htext⟩ : ∃ c word, (numberText x).toList = c :: word := by
    refine List.exists_cons_of_ne_nil fun hnil => ?_
    rw [hnil] at hread
    cases hread
  rw [htext] at hread
  have hstart := Numeral.starts_of_leading? hread
  obtain ⟨hletter, hblank⟩ := Lexer.starts_number hstart
  refine ⟨c, word, ?_, hblank, ?_⟩
  · rw [← htext, String.ofList_toList]
    rfl
  · rw [Lexer.token?, if_neg (by simp [hletter]), if_pos hstart, hread]
    rfl

/-- What is read from a text can be printed, infinite numbers apart: these are read from long numerals and written as a
name. -/
theorem printable_of_token? {cs : List Char} {t : Token Float} {n : ℕ} (h : Lexer.token? cs = some (t, n))
    (hfinite : ∀ x, t = .number x → x.isFinite = true) : Printable t := by
  cases cs with
  | nil => cases h
  | cons c rest =>
    rw [Lexer.token?] at h
    split at h
    · next hletter =>
      obtain ⟨rfl, -⟩ := Prod.mk.inj (Option.some.inj h)
      cases hname : Keyword.ofText? (String.ofList (c :: rest.takeWhile Lexer.isNameChar)) with
      | none => exact printable_name hletter (fun _ => List.mem_takeWhile_imp) hname
      | some k => exact printable_keyword k
    split at h
    · obtain ⟨⟨x, m⟩, hread, h⟩ := Option.map_eq_some_iff.1 h
      obtain ⟨rfl, -⟩ := Prod.mk.inj h
      obtain ⟨m, e, rfl⟩ := Numeral.exists_of_leading? hread
      -- No numeral is read as a negative number, and so the text has no sign in front, which would be a token.
      exact printable_number (bits_lt_infinityBits (hfinite _ rfl) (bits_ofDecimal_lt m e))
    · obtain ⟨⟨s, m⟩, hread, h⟩ := Option.map_eq_some_iff.1 h
      obtain ⟨rfl, -⟩ := Prod.mk.inj h
      exact printable_symbol s

end Token

namespace Lexer

theorem Scans.printable {cs : List Char} {place : ℕ} {ts : List (Lexeme Float)} (h : Scans cs place ts)
    (hfinite : ∀ t ∈ ts, ∀ x, t.token = .number x → x.isFinite = true) : ∀ t ∈ ts, t.token.Printable := by
  induction h with
  | done => simp
  | blank _ _ ih => exact ih hfinite
  | token _ ht _ ih =>
    obtain ⟨hfirst, hothers⟩ := List.forall_mem_cons.1 hfinite
    exact List.forall_mem_cons.2 ⟨Token.printable_of_token? ht hfirst, ih hothers⟩

/-- Printed tokens with single blanks between them are read one after the other. -/
theorem exists_scans_intercalate {ts : List (Token Float)} (hts : ∀ t ∈ ts, t.Printable) (place : ℕ) :
    ∃ us, Scans ([' '].intercalate (ts.map (·.text.toList))) place us ∧ us.map (·.token) = ts := by
  induction ts generalizing place with
  | nil => exact ⟨[], .done place, rfl⟩
  | cons t ts ih =>
    obtain ⟨⟨c, word, htext, hblank, hread⟩, hothers⟩ := List.forall_mem_cons.1 hts
    have hlist : t.text.toList = c :: word := by rw [htext, String.toList_ofList]
    have hfirst : Scans (c :: word) place [⟨t, place, place + byteSize (c :: word)⟩] := by
      have hscan : Scans (c :: word ++ []) place [⟨t, place, place + byteSize (c :: word)⟩] :=
        .token hblank (by rwa [List.append_nil]) (.done _)
      rwa [List.append_nil] at hscan
    cases ts with
    | nil => exact ⟨_, by simpa [hlist] using hfirst, rfl⟩
    | cons u ts =>
      obtain ⟨us, hus, htokens⟩ := ih hothers (place + byteSize (c :: word) + ' '.utf8Size)
      refine ⟨⟨t, place, place + byteSize (c :: word)⟩ :: us, ?_, congrArg (t :: ·) htokens⟩
      rw [List.map_cons, List.map_cons, List.intercalate_cons_cons, hlist, List.append_assoc]
      -- The blank behind the text keeps its token from growing into the next text.
      exact hfirst.append rfl hus

end Lexer

/-- Tokens that stand one behind the other in the bytes of a text, with blanks around them and nothing else. -/
structure Lexeme.Separated {R : Type} (bytes : List UInt8) (place : ℕ) (ts : List (Lexeme R)) : Prop where
  nonempty : ∀ t ∈ ts, t.start < t.stop
  within : ∀ t ∈ ts, place ≤ t.start ∧ t.stop ≤ place + bytes.length
  ordered : ts.Pairwise fun t u => t.stop ≤ u.start
  /-- Bytes of no token are spaces, tabs, carriage returns or line feeds. -/
  blank : ∀ i b, bytes[i]? = some b → (∀ t ∈ ts, place + i < t.start ∨ t.stop ≤ place + i) →
    b = 32 ∨ b = 9 ∨ b = 13 ∨ b = 10

namespace Lexeme.Separated

variable {R : Type} {bytes : List UInt8} {place : ℕ} {ts : List (Lexeme R)}

theorem cons_blank {b : UInt8} (hb : b = 32 ∨ b = 9 ∨ b = 13 ∨ b = 10) (h : Separated bytes (place + 1) ts) :
    Separated (b :: bytes) place ts where
  nonempty := h.nonempty
  within t ht := by
    have hwithin := h.within t ht
    rw [List.length_cons]
    omega
  ordered := h.ordered
  blank i d hd houtside := by
    cases i with
    | zero => exact Option.some.inj hd ▸ hb
    | succ i =>
      refine h.blank i d hd fun t ht => ?_
      have := houtside t ht
      omega

theorem cons_token {token : Token R} {word : List UInt8} (hword : word ≠ [])
    (h : Separated bytes (place + word.length) ts) :
    Separated (word ++ bytes) place (⟨token, place, place + word.length⟩ :: ts) where
  nonempty := List.forall_mem_cons.2 ⟨Nat.lt_add_of_pos_right (List.length_pos_iff.2 hword), h.nonempty⟩
  within := by
    rw [List.length_append]
    refine List.forall_mem_cons.2 ⟨⟨le_rfl, by dsimp only; omega⟩, fun t ht => ?_⟩
    have hwithin := h.within t ht
    omega
  ordered := List.pairwise_cons.2 ⟨fun t ht => (h.within t ht).1, h.ordered⟩
  blank i b hb houtside := by
    obtain ⟨hfirst, hothers⟩ := List.forall_mem_cons.1 houtside
    dsimp only at hfirst
    rw [List.getElem?_append_right (by omega)] at hb
    refine h.blank _ b hb fun t ht => ?_
    have := hothers t ht
    omega

end Lexeme.Separated

namespace Lexer

theorem byteSize_eq_length (cs : List Char) : byteSize cs = (cs.flatMap String.utf8EncodeChar).length := by
  simp [byteSize_eq, List.length_flatMap]

theorem Scans.separated {R : Type} [Scalar R] {cs : List Char} {place : ℕ} {ts : List (Lexeme R)}
    (h : Scans cs place ts) : Lexeme.Separated (cs.flatMap String.utf8EncodeChar) place ts := by
  induction h with
  | done => exact ⟨by simp, by simp, .nil, by simp⟩
  | blank hc _ ih =>
    rcases eq_of_isBlank hc with rfl | rfl | rfl | rfl <;> exact .cons_blank (by decide) ih
  | @token c word cs place t ts hc ht _ ih =>
    have hword : (c :: word).flatMap String.utf8EncodeChar ≠ [] := by
      rw [← List.length_pos_iff, ← byteSize_eq_length, byteSize_cons]
      exact Nat.add_pos_left c.utf8Size_pos _
    rw [List.flatMap_append]
    rw [byteSize_eq_length] at ih ⊢
    exact .cons_token hword ih

end Lexer

/-- The tokens of a text are printed with single blanks between them and read again as the same tokens, where all
numbers are finite. In the text they stand apart, and all that stands between them is blank. -/
theorem printed_tokens_read_back {source : String} {ts : List (Lexeme Float)} (h : Lexeme.ofText source = .ok ts)
    (hfinite : ∀ t ∈ ts, ∀ x, t.token = .number x → x.isFinite = true) :
    (∃ us, Lexeme.ofText (" ".intercalate (ts.map (·.token.text))) = .ok us ∧
      us.map (·.token) = ts.map (·.token)) ∧
    Lexeme.Separated source.toUTF8.data.toList 0 ts := by
  have hscans := Lexer.scans_of_scanFrom h
  constructor
  · have hprintable : ∀ t ∈ ts.map (·.token), t.Printable := by simpa using hscans.printable hfinite
    obtain ⟨us, hus, htokens⟩ := Lexer.exists_scans_intercalate hprintable 0
    refine ⟨us, ?_, htokens⟩
    rw [Lexeme.ofText, String.toList_intercalate, List.map_map]
    rw [List.map_map] at hus
    exact hus.scanFrom_eq
  · have hbytes : source.toUTF8.data.toList = source.toList.flatMap String.utf8EncodeChar := by
      rw [String.toUTF8_eq_toByteArray, ← String.utf8Encode_toList, List.utf8Encode, List.toList_data_toByteArray]
    rw [hbytes]
    exact hscans.separated

section Crowded

/-- A text with few blanks, and with numbers that are not written as they are printed. -/
def crowded : String := "IF X<=1.5E-3 THEN\r\n\tY_1=.25*20. ENDIF"

def crowdedLexemes : List (Lexeme Float) :=
  [⟨.keyword .ifWord, 0, 2⟩, ⟨.name "X", 3, 4⟩, ⟨.symbol .lessEqual, 4, 6⟩, ⟨.number 0.0015, 6, 12⟩,
    ⟨.keyword .thenWord, 13, 17⟩, ⟨.name "Y_1", 20, 23⟩, ⟨.symbol .equal, 23, 24⟩, ⟨.number 0.25, 24, 27⟩,
    ⟨.symbol .star, 27, 28⟩, ⟨.number 20, 28, 31⟩, ⟨.keyword .endifWord, 32, 37⟩]

theorem lexemes_crowded : Lexeme.ofText crowded = .ok crowdedLexemes := by
  with_unfolding_all rfl

theorem isFinite_crowded : ∀ t ∈ crowdedLexemes, ∀ x, t.token = .number x → x.isFinite = true := by
  have hnumbers : Float.isFinite 0.0015 = true ∧ Float.isFinite 0.25 = true ∧ Float.isFinite 20 = true := by decide
  simpa [crowdedLexemes] using hnumbers

theorem text_crowded :
    " ".intercalate (crowdedLexemes.map (·.token.text)) = "IF X <= 0.0015 THEN Y_1 = 0.25 * 20 ENDIF" := by
  decide +kernel

theorem printed_tokens_read_back_crowded :
    Lexeme.ofText crowded = .ok crowdedLexemes ∧
      (∀ t ∈ crowdedLexemes, ∀ x, t.token = .number x → x.isFinite = true) ∧
      (∃ us, Lexeme.ofText "IF X <= 0.0015 THEN Y_1 = 0.25 * 20 ENDIF" = .ok us ∧
        us.map (·.token) = crowdedLexemes.map (·.token)) ∧
      Lexeme.Separated crowded.toUTF8.data.toList 0 crowdedLexemes :=
  ⟨lexemes_crowded, isFinite_crowded, text_crowded ▸ printed_tokens_read_back lexemes_crowded isFinite_crowded⟩

end Crowded

end PayoffPricing.Script
