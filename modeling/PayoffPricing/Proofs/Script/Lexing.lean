import PayoffPricing.Proofs.Decimal.Numeral
import PayoffPricing.Proofs.Except
import PayoffPricing.Script.Lexer
/-!
Texts one behind the other. A blank ends every token, so that the tokens of two texts with a blank between them are
those of the one and then those of the other.
-/

namespace PayoffPricing

theorem takeWhile_append_stop {α : Type} {p : α → Bool} {b : α} (hb : p b = false) (l m : List α) :
    (l ++ b :: m).takeWhile p = l.takeWhile p := by
  rw [List.takeWhile_append]
  split
  · next h =>
    rw [List.takeWhile_cons_of_neg (by simp [hb]), List.append_nil]
    exact ((List.takeWhile_prefix p).eq_of_length h).symm
  · rfl

namespace Script.Lexer

variable {R : Type} [Scalar R] {b : Char} {cs ds : List Char}

section Blank

variable (hb : isBlank b = true)

include hb

theorem eq_of_isBlank : b = ' ' ∨ b = '\t' ∨ b = '\r' ∨ b = '\n' := by
  simpa [isBlank, or_assoc] using hb

/-- A blank is part of no token. -/
theorem stops_of_isBlank :
    isNameChar b = false ∧ Numeral.isDigit b = false ∧ (symbol? b none : Option (Symbol × Nat)) = none := by
  rcases eq_of_isBlank hb with rfl | rfl | rfl | rfl <;> decide

theorem exponent_append (cs ds : List Char) : Numeral.exponent (cs ++ b :: ds) = Numeral.exponent cs := by
  have hdigit := (stops_of_isBlank hb).2.1
  cases cs with
  | nil => rcases eq_of_isBlank hb with rfl | rfl | rfl | rfl <;> simp [Numeral.exponent]
  | cons e rest =>
    have hsigned : Numeral.signed (rest ++ b :: ds) =
        ((Numeral.signed rest).1, (Numeral.signed rest).2 ++ b :: ds) := by
      cases rest with
      | nil => rcases eq_of_isBlank hb with rfl | rfl | rfl | rfl <;> rfl
      | cons c rest =>
        simp only [Numeral.signed, List.cons_append]
        split <;> simp_all
    simp only [Numeral.exponent, List.cons_append, hsigned, takeWhile_append_stop hdigit, List.length_append]
    congr 3
    omega

theorem leading?_append (cs ds : List Char) :
    (Numeral.leading? (cs ++ b :: ds) : Option (R × Nat)) = Numeral.leading? cs := by
  have hdigit := (stops_of_isBlank hb).2.1
  have hpoint : b ≠ '.' := by rcases eq_of_isBlank hb with rfl | rfl | rfl | rfl <;> decide
  have hdrop (n : Nat) (hn : n ≤ cs.length) : (cs ++ b :: ds).drop n = cs.drop n ++ b :: ds :=
    List.drop_append_of_le_length hn
  have hwhole := (List.takeWhile_prefix (l := cs) Numeral.isDigit).length_le
  have hfraction (cs : List Char) : Numeral.fraction (cs ++ b :: ds) = Numeral.fraction cs := by
    cases cs with
    | nil =>
      simp only [Numeral.fraction, List.nil_append]
      split
      · next h => exact absurd (List.cons.inj h).1 hpoint
      · rfl
    | cons c rest =>
      by_cases hc : c = '.'
      · subst hc
        exact congrArg (·, 1) (takeWhile_append_stop hdigit rest ds)
      · simp only [Numeral.fraction, List.cons_append]
        split <;> simp_all
  have hmantissa : Numeral.mantissaLength (cs ++ b :: ds) = Numeral.mantissaLength cs := by
    simp only [Numeral.mantissaLength, takeWhile_append_stop hdigit, hdrop _ hwhole, hfraction]
  simp only [Numeral.leading?_eq, hmantissa, takeWhile_append_stop hdigit, hdrop _ hwhole, hfraction,
    hdrop _ (Numeral.mantissaLength_le cs), exponent_append hb]

theorem symbol?_append (c : Char) (cs ds : List Char) : symbol? c (cs ++ b :: ds).head? = symbol? c cs.head? := by
  cases cs with
  | nil =>
    have hequal : b ≠ '=' := by rcases eq_of_isBlank hb with rfl | rfl | rfl | rfl <;> decide
    simp only [List.nil_append, List.head?_cons, List.head?_nil]
    unfold symbol?
    split <;> simp_all
  | cons => rfl

/-- The token at the start of a text is the same when a blank and more text follow. -/
theorem token?_append (hcs : cs ≠ []) (ds : List Char) :
    (token? (cs ++ b :: ds) : Option (Token R × Nat)) = token? cs := by
  obtain ⟨c, rest, rfl⟩ := List.exists_cons_of_ne_nil hcs
  have hleading : (Numeral.leading? (c :: (rest ++ b :: ds)) : Option (R × Nat)) = Numeral.leading? (c :: rest) :=
    leading?_append hb (c :: rest) ds
  simp only [token?, List.cons_append, takeWhile_append_stop (stops_of_isBlank hb).1, hleading,
    symbol?_append hb c rest ds]

end Blank

theorem length_symbol? {c : Char} {sign : Symbol} {n : Nat} (h : symbol? c cs.head? = some (sign, n)) :
    0 < n ∧ n ≤ (c :: cs).length := by
  have hsize : n = 1 ∨ n = 2 ∧ cs.head? = some '=' := by
    unfold symbol? at h
    split at h <;> simp_all
  rcases hsize with rfl | ⟨rfl, hhead⟩
  · simp
  · obtain ⟨rest, rfl⟩ := List.head?_eq_some_iff.1 hhead
    simp

/-- A token takes at least one character, and no more than there are. -/
theorem length_token? {token : Token R} {n : Nat} (h : token? cs = some (token, n)) : 0 < n ∧ n ≤ cs.length := by
  cases cs with
  | nil => cases h
  | cons c rest =>
    simp only [token?] at h
    split at h
    · obtain ⟨-, rfl⟩ := Prod.mk.inj (Option.some.inj h)
      have := (List.takeWhile_prefix (l := rest) isNameChar).length_le
      simp only [List.length_cons]
      omega
    split at h
    · obtain ⟨⟨x, m⟩, hx, h⟩ := Option.map_eq_some_iff.1 h
      obtain ⟨-, rfl⟩ := Prod.mk.inj h
      exact Numeral.length_leading? hx
    · obtain ⟨⟨s, m⟩, hs, h⟩ := Option.map_eq_some_iff.1 h
      obtain ⟨-, rfl⟩ := Prod.mk.inj h
      exact length_symbol? hs

section Bytes

theorem byteSize_eq (cs : List Char) : byteSize cs = (cs.map Char.utf8Size).sum := by
  rw [byteSize, List.sum_eq_foldl, List.foldl_map]

@[simp]
theorem byteSize_cons (c : Char) (cs : List Char) : byteSize (c :: cs) = c.utf8Size + byteSize cs := by
  simp [byteSize_eq]

@[simp]
theorem byteSize_append (cs ds : List Char) : byteSize (cs ++ ds) = byteSize cs + byteSize ds := by
  simp [byteSize_eq]

end Bytes

/-- The tokens of a text that starts at a byte: blanks are passed over, and elsewhere the token that starts there is
taken. -/
inductive Scans : List Char → Nat → List (Lexeme R) → Prop
  | done (place : Nat) : Scans [] place []
  | blank {c : Char} {cs : List Char} {place : Nat} {ts : List (Lexeme R)} (hc : isBlank c = true)
      (h : Scans cs (place + c.utf8Size) ts) : Scans (c :: cs) place ts
  | token {c : Char} {word cs : List Char} {place : Nat} {t : Token R} {ts : List (Lexeme R)}
      (hc : isBlank c = false) (ht : token? (c :: word ++ cs) = some (t, (c :: word).length))
      (h : Scans cs (place + byteSize (c :: word)) ts) :
      Scans (c :: word ++ cs) place (⟨t, place, place + byteSize (c :: word)⟩ :: ts)

theorem scans_of_scanFrom {place : Nat} {ts : List (Lexeme R)} (h : scanFrom cs place = .ok ts) :
    Scans cs place ts := by
  induction cs, place using scanFrom.induct (R := R) generalizing ts with
  | case1 place =>
    rw [scanFrom] at h
    cases h
    exact .done place
  | case2 place c rest hblank ih =>
    rw [scanFrom, if_pos hblank] at h
    exact .blank hblank (ih h)
  | case3 place c rest hblank htoken =>
    rw [scanFrom, if_neg hblank, htoken] at h
    cases h
  | case4 place c rest hblank token n htoken stop =>
    rename_i ih
    rw [scanFrom, if_neg hblank, htoken] at h
    dsimp only at h
    generalize hothers : scanFrom (R := R) (rest.drop (n - 1)) _ = others at h
    cases others with
    | error e => cases h
    | ok others =>
      cases h
      obtain ⟨hpos, hle⟩ := length_token? htoken
      obtain ⟨k, rfl⟩ : ∃ k, n = k + 1 := ⟨n - 1, by omega⟩
      have hk : k ≤ rest.length := by simpa using hle
      have hword : (c :: rest.take k).length = k + 1 := by simp [hk]
      have hsplit : c :: rest = c :: rest.take k ++ rest.drop k := by simp
      have hscan := Scans.token (by simpa using hblank) (hsplit ▸ hword ▸ htoken) (ih hothers)
      rwa [Nat.add_sub_cancel, ← hsplit] at hscan

theorem Scans.scanFrom_eq {place : Nat} {ts : List (Lexeme R)} (h : Scans cs place ts) :
    scanFrom cs place = .ok ts := by
  induction h with
  | done place => rw [scanFrom]
  | blank hc _ ih => rw [scanFrom, if_pos hc, ih]
  | @token c word cs place t ts hc ht _ ih =>
    have htake : (c :: (word ++ cs)).take (c :: word).length = c :: word := by simp
    have hdrop : (word ++ cs).drop ((c :: word).length - 1) = cs := by simp
    rw [List.cons_append] at ht ⊢
    rw [scanFrom, if_neg (by simp [hc]), ht]
    dsimp only
    rw [htake, hdrop, ih]
    rfl

/-- The tokens do not depend on where the text starts. -/
theorem Scans.move {place : Nat} {ts : List (Lexeme R)} (h : Scans cs place ts) (place' : Nat) :
    ∃ us, Scans cs place' us ∧ us.map (·.token) = ts.map (·.token) := by
  induction h generalizing place' with
  | done place => exact ⟨[], .done place', rfl⟩
  | blank hc _ ih =>
    obtain ⟨us, hus, htokens⟩ := ih _
    exact ⟨us, .blank hc hus, htokens⟩
  | token hc ht _ ih =>
    obtain ⟨us, hus, htokens⟩ := ih _
    exact ⟨_, .token hc ht hus, by rw [List.map_cons, List.map_cons, htokens]⟩

/-- Texts with a blank between them are scanned one behind the other. -/
theorem Scans.append (hb : isBlank b = true) {place : Nat} {ts us : List (Lexeme R)} (h : Scans cs place ts)
    (hd : Scans ds (place + byteSize cs + b.utf8Size) us) : Scans (cs ++ b :: ds) place (ts ++ us) := by
  induction h with
  | done place => exact .blank hb hd
  | blank hc _ ih =>
    refine .blank hc (ih ?_)
    rwa [byteSize_cons, ← Nat.add_assoc] at hd
  | @token c word cs place t ts hc ht _ ih =>
    rw [byteSize_append, ← Nat.add_assoc] at hd
    have ht' : token? (c :: word ++ (cs ++ b :: ds)) = some (t, (c :: word).length) := by
      rw [← List.append_assoc, token?_append hb (by simp), ht]
    rw [List.append_assoc]
    exact .token hc ht' (ih hd)

end Script.Lexer

end PayoffPricing
