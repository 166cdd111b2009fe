import Mathlib
import PayoffPricing.Product.Macros
/-!
Expansion of macros. Where a word is replaced by a text, no character of the text joins a word outside, so a round
does to each piece by itself what it does to the whole. The rounds therefore end with what unfolding each macro where
it stands gives, as long as texts of macros mention macros less often than there are rounds.
-/

namespace PayoffPricing.Macro

variable {macros : List Macro} {c : Char} {cs rest u v piece : List Char}

section Pieces

theorem continuesWord_of_starts (h : (startsWord c || c.isDigit) = true) : continuesWord c = true := by
  rw [continuesWord, Char.isAlphanum]
  rw [startsWord] at h
  revert h
  cases c.isAlpha <;> cases c.isDigit <;> cases c == '_' <;> simp

theorem pieces_cons_run (h : (startsWord c || c.isDigit) = true) :
    pieces (c :: rest) = (c :: rest.takeWhile continuesWord) :: pieces (rest.dropWhile continuesWord) := by
  rw [pieces, if_pos h]

theorem pieces_cons_other (h : ¬(startsWord c || c.isDigit) = true) : pieces (c :: rest) = [c] :: pieces rest := by
  rw [pieces, if_neg h]

/-- The pieces are the text: a scan that replaces nothing copies it. -/
theorem flatten_pieces (cs : List Char) : (pieces cs).flatten = cs := by
  fun_induction pieces cs with
  | case1 => rfl
  | case2 c rest h ih => rw [List.flatten_cons, ih, List.cons_append, List.takeWhile_append_dropWhile]
  | case3 c rest h ih => rw [List.flatten_cons, ih, List.singleton_append]

/-- No word that ends before the text goes on in it. -/
def Apart (cs : List Char) : Prop := ∀ c, cs.head? = some c → continuesWord c = false

theorem apart_nil : Apart [] := fun _ h => by cases h

theorem apart_dropWhile (cs : List Char) : Apart (cs.dropWhile continuesWord) := by
  intro c hc
  have h := List.head?_dropWhile_not continuesWord cs
  rw [hc] at h
  simpa using h

theorem takeWhile_append_apart (hv : Apart v) (u : List Char) :
    (u ++ v).takeWhile continuesWord = u.takeWhile continuesWord ∧
      (u ++ v).dropWhile continuesWord = u.dropWhile continuesWord ++ v := by
  induction u with
  | nil =>
    cases v with
    | nil => exact ⟨rfl, rfl⟩
    | cons c v =>
      have hc : ¬continuesWord c = true := by rw [hv c rfl]; exact Bool.false_ne_true
      exact ⟨List.takeWhile_cons_of_neg hc, List.dropWhile_cons_of_neg hc⟩
  | cons c u ih =>
    by_cases hc : continuesWord c = true
    · rw [List.cons_append, List.takeWhile_cons_of_pos hc, List.takeWhile_cons_of_pos hc, List.dropWhile_cons_of_pos hc,
        List.dropWhile_cons_of_pos hc, ih.1, ih.2]
      exact ⟨rfl, rfl⟩
    · rw [List.cons_append, List.takeWhile_cons_of_neg hc, List.takeWhile_cons_of_neg hc, List.dropWhile_cons_of_neg hc,
        List.dropWhile_cons_of_neg hc]
      exact ⟨rfl, rfl⟩

theorem pieces_append (hv : Apart v) (u : List Char) : pieces (u ++ v) = pieces u ++ pieces v := by
  fun_induction pieces u with
  | case1 => rfl
  | case2 c rest h ih =>
    obtain ⟨htake, hdrop⟩ := takeWhile_append_apart hv rest
    rw [List.cons_append, pieces_cons_run h, htake, hdrop, ih, List.cons_append]
  | case3 c rest h ih => rw [List.cons_append, pieces_cons_other h, ih, List.cons_append]

theorem pieces_of_mem (h : piece ∈ pieces cs) : pieces piece = [piece] := by
  fun_induction pieces cs with
  | case1 => cases h
  | case2 c rest hc ih =>
    rcases List.mem_cons.1 h with rfl | h
    · have hnone : (rest.takeWhile continuesWord).dropWhile continuesWord = [] :=
        List.dropWhile_eq_nil_iff.2 fun d hd => List.mem_takeWhile_imp hd
      rw [pieces_cons_run hc, List.takeWhile_idem, hnone, pieces]
    · exact ih h
  | case3 c rest hc ih =>
    rcases List.mem_cons.1 h with rfl | h
    · rw [pieces_cons_other hc, pieces]
    · exact ih h

end Pieces

section Rounds

theorem replace_of_named {m : Macro} (h : named? macros piece = some m) : replace macros piece = m.text.toList := by
  rw [replace, h, Option.elim_some]

theorem replace_of_none (h : named? macros piece = none) : replace macros piece = piece := by
  rw [replace, h, Option.elim_none]

theorem named?_single (h : ¬(startsWord c || c.isDigit) = true) : named? macros [c] = none := by
  have hstart : startsWord c = false := by
    cases hc : startsWord c with
    | false => rfl
    | true => exact absurd (by rw [hc]; rfl) h
  rw [named?, List.head?_cons, Option.any_some, hstart, if_neg Bool.false_ne_true]

theorem apart_round (h : Apart cs) : Apart ((pieces cs).flatMap (replace macros)) := by
  cases cs with
  | nil =>
    rw [pieces]
    exact apart_nil
  | cons c rest =>
    have hc : ¬(startsWord c || c.isDigit) = true := fun hc =>
      Bool.false_ne_true ((h c rfl).symm.trans (continuesWord_of_starts hc))
    rw [pieces_cons_other hc, List.flatMap_cons, replace_of_none (named?_single hc)]
    intro d hd
    exact h d hd

/-- A round yields the pieces of all replacements, one after the other. -/
theorem pieces_round (macros : List Macro) (cs : List Char) :
    pieces ((pieces cs).flatMap (replace macros)) = (pieces cs).flatMap fun piece => pieces (replace macros piece) := by
  fun_induction pieces cs with
  | case1 => rw [List.flatMap_nil, List.flatMap_nil, pieces]
  | case2 c rest h ih =>
    rw [List.flatMap_cons, pieces_append (apart_round (apart_dropWhile rest)), ih, List.flatMap_cons]
  | case3 c rest h ih =>
    -- a character that stands alone is no macro, and no text in front of it or behind it makes it part of a word
    rw [List.flatMap_cons, replace_of_none (named?_single h), List.singleton_append, pieces_cons_other h, ih,
      List.flatMap_cons, replace_of_none (named?_single h), pieces_cons_other h, pieces, List.singleton_append]

/-- The pieces yield the text, where the macros that they name are replaced by what the texts of these yield; texts of
macros mention macros at most so deep. -/
inductive Unfolds (macros : List Macro) : Nat → List (List Char) → List Char → Prop
  | nil (depth : Nat) : Unfolds macros depth [] []
  | kept {depth : Nat} {piece : List Char} {ps : List (List Char)} {out : List Char} (h : named? macros piece = none)
      (rest : Unfolds macros depth ps out) : Unfolds macros depth (piece :: ps) (piece ++ out)
  | replaced {depth : Nat} {piece : List Char} {ps : List (List Char)} {m : Macro} {text out : List Char}
      (h : named? macros piece = some m) (inner : Unfolds macros depth (pieces m.text.toList) text)
      (rest : Unfolds macros (depth + 1) ps out) : Unfolds macros (depth + 1) (piece :: ps) (text ++ out)

variable {depth : Nat} {ps qs : List (List Char)} {out : List Char}

theorem unfolds_cons_of_none (h : named? macros piece = none) :
    Unfolds macros depth (piece :: ps) out ↔ ∃ rest, out = piece ++ rest ∧ Unfolds macros depth ps rest := by
  constructor
  · intro hunfolds
    cases hunfolds with
    | kept _ rest => exact ⟨_, rfl, rest⟩
    | replaced hnamed => exact absurd (h.symm.trans hnamed) (by simp)
  · rintro ⟨rest, rfl, hrest⟩
    exact .kept h hrest

theorem unfolds_append : Unfolds macros depth (ps ++ qs) out ↔
    ∃ first second, out = first ++ second ∧ Unfolds macros depth ps first ∧ Unfolds macros depth qs second := by
  constructor
  · intro h
    induction ps generalizing out with
    | nil => exact ⟨[], out, rfl, .nil depth, h⟩
    | cons piece ps ih =>
      cases h with
      | kept hnone rest =>
        obtain ⟨first, second, rfl, hfirst, hsecond⟩ := ih rest
        exact ⟨_, second, (List.append_assoc ..).symm, .kept hnone hfirst, hsecond⟩
      | replaced hnamed inner rest =>
        obtain ⟨first, second, rfl, hfirst, hsecond⟩ := ih rest
        exact ⟨_, second, (List.append_assoc ..).symm, .replaced hnamed inner hfirst, hsecond⟩
  · rintro ⟨first, second, rfl, hfirst, hsecond⟩
    induction hfirst with
    | nil => exact hsecond
    | kept hnone _ ih =>
      rw [List.append_assoc]
      exact .kept hnone (ih hsecond)
    | replaced hnamed inner _ _ ih =>
      rw [List.append_assoc]
      exact .replaced hnamed inner (ih hsecond)

/-- Where no macro is named, the pieces stay. -/
theorem unfolds_of_none (h : ∀ piece ∈ ps, named? macros piece = none) :
    Unfolds macros depth ps out ↔ out = ps.flatten := by
  induction ps generalizing out with
  | nil =>
    constructor
    · rintro ⟨⟩
      rfl
    · rintro rfl
      exact .nil depth
  | cons piece ps ih =>
    obtain ⟨hpiece, hps⟩ := List.forall_mem_cons.1 h
    rw [unfolds_cons_of_none hpiece, List.flatten_cons]
    simp only [ih hps, exists_eq_right]

theorem Unfolds.eq_none (h : Unfolds macros depth ps out) (hdepth : depth = 0) :
    ∀ piece ∈ ps, named? macros piece = none := by
  induction h with
  | nil => exact fun _ hpiece => absurd hpiece List.not_mem_nil
  | kept hnone _ ih => exact List.forall_mem_cons.2 ⟨hnone, ih hdepth⟩
  | replaced => cases hdepth

/-- One round takes one level of macros away. -/
theorem unfolds_round (h : ∀ piece ∈ ps, pieces piece = [piece]) :
    Unfolds macros (depth + 1) ps out ↔
      Unfolds macros depth (ps.flatMap fun piece => pieces (replace macros piece)) out := by
  induction ps generalizing out with
  | nil =>
    constructor
    · rintro ⟨⟩
      exact .nil depth
    · rintro ⟨⟩
      exact .nil (depth + 1)
  | cons piece ps ih =>
    obtain ⟨hpiece, hps⟩ := List.forall_mem_cons.1 h
    rw [List.flatMap_cons, unfolds_append]
    cases hnamed : named? macros piece with
    | none =>
      rw [unfolds_cons_of_none hnamed, replace_of_none hnamed, hpiece]
      have hself : ∀ first, Unfolds macros depth [piece] first ↔ first = piece := by
        intro first
        rw [unfolds_of_none (List.forall_mem_singleton.2 hnamed), List.flatten_singleton]
      simp only [hself, ih hps]
      constructor
      · rintro ⟨rest, rfl, hrest⟩
        exact ⟨piece, rest, rfl, rfl, hrest⟩
      · rintro ⟨first, rest, rfl, rfl, hrest⟩
        exact ⟨rest, rfl, hrest⟩
    | some m =>
      rw [replace_of_named hnamed]
      constructor
      · intro hunfolds
        cases hunfolds with
        | kept hnone => exact absurd (hnone.symm.trans hnamed) (by simp)
        | replaced hm inner rest =>
          obtain rfl := Option.some.inj (hm.symm.trans hnamed)
          exact ⟨_, _, rfl, inner, (ih hps).1 rest⟩
      · rintro ⟨text, rest, rfl, inner, hrest⟩
        exact .replaced hnamed inner ((ih hps).2 hrest)

/-- The characters of the pieces that name no macro stay, in their order. -/
theorem Unfolds.sublist (h : Unfolds macros depth ps out) :
    ((ps.filter fun piece => (named? macros piece).isNone).flatten).Sublist out := by
  induction h with
  | nil => exact List.Sublist.refl _
  | kept hnone _ ih =>
    rw [List.filter_cons_of_pos (by rw [hnone]; rfl), List.flatten_cons]
    exact ih.append_left _
  | replaced hnamed _ _ _ ih =>
    rw [List.filter_cons_of_neg (by rw [hnamed]; exact Bool.false_ne_true)]
    exact ih.trans (List.sublist_append_right _ _)

end Rounds

section Expansion

variable {n : Nat} {out : List Char}

theorem none_of_not_any (h : ¬((pieces cs).any fun piece => (named? macros piece).isSome) = true) :
    ∀ piece ∈ pieces cs, named? macros piece = none := by
  intro piece hpiece
  rw [← Option.not_isSome_iff_eq_none]
  exact fun hsome => h (List.any_eq_true.2 ⟨piece, hpiece, hsome⟩)

theorem expandRounds_of_none (h : ∀ piece ∈ pieces cs, named? macros piece = none) :
    expandRounds macros (n + 1) cs = some cs := by
  have hany : ¬((pieces cs).any fun piece => (named? macros piece).isSome) = true := by
    rw [List.any_eq_true]
    rintro ⟨piece, hpiece, hsome⟩
    rw [h piece hpiece] at hsome
    cases hsome
  rw [expandRounds, if_neg hany]

/-- Rounds find what macros stand for, unless texts of macros mention macros too deep. -/
theorem expandRounds_eq_some_iff : expandRounds macros (n + 1) cs = some out ↔ Unfolds macros n (pieces cs) out := by
  induction n generalizing cs with
  | zero =>
    by_cases hany : ((pieces cs).any fun piece => (named? macros piece).isSome) = true
    · obtain ⟨piece, hpiece, hsome⟩ := List.any_eq_true.1 hany
      rw [expandRounds, if_pos hany, expandRounds]
      constructor
      · rintro ⟨⟩
      · intro h
        rw [h.eq_none rfl piece hpiece] at hsome
        cases hsome
    · have hnone := none_of_not_any hany
      rw [expandRounds_of_none hnone, unfolds_of_none hnone, flatten_pieces, Option.some_inj, eq_comm]
  | succ n ih =>
    by_cases hany : ((pieces cs).any fun piece => (named? macros piece).isSome) = true
    · rw [expandRounds, if_pos hany, ih, pieces_round, unfolds_round fun piece => pieces_of_mem]
    · have hnone := none_of_not_any hany
      rw [expandRounds_of_none hnone, unfolds_of_none hnone, flatten_pieces, Option.some_inj, eq_comm]

/-- What expansion ends with names no macro. -/
theorem none_of_expandRounds (h : expandRounds macros n cs = some out) :
    ∀ piece ∈ pieces out, named? macros piece = none := by
  induction n generalizing cs with
  | zero => cases h
  | succ n ih =>
    rw [expandRounds] at h
    split at h
    · exact ih h
    · next hany =>
      obtain rfl := Option.some.inj h
      exact none_of_not_any hany

/-- Expansion ends with a text or fails. It ends with the text in which every macro is unfolded, if texts of macros
mention macros less than `rounds` deep. Of that text no word is the name of a macro, the characters outside the words
that were replaced are in it in their order, and scanning it once more copies it. -/
theorem expansion_is_fixpoint (macros : List Macro) (text : String) :
    (∀ out, expand? macros text = some out ↔ Unfolds macros (rounds - 1) (pieces text.toList) out.toList) ∧
      ∀ out, expand? macros text = some out →
        (∀ word ∈ pieces out.toList, word.head?.any startsWord = true → ∀ m ∈ macros, m.name.toList ≠ word) ∧
        (((pieces text.toList).filter fun piece => (named? macros piece).isNone).flatten).Sublist out.toList ∧
        (pieces out.toList).flatMap (replace macros) = out.toList ∧
        expand? macros out = some out := by
  have hiff : ∀ out, expand? macros text = some out ↔ expandRounds macros rounds text.toList = some out.toList := by
    intro out
    rw [expand?, Option.map_eq_some_iff]
    constructor
    · rintro ⟨cs, hcs, rfl⟩
      rw [hcs, String.toList_ofList]
    · intro h
      exact ⟨out.toList, h, String.ofList_toList⟩
  have hunfolds : ∀ out, expand? macros text = some out ↔
      Unfolds macros (rounds - 1) (pieces text.toList) out.toList := fun out =>
    (hiff out).trans expandRounds_eq_some_iff
  refine ⟨hunfolds, fun out hout => ?_⟩
  have hnone := none_of_expandRounds ((hiff out).1 hout)
  refine ⟨fun word hword hstarts m hm hname => ?_, ((hunfolds out).1 hout).sublist, ?_, ?_⟩
  · have hfind := hnone word hword
    rw [named?, if_pos hstarts, List.find?_eq_none] at hfind
    exact hfind m hm (beq_iff_eq.2 hname)
  · have hcopy : (pieces out.toList).flatMap (replace macros) = (pieces out.toList).flatMap id :=
      List.flatMap_congr fun piece hpiece => replace_of_none (hnone piece hpiece)
    rw [hcopy, List.flatMap_id, flatten_pieces]
  · rw [expand?, rounds, expandRounds_of_none hnone, Option.map_some, String.ofList_toList]

/-- A macro whose text names a macro, beside a word that begins alike and a number with a letter in it. -/
theorem expansion_is_fixpoint_nested : ∃ macros : List Macro, ∃ out,
    expand? macros "X = SPOT() - K KNOCK = 1E5" = some out ∧ out = "X = SPOT() - (100 + 1) KNOCK = 1E5" ∧
      expand? macros out = some out := by
  have hout : expand? [⟨"K", "(STRIKE + 1)"⟩, ⟨"STRIKE", "100"⟩] "X = SPOT() - K KNOCK = 1E5" =
      some "X = SPOT() - (100 + 1) KNOCK = 1E5" := by
    cbv
  exact ⟨_, _, hout, rfl, ((expansion_is_fixpoint _ _).2 _ hout).2.2.2⟩

end Expansion

end PayoffPricing.Macro
