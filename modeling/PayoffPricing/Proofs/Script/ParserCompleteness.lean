import PayoffPricing.Proofs.Script.ExpressionReading
/-!
The parser accepts exactly what derives from the grammar, and answers with the tree of the derivation. A group
at the start of a condition is a condition, unless an operator or a comparison follows it.
-/

namespace PayoffPricing.Script.Parser

open Grammar

variable {R : Type}

section Tolerances

variable {us : List (Token R)} {t : Option R}

theorem reads_tolerances_of_quiet {rest : Lexemes R} (h : Quiet (fun s => s == .semicolon || s == .colon) rest) :
    Reads (tolerances t rest) t rest := by
  cases rest with
  | nil =>
    rw [tolerances]
    exact ⟨_, rfl⟩
  | cons l rest =>
    have hsign : ¬ (isSymbol .semicolon l || isSymbol .colon l) = true := by
      rw [Bool.or_eq_true, isSymbol_iff, isSymbol_iff]
      rintro (hl | hl) <;> simpa using h l rfl _ hl
    unfold tolerances
    rw [if_neg hsign]
    exact ⟨_, rfl⟩

theorem reads_tolerances_append (h : DerivesTolerance us t) {ts rest : Lexemes R} (hts : tokens ts = us)
    {t' : Option R} {rest' : Lexemes R} (hrest : Reads (tolerances t rest) t' rest') :
    Reads (tolerances none (ts ++ rest)) t' rest' := by
  induction h generalizing ts rest with
  | none =>
    obtain rfl := tokens_eq_nil.1 hts
    exact hrest
  | @another us t s _ hs v ih =>
    obtain ⟨ts₁, _, rfl, h₁, hend⟩ := tokens_eq_append.1 hts
    obtain ⟨l, _, rfl, hl, hend⟩ := tokens_eq_cons.1 hend
    obtain ⟨m, _, rfl, hm, hnil⟩ := tokens_eq_cons.1 hend
    obtain rfl := tokens_eq_nil.1 hnil
    rw [List.append_assoc]
    refine ih h₁ ?_
    obtain ⟨_, hrest⟩ := hrest
    have hsign : (isSymbol .semicolon l || isSymbol .colon l) = true := by
      rw [Bool.or_eq_true, isSymbol_iff, isSymbol_iff, hl]
      exact hs.imp (congrArg Token.symbol) (congrArg Token.symbol)
    rw [List.cons_append, List.singleton_append, tolerances, if_pos hsign]
    simp only [hm, bind, Except.bind, hrest]
    exact ⟨_, rfl⟩

theorem quiet_tolerances (h : DerivesTolerance us t) {ts rest : Lexemes R} (hts : tokens ts = us)
    (hrest : Quiet Symbol.isArithmetic rest) : Quiet Symbol.isArithmetic (ts ++ rest) := by
  induction h generalizing ts rest with
  | none =>
    obtain rfl := tokens_eq_nil.1 hts
    exact hrest
  | another _ hs _ ih =>
    obtain ⟨ts₁, _, rfl, h₁, hend⟩ := tokens_eq_append.1 hts
    obtain ⟨l, ts₂, rfl, hl, -⟩ := tokens_eq_cons.1 hend
    rw [List.append_assoc]
    exact ih h₁ (quiet_cons hl (by rcases hs with rfl | rfl <;> rfl))

theorem balanced_of_derivesTolerance (h : DerivesTolerance us t) : Balanced us := by
  induction h with
  | none => exact balanced_nil
  | another _ hs _ ih =>
    refine ih.append ((balanced_singleton (by simp) (by simp)).cons ?_ ?_) <;>
      rcases hs with rfl | rfl <;> simp

end Tolerances

section Conditions

variable [Scalar R] {constants : Constants R} {level : CondLevel} {us : List (Token R)} {c : Cond R}

omit [Scalar R] in
theorem ne_of_isComparator {s : Symbol} (h : s.isComparator = true) : s ≠ .opening ∧ s ≠ .closing := by
  cases s <;> simp_all [Symbol.isComparator]

theorem isComparator_of_compares {a b : Expr R} {t : Option R} {s : Symbol} (h : Compares a b t s c) :
    s.isComparator = true := by
  cases h <;> rfl

theorem comparison_of_compares {a b : Expr R} {t : Option R} {s : Symbol} (h : Compares a b t s c) :
    comparison s a b t = some c := by
  cases h <;> rfl

theorem balanced_of_derivesCond (h : DerivesCond constants level us c) : Balanced us := by
  induction h with
  | disjunction _ ih | conjunction _ ih => exact ih
  | or _ _ iha ihb | and _ _ iha ihb => exact iha.append (ihb.cons (by simp) (by simp))
  | group _ ih => exact ih.group
  | comparison ha hb ht hc =>
    obtain ⟨hopen, hclose⟩ := ne_of_isComparator (isComparator_of_compares hc)
    have hright := (balanced_of_derivesExpr hb).append (balanced_of_derivesTolerance ht)
    rw [List.append_assoc]
    exact (balanced_of_derivesExpr ha).append (hright.cons (by simpa using hopen) (by simpa using hclose))

/-- What cannot go on with a condition is in front: no sign. -/
abbrev Ended (rest : Lexemes R) : Prop := Quiet (fun _ => true) rest

section Steps

variable {ts mid mid' rest : Lexemes R} {a b : Cond R} {l : Lexeme R}

theorem reads_elementary {x y : Expr R} {s : Symbol} {t : Option R} (hx : Reads (expr constants ts) x (l :: mid))
    (hl : l.token = .symbol s) (hy : Reads (expr constants mid) y mid') (ht : Reads (tolerances none mid') t rest)
    (hc : Compares x y t s c) : Reads (elementary constants ts) c rest := by
  obtain ⟨_, hx⟩ := hx
  obtain ⟨_, hy⟩ := hy
  obtain ⟨_, ht⟩ := ht
  rw [elementary, hx]
  simp only [bind, Except.bind, hl, if_pos (isComparator_of_compares hc), hy, ht, comparison_of_compares hc]
  exact ⟨_, rfl⟩

theorem reads_cond (h : Reads (conjunction constants ts) a mid) (ht : Reads (orTail constants a mid) c rest) :
    Reads (cond constants ts) c rest := by
  obtain ⟨_, h⟩ := h
  obtain ⟨_, ht⟩ := ht
  rw [cond, h]
  simp only [bind, Except.bind, ht]
  exact ⟨_, rfl⟩

theorem reads_orTail (hl : l.token = .keyword .orWord) (h : Reads (conjunction constants ts) b mid)
    (ht : Reads (orTail constants (.or none a b) mid) c rest) : Reads (orTail constants a (l :: ts)) c rest := by
  obtain ⟨_, h⟩ := h
  obtain ⟨_, ht⟩ := ht
  rw [orTail, if_pos (isKeyword_iff.2 hl)]
  simp only [bind, Except.bind, h, ht]
  exact ⟨_, rfl⟩

theorem reads_orTail_of_ne (h : ∀ l ∈ rest.head?, l.token ≠ .keyword .orWord) :
    Reads (orTail constants c rest) c rest := by
  cases rest with
  | nil =>
    rw [orTail]
    exact ⟨_, rfl⟩
  | cons l rest =>
    rw [orTail, if_neg fun hl => h l rfl (isKeyword_iff.1 hl)]
    exact ⟨_, rfl⟩

theorem reads_conjunction (h : Reads (atom constants ts) a mid) (ht : Reads (andTail constants a mid) c rest) :
    Reads (conjunction constants ts) c rest := by
  obtain ⟨_, h⟩ := h
  obtain ⟨_, ht⟩ := ht
  rw [conjunction, h]
  simp only [bind, Except.bind, ht]
  exact ⟨_, rfl⟩

theorem reads_andTail (hl : l.token = .keyword .andWord) (h : Reads (atom constants ts) b mid)
    (ht : Reads (andTail constants (.and none a b) mid) c rest) : Reads (andTail constants a (l :: ts)) c rest := by
  obtain ⟨_, h⟩ := h
  obtain ⟨_, ht⟩ := ht
  rw [andTail, if_pos (isKeyword_iff.2 hl)]
  simp only [bind, Except.bind, h, ht]
  exact ⟨_, rfl⟩

theorem reads_andTail_of_ne (h : ∀ l ∈ rest.head?, l.token ≠ .keyword .andWord) :
    Reads (andTail constants c rest) c rest := by
  cases rest with
  | nil =>
    rw [andTail]
    exact ⟨_, rfl⟩
  | cons l rest =>
    rw [andTail, if_neg fun hl => h l rfl (isKeyword_iff.1 hl)]
    exact ⟨_, rfl⟩

theorem reads_atom_group (hl : l.token = .symbol .opening) (hs : splitClosing 0 ts = some (mid, rest))
    (hrest : Ended rest) (h : Reads (cond constants mid) c []) : Reads (atom constants (l :: ts)) c rest := by
  obtain ⟨_, h⟩ := h
  have hends : ¬ continuesExpression rest = true := by
    cases rest with
    | nil => simp [continuesExpression]
    | cons m rest =>
      have hm : ∀ s, m.token ≠ .symbol s := fun s hs => by simpa using hrest m rfl s hs
      cases hm' : m.token with
      | symbol s => exact absurd hm' (hm s)
      | _ => simp [continuesExpression, hm', Token.isComparator, Token.isArithmetic]
  rw [atom, if_pos (isSymbol_iff.2 hl)]
  split
  · next hnone =>
    rw [hs] at hnone
    cases hnone
  · next inside after hs' =>
    rw [hs] at hs'
    cases hs'
    rw [if_neg hends]
    simp only [bind, Except.bind, h]
    exact ⟨_, rfl⟩

/-- A parenthesis in front opens an expression when an operator or a comparator follows the group. -/
theorem atom_eq_elementary (h : ∀ l ts', ts = l :: ts' → l.token = .symbol .opening →
    ∃ inside after, splitClosing 0 ts' = some (inside, after) ∧ continuesExpression after = true) :
    atom constants ts = elementary constants ts := by
  cases ts with
  | nil => rw [atom]
  | cons l ts =>
    rw [atom]
    split_ifs with hopen
    · obtain ⟨inside, after, hs, hcontinues⟩ := h l ts rfl (isSymbol_iff.1 hopen)
      split
      · next hnone =>
        rw [hs] at hnone
        cases hnone
      · next inside' after' hs' =>
        rw [hs] at hs'
        cases hs'
        rw [if_pos hcontinues]
    · rfl

end Steps

/-- In front of what does not go on with it, a condition of a level is read and reading goes on behind it. -/
def ReadsCondAt (constants : Constants R) : CondLevel → Lexemes R → Cond R → Prop
  | .disjunction, ts, c => ∀ rest, Ended rest → (∀ l ∈ rest.head?, l.token ≠ .keyword .andWord) → ∀ c' rest',
      Reads (orTail constants c rest) c' rest' → Reads (cond constants (ts ++ rest)) c' rest'
  | .conjunction, ts, c => ∀ rest, Ended rest → ∀ c' rest', Reads (andTail constants c rest) c' rest' →
      Reads (conjunction constants (ts ++ rest)) c' rest'
  | .atom, ts, c => ∀ rest, Ended rest → Reads (atom constants (ts ++ rest)) c rest

omit [Scalar R] in
theorem ended_cons {l : Lexeme R} {rest : Lexemes R} (hl : ∀ s, l.token ≠ .symbol s) : Ended (l :: rest) := by
  intro m hm s hs
  obtain rfl := Option.some.inj hm
  exact absurd hs (hl s)

/-- A comparison that starts with a parenthesis is not taken for a condition in parentheses. -/
theorem atom_eq_elementary_of_derives {vs ws : List (Token R)} {x : Expr R} {s : Symbol}
    (hx : DerivesExpr constants .sum us x) (hs : s.isComparator = true) {ts rest : Lexemes R}
    (hts : tokens ts = us ++ .symbol s :: vs ++ ws) :
    atom constants (ts ++ rest) = elementary constants (ts ++ rest) := by
  refine atom_eq_elementary fun l ts' hcons hl => ?_
  obtain ⟨t, us, rfl⟩ := List.exists_cons_of_ne_nil (ne_nil_of_derivesExpr hx)
  rw [List.append_assoc, List.cons_append] at hts
  obtain ⟨l', ts, rfl, rfl, htail⟩ := tokens_eq_cons.1 hts
  rw [List.cons_append] at hcons
  obtain ⟨rfl, rfl⟩ := List.cons.inj hcons
  obtain ⟨inside, after, rfl, hbalanced, hafter⟩ := exists_group hx (by rw [hl])
  rw [List.append_assoc] at htail
  obtain ⟨ts₁, _, rfl, h₁, hend⟩ := tokens_eq_append.1 htail
  obtain ⟨m, ts₂, rfl, hm, h₂⟩ := tokens_eq_cons.1 hend
  refine ⟨ts₁, ts₂ ++ rest, ?_, ?_⟩
  · rw [List.append_assoc, List.cons_append]
    exact hbalanced.splitClosing h₁ hm _
  · cases after with
    | nil =>
      obtain ⟨n, ts₂, rfl, hn, -⟩ := tokens_eq_cons.1 h₂
      simp [continuesExpression, hn, Token.isComparator, hs]
    | cons t after =>
      obtain ⟨n, ts₂, rfl, rfl, -⟩ := tokens_eq_cons.1 h₂
      simp [continuesExpression, hafter n.token rfl]

theorem readsCondAt_of_derivesCond (h : DerivesCond constants level us c) {ts : Lexemes R} (hts : tokens ts = us) :
    ReadsCondAt constants level ts c := by
  induction h generalizing ts with
  | disjunction _ ih =>
    intro rest hrest hand c' rest' htail
    exact reads_cond (ih hts rest hrest _ _ (reads_andTail_of_ne hand)) htail
  | or _ _ iha ihb =>
    obtain ⟨ts₁, _, rfl, h₁, h₂⟩ := tokens_eq_append.1 hts
    obtain ⟨l, ts₂, rfl, hl, h₂⟩ := tokens_eq_cons.1 h₂
    intro rest hrest hand c' rest' htail
    rw [List.append_assoc]
    refine iha h₁ (l :: (ts₂ ++ rest)) (ended_cons (by simp [hl])) (by simp [hl]) c' rest' ?_
    exact reads_orTail hl (ihb h₂ rest hrest _ _ (reads_andTail_of_ne hand)) htail
  | conjunction _ ih =>
    intro rest hrest c' rest' htail
    exact reads_conjunction (ih hts rest hrest) htail
  | and _ _ iha ihb =>
    obtain ⟨ts₁, _, rfl, h₁, h₂⟩ := tokens_eq_append.1 hts
    obtain ⟨l, ts₂, rfl, hl, h₂⟩ := tokens_eq_cons.1 h₂
    intro rest hrest c' rest' htail
    rw [List.append_assoc]
    refine iha h₁ (l :: (ts₂ ++ rest)) (ended_cons (by simp [hl])) c' rest' ?_
    exact reads_andTail hl (ihb h₂ rest hrest) htail
  | group hd ih =>
    obtain ⟨_, _, rfl, h, hend⟩ := tokens_eq_append.1 hts
    obtain ⟨l, ts, rfl, hl, h⟩ := tokens_eq_cons.1 h
    obtain ⟨m, _, rfl, hm, hnil⟩ := tokens_eq_cons.1 hend
    obtain rfl := tokens_eq_nil.1 hnil
    intro rest hrest
    have hread := ih h [] quiet_nil (by simp) _ _ (reads_orTail_of_ne (by simp))
    rw [List.append_nil] at hread
    rw [List.append_assoc]
    exact reads_atom_group hl ((balanced_of_derivesCond hd).splitClosing h hm rest) hrest hread
  | comparison ha hb ht hc =>
    intro rest hrest
    rw [atom_eq_elementary_of_derives ha (isComparator_of_compares hc) hts]
    obtain ⟨_, ts₃, rfl, hts₁, h₃⟩ := tokens_eq_append.1 hts
    obtain ⟨ts₁, _, rfl, h₁, hts₂⟩ := tokens_eq_append.1 hts₁
    obtain ⟨l, ts₂, rfl, hl, h₂⟩ := tokens_eq_cons.1 hts₂
    have hsign : ∀ s : Symbol, s.isComparator = true → s.isArithmetic = false := by
      intro s
      cases s <;> simp [Symbol.isComparator, Symbol.isArithmetic]
    have hquiet : Quiet Symbol.isArithmetic (ts₃ ++ rest) := quiet_tolerances ht h₃ (hrest.mono fun _ _ => rfl)
    rw [List.append_assoc, List.append_assoc, List.cons_append]
    refine reads_elementary
      (reads_expr_of_derives ha h₁ (quiet_cons hl (hsign _ (isComparator_of_compares hc)))) hl
      (reads_expr_of_derives hb h₂ hquiet) (reads_tolerances_append ht h₃ (reads_tolerances_of_quiet ?_)) hc
    exact hrest.mono fun _ _ => rfl

end Conditions

section Statements

variable [Scalar R] {constants : Constants R} {us : List (Token R)} {st : Statement R}

theorem exists_front (h : DerivesStatement constants us st) :
    ∃ t vs, us = t :: vs ∧ (t = .keyword .ifWord ∨ ∃ name, t = .name name) := by
  cases h with
  | assign | pays => exact ⟨_, _, rfl, .inr ⟨_, rfl⟩⟩
  | branch | branchElse => exact ⟨_, _, rfl, .inl rfl⟩

theorem reads_cond_of_derives {c : Cond R} (h : DerivesCond constants .disjunction us c) {ts rest : Lexemes R}
    {l : Lexeme R} (hts : tokens ts = us) (hl : l.token = .keyword .thenWord) :
    Reads (cond constants (ts ++ l :: rest)) c (l :: rest) :=
  readsCondAt_of_derivesCond h hts (l :: rest) (ended_cons (by simp [hl])) (by simp [hl]) _ _
    (reads_orTail_of_ne (by simp [hl]))

section Steps

variable {ts mid rest : Lexemes R} {l m n o : Lexeme R} {c : Cond R} {body otherwise : List (Statement R)}

theorem reads_assign {name : String} {e : Expr R} (hl : l.token = .name name) (hname : IsVariable constants name)
    (hm : m.token = .symbol .equal) (h : Reads (expr constants ts) e rest) :
    Reads (statement constants (l :: m :: ts)) (.assign (.ofName name) e) rest := by
  obtain ⟨_, h⟩ := h
  rw [statement]
  simp only [hl, target_eq_ok.2 ⟨hname, rfl⟩, bind, Except.bind, if_pos (isSymbol_iff.2 hm), h]
  exact ⟨_, rfl⟩

theorem reads_pays {name : String} {e : Expr R} (hl : l.token = .name name) (hname : IsVariable constants name)
    (hm : m.token = .keyword .paysWord) (h : Reads (expr constants ts) e rest) :
    Reads (statement constants (l :: m :: ts)) (.pays (.ofName name) e) rest := by
  obtain ⟨_, h⟩ := h
  have hequal : ¬ isSymbol .equal m = true := by simp [isSymbol, hm]
  rw [statement]
  simp only [hl, target_eq_ok.2 ⟨hname, rfl⟩, bind, Except.bind, if_neg hequal, if_pos (isKeyword_iff.2 hm), h]
  exact ⟨_, rfl⟩

theorem reads_branch (hl : l.token = .keyword .ifWord) (hc : Reads (cond constants ts) c (m :: mid))
    (hm : m.token = .keyword .thenWord) (hbody : Reads (block constants closesBody mid) body (n :: rest))
    (hn : n.token ≠ .keyword .elseWord) :
    Reads (statement constants (l :: ts)) (.branch c body [] []) rest := by
  obtain ⟨hlt, hc⟩ := hc
  obtain ⟨_, hbody⟩ := hbody
  have hempty : ¬ ts.isEmpty = true := by
    rw [List.isEmpty_iff]
    rintro rfl
    simp at hlt
  have helse : ¬ isKeyword .elseWord n = true := fun h => hn (isKeyword_iff.1 h)
  rw [statement]
  simp only [hl, if_neg hempty, bind, Except.bind, hc, if_pos (isKeyword_iff.2 hm), hbody, if_neg helse]
  exact ⟨_, rfl⟩

theorem reads_branchElse (hl : l.token = .keyword .ifWord) (hc : Reads (cond constants ts) c (m :: mid))
    (hm : m.token = .keyword .thenWord) {mid' : Lexemes R}
    (hbody : Reads (block constants closesBody mid) body (n :: mid')) (hn : n.token = .keyword .elseWord)
    (hother : Reads (block constants Keyword.isEnd mid') otherwise (o :: rest)) :
    Reads (statement constants (l :: ts)) (.branch c body otherwise []) rest := by
  obtain ⟨hlt, hc⟩ := hc
  obtain ⟨_, hbody⟩ := hbody
  obtain ⟨_, hother⟩ := hother
  have hempty : ¬ ts.isEmpty = true := by
    rw [List.isEmpty_iff]
    rintro rfl
    simp at hlt
  rw [statement]
  simp only [hl, if_neg hempty, bind, Except.bind, hc, if_pos (isKeyword_iff.2 hm), hbody,
    if_pos (isKeyword_iff.2 hn), hother]
  exact ⟨_, rfl⟩

theorem reads_block_cons {closes : Keyword → Bool} {ss : List (Statement R)} (hl : goesOn closes l = true)
    (hs : Reads (statement constants (l :: ts)) st mid) (hss : Reads (block constants closes mid) ss rest) :
    Reads (block constants closes (l :: ts)) (st :: ss) rest := by
  obtain ⟨_, hs⟩ := hs
  obtain ⟨_, hss⟩ := hss
  rw [block, if_pos hl]
  simp only [bind, Except.bind, hs, hss]
  exact ⟨_, rfl⟩

end Steps

/-- What derives a statement is read in front of what is no sign. -/
def ReadsStatement (constants : Constants R) (us : List (Token R)) (st : Statement R) : Prop :=
  ∀ ts : Lexemes R, tokens ts = us → ∀ rest, Ended rest → Reads (statement constants (ts ++ rest)) st rest

theorem reads_block_of_derives {closes : Keyword → Bool} (hif : closes .ifWord = false)
    {parts : List (List (Token R) × Statement R)} (hd : ∀ p ∈ parts, DerivesStatement constants p.1 p.2)
    (hr : ∀ p ∈ parts, ReadsStatement constants p.1 p.2) {ts rest : Lexemes R} (hts : tokens ts = joined parts)
    {l : Lexeme R} {k : Keyword} (hl : l.token = .keyword k) (hk : closes k = true) :
    Reads (block constants closes (ts ++ l :: rest)) (parts.map (·.2)) (l :: rest) := by
  induction parts generalizing ts with
  | nil =>
    obtain rfl := tokens_eq_nil.1 hts
    have hend : ¬ goesOn closes l = true := by simp [goesOn, hl, hk]
    rw [List.nil_append, block, if_neg hend]
    exact ⟨_, rfl⟩
  | cons p parts ih =>
    rw [List.forall_mem_cons] at hd hr
    rw [joined_cons] at hts
    obtain ⟨ts₁, ts₂, rfl, h₁, h₂⟩ := tokens_eq_append.1 hts
    have hrest : Ended (ts₂ ++ l :: rest) := by
      cases parts with
      | nil =>
        obtain rfl := tokens_eq_nil.1 h₂
        exact ended_cons (by simp [hl])
      | cons q parts =>
        obtain ⟨t, vs, hq, ht⟩ := exists_front (hd.2 q List.mem_cons_self)
        rw [joined_cons, hq] at h₂
        obtain ⟨n, ts₂, rfl, rfl, -⟩ := tokens_eq_cons.1 h₂
        refine ended_cons fun s hs => ?_
        rcases ht with h | ⟨name, h⟩ <;> simp [hs] at h
    have hread := hr.1 ts₁ h₁ (ts₂ ++ l :: rest) hrest
    obtain ⟨t, vs, hp, ht⟩ := exists_front hd.1
    rw [hp] at h₁
    obtain ⟨n, ts₁, rfl, rfl, -⟩ := tokens_eq_cons.1 h₁
    have hgoes : goesOn closes n = true := by
      rcases ht with h | ⟨name, h⟩ <;> simp [goesOn, h, hif]
    rw [List.append_assoc]
    exact reads_block_cons hgoes hread (ih hd.2 hr.2 h₂)

theorem readsStatement_of_derives (h : DerivesStatement constants us st) : ReadsStatement constants us st := by
  induction h with
  | assign hname he =>
    intro ts hts rest hrest
    obtain ⟨l, _, rfl, hl, htail⟩ := tokens_eq_cons.1 hts
    obtain ⟨m, ts, rfl, hm, h⟩ := tokens_eq_cons.1 htail
    exact reads_assign hl hname hm (reads_expr_of_derives he h (hrest.mono fun _ _ => rfl))
  | pays hname he =>
    intro ts hts rest hrest
    obtain ⟨l, _, rfl, hl, htail⟩ := tokens_eq_cons.1 hts
    obtain ⟨m, ts, rfl, hm, h⟩ := tokens_eq_cons.1 htail
    exact reads_pays hl hname hm (reads_expr_of_derives he h (hrest.mono fun _ _ => rfl))
  | @branch us c k body hc hd hk ih =>
    intro ts hts rest hrest
    obtain ⟨_, _, rfl, hts₁, hend⟩ := tokens_eq_append.1 hts
    obtain ⟨n, _, rfl, hn, hnil⟩ := tokens_eq_cons.1 hend
    obtain rfl := tokens_eq_nil.1 hnil
    obtain ⟨_, _, rfl, hif, hts₂⟩ := tokens_eq_append.1 hts₁
    obtain ⟨l, ts, rfl, hl, h⟩ := tokens_eq_cons.1 hif
    obtain ⟨m, ts₂, rfl, hm, h₂⟩ := tokens_eq_cons.1 hts₂
    have hclose : closesBody k = true := by rcases hk with rfl | rfl <;> rfl
    rw [List.append_assoc, List.append_assoc]
    refine reads_branch hl (reads_cond_of_derives hc h hm) hm
      (reads_block_of_derives rfl hd ih h₂ hn hclose) ?_
    rw [hn]
    rcases hk with rfl | rfl <;> simp
  | @branchElse us c k body otherwise hc hd hd' hk ih ih' =>
    intro ts hts rest hrest
    obtain ⟨_, _, rfl, hts₁, hend⟩ := tokens_eq_append.1 hts
    obtain ⟨o, _, rfl, ho, hnil⟩ := tokens_eq_cons.1 hend
    obtain rfl := tokens_eq_nil.1 hnil
    obtain ⟨_, _, rfl, hbody, helse⟩ := tokens_eq_append.1 hts₁
    obtain ⟨n, ts₃, rfl, hn, h₃⟩ := tokens_eq_cons.1 helse
    obtain ⟨_, _, rfl, hif, hthen⟩ := tokens_eq_append.1 hbody
    obtain ⟨l, ts, rfl, hl, h⟩ := tokens_eq_cons.1 hif
    obtain ⟨m, ts₂, rfl, hm, h₂⟩ := tokens_eq_cons.1 hthen
    have hclose : Keyword.isEnd k = true := by rcases hk with rfl | rfl <;> rfl
    rw [List.append_assoc, List.append_assoc, List.append_assoc]
    exact reads_branchElse hl (reads_cond_of_derives hc h hm) hm
      (reads_block_of_derives rfl hd ih h₂ hn rfl) hn (reads_block_of_derives rfl hd' ih' h₃ ho hclose)

/-- What derives from the grammar is accepted, with the tree of the derivation. -/
theorem event_of_derives {parts : List (List (Token R) × Statement R)}
    (hd : ∀ p ∈ parts, DerivesStatement constants p.1 p.2) {ts : Lexemes R} (hts : tokens ts = joined parts) :
    event constants ts = .ok (parts.map (·.2)) := by
  induction parts generalizing ts with
  | nil =>
    obtain rfl := tokens_eq_nil.1 hts
    rw [event]
    rfl
  | cons p parts ih =>
    rw [List.forall_mem_cons] at hd
    rw [joined_cons] at hts
    obtain ⟨ts₁, ts₂, rfl, h₁, h₂⟩ := tokens_eq_append.1 hts
    have hrest : Ended ts₂ := by
      cases parts with
      | nil =>
        obtain rfl := tokens_eq_nil.1 h₂
        exact quiet_nil
      | cons q parts =>
        obtain ⟨t, vs, hq, ht⟩ := exists_front (hd.2 q List.mem_cons_self)
        rw [joined_cons, hq] at h₂
        obtain ⟨n, ts₂, rfl, rfl, -⟩ := tokens_eq_cons.1 h₂
        refine ended_cons fun s hs => ?_
        rcases ht with h | ⟨name, h⟩ <;> simp [hs] at h
    obtain ⟨_, hread⟩ := readsStatement_of_derives hd.1 ts₁ h₁ ts₂ hrest
    have hempty : ¬ (ts₁ ++ ts₂).isEmpty = true := by
      obtain ⟨t, vs, hp, -⟩ := exists_front hd.1
      rw [hp] at h₁
      obtain ⟨n, ts₁, rfl, -, -⟩ := tokens_eq_cons.1 h₁
      simp
    rw [event, if_neg hempty, hread]
    simp only [bind, Except.bind, ih hd.2 h₂]
    rfl

theorem event_eq_ok_iff_derives {ts : Lexemes R} {ss : List (Statement R)} :
    event constants ts = .ok ss ↔ DerivesEvent constants (tokens ts) ss := by
  refine ⟨derives_event ts, ?_⟩
  rintro ⟨parts, hts, rfl, hd⟩
  exact event_of_derives hd hts

/-- What derives from the grammar has one tree. -/
theorem eq_of_derivesEvent {us : List (Token R)} {ss ss' : List (Statement R)}
    (h : DerivesEvent constants us ss) (h' : DerivesEvent constants us ss') : ss = ss' := by
  obtain ⟨ts, rfl⟩ := exists_lexemes us
  have hread := event_eq_ok_iff_derives.2 h
  have hread' := event_eq_ok_iff_derives.2 h'
  exact Except.ok.inj (hread.symm.trans hread')

end Statements

/-- The parser accepts exactly the grammar: lexemes are read as an event when their tokens derive it, a list of
tokens derives one event at most, and a text is read as what its lexemes in upper case derive. -/
theorem parses_iff_derives [Scalar R] (constants : Constants R) :
    (∀ (ts : Lexemes R) (ss : List (Statement R)),
      event constants ts = .ok ss ↔ DerivesEvent constants (tokens ts) ss) ∧
    (∀ (us : List (Token R)) (ss ss' : List (Statement R)),
      DerivesEvent constants us ss → DerivesEvent constants us ss' → ss = ss') ∧
    ∀ (text : String) (i : Nat) (ss : List (Statement R)),
      parseEvent text i constants = .ok ss ↔
        ∃ ts, Lexeme.ofText (Text.uppercase text) = .ok ts ∧ DerivesEvent constants (tokens ts) ss := by
  refine ⟨fun ts ss => event_eq_ok_iff_derives, fun us ss ss' h h' => eq_of_derivesEvent h h', ?_⟩
  intro text i ss
  simp only [parseEvent_eq_ok, event_eq_ok_iff_derives]

end PayoffPricing.Script.Parser
