import PayoffPricing.Proofs.Script.ParserSoundness
/-!
What derives an expression is read as that expression. Read from the front of longer lexemes, a phrase is read
as far as its derivation goes, when what follows cannot go on with it.
-/

namespace PayoffPricing.Script.Parser

open Grammar

variable {R α : Type}

/-- A phrase is read, and what is behind it is left. -/
def Reads {n : Nat} (r : Except (Refusal R) (Phrase R α n)) (v : α) (rest : Lexemes R) : Prop :=
  ∃ h, r = .ok ⟨v, rest, h⟩

section Parentheses

theorem splitClosing_cons (depth : Nat) (l : Lexeme R) (rest : Lexemes R) :
    splitClosing depth (l :: rest) =
      if isSymbol .opening l then (splitClosing (depth + 1) rest).map fun (i, a) => (l :: i, a)
      else if isSymbol .closing l then
        match depth with
        | 0 => some ([], rest)
        | depth + 1 => (splitClosing depth rest).map fun (i, a) => (l :: i, a)
      else (splitClosing depth rest).map fun (i, a) => (l :: i, a) := by
  cases depth <;> rfl

/-- Splitting at a closing parenthesis passes over the tokens. -/
def Balanced (us : List (Token R)) : Prop :=
  ∀ (ts : Lexemes R) (depth : Nat) (rest : Lexemes R), tokens ts = us →
    splitClosing depth (ts ++ rest) = (splitClosing depth rest).map fun (i, a) => (ts ++ i, a)

theorem tokens_eq_append {ts : Lexemes R} {us vs : List (Token R)} :
    tokens ts = us ++ vs ↔ ∃ ts₁ ts₂, ts = ts₁ ++ ts₂ ∧ tokens ts₁ = us ∧ tokens ts₂ = vs := List.map_eq_append_iff

theorem tokens_eq_cons {ts : Lexemes R} {t : Token R} {us : List (Token R)} :
    tokens ts = t :: us ↔ ∃ l ts', ts = l :: ts' ∧ l.token = t ∧ tokens ts' = us := List.map_eq_cons_iff

theorem balanced_nil : Balanced ([] : List (Token R)) := by
  intro ts depth rest hts
  rw [tokens_eq_nil.1 hts]
  simp

theorem Balanced.append {us vs : List (Token R)} (hu : Balanced us) (hv : Balanced vs) : Balanced (us ++ vs) := by
  intro ts depth rest hts
  obtain ⟨ts₁, ts₂, rfl, h₁, h₂⟩ := tokens_eq_append.1 hts
  rw [List.append_assoc, hu ts₁ depth _ h₁, hv ts₂ depth _ h₂, Option.map_map]
  simp [Function.comp_def]

theorem balanced_singleton {t : Token R} (ho : t ≠ .symbol .opening) (hc : t ≠ .symbol .closing) : Balanced [t] := by
  intro ts depth rest hts
  obtain ⟨l, _, rfl, rfl, h⟩ := tokens_eq_cons.1 hts
  obtain rfl := tokens_eq_nil.1 h
  have hopen : ¬ isSymbol .opening l = true := fun h => ho (isSymbol_iff.1 h)
  have hclose : ¬ isSymbol .closing l = true := fun h => hc (isSymbol_iff.1 h)
  rw [List.singleton_append, splitClosing_cons, if_neg hopen, if_neg hclose]
  simp

theorem Balanced.cons {t : Token R} {us : List (Token R)} (ho : t ≠ .symbol .opening) (hc : t ≠ .symbol .closing)
    (hu : Balanced us) : Balanced (t :: us) := (balanced_singleton ho hc).append hu

theorem Balanced.splitClosing {us : List (Token R)} (hu : Balanced us) {ts : Lexemes R} (hts : tokens ts = us)
    {l : Lexeme R} (hl : l.token = .symbol .closing) (rest : Lexemes R) :
    splitClosing 0 (ts ++ l :: rest) = some (ts, rest) := by
  have hopen : ¬ isSymbol .opening l = true := by simp [isSymbol, hl]
  rw [hu ts 0 _ hts, splitClosing_cons, if_neg hopen, if_pos (isSymbol_iff.2 hl)]
  simp

theorem Balanced.group {us : List (Token R)} (hu : Balanced us) :
    Balanced (.symbol .opening :: us ++ [.symbol .closing]) := by
  intro ts depth rest hts
  obtain ⟨_, _, rfl, hts₁, hts₂⟩ := tokens_eq_append.1 hts
  obtain ⟨l, ts, rfl, hl, hu'⟩ := tokens_eq_cons.1 hts₁
  obtain ⟨m, _, rfl, hm, h⟩ := tokens_eq_cons.1 hts₂
  obtain rfl := tokens_eq_nil.1 h
  have hopen : ¬ isSymbol .opening m = true := by simp [isSymbol, hm]
  have hclosed : Parser.splitClosing (depth + 1) (m :: rest) =
      (Parser.splitClosing depth rest).map fun (i, a) => (m :: i, a) := by
    rw [splitClosing_cons, if_neg hopen, if_pos (isSymbol_iff.2 hm)]
  rw [List.append_assoc, List.cons_append, splitClosing_cons, if_pos (isSymbol_iff.2 hl), List.singleton_append,
    hu ts _ _ hu', hclosed]
  simp [Function.comp_def]

theorem balanced_separated {parts : List (List (Token R))} (h : ∀ us ∈ parts, Balanced us) :
    Balanced (separated parts) := by
  induction parts with
  | nil => exact balanced_nil
  | cons us parts ih =>
    rw [List.forall_mem_cons] at h
    cases parts with
    | nil => simpa using h.1
    | cons vs parts =>
      rw [separated_cons_cons]
      exact h.1.append ((ih h.2).cons (by simp) (by simp))

end Parentheses

section Expressions

variable {constants : Constants R} {level : Level} {us : List (Token R)} {e : Expr R}

theorem balanced_of_derivesExpr (h : DerivesExpr constants level us e) : Balanced us := by
  induction h with
  | sum _ ih | product _ ih | power _ ih => exact ih
  | addition hs _ _ iha ihb => exact iha.append (ihb.cons (by simp [hs.ne.1]) (by simp [hs.ne.2]))
  | multiplication hs _ _ iha ihb => exact iha.append (ihb.cons (by simp [hs.ne.1]) (by simp [hs.ne.2]))
  | exponentiation _ _ iha ihb => exact iha.append (ihb.cons (by simp) (by simp))
  | plus _ ih | minus _ ih => exact ih.cons (by simp) (by simp)
  | group _ ih => exact ih.group
  | number | constant | «variable» => exact balanced_singleton (by simp) (by simp)
  | spot => exact balanced_nil.group.cons (by simp) (by simp)
  | call args _ _ _ _ ih =>
    have hparts : ∀ us ∈ args.map (·.1), Balanced us := by
      intro us hus
      obtain ⟨a, ha, rfl⟩ := List.mem_map.1 hus
      exact ih a ha
    exact (balanced_separated hparts).group.cons (by simp) (by simp)

theorem ne_nil_of_derivesExpr (h : DerivesExpr constants level us e) : us ≠ [] := by
  induction h with
  | sum _ ih | product _ ih | power _ ih => exact ih
  | _ => simp

/-- Behind a parenthesised group at the front of an expression, the expression ends or an operator follows. -/
theorem exists_group {vs : List (Token R)} (h : DerivesExpr constants level us e) (hus : us = .symbol .opening :: vs) :
    ∃ inside after, vs = inside ++ .symbol .closing :: after ∧ Balanced inside ∧
      ∀ t ∈ after.head?, t.isArithmetic = true := by
  have operation {us ws : List (Token R)} {s : Symbol} (hne : us ≠ []) (hs : s.isArithmetic = true)
      (ih : ∀ vs, us = .symbol .opening :: vs → ∃ inside after, vs = inside ++ .symbol .closing :: after ∧
        Balanced inside ∧ ∀ t ∈ after.head?, t.isArithmetic = true)
      {vs : List (Token R)} (hus : us ++ .symbol s :: ws = .symbol .opening :: vs) :
      ∃ inside after, vs = inside ++ .symbol .closing :: after ∧ Balanced inside ∧
        ∀ t ∈ after.head?, t.isArithmetic = true := by
    obtain ⟨t, us', rfl⟩ := List.exists_cons_of_ne_nil hne
    obtain ⟨rfl, rfl⟩ := List.cons.inj hus
    obtain ⟨inside, after, rfl, hinside, hafter⟩ := ih us' rfl
    refine ⟨inside, after ++ .symbol s :: ws, by simp, hinside, ?_⟩
    cases after with
    | nil => simpa [Token.isArithmetic] using hs
    | cons t after => simpa using hafter
  induction h generalizing vs with
  | sum _ ih | product _ ih | power _ ih => exact ih hus
  | addition hs ha _ iha =>
    exact operation (ne_nil_of_derivesExpr ha) (by cases hs <;> rfl) (fun _ h => iha h) hus
  | multiplication hs ha _ iha =>
    exact operation (ne_nil_of_derivesExpr ha) (by cases hs <;> rfl) (fun _ h => iha h) hus
  | exponentiation ha _ iha => exact operation (ne_nil_of_derivesExpr ha) rfl (fun _ h => iha h) hus
  | group h =>
    obtain rfl := (List.cons.inj hus).2
    exact ⟨_, [], rfl, balanced_of_derivesExpr h, by simp⟩
  | _ => simp at hus

/-- Signs that go on with an operand of a level. -/
def binds : Level → Symbol → Bool
  | .sum => fun s => s == .star || s == .slash || s == .caret
  | .product => fun s => s == .caret
  | .power => fun _ => false
  | .factor => fun _ => false

/-- No sign of the given kind is in front. -/
def Quiet (bad : Symbol → Bool) (rest : Lexemes R) : Prop :=
  ∀ l ∈ rest.head?, ∀ s, l.token = .symbol s → bad s = false

theorem Quiet.mono {bad worse : Symbol → Bool} {rest : Lexemes R} (h : Quiet worse rest)
    (hb : ∀ s, bad s = true → worse s = true) : Quiet bad rest := by
  intro l hl s hs
  have := h l hl s hs
  exact Bool.eq_false_iff.2 fun hbad => by simp [hb s hbad] at this

theorem quiet_cons {bad : Symbol → Bool} {l : Lexeme R} {rest : Lexemes R} {s : Symbol} (hl : l.token = .symbol s)
    (hs : bad s = false) : Quiet bad (l :: rest) := by
  intro m hm t ht
  obtain rfl := Option.some.inj hm
  rw [hl] at ht
  cases ht
  exact hs

theorem quiet_nil {bad : Symbol → Bool} : Quiet bad ([] : Lexemes R) := fun _ h => by simp at h

theorem reads_sumTail_of_quiet {rest : Lexemes R} (h : Quiet (fun s => s == .plus || s == .minus) rest) :
    Reads (sumTail constants e rest) e rest := by
  cases rest with
  | nil =>
    rw [sumTail]
    exact ⟨_, rfl⟩
  | cons l rest =>
    have hnone : sumOperator? l = none := by
      rw [Option.eq_none_iff_forall_not_mem]
      intro op hop
      obtain ⟨s, hs, hsign⟩ := sumOperator?_eq_some.1 hop
      have := h l rfl s hs
      cases hsign <;> simp at this
    rw [sumTail, hnone]
    exact ⟨_, rfl⟩

theorem reads_productTail_of_quiet {rest : Lexemes R} (h : Quiet (fun s => s == .star || s == .slash) rest) :
    Reads (productTail constants e rest) e rest := by
  cases rest with
  | nil =>
    rw [productTail]
    exact ⟨_, rfl⟩
  | cons l rest =>
    have hnone : productOperator? l = none := by
      rw [Option.eq_none_iff_forall_not_mem]
      intro op hop
      obtain ⟨s, hs, hsign⟩ := productOperator?_eq_some.1 hop
      have := h l rfl s hs
      cases hsign <;> simp at this
    rw [productTail, hnone]
    exact ⟨_, rfl⟩

theorem reads_powerTail_of_quiet {rest : Lexemes R} (h : Quiet (fun s => s == .caret) rest) :
    Reads (powerTail constants e rest) e rest := by
  cases rest with
  | nil =>
    rw [powerTail]
    exact ⟨_, rfl⟩
  | cons l rest =>
    have hcaret : ¬ isSymbol .caret l = true := fun hl => by simpa using h l rfl _ (isSymbol_iff.1 hl)
    rw [powerTail, if_neg hcaret]
    exact ⟨_, rfl⟩

section Steps

variable {ts mid rest : Lexemes R} {a b : Expr R} {l : Lexeme R}

theorem reads_expr (h : Reads (product constants ts) a mid) (ht : Reads (sumTail constants a mid) e rest) :
    Reads (expr constants ts) e rest := by
  obtain ⟨_, h⟩ := h
  obtain ⟨_, ht⟩ := ht
  rw [expr, h]
  simp only [bind, Except.bind, ht]
  exact ⟨_, rfl⟩

theorem reads_sumTail {s : Symbol} {op : Operator} (hl : l.token = .symbol s) (hs : SumSign s op)
    (h : Reads (product constants ts) b mid) (ht : Reads (sumTail constants (.binary none op a b) mid) e rest) :
    Reads (sumTail constants a (l :: ts)) e rest := by
  obtain ⟨_, h⟩ := h
  obtain ⟨_, ht⟩ := ht
  rw [sumTail, sumOperator?_eq_some.2 ⟨s, hl, hs⟩]
  simp only [bind, Except.bind, h, ht]
  exact ⟨_, rfl⟩

theorem reads_product (h : Reads (power constants ts) a mid) (ht : Reads (productTail constants a mid) e rest) :
    Reads (product constants ts) e rest := by
  obtain ⟨_, h⟩ := h
  obtain ⟨_, ht⟩ := ht
  rw [product, h]
  simp only [bind, Except.bind, ht]
  exact ⟨_, rfl⟩

theorem reads_productTail {s : Symbol} {op : Operator} (hl : l.token = .symbol s) (hs : ProductSign s op)
    (h : Reads (power constants ts) b mid) (ht : Reads (productTail constants (.binary none op a b) mid) e rest) :
    Reads (productTail constants a (l :: ts)) e rest := by
  obtain ⟨_, h⟩ := h
  obtain ⟨_, ht⟩ := ht
  rw [productTail, productOperator?_eq_some.2 ⟨s, hl, hs⟩]
  simp only [bind, Except.bind, h, ht]
  exact ⟨_, rfl⟩

theorem reads_power (h : Reads (factor constants ts) a mid) (ht : Reads (powerTail constants a mid) e rest) :
    Reads (power constants ts) e rest := by
  obtain ⟨_, h⟩ := h
  obtain ⟨_, ht⟩ := ht
  rw [power, h]
  simp only [bind, Except.bind, ht]
  exact ⟨_, rfl⟩

theorem reads_powerTail (hl : l.token = .symbol .caret) (h : Reads (factor constants ts) b mid)
    (ht : Reads (powerTail constants (.binary none .pow a b) mid) e rest) :
    Reads (powerTail constants a (l :: ts)) e rest := by
  obtain ⟨_, h⟩ := h
  obtain ⟨_, ht⟩ := ht
  rw [powerTail, if_pos (isSymbol_iff.2 hl)]
  simp only [bind, Except.bind, h, ht]
  exact ⟨_, rfl⟩

theorem reads_factor_plus (hl : l.token = .symbol .plus) (h : Reads (factor constants ts) a rest) :
    Reads (factor constants (l :: ts)) (.plus none a) rest := by
  obtain ⟨_, h⟩ := h
  rw [factor]
  simp only [hl, bind, Except.bind, h]
  exact ⟨_, rfl⟩

theorem reads_factor_minus (hl : l.token = .symbol .minus) (h : Reads (factor constants ts) a rest) :
    Reads (factor constants (l :: ts)) (.neg none a) rest := by
  obtain ⟨_, h⟩ := h
  rw [factor]
  simp only [hl, bind, Except.bind, h]
  exact ⟨_, rfl⟩

theorem reads_factor_group (hl : l.token = .symbol .opening) (hs : splitClosing 0 ts = some (mid, rest))
    (h : Reads (expr constants mid) a []) : Reads (factor constants (l :: ts)) a rest := by
  obtain ⟨_, h⟩ := h
  rw [factor]
  simp only [hl]
  split
  · next hnone =>
    rw [hs] at hnone
    cases hnone
  · next inside after hs' =>
    rw [hs] at hs'
    cases hs'
    simp only [bind, Except.bind, h]
    exact ⟨_, rfl⟩

theorem reads_arguments {args : List (Expr R)} (hl : l.token = .symbol .opening)
    (hs : splitClosing 0 ts = some (mid, rest)) (h : argumentList constants mid = .ok args) :
    Reads (arguments constants (l :: ts)) args rest := by
  rw [arguments]
  simp only [if_pos (isSymbol_iff.2 hl)]
  split
  · next hnone =>
    rw [hs] at hnone
    cases hnone
  · next inside after hs' =>
    rw [hs] at hs'
    cases hs'
    simp only [bind, Except.bind, h]
    exact ⟨_, rfl⟩

theorem reads_factor_call {name : String} {args : List (Expr R)} (hl : l.token = .name name)
    (hname : isCallable name = true) (h : Reads (arguments constants ts) args rest) (hcall : call name args = .ok e) :
    Reads (factor constants (l :: ts)) e rest := by
  obtain ⟨_, h⟩ := h
  rw [factor]
  simp only [hl, if_pos hname, bind, Except.bind, h, hcall]
  exact ⟨_, rfl⟩

end Steps

theorem argumentList_eq_ok {parts : List (List (Token R) × Expr R)}
    (h : ∀ p ∈ parts, p.1 ≠ [] ∧ ∀ ts : Lexemes R, tokens ts = p.1 → ∀ rest, Quiet Symbol.isArithmetic rest →
      Reads (expr constants (ts ++ rest)) p.2 rest) {ts : Lexemes R} (hts : tokens ts = separated (parts.map (·.1))) :
    argumentList constants ts = .ok (parts.map (·.2)) := by
  induction parts generalizing ts with
  | nil =>
    obtain rfl := tokens_eq_nil.1 hts
    rw [argumentList]
    rfl
  | cons p parts ih =>
    obtain ⟨⟨hne, hp⟩, hparts⟩ := List.forall_mem_cons.1 h
    have hempty {ts : Lexemes R} (h : tokens ts ≠ []) : ¬ ts.isEmpty = true := by simpa using h
    cases parts with
    | nil =>
      rw [List.map_singleton, separated_singleton] at hts
      have hread := hp ts hts [] quiet_nil
      rw [List.append_nil] at hread
      obtain ⟨_, hread⟩ := hread
      rw [argumentList, if_neg (hempty (hts ▸ hne)), hread]
      rfl
    | cons q parts =>
      rw [List.map_cons, List.map_cons, separated_cons_cons, ← List.map_cons] at hts
      obtain ⟨ts₁, _, rfl, h₁, h₂⟩ := tokens_eq_append.1 hts
      obtain ⟨l, ts₂, rfl, hl, h₂⟩ := tokens_eq_cons.1 h₂
      obtain ⟨_, hread⟩ := hp ts₁ h₁ (l :: ts₂) (quiet_cons hl rfl)
      have hne₂ : tokens ts₂ ≠ [] := by
        obtain ⟨⟨hq, -⟩, -⟩ := List.forall_mem_cons.1 hparts
        rw [h₂]
        cases parts <;> simp [hq]
      rw [argumentList, if_neg (hempty (by simp)), hread]
      simp only [bind, Except.bind, if_pos (isSymbol_iff.2 hl), if_neg (hempty hne₂), ih hparts h₂]
      rfl

/-- In front of what does not bind, an expression of a level is read and reading goes on behind it. -/
def ReadsAt (constants : Constants R) : Level → Lexemes R → Expr R → Prop
  | .sum, ts, e => ∀ rest, Quiet (binds .sum) rest → ∀ e' rest', Reads (sumTail constants e rest) e' rest' →
      Reads (expr constants (ts ++ rest)) e' rest'
  | .product, ts, e => ∀ rest, Quiet (binds .product) rest → ∀ e' rest',
      Reads (productTail constants e rest) e' rest' → Reads (product constants (ts ++ rest)) e' rest'
  | .power, ts, e => ∀ rest e' rest', Reads (powerTail constants e rest) e' rest' →
      Reads (power constants (ts ++ rest)) e' rest'
  | .factor, ts, e => ∀ rest, Reads (factor constants (ts ++ rest)) e rest

section ReadsAt

variable {ts : Lexemes R}

theorem ReadsAt.expr (h : ReadsAt constants .sum ts e) {rest : Lexemes R} (hrest : Quiet Symbol.isArithmetic rest) :
    Reads (expr constants (ts ++ rest)) e rest :=
  h rest (hrest.mono fun s => by cases s <;> simp [binds, Symbol.isArithmetic]) e rest
    (reads_sumTail_of_quiet (hrest.mono fun s => by cases s <;> simp [Symbol.isArithmetic]))

theorem ReadsAt.product (h : ReadsAt constants .product ts e) {rest : Lexemes R} (hrest : Quiet (binds .sum) rest) :
    Reads (product constants (ts ++ rest)) e rest :=
  h rest (hrest.mono fun s => by cases s <;> simp [binds]) e rest
    (reads_productTail_of_quiet (hrest.mono fun s => by cases s <;> simp [binds]))

theorem ReadsAt.power (h : ReadsAt constants .power ts e) {rest : Lexemes R} (hrest : Quiet (binds .product) rest) :
    Reads (power constants (ts ++ rest)) e rest := h rest e rest (reads_powerTail_of_quiet hrest)

end ReadsAt

theorem readsAt_of_derivesExpr (h : DerivesExpr constants level us e) {ts : Lexemes R} (hts : tokens ts = us) :
    ReadsAt constants level ts e := by
  induction h generalizing ts with
  | sum _ ih =>
    intro rest hrest e' rest' htail
    exact reads_expr ((ih hts).product hrest) htail
  | addition hs _ _ iha ihb =>
    obtain ⟨ts₁, _, rfl, h₁, h₂⟩ := tokens_eq_append.1 hts
    obtain ⟨l, ts₂, rfl, hl, h₂⟩ := tokens_eq_cons.1 h₂
    intro rest hrest e' rest' htail
    rw [List.append_assoc]
    refine iha h₁ (l :: (ts₂ ++ rest)) (quiet_cons hl (by cases hs <;> rfl)) e' rest' ?_
    exact reads_sumTail hl hs ((ihb h₂).product hrest) htail
  | product _ ih =>
    intro rest hrest e' rest' htail
    exact reads_product ((ih hts).power hrest) htail
  | multiplication hs _ _ iha ihb =>
    obtain ⟨ts₁, _, rfl, h₁, h₂⟩ := tokens_eq_append.1 hts
    obtain ⟨l, ts₂, rfl, hl, h₂⟩ := tokens_eq_cons.1 h₂
    intro rest hrest e' rest' htail
    rw [List.append_assoc]
    refine iha h₁ (l :: (ts₂ ++ rest)) (quiet_cons hl (by cases hs <;> rfl)) e' rest' ?_
    exact reads_productTail hl hs ((ihb h₂).power hrest) htail
  | power _ ih =>
    intro rest e' rest' htail
    exact reads_power (ih hts rest) htail
  | exponentiation _ _ iha ihb =>
    obtain ⟨ts₁, _, rfl, h₁, h₂⟩ := tokens_eq_append.1 hts
    obtain ⟨l, ts₂, rfl, hl, h₂⟩ := tokens_eq_cons.1 h₂
    intro rest e' rest' htail
    rw [List.append_assoc]
    exact iha h₁ (l :: (ts₂ ++ rest)) e' rest' (reads_powerTail hl (ihb h₂ rest) htail)
  | plus _ ih =>
    obtain ⟨l, ts, rfl, hl, h⟩ := tokens_eq_cons.1 hts
    exact fun rest => reads_factor_plus hl (ih h rest)
  | minus _ ih =>
    obtain ⟨l, ts, rfl, hl, h⟩ := tokens_eq_cons.1 hts
    exact fun rest => reads_factor_minus hl (ih h rest)
  | group hd ih =>
    obtain ⟨_, _, rfl, h, hend⟩ := tokens_eq_append.1 hts
    obtain ⟨l, ts, rfl, hl, h⟩ := tokens_eq_cons.1 h
    obtain ⟨m, _, rfl, hm, hnil⟩ := tokens_eq_cons.1 hend
    obtain rfl := tokens_eq_nil.1 hnil
    intro rest
    have hread := (ih h).expr quiet_nil
    rw [List.append_nil] at hread
    rw [List.append_assoc]
    exact reads_factor_group hl ((balanced_of_derivesExpr hd).splitClosing h hm rest) hread
  | number v =>
    obtain ⟨l, _, rfl, hl, hnil⟩ := tokens_eq_cons.1 hts
    obtain rfl := tokens_eq_nil.1 hnil
    intro rest
    rw [List.singleton_append, factor]
    simp only [hl]
    exact ⟨_, rfl⟩
  | constant hspot hf hv =>
    obtain ⟨l, _, rfl, hl, hnil⟩ := tokens_eq_cons.1 hts
    obtain rfl := tokens_eq_nil.1 hnil
    intro rest
    rw [List.singleton_append, factor]
    simp only [hl, isCallable_eq_false.2 ⟨hspot, hf⟩, hv]
    exact ⟨_, rfl⟩
  | «variable» hname =>
    obtain ⟨l, _, rfl, hl, hnil⟩ := tokens_eq_cons.1 hts
    obtain rfl := tokens_eq_nil.1 hnil
    intro rest
    rw [List.singleton_append, factor]
    simp only [hl, isCallable_eq_false.2 ⟨hname.not_spot, hname.not_function⟩, hname.not_constant]
    exact ⟨_, rfl⟩
  | spot =>
    obtain ⟨l, _, rfl, hl, h⟩ := tokens_eq_cons.1 hts
    obtain ⟨m, _, rfl, hm, h⟩ := tokens_eq_cons.1 h
    obtain ⟨n, _, rfl, hn, hnil⟩ := tokens_eq_cons.1 h
    obtain rfl := tokens_eq_nil.1 hnil
    intro rest
    have hargs : argumentList constants [] = .ok [] := by rw [argumentList]; rfl
    have hs : splitClosing 0 (n :: rest) = some ([], rest) := balanced_nil.splitClosing tokens_nil hn rest
    exact reads_factor_call hl rfl (reads_arguments hm hs hargs) rfl
  | @call name f args hf hmin hmax hd ih =>
    obtain ⟨_, _, rfl, h, hend⟩ := tokens_eq_append.1 hts
    obtain ⟨l, _, rfl, hl, h⟩ := tokens_eq_cons.1 h
    obtain ⟨m, ts, rfl, hm, h⟩ := tokens_eq_cons.1 h
    obtain ⟨n, _, rfl, hn, hnil⟩ := tokens_eq_cons.1 hend
    obtain rfl := tokens_eq_nil.1 hnil
    intro rest
    have hargs : argumentList constants ts = .ok (args.map (·.2)) :=
      argumentList_eq_ok (fun p hp => ⟨ne_nil_of_derivesExpr (hd p hp), fun ts hts _ hrest => (ih p hp hts).expr hrest⟩) h
    have hbalanced : Balanced (separated (args.map (·.1))) := by
      refine balanced_separated fun us hus => ?_
      obtain ⟨a, ha, rfl⟩ := List.mem_map.1 hus
      exact balanced_of_derivesExpr (hd a ha)
    have hcallable : isCallable name = true := by simp [isCallable, hf]
    have hcall : call name (args.map (·.2)) = .ok (.call none f (args.map (·.2))) := by
      simp only [call, hf, List.length_map]
      rw [if_neg (by omega)]
    rw [List.append_assoc]
    exact reads_factor_call hl hcallable (reads_arguments hm (hbalanced.splitClosing h hn rest) hargs) hcall

theorem reads_expr_of_derives (h : DerivesExpr constants .sum us e) {ts rest : Lexemes R} (hts : tokens ts = us)
    (hrest : Quiet Symbol.isArithmetic rest) : Reads (expr constants (ts ++ rest)) e rest :=
  (readsAt_of_derivesExpr h hts).expr hrest

end Expressions

end PayoffPricing.Script.Parser
