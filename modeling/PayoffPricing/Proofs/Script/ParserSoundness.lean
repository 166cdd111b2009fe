import PayoffPricing.Proofs.Except
import PayoffPricing.Proofs.Script.Grammar
/-!
What the parser accepts derives from the grammar: each phrase that is read takes tokens from the front that
derive its tree.
-/

namespace PayoffPricing.Script

variable {R : Type}

namespace Grammar

/-- The tokens of lexemes. -/
def tokens (ts : Lexemes R) : List (Token R) := ts.map (·.token)

@[simp]
theorem tokens_nil : tokens ([] : Lexemes R) = [] := rfl

@[simp]
theorem tokens_cons (l : Lexeme R) (ts : Lexemes R) : tokens (l :: ts) = l.token :: tokens ts := rfl

@[simp]
theorem tokens_eq_nil {ts : Lexemes R} : tokens ts = [] ↔ ts = [] := List.map_eq_nil_iff

theorem exists_lexemes (us : List (Token R)) : ∃ ts : Lexemes R, tokens ts = us :=
  ⟨us.map fun t => ⟨t, 0, 0⟩, by simp [tokens, Function.comp_def]⟩

@[simp]
theorem separated_singleton (us : List (Token R)) : separated [us] = us := List.append_nil us

@[simp]
theorem separated_cons_cons (us vs : List (Token R)) (parts : List (List (Token R))) :
    separated (us :: vs :: parts) = us ++ .symbol .comma :: separated (vs :: parts) := by
  simp [separated, List.intercalate]

@[simp]
theorem joined_cons (p : List (Token R) × Statement R) (parts : List (List (Token R) × Statement R)) :
    joined (p :: parts) = p.1 ++ joined parts := by
  simp [joined]

/-- Tokens that derive `a` together with those before them, up to `rest`. -/
def Takes {α : Type} (derives : List (Token R) → α → Prop) (us : List (Token R)) (ts rest : Lexemes R) (a : α) : Prop :=
  ∃ vs, tokens ts = vs ++ tokens rest ∧ derives (us ++ vs) a

section Takes

variable {α : Type} {derives : List (Token R) → α → Prop} {us vs : List (Token R)} {ts mid rest : Lexemes R} {a : α}

theorem Takes.nothing (h : derives us a) : Takes derives us ts ts a := ⟨[], rfl, (List.append_nil us).symm ▸ h⟩

theorem Takes.behind (h : Takes derives us mid rest a) (hus : tokens ts = us ++ tokens mid) :
    ∃ vs, tokens ts = vs ++ tokens rest ∧ derives vs a := by
  obtain ⟨vs, hvs, ha⟩ := h
  exact ⟨us ++ vs, by rw [hus, hvs, List.append_assoc], ha⟩

theorem Takes.sign {l : Lexeme R} {t : Token R} (hl : l.token = t) (hvs : tokens ts = vs ++ tokens mid)
    (h : Takes derives (us ++ t :: vs) mid rest a) : Takes derives us (l :: ts) rest a := by
  obtain ⟨ws, hws, ha⟩ := h
  refine ⟨t :: vs ++ ws, ?_, by simpa using ha⟩
  rw [tokens_cons, hl, hvs, hws, List.cons_append, List.cons_append, List.append_assoc]

end Takes

end Grammar

namespace Parser

open Grammar

section Lexemes

variable {l : Lexeme R}

theorem isSymbol_iff {s : Symbol} : isSymbol s l = true ↔ l.token = .symbol s := by
  unfold isSymbol
  split
  · next t ht => rw [ht, beq_iff_eq, Token.symbol.injEq, eq_comm]
  · next h => exact iff_of_false (by simp) (h s)

theorem isKeyword_iff {k : Keyword} : isKeyword k l = true ↔ l.token = .keyword k := by
  unfold isKeyword
  split
  · next t ht => rw [ht, beq_iff_eq, Token.keyword.injEq, eq_comm]
  · next h => exact iff_of_false (by simp) (h k)

theorem sumOperator?_eq_some {op : Operator} :
    sumOperator? l = some op ↔ ∃ s, l.token = .symbol s ∧ SumSign s op := by
  unfold sumOperator?
  constructor
  · intro h
    split_ifs at h with hp hm
    · cases h
      exact ⟨.plus, isSymbol_iff.1 hp, .plus⟩
    · cases h
      exact ⟨.minus, isSymbol_iff.1 hm, .minus⟩
  · rintro ⟨s, hs, h⟩
    cases h <;> simp [isSymbol, hs]

theorem productOperator?_eq_some {op : Operator} :
    productOperator? l = some op ↔ ∃ s, l.token = .symbol s ∧ ProductSign s op := by
  unfold productOperator?
  constructor
  · intro h
    split_ifs at h with hp hm
    · cases h
      exact ⟨.star, isSymbol_iff.1 hp, .star⟩
    · cases h
      exact ⟨.slash, isSymbol_iff.1 hm, .slash⟩
  · rintro ⟨s, hs, h⟩
    cases h <;> simp [isSymbol, hs]

theorem tokens_of_splitClosing {depth : Nat} {ts inside after : Lexemes R}
    (h : splitClosing depth ts = some (inside, after)) :
    tokens ts = tokens inside ++ .symbol .closing :: tokens after := by
  induction ts generalizing depth inside after with
  | nil => simp [splitClosing] at h
  | cons l rest ih =>
    have step : ∀ d, (splitClosing d rest).map (fun split => (l :: split.1, split.2)) = some (inside, after) →
        tokens (l :: rest) = tokens inside ++ .symbol .closing :: tokens after := by
      intro d hd
      obtain ⟨⟨i, a⟩, hi, he⟩ := Option.map_eq_some_iff.1 hd
      obtain ⟨rfl, rfl⟩ := Prod.mk.inj he
      exact congrArg (l.token :: ·) (ih hi)
    simp only [splitClosing] at h
    split_ifs at h with hopen hclose
    · exact step _ h
    · cases depth with
      | zero =>
        cases h
        rw [tokens_cons, isSymbol_iff.1 hclose]
        rfl
      | succ d => exact step _ h
    · exact step _ h

theorem tokens_of_group {ts inside after : Lexemes R} (hl : l.token = .symbol .opening)
    (hs : splitClosing 0 ts = some (inside, after)) :
    tokens (l :: ts) = .symbol .opening :: tokens inside ++ [.symbol .closing] ++ tokens after := by
  rw [tokens_cons, hl, tokens_of_splitClosing hs]
  simp

theorem isCallable_eq_false {name : String} :
    isCallable name = false ↔ name ≠ "SPOT" ∧ Function.ofName? name = none := by
  simp [isCallable]

end Lexemes

section Expressions

variable {constants : Constants R}

theorem derives_call {name : String} {e : Expr R} (args : List (List (Token R) × Expr R))
    (hname : isCallable name = true) (hargs : ∀ a ∈ args, DerivesExpr constants .sum a.1 a.2)
    (h : call name (args.map (·.2)) = .ok e) :
    DerivesExpr constants .factor
      (.name name :: .symbol .opening :: separated (args.map (·.1)) ++ [.symbol .closing]) e := by
  unfold call at h
  split at h
  · next f hf =>
    split_ifs at h with hcount
    rw [List.length_map, not_or, Nat.not_lt, Nat.not_lt] at hcount
    cases h
    exact .call args hf hcount.1 hcount.2 hargs
  · next hf =>
    split_ifs at h with hempty
    cases h
    obtain rfl : name = "SPOT" := by simpa [isCallable, hf] using hname
    obtain rfl : args = [] := by simpa using hempty
    exact .spot

mutual

theorem derives_expr (ts : Lexemes R) {p} (h : expr constants ts = .ok p) :
    ∃ us, tokens ts = us ++ tokens p.rest ∧ DerivesExpr constants .sum us p.value := by
  unfold expr at h
  obtain ⟨⟨first, rest, hlt⟩, hfirst, h⟩ := bind_eq_ok_iff.1 h
  obtain ⟨⟨e, rest', hlt'⟩, htail, h⟩ := bind_eq_ok_iff.1 h
  cases h
  obtain ⟨us, hus, hd⟩ := derives_product ts hfirst
  exact (derives_sumTail (.sum hd) rest htail).behind hus
termination_by (ts.length, 5)

theorem derives_sumTail {us : List (Token R)} {lhs : Expr R} (hl : DerivesExpr constants .sum us lhs) :
    (ts : Lexemes R) → ∀ {p}, sumTail constants lhs ts = .ok p →
      Takes (DerivesExpr constants .sum) us ts p.rest p.value
  | [], p, h => by
    unfold sumTail at h
    cases h
    exact .nothing hl
  | l :: ts, p, h => by
    unfold sumTail at h
    split at h
    · cases h
      exact .nothing hl
    · next op hop =>
      obtain ⟨⟨rhs, rest, hlt⟩, hrhs, h⟩ := bind_eq_ok_iff.1 h
      obtain ⟨⟨e, rest', hlt'⟩, htail, h⟩ := bind_eq_ok_iff.1 h
      cases h
      obtain ⟨s, hs, hsign⟩ := sumOperator?_eq_some.1 hop
      obtain ⟨vs, hvs, hd⟩ := derives_product ts hrhs
      exact .sign hs hvs (derives_sumTail (.addition hsign hl hd) rest htail)
termination_by ts => (ts.length, 6)

theorem derives_product (ts : Lexemes R) {p} (h : product constants ts = .ok p) :
    ∃ us, tokens ts = us ++ tokens p.rest ∧ DerivesExpr constants .product us p.value := by
  unfold product at h
  obtain ⟨⟨first, rest, hlt⟩, hfirst, h⟩ := bind_eq_ok_iff.1 h
  obtain ⟨⟨e, rest', hlt'⟩, htail, h⟩ := bind_eq_ok_iff.1 h
  cases h
  obtain ⟨us, hus, hd⟩ := derives_power ts hfirst
  exact (derives_productTail (.product hd) rest htail).behind hus
termination_by (ts.length, 4)

theorem derives_productTail {us : List (Token R)} {lhs : Expr R} (hl : DerivesExpr constants .product us lhs) :
    (ts : Lexemes R) → ∀ {p}, productTail constants lhs ts = .ok p →
      Takes (DerivesExpr constants .product) us ts p.rest p.value
  | [], p, h => by
    unfold productTail at h
    cases h
    exact .nothing hl
  | l :: ts, p, h => by
    unfold productTail at h
    split at h
    · cases h
      exact .nothing hl
    · next op hop =>
      obtain ⟨⟨rhs, rest, hlt⟩, hrhs, h⟩ := bind_eq_ok_iff.1 h
      obtain ⟨⟨e, rest', hlt'⟩, htail, h⟩ := bind_eq_ok_iff.1 h
      cases h
      obtain ⟨s, hs, hsign⟩ := productOperator?_eq_some.1 hop
      obtain ⟨vs, hvs, hd⟩ := derives_power ts hrhs
      exact .sign hs hvs (derives_productTail (.multiplication hsign hl hd) rest htail)
termination_by ts => (ts.length, 5)

theorem derives_power (ts : Lexemes R) {p} (h : power constants ts = .ok p) :
    ∃ us, tokens ts = us ++ tokens p.rest ∧ DerivesExpr constants .power us p.value := by
  unfold power at h
  obtain ⟨⟨first, rest, hlt⟩, hfirst, h⟩ := bind_eq_ok_iff.1 h
  obtain ⟨⟨e, rest', hlt'⟩, htail, h⟩ := bind_eq_ok_iff.1 h
  cases h
  obtain ⟨us, hus, hd⟩ := derives_factor ts hfirst
  exact (derives_powerTail (.power hd) rest htail).behind hus
termination_by (ts.length, 3)

theorem derives_powerTail {us : List (Token R)} {lhs : Expr R} (hl : DerivesExpr constants .power us lhs) :
    (ts : Lexemes R) → ∀ {p}, powerTail constants lhs ts = .ok p →
      Takes (DerivesExpr constants .power) us ts p.rest p.value
  | [], p, h => by
    unfold powerTail at h
    cases h
    exact .nothing hl
  | l :: ts, p, h => by
    unfold powerTail at h
    split_ifs at h with hcaret
    · obtain ⟨⟨rhs, rest, hlt⟩, hrhs, h⟩ := bind_eq_ok_iff.1 h
      obtain ⟨⟨e, rest', hlt'⟩, htail, h⟩ := bind_eq_ok_iff.1 h
      cases h
      obtain ⟨vs, hvs, hd⟩ := derives_factor ts hrhs
      exact .sign (isSymbol_iff.1 hcaret) hvs (derives_powerTail (.exponentiation hl hd) rest htail)
    · cases h
      exact .nothing hl
termination_by ts => (ts.length, 4)

theorem derives_factor : (ts : Lexemes R) → ∀ {p}, factor constants ts = .ok p →
    ∃ us, tokens ts = us ++ tokens p.rest ∧ DerivesExpr constants .factor us p.value
  | [], p, h => by
    unfold factor at h
    cases h
  | l :: ts, p, h => by
    unfold factor at h
    simp only at h
    split at h
    · next hl =>
      obtain ⟨⟨e, rest, hlt⟩, he, h⟩ := bind_eq_ok_iff.1 h
      cases h
      obtain ⟨us, hus, hd⟩ := derives_factor ts he
      exact ⟨_, by simp only [tokens_cons, hl, hus, List.cons_append], .plus hd⟩
    · next hl =>
      obtain ⟨⟨e, rest, hlt⟩, he, h⟩ := bind_eq_ok_iff.1 h
      cases h
      obtain ⟨us, hus, hd⟩ := derives_factor ts he
      exact ⟨_, by simp only [tokens_cons, hl, hus, List.cons_append], .minus hd⟩
    · next hl =>
      split at h
      · cases h
      · next inside after hs =>
        have := length_splitClosing hs
        obtain ⟨⟨e, rest, hlt⟩, he, h⟩ := bind_eq_ok_iff.1 h
        simp only at h
        split_ifs at h with hempty
        · cases h
          obtain ⟨us, hus, hd⟩ := derives_expr inside he
          obtain rfl : rest = [] := List.isEmpty_iff.1 hempty
          refine ⟨_, ?_, .group hd⟩
          simp only [tokens_nil, List.append_nil] at hus
          rw [tokens_of_group hl hs, hus]
        · cases h
    · next hl =>
      cases h
      exact ⟨_, by simp only [tokens_cons, hl, List.singleton_append], .number _⟩
    · next name hl =>
      split_ifs at h with hcallable
      · obtain ⟨⟨args, rest, hlt⟩, hargs, h⟩ := bind_eq_ok_iff.1 h
        obtain ⟨e, he, h⟩ := bind_eq_ok_iff.1 h
        cases h
        obtain ⟨parts, hparts, rfl, hd⟩ := derives_arguments ts hargs
        refine ⟨_, ?_, derives_call parts hcallable hd he⟩
        rw [tokens_cons, hl, hparts]
        rfl
      · obtain ⟨hspot, hf⟩ := isCallable_eq_false.1 (Bool.eq_false_iff.2 hcallable)
        split at h
        · next v hv =>
          cases h
          exact ⟨_, by simp only [tokens_cons, hl, List.singleton_append], .constant hspot hf hv⟩
        · next hv =>
          cases h
          exact ⟨_, by simp only [tokens_cons, hl, List.singleton_append], .variable ⟨hspot, hf, hv⟩⟩
    · cases h
termination_by ts => (ts.length, 2)

theorem derives_arguments : (ts : Lexemes R) → ∀ {p}, arguments constants ts = .ok p →
    ∃ parts : List (List (Token R) × Expr R),
      tokens ts = .symbol .opening :: separated (parts.map (·.1)) ++ [.symbol .closing] ++ tokens p.rest ∧
        p.value = parts.map (·.2) ∧ ∀ a ∈ parts, DerivesExpr constants .sum a.1 a.2
  | [], p, h => by
    unfold arguments at h
    cases h
  | l :: ts, p, h => by
    unfold arguments at h
    simp only at h
    split_ifs at h with hopen
    · split at h
      · cases h
      · next inside after hs =>
        have := length_splitClosing hs
        obtain ⟨args, hargs, h⟩ := bind_eq_ok_iff.1 h
        cases h
        obtain ⟨parts, hparts, rfl, hd⟩ := derives_argumentList inside hargs
        exact ⟨parts, by rw [tokens_of_group (isSymbol_iff.1 hopen) hs, hparts], rfl, hd⟩
    · cases h
termination_by ts => (ts.length, 7)

theorem derives_argumentList (ts : Lexemes R) {es : List (Expr R)} (h : argumentList constants ts = .ok es) :
    ∃ parts : List (List (Token R) × Expr R), tokens ts = separated (parts.map (·.1)) ∧
      es = parts.map (·.2) ∧ ∀ a ∈ parts, DerivesExpr constants .sum a.1 a.2 := by
  unfold argumentList at h
  split_ifs at h with hempty
  · cases h
    exact ⟨[], by rw [List.isEmpty_iff.1 hempty]; rfl, rfl, by simp⟩
  · obtain ⟨⟨e, rest, hlt⟩, he, h⟩ := bind_eq_ok_iff.1 h
    obtain ⟨us, hus, hd⟩ := derives_expr ts he
    match rest, hlt with
    | [], _ =>
      cases h
      exact ⟨[(us, e)], by simpa using hus, rfl, by simpa using hd⟩
    | l :: rest, hlt =>
      simp only at h
      split_ifs at h with hcomma hend
      · cases h
      · have : rest.length < ts.length := by grind
        obtain ⟨more, hmore, h⟩ := bind_eq_ok_iff.1 h
        cases h
        obtain ⟨parts, hparts, rfl, hall⟩ := derives_argumentList rest hmore
        cases parts with
        | nil => exact absurd (tokens_eq_nil.1 hparts) (by simpa using hend)
        | cons a parts =>
          refine ⟨(us, e) :: a :: parts, ?_, rfl, List.forall_mem_cons.2 ⟨hd, hall⟩⟩
          simp only [tokens_cons] at hus
          rw [hus, isSymbol_iff.1 hcomma, hparts]
          simp only [List.map_cons, separated_cons_cons]
      · cases h
termination_by (ts.length, 6)

end

end Expressions

theorem derives_tolerances : (ts : Lexemes R) → ∀ {last us p}, DerivesTolerance us last →
    tolerances last ts = .ok p → Takes DerivesTolerance us ts p.rest p.value
  | [], last, us, p, hl, h => by
    unfold tolerances at h
    cases h
    exact .nothing hl
  | [l], last, us, p, hl, h => by
    unfold tolerances at h
    split_ifs at h
    · cases h
    · cases h
      exact .nothing hl
  | l :: m :: ts, last, us, p, hl, h => by
    unfold tolerances at h
    simp only at h
    split_ifs at h with hsign
    · split at h
      · next v hv =>
        obtain ⟨⟨t, rest, hlt⟩, ht, h⟩ := bind_eq_ok_iff.1 h
        cases h
        obtain ⟨s, hs, hs'⟩ : ∃ s, l.token = .symbol s ∧ (s = .semicolon ∨ s = .colon) := by
          rw [Bool.or_eq_true, isSymbol_iff, isSymbol_iff] at hsign
          exact hsign.elim (fun h => ⟨_, h, .inl rfl⟩) fun h => ⟨_, h, .inr rfl⟩
        exact .sign hs (by rw [tokens_cons, hv]; rfl) (derives_tolerances ts (.another hl hs' v) ht)
      · cases h
    · cases h
      exact .nothing hl

section Conditions

variable [Scalar R] {constants : Constants R}

theorem compares_of_comparison {s : Symbol} {a b : Expr R} {tolerance : Option R} {c : Cond R}
    (h : comparison s a b tolerance = some c) : Compares a b tolerance s c := by
  unfold comparison at h
  split at h <;> cases h <;> constructor

theorem derives_elementary (ts : Lexemes R) {p} (h : elementary constants ts = .ok p) :
    ∃ us, tokens ts = us ++ tokens p.rest ∧ DerivesCond constants .atom us p.value := by
  unfold elementary at h
  obtain ⟨⟨lhs, rest, hlt⟩, hlhs, h⟩ := bind_eq_ok_iff.1 h
  match rest, hlt with
  | [], _ => cases h
  | l :: rest, hlt =>
    simp only at h
    split at h
    · next s hs =>
      split_ifs at h
      · obtain ⟨⟨rhs, rest', hlt'⟩, hrhs, h⟩ := bind_eq_ok_iff.1 h
        obtain ⟨⟨tolerance, rest'', hlt''⟩, ht, h⟩ := bind_eq_ok_iff.1 h
        simp only at h
        split at h
        · next c hc =>
          cases h
          obtain ⟨us, hus, ha⟩ := derives_expr ts hlhs
          obtain ⟨vs, hvs, hb⟩ := derives_expr rest hrhs
          obtain ⟨ws, hws, hd⟩ := derives_tolerances rest' .none ht
          refine ⟨_, ?_, .comparison ha hb hd (compares_of_comparison hc)⟩
          simp only [tokens_cons, List.cons_append, List.append_assoc, List.nil_append] at hus hvs hws ⊢
          rw [hus, hs, hvs, hws]
        · cases h
      · cases h
    · cases h

mutual

theorem derives_cond (ts : Lexemes R) {p} (h : cond constants ts = .ok p) :
    ∃ us, tokens ts = us ++ tokens p.rest ∧ DerivesCond constants .disjunction us p.value := by
  unfold cond at h
  obtain ⟨⟨first, rest, hlt⟩, hfirst, h⟩ := bind_eq_ok_iff.1 h
  obtain ⟨⟨c, rest', hlt'⟩, htail, h⟩ := bind_eq_ok_iff.1 h
  cases h
  obtain ⟨us, hus, hd⟩ := derives_conjunction ts hfirst
  exact (derives_orTail (.disjunction hd) rest htail).behind hus
termination_by (ts.length, 3)

theorem derives_orTail {us : List (Token R)} {lhs : Cond R} (hl : DerivesCond constants .disjunction us lhs) :
    (ts : Lexemes R) → ∀ {p}, orTail constants lhs ts = .ok p →
      Takes (DerivesCond constants .disjunction) us ts p.rest p.value
  | [], p, h => by
    unfold orTail at h
    cases h
    exact .nothing hl
  | l :: ts, p, h => by
    unfold orTail at h
    split_ifs at h with hor
    · obtain ⟨⟨rhs, rest, hlt⟩, hrhs, h⟩ := bind_eq_ok_iff.1 h
      obtain ⟨⟨c, rest', hlt'⟩, htail, h⟩ := bind_eq_ok_iff.1 h
      cases h
      obtain ⟨vs, hvs, hd⟩ := derives_conjunction ts hrhs
      exact .sign (isKeyword_iff.1 hor) hvs (derives_orTail (.or hl hd) rest htail)
    · cases h
      exact .nothing hl
termination_by ts => (ts.length, 4)

theorem derives_conjunction (ts : Lexemes R) {p} (h : conjunction constants ts = .ok p) :
    ∃ us, tokens ts = us ++ tokens p.rest ∧ DerivesCond constants .conjunction us p.value := by
  unfold conjunction at h
  obtain ⟨⟨first, rest, hlt⟩, hfirst, h⟩ := bind_eq_ok_iff.1 h
  obtain ⟨⟨c, rest', hlt'⟩, htail, h⟩ := bind_eq_ok_iff.1 h
  cases h
  obtain ⟨us, hus, hd⟩ := derives_atom ts hfirst
  exact (derives_andTail (.conjunction hd) rest htail).behind hus
termination_by (ts.length, 2)

theorem derives_andTail {us : List (Token R)} {lhs : Cond R} (hl : DerivesCond constants .conjunction us lhs) :
    (ts : Lexemes R) → ∀ {p}, andTail constants lhs ts = .ok p →
      Takes (DerivesCond constants .conjunction) us ts p.rest p.value
  | [], p, h => by
    unfold andTail at h
    cases h
    exact .nothing hl
  | l :: ts, p, h => by
    unfold andTail at h
    split_ifs at h with hand
    · obtain ⟨⟨rhs, rest, hlt⟩, hrhs, h⟩ := bind_eq_ok_iff.1 h
      obtain ⟨⟨c, rest', hlt'⟩, htail, h⟩ := bind_eq_ok_iff.1 h
      cases h
      obtain ⟨vs, hvs, hd⟩ := derives_atom ts hrhs
      exact .sign (isKeyword_iff.1 hand) hvs (derives_andTail (.and hl hd) rest htail)
    · cases h
      exact .nothing hl
termination_by ts => (ts.length, 3)

theorem derives_atom : (ts : Lexemes R) → ∀ {p}, atom constants ts = .ok p →
    ∃ us, tokens ts = us ++ tokens p.rest ∧ DerivesCond constants .atom us p.value
  | [], p, h => by
    unfold atom at h
    exact derives_elementary [] h
  | l :: ts, p, h => by
    unfold atom at h
    simp only at h
    split_ifs at h with hopen
    · split at h
      · cases h
      · next inside after hs =>
        split_ifs at h
        · exact derives_elementary _ h
        · have := length_splitClosing hs
          obtain ⟨⟨c, rest, hlt⟩, hc, h⟩ := bind_eq_ok_iff.1 h
          simp only at h
          split_ifs at h with hempty
          · cases h
            obtain ⟨us, hus, hd⟩ := derives_cond inside hc
            obtain rfl : rest = [] := List.isEmpty_iff.1 hempty
            refine ⟨_, ?_, .group hd⟩
            simp only [tokens_nil, List.append_nil] at hus
            rw [tokens_of_group (isSymbol_iff.1 hopen) hs, hus]
          · cases h
    · exact derives_elementary _ h
termination_by ts => (ts.length, 1)

end

end Conditions

section Statements

variable [Scalar R] {constants : Constants R}

omit [Scalar R] in
theorem target_eq_ok {name : String} {ts : Lexemes R} {v : Variable} :
    target constants name ts = .ok v ↔ IsVariable constants name ∧ v = .ofName name := by
  unfold target
  constructor
  · intro h
    split_ifs at h with hcallable hconstant
    · cases h
    · cases h
    · obtain ⟨hspot, hf⟩ := isCallable_eq_false.1 (Bool.eq_false_iff.2 hcallable)
      cases h
      exact ⟨⟨hspot, hf, Option.not_isSome_iff_eq_none.1 hconstant⟩, rfl⟩
  · rintro ⟨hname, rfl⟩
    simp [isCallable_eq_false.2 ⟨hname.not_spot, hname.not_function⟩, hname.not_constant]

omit [Scalar R] in
theorem exists_closing {closes : Keyword → Bool} {l : Lexeme R} (h : ¬ goesOn closes l = true) :
    ∃ k, l.token = .keyword k ∧ closes k = true := by
  unfold goesOn at h
  split at h
  · next k hk => exact ⟨k, hk, by simpa using h⟩
  · exact absurd rfl h

theorem isEnd_iff {k : Keyword} : k.isEnd = true ↔ k = .endWord ∨ k = .endifWord := by
  cases k <;> simp [Keyword.isEnd]

/-- The word behind a body ends it. -/
def EndsBody (closes : Keyword → Bool) (rest : Lexemes R) : Prop :=
  ∀ l more, rest = l :: more → ∃ k, l.token = .keyword k ∧ closes k = true

mutual

theorem derives_statement : (ts : Lexemes R) → ∀ {p}, statement constants ts = .ok p →
    ∃ us, tokens ts = us ++ tokens p.rest ∧ DerivesStatement constants us p.value
  | [], p, h => by
    unfold statement at h
    cases h
  | l :: ts, p, h => by
    unfold statement at h
    simp only at h
    split at h
    · next hl =>
      split_ifs at h
      · cases h
      obtain ⟨⟨c, rest, hlt⟩, hc, h⟩ := bind_eq_ok_iff.1 h
      obtain ⟨us, hus, hcond⟩ := derives_cond ts hc
      match rest, hlt with
      | [], _ => cases h
      | m :: rest, hlt =>
        have : rest.length < ts.length := by grind
        simp only at h
        split_ifs at h with hthen
        · obtain ⟨⟨body, rest', hlt'⟩, hbody, h⟩ := bind_eq_ok_iff.1 h
          obtain ⟨parts, hparts, rfl, hall, hend⟩ := derives_block closesBody rest hbody
          match rest', hlt' with
          | [], _ => cases h
          | n :: rest', hlt' =>
            have : rest'.length < ts.length := by grind
            simp only at h
            split_ifs at h with helse
            · obtain ⟨⟨otherwise, rest'', hlt''⟩, hother, h⟩ := bind_eq_ok_iff.1 h
              obtain ⟨others, hothers, rfl, hall', hend'⟩ := derives_block Keyword.isEnd rest' hother
              match rest'', hlt'' with
              | [], _ => cases h
              | o :: rest'', hlt'' =>
                cases h
                obtain ⟨k, hk, hclose⟩ := hend' o rest'' rfl
                refine ⟨_, ?_, .branchElse parts others hcond hall hall' (isEnd_iff.1 hclose)⟩
                simp only [tokens_cons, List.cons_append, List.append_assoc, List.nil_append]
                  at hus hparts hothers ⊢
                rw [hl, hus, isKeyword_iff.1 hthen, hparts, isKeyword_iff.1 helse, hothers, hk]
            · cases h
              obtain ⟨k, hk, hclose⟩ := hend n rest' rfl
              have hk' : k = .endWord ∨ k = .endifWord := by
                rw [closesBody, Bool.or_eq_true, beq_iff_eq, isEnd_iff] at hclose
                exact hclose.resolve_left fun h => helse (isKeyword_iff.2 (h ▸ hk))
              refine ⟨_, ?_, .branch parts hcond hall hk'⟩
              simp only [tokens_cons, List.cons_append, List.append_assoc, List.nil_append]
                at hus hparts ⊢
              rw [hl, hus, isKeyword_iff.1 hthen, hparts, hk]
        · cases h
    · next name hl =>
      obtain ⟨v, hv, h⟩ := bind_eq_ok_iff.1 h
      obtain ⟨hname, rfl⟩ := target_eq_ok.1 hv
      split at h
      · cases h
      · next m rest =>
        split_ifs at h with hequal hpays
        · obtain ⟨⟨e, rest', hlt⟩, he, h⟩ := bind_eq_ok_iff.1 h
          cases h
          obtain ⟨us, hus, hd⟩ := derives_expr _ he
          refine ⟨_, ?_, .assign hname hd⟩
          simp only [tokens_cons, List.cons_append] at hus ⊢
          rw [hl, isSymbol_iff.1 hequal, hus]
        · obtain ⟨⟨e, rest', hlt⟩, he, h⟩ := bind_eq_ok_iff.1 h
          cases h
          obtain ⟨us, hus, hd⟩ := derives_expr _ he
          refine ⟨_, ?_, .pays hname hd⟩
          simp only [tokens_cons, List.cons_append] at hus ⊢
          rw [hl, isKeyword_iff.1 hpays, hus]
        · cases h
    · cases h
termination_by ts => (ts.length, 0)

theorem derives_block (closes : Keyword → Bool) : (ts : Lexemes R) → ∀ {p}, block constants closes ts = .ok p →
    ∃ parts : List (List (Token R) × Statement R), tokens ts = joined parts ++ tokens p.rest ∧
      p.value = parts.map (·.2) ∧ (∀ q ∈ parts, DerivesStatement constants q.1 q.2) ∧ EndsBody closes p.rest
  | [], p, h => by
    unfold block at h
    cases h
    exact ⟨[], rfl, rfl, by simp, fun _ _ h => by cases h⟩
  | l :: ts, p, h => by
    unfold block at h
    simp only at h
    split_ifs at h with hgoes
    · obtain ⟨⟨s, rest, hlt⟩, hs, h⟩ := bind_eq_ok_iff.1 h
      obtain ⟨⟨ss, rest', hlt'⟩, hss, h⟩ := bind_eq_ok_iff.1 h
      cases h
      obtain ⟨us, hus, hd⟩ := derives_statement _ hs
      obtain ⟨parts, hparts, rfl, hall, hend⟩ := derives_block closes rest hss
      refine ⟨(us, s) :: parts, ?_, rfl, List.forall_mem_cons.2 ⟨hd, hall⟩, hend⟩
      rw [hus, hparts, joined_cons, List.append_assoc]
    · cases h
      refine ⟨[], rfl, rfl, by simp, fun _ _ h => ?_⟩
      cases h
      exact exists_closing hgoes
termination_by ts => (ts.length, 1)

end

theorem derives_event (ts : Lexemes R) {ss : List (Statement R)} (h : event constants ts = .ok ss) :
    DerivesEvent constants (tokens ts) ss := by
  unfold event at h
  split_ifs at h with hempty
  · cases h
    exact ⟨[], by rw [List.isEmpty_iff.1 hempty]; rfl, rfl, by simp⟩
  · obtain ⟨⟨s, rest, hlt⟩, hs, h⟩ := bind_eq_ok_iff.1 h
    obtain ⟨more, hmore, h⟩ := bind_eq_ok_iff.1 h
    cases h
    obtain ⟨us, hus, hd⟩ := derives_statement ts hs
    obtain ⟨parts, hparts, rfl, hall⟩ := derives_event rest hmore
    exact ⟨(us, s) :: parts, by rw [hus, hparts, joined_cons], rfl, List.forall_mem_cons.2 ⟨hd, hall⟩⟩
termination_by ts.length

theorem parseEvent_eq_ok {text : String} {i : Nat} {ss : List (Statement R)} :
    parseEvent text i constants = .ok ss ↔
      ∃ ts, Lexeme.ofText (Text.uppercase text) = .ok ts ∧ event constants ts = .ok ss := by
  unfold parseEvent
  cases hlex : Lexeme.ofText (R := R) (Text.uppercase text) with
  | error e => simp [hlex]
  | ok ts =>
    simp only [hlex]
    split <;> simp_all

end Statements

end Parser

end PayoffPricing.Script
