import PayoffPricing.Proofs.Except
import PayoffPricing.Proofs.Script.Bare
import PayoffPricing.Script.Parser
/-!
What the parser reads carries no findings of analysis.
-/

namespace PayoffPricing.Script.Parser

variable {R : Type}

theorem bare_call {name : String} {args : List (Expr R)} {e : Expr R} (ha : Expr.bareList args = args)
    (h : call name args = .ok e) : e.bare = e := by
  unfold call at h
  split at h
  · split_ifs at h
    cases h
    rw [Expr.bare, ha]
  · split_ifs at h
    cases h
    rfl

mutual

theorem bare_expr (constants : Constants R) (ts : Lexemes R) {p} (h : expr constants ts = .ok p) :
    p.value.bare = p.value := by
  unfold expr at h
  obtain ⟨⟨first, rest, hlt⟩, hfirst, h⟩ := bind_eq_ok_iff.1 h
  obtain ⟨⟨e, rest', hlt'⟩, htail, h⟩ := bind_eq_ok_iff.1 h
  cases h
  exact bare_sumTail constants (bare_product constants ts hfirst) rest htail
termination_by (ts.length, 5)

theorem bare_sumTail (constants : Constants R) {lhs : Expr R} (hl : lhs.bare = lhs) :
    (ts : Lexemes R) → ∀ {p}, sumTail constants lhs ts = .ok p → p.value.bare = p.value
  | [], p, h => by
    unfold sumTail at h
    cases h
    exact hl
  | l :: ts, p, h => by
    unfold sumTail at h
    split at h
    · cases h
      exact hl
    · next op _ =>
      obtain ⟨⟨rhs, rest, hlt⟩, hrhs, h⟩ := bind_eq_ok_iff.1 h
      obtain ⟨⟨e, rest', hlt'⟩, htail, h⟩ := bind_eq_ok_iff.1 h
      cases h
      have hr := bare_product constants ts hrhs
      exact bare_sumTail constants (by rw [Expr.bare, hl, hr]) rest htail
termination_by ts => (ts.length, 6)

theorem bare_product (constants : Constants R) (ts : Lexemes R) {p} (h : product constants ts = .ok p) :
    p.value.bare = p.value := by
  unfold product at h
  obtain ⟨⟨first, rest, hlt⟩, hfirst, h⟩ := bind_eq_ok_iff.1 h
  obtain ⟨⟨e, rest', hlt'⟩, htail, h⟩ := bind_eq_ok_iff.1 h
  cases h
  exact bare_productTail constants (bare_power constants ts hfirst) rest htail
termination_by (ts.length, 4)

theorem bare_productTail (constants : Constants R) {lhs : Expr R} (hl : lhs.bare = lhs) :
    (ts : Lexemes R) → ∀ {p}, productTail constants lhs ts = .ok p → p.value.bare = p.value
  | [], p, h => by
    unfold productTail at h
    cases h
    exact hl
  | l :: ts, p, h => by
    unfold productTail at h
    split at h
    · cases h
      exact hl
    · next op _ =>
      obtain ⟨⟨rhs, rest, hlt⟩, hrhs, h⟩ := bind_eq_ok_iff.1 h
      obtain ⟨⟨e, rest', hlt'⟩, htail, h⟩ := bind_eq_ok_iff.1 h
      cases h
      have hr := bare_power constants ts hrhs
      exact bare_productTail constants (by rw [Expr.bare, hl, hr]) rest htail
termination_by ts => (ts.length, 5)

theorem bare_power (constants : Constants R) (ts : Lexemes R) {p} (h : power constants ts = .ok p) :
    p.value.bare = p.value := by
  unfold power at h
  obtain ⟨⟨first, rest, hlt⟩, hfirst, h⟩ := bind_eq_ok_iff.1 h
  obtain ⟨⟨e, rest', hlt'⟩, htail, h⟩ := bind_eq_ok_iff.1 h
  cases h
  exact bare_powerTail constants (bare_factor constants ts hfirst) rest htail
termination_by (ts.length, 3)

theorem bare_powerTail (constants : Constants R) {lhs : Expr R} (hl : lhs.bare = lhs) :
    (ts : Lexemes R) → ∀ {p}, powerTail constants lhs ts = .ok p → p.value.bare = p.value
  | [], p, h => by
    unfold powerTail at h
    cases h
    exact hl
  | l :: ts, p, h => by
    unfold powerTail at h
    split at h
    · obtain ⟨⟨rhs, rest, hlt⟩, hrhs, h⟩ := bind_eq_ok_iff.1 h
      obtain ⟨⟨e, rest', hlt'⟩, htail, h⟩ := bind_eq_ok_iff.1 h
      cases h
      have hr := bare_factor constants ts hrhs
      exact bare_powerTail constants (by rw [Expr.bare, hl, hr]) rest htail
    · cases h
      exact hl
termination_by ts => (ts.length, 4)

theorem bare_factor (constants : Constants R) :
    (ts : Lexemes R) → ∀ {p}, factor constants ts = .ok p → p.value.bare = p.value
  | [], p, h => by
    unfold factor at h
    cases h
  | l :: ts, p, h => by
    unfold factor at h
    simp only at h
    split at h
    · obtain ⟨⟨e, rest, hlt⟩, he, h⟩ := bind_eq_ok_iff.1 h
      cases h
      exact congrArg (Expr.plus none) (bare_factor constants ts he)
    · obtain ⟨⟨e, rest, hlt⟩, he, h⟩ := bind_eq_ok_iff.1 h
      cases h
      exact congrArg (Expr.neg none) (bare_factor constants ts he)
    · split at h
      · cases h
      · next inside after hs =>
        have := length_splitClosing hs
        obtain ⟨⟨e, rest, hlt⟩, he, h⟩ := bind_eq_ok_iff.1 h
        simp only at h
        split_ifs at h
        · cases h
          exact bare_expr constants inside he
        · cases h
    · cases h
      rfl
    · split_ifs at h
      · obtain ⟨⟨args, rest, hlt⟩, hargs, h⟩ := bind_eq_ok_iff.1 h
        obtain ⟨e, he, h⟩ := bind_eq_ok_iff.1 h
        cases h
        exact bare_call (bare_arguments constants ts hargs) he
      · split at h
        · cases h
          rfl
        · cases h
          rfl
    · cases h
termination_by ts => (ts.length, 2)

theorem bare_arguments (constants : Constants R) :
    (ts : Lexemes R) → ∀ {p}, arguments constants ts = .ok p → Expr.bareList p.value = p.value
  | [], p, h => by
    unfold arguments at h
    cases h
  | l :: ts, p, h => by
    unfold arguments at h
    simp only at h
    split_ifs at h
    · split at h
      · cases h
      · next inside after hs =>
        have := length_splitClosing hs
        obtain ⟨args, hargs, h⟩ := bind_eq_ok_iff.1 h
        cases h
        exact bare_argumentList constants inside hargs
    · cases h
termination_by ts => (ts.length, 7)

theorem bare_argumentList (constants : Constants R) (ts : Lexemes R) {es : List (Expr R)}
    (h : argumentList constants ts = .ok es) : Expr.bareList es = es := by
  unfold argumentList at h
  split_ifs at h
  · cases h
    rfl
  · obtain ⟨⟨e, rest, hlt⟩, he, h⟩ := bind_eq_ok_iff.1 h
    have hbare := bare_expr constants ts he
    match rest, hlt with
    | [], _ =>
      cases h
      exact congrArg (· :: []) hbare
    | l :: rest, hlt =>
      simp only at h
      split_ifs at h
      · cases h
      · have : rest.length < ts.length := by grind
        obtain ⟨more, hmore, h⟩ := bind_eq_ok_iff.1 h
        cases h
        rw [Expr.bareList, bare_argumentList constants rest hmore]
        exact congrArg (· :: more) hbare
      · cases h
termination_by (ts.length, 6)

end

variable [Scalar R]

theorem bare_comparison {sign : Symbol} {lhs rhs : Expr R} {tolerance : Option R} {c : Cond R}
    (hl : lhs.bare = lhs) (hr : rhs.bare = rhs) (h : comparison sign lhs rhs tolerance = some c) :
    c.bare = c := by
  unfold comparison at h
  split at h <;> cases h <;>
    simp only [Cond.bare, Comparison.new, Expr.difference, Expr.bare, hl, hr]

theorem bare_elementary (constants : Constants R) (ts : Lexemes R) {p}
    (h : elementary constants ts = .ok p) : p.value.bare = p.value := by
  unfold elementary at h
  obtain ⟨⟨lhs, rest, hlt⟩, hlhs, h⟩ := bind_eq_ok_iff.1 h
  match rest, hlt with
  | [], _ => cases h
  | l :: rest, hlt =>
    simp only at h
    split at h
    · split_ifs at h
      · obtain ⟨⟨rhs, rest', hlt'⟩, hrhs, h⟩ := bind_eq_ok_iff.1 h
        obtain ⟨⟨tolerance, rest'', hlt''⟩, -, h⟩ := bind_eq_ok_iff.1 h
        simp only at h
        split at h
        · next c hc =>
          cases h
          exact bare_comparison (bare_expr constants _ hlhs) (bare_expr constants _ hrhs) hc
        · cases h
      · cases h
    · cases h

mutual

theorem bare_cond (constants : Constants R) (ts : Lexemes R) {p} (h : cond constants ts = .ok p) :
    p.value.bare = p.value := by
  unfold cond at h
  obtain ⟨⟨first, rest, hlt⟩, hfirst, h⟩ := bind_eq_ok_iff.1 h
  obtain ⟨⟨c, rest', hlt'⟩, htail, h⟩ := bind_eq_ok_iff.1 h
  cases h
  exact bare_orTail constants (bare_conjunction constants ts hfirst) rest htail
termination_by (ts.length, 3)

theorem bare_orTail (constants : Constants R) {lhs : Cond R} (hl : lhs.bare = lhs) :
    (ts : Lexemes R) → ∀ {p}, orTail constants lhs ts = .ok p → p.value.bare = p.value
  | [], p, h => by
    unfold orTail at h
    cases h
    exact hl
  | l :: ts, p, h => by
    unfold orTail at h
    split at h
    · obtain ⟨⟨rhs, rest, hlt⟩, hrhs, h⟩ := bind_eq_ok_iff.1 h
      obtain ⟨⟨c, rest', hlt'⟩, htail, h⟩ := bind_eq_ok_iff.1 h
      cases h
      have hr := bare_conjunction constants ts hrhs
      exact bare_orTail constants (by rw [Cond.bare, hl, hr]) rest htail
    · cases h
      exact hl
termination_by ts => (ts.length, 4)

theorem bare_conjunction (constants : Constants R) (ts : Lexemes R) {p}
    (h : conjunction constants ts = .ok p) : p.value.bare = p.value := by
  unfold conjunction at h
  obtain ⟨⟨first, rest, hlt⟩, hfirst, h⟩ := bind_eq_ok_iff.1 h
  obtain ⟨⟨c, rest', hlt'⟩, htail, h⟩ := bind_eq_ok_iff.1 h
  cases h
  exact bare_andTail constants (bare_atom constants ts hfirst) rest htail
termination_by (ts.length, 2)

theorem bare_andTail (constants : Constants R) {lhs : Cond R} (hl : lhs.bare = lhs) :
    (ts : Lexemes R) → ∀ {p}, andTail constants lhs ts = .ok p → p.value.bare = p.value
  | [], p, h => by
    unfold andTail at h
    cases h
    exact hl
  | l :: ts, p, h => by
    unfold andTail at h
    split at h
    · obtain ⟨⟨rhs, rest, hlt⟩, hrhs, h⟩ := bind_eq_ok_iff.1 h
      obtain ⟨⟨c, rest', hlt'⟩, htail, h⟩ := bind_eq_ok_iff.1 h
      cases h
      have hr := bare_atom constants ts hrhs
      exact bare_andTail constants (by rw [Cond.bare, hl, hr]) rest htail
    · cases h
      exact hl
termination_by ts => (ts.length, 3)

theorem bare_atom (constants : Constants R) :
    (ts : Lexemes R) → ∀ {p}, atom constants ts = .ok p → p.value.bare = p.value
  | [], p, h => by
    unfold atom at h
    exact bare_elementary constants [] h
  | l :: ts, p, h => by
    unfold atom at h
    simp only at h
    split_ifs at h
    · split at h
      · cases h
      · next inside after hs =>
        split_ifs at h
        · exact bare_elementary constants _ h
        · have := length_splitClosing hs
          obtain ⟨⟨c, rest, hlt⟩, hc, h⟩ := bind_eq_ok_iff.1 h
          simp only at h
          split_ifs at h
          · cases h
            exact bare_cond constants inside hc
          · cases h
    · exact bare_elementary constants _ h
termination_by ts => (ts.length, 1)

end

mutual

theorem bare_statement (constants : Constants R) :
    (ts : Lexemes R) → ∀ {p}, statement constants ts = .ok p → p.value.bare = p.value
  | [], p, h => by
    unfold statement at h
    cases h
  | l :: ts, p, h => by
    unfold statement at h
    simp only at h
    split at h
    · split_ifs at h
      · cases h
      obtain ⟨⟨c, rest, hlt⟩, hc, h⟩ := bind_eq_ok_iff.1 h
      have hbare := bare_cond constants ts hc
      match rest, hlt with
      | [], _ => cases h
      | m :: rest, hlt =>
        have : rest.length < ts.length := by grind
        simp only at h
        split_ifs at h
        · obtain ⟨⟨body, rest', hlt'⟩, hbody, h⟩ := bind_eq_ok_iff.1 h
          have hbareBody := bare_block constants closesBody rest hbody
          match rest', hlt' with
          | [], _ => cases h
          | n :: rest', hlt' =>
            have : rest'.length < ts.length := by grind
            simp only at h
            split_ifs at h
            · obtain ⟨⟨otherwise, rest'', hlt''⟩, hother, h⟩ := bind_eq_ok_iff.1 h
              have hbareOther := bare_block constants Keyword.isEnd rest' hother
              match rest'', hlt'' with
              | [], _ => cases h
              | _ :: rest'', hlt'' =>
                cases h
                simp only [Statement.bare] at hbare hbareBody hbareOther ⊢
                rw [hbare, hbareBody, hbareOther]
            · cases h
              simp only [Statement.bare, Statement.bareBlock] at hbare hbareBody ⊢
              rw [hbare, hbareBody]
        · cases h
    · obtain ⟨v, -, h⟩ := bind_eq_ok_iff.1 h
      split at h
      · cases h
      · split_ifs at h
        · obtain ⟨⟨e, rest', hlt⟩, he, h⟩ := bind_eq_ok_iff.1 h
          cases h
          exact congrArg (Statement.assign v) (bare_expr constants _ he)
        · obtain ⟨⟨e, rest', hlt⟩, he, h⟩ := bind_eq_ok_iff.1 h
          cases h
          exact congrArg (Statement.pays v) (bare_expr constants _ he)
        · cases h
    · cases h
termination_by ts => (ts.length, 0)

theorem bare_block (constants : Constants R) (closes : Keyword → Bool) :
    (ts : Lexemes R) → ∀ {p}, block constants closes ts = .ok p → Statement.bareBlock p.value = p.value
  | [], p, h => by
    unfold block at h
    cases h
    rfl
  | l :: ts, p, h => by
    unfold block at h
    simp only at h
    split_ifs at h
    · obtain ⟨⟨s, rest, hlt⟩, hs, h⟩ := bind_eq_ok_iff.1 h
      obtain ⟨⟨ss, rest', hlt'⟩, hss, h⟩ := bind_eq_ok_iff.1 h
      cases h
      have hbare := bare_statement constants _ hs
      have hbares := bare_block constants closes rest hss
      simp only [Statement.bareBlock] at hbare hbares ⊢
      rw [hbare, hbares]
    · cases h
      rfl
termination_by ts => (ts.length, 1)

end

theorem bare_event (constants : Constants R) (ts : Lexemes R) {ss : List (Statement R)}
    (h : event constants ts = .ok ss) : Statement.bareBlock ss = ss := by
  unfold event at h
  split_ifs at h
  · cases h
    rfl
  · obtain ⟨⟨s, rest, hlt⟩, hs, h⟩ := bind_eq_ok_iff.1 h
    obtain ⟨more, hmore, h⟩ := bind_eq_ok_iff.1 h
    cases h
    rw [Statement.bareBlock, bare_event constants rest hmore]
    exact congrArg (· :: more) (bare_statement constants ts hs)
termination_by ts.length

end PayoffPricing.Script.Parser

namespace PayoffPricing.Script

theorem bare_parseEvent {R : Type} [Scalar R] {text : String} {i : Nat} {constants : Constants R}
    {ss : List (Statement R)} (h : parseEvent text i constants = .ok ss) : Statement.bareBlock ss = ss := by
  simp only [parseEvent] at h
  split at h
  · cases h
  · split at h
    · next hs =>
      cases h
      exact Parser.bare_event constants _ hs
    all_goals cases h

end PayoffPricing.Script
