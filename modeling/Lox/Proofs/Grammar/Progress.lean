import Lox.Proofs.Grammar.Resumption

/-!
# Progress

A parser that is called again and again comes to rest (`Parser.comesToRest`).  A call
takes a token, or it finds that nothing can be taken where an expression is due, and so
will every call after it.  A tree takes a token at least, and so does an error about a
right parenthesis or the nesting.

So there are no more trees than tokens in front of the first end mark, and after as many
calls as there are such tokens all calls are the same one.

A call that takes nothing leaves the parser as it was (`Parser.parse_of_stuck`).  A call
can also be stuck behind tokens that it has taken, with an operand due or no tokens left.
Then the next call takes nothing (`Parser.stuck_after`).
-/

namespace Lox

open Pending

/-- The call had no use for the next token where an operand was due, or there was no next
token. -/
def Parse.IsStuck (q : Parse) : Prop :=
  ∃ e, q.result = .error e ∧
    (e.message = "Expect expression." ∨ e.message = "Unexpected end of input.")

/-- A token that is stuck where an operand is due is stuck at the start of an expression. -/
theorem Pending.Stuck.of_missingExpression {q : Pending} {ts : List Token}
    (hf : q.fault? = some .missingExpression) (hs : q.Stuck ts) : Stuck {} ts := by
  obtain ⟨os, due⟩ := q
  by_cases hos : nestingLimit < os.length
  · rw [fault?_of_lt hos] at hf
    cases hf
  cases due with
  | false =>
    cases os with
    | nil => cases hf
    | cons o os =>
      rw [fault?_open (Nat.not_lt.1 hos) (List.cons_ne_nil o os)] at hf
      cases hf
  | true =>
    intro t ht r hstep
    cases hstep with
    | unary _ hk => exact hs t ht _ (.unary (Nat.not_lt.1 hos) hk)
    | leftParen _ hk => exact hs t ht _ (.leftParen (Nat.not_lt.1 hos) hk)
    | literal _ hk => exact hs t ht _ (.literal (Nat.not_lt.1 hos) hk)

namespace Parser

variable {p : Parser}

/-- A call takes at least one token. -/
def Advances (p : Parser) : Prop := ∃ ts, ts ≠ [] ∧ p.rest = ts ++ p.parse.after.rest

/-- How many tokens there are in front of the first end mark, or in all if there is none. -/
def numAhead (p : Parser) : Nat := (p.rest.takeWhile fun t => !t.isEndOfFile).length

/-- What becomes of a parser that is called again and again. -/
structure ComesToRest (p : Parser) : Prop where
  /-- A tree takes a token at least. -/
  advances_of_ok : ∀ n e, (afterCalls n p).parse.result = .ok e → (afterCalls n p).Advances
  advances_or_isStuck : ∀ n, (afterCalls n p).Advances ∨ (afterCalls n p).parse.IsStuck
  /-- After a call that is stuck, every call takes nothing and gives the same error. -/
  stays : ∀ n, (afterCalls n p).parse.IsStuck → ∀ k > n,
    (afterCalls k p).parse =
      { result := (afterCalls n p).parse.result, operators := [], after := afterCalls k p }
  /-- There are no more trees than tokens. -/
  countP_le : ∀ n, (parses n p).countP (fun q => q.expr?.isSome) ≤ numAhead p
  /-- After as many calls as there are tokens, all are the same one. -/
  parse_eq : ∀ n ≥ numAhead p, (afterCalls n p).parse = (afterCalls (numAhead p) p).parse

/-! ## One call -/

/-- Where nothing can be taken, a call leaves the parser as it is. -/
theorem parse_of_stuck (hp : p.depth = 0) (h : Stuck {} p.rest) :
    p.parse =
      { result := .error (SyntaxFault.missingExpression.before p.rest.head? p.line)
        operators := []
        after := p } := by
  obtain ⟨hafter, hoperators, hresult⟩ := parse_of_takes hp .refl h
  generalize p.parse = q at hafter hoperators hresult
  obtain ⟨result, operators, after⟩ := q
  obtain rfl : after = p := hafter
  obtain rfl : operators = [] := hoperators
  obtain rfl : result = .error (SyntaxFault.missingExpression.before after.rest.head? after.line) :=
    hresult
  rfl

/-- A call takes a token unless it cannot take the first one. -/
theorem advances_or_stuck (hp : p.depth = 0) : p.Advances ∨ Stuck {} p.rest := by
  obtain ⟨q, d, htakes, hstuck⟩ := exists_takes hp
  obtain ⟨ts, hts : p.rest = ts ++ d.rest, -⟩ := htakes.exists_tokens
  rcases htakes.eq_or_withLine with ⟨rfl, rfl⟩ | ⟨-, hne⟩
  · exact Or.inr hstuck
  · left
    refine ⟨ts, hne ts hts, ?_⟩
    rw [(parse_of_takes hp htakes hstuck).1]
    exact hts

theorem advances_of_ok {e : Expr} (hp : p.depth = 0) (h : p.parse.result = .ok e) :
    p.Advances := by
  rcases advances_or_stuck hp with hadv | hstuck
  · exact hadv
  · rw [parse_of_stuck hp hstuck] at h
    cases h

theorem isStuck_of_stuck (hp : p.depth = 0) (h : Stuck {} p.rest) : p.parse.IsStuck := by
  rw [parse_of_stuck hp h]
  refine ⟨_, rfl, ?_⟩
  cases p.rest.head? with
  | none => exact Or.inr rfl
  | some t => exact Or.inl rfl

/-- Where a call is stuck, nothing can be taken by the next one, and its error is the one
that there is if an expression is due. -/
theorem stuck_after (hp : p.depth = 0) (h : p.parse.IsStuck) :
    Stuck {} p.parse.after.rest ∧
      p.parse.result = .error
        (SyntaxFault.missingExpression.before p.parse.after.rest.head? p.parse.after.line) := by
  obtain ⟨e, he, hmessage⟩ := h
  obtain ⟨d, ⟨q, f, -, hstuck, hf, rfl⟩, hparse⟩ := fails_of_parse hp he
  rw [hparse]
  show Stuck {} d.rest ∧
    Except.error (f.before d.rest.head? d.line) =
      .error (SyntaxFault.missingExpression.before d.rest.head? d.line)
  cases hd : d.rest with
  | nil => exact ⟨nofun, rfl⟩
  | cons t rest =>
    -- At a token the message tells the fault.
    rw [hd] at hmessage hstuck
    have hfault : f.message = "Expect expression." ∨ f.message = "Unexpected end of input." :=
      hmessage
    obtain rfl : f = .missingExpression := by
      cases f with
      | missingExpression => rfl
      | missingParenthesis | tooMuchNesting => exact absurd hfault (by decide)
    exact ⟨hstuck.of_missingExpression hf, rfl⟩

/-- The call after a call that is stuck. -/
theorem parse_after_of_isStuck (hp : p.depth = 0) (h : p.parse.IsStuck) :
    p.parse.after.parse =
      { result := p.parse.result, operators := [], after := p.parse.after } := by
  obtain ⟨hstuck, hresult⟩ := stuck_after hp h
  rw [parse_of_stuck (depth_parse hp) hstuck, hresult]

/-- The tokens in front of the end mark are those that a call takes and those that it
leaves. -/
theorem exists_numAhead (hp : p.depth = 0) :
    ∃ ts, p.rest = ts ++ p.parse.after.rest ∧
      numAhead p = ts.length + numAhead p.parse.after := by
  obtain ⟨ts, hts, hend⟩ := exists_taken hp
  refine ⟨ts, hts, ?_⟩
  have hall : ∀ t ∈ ts, (!t.isEndOfFile) = true := fun t ht => by rw [hend t ht]; rfl
  rw [numAhead, hts, List.takeWhile_append_of_pos hall, List.length_append]
  rfl

theorem numAhead_le (hp : p.depth = 0) : numAhead p.parse.after ≤ numAhead p := by
  obtain ⟨ts, -, hts⟩ := exists_numAhead hp
  omega

theorem Advances.numAhead_lt (h : p.Advances) (hp : p.depth = 0) :
    numAhead p.parse.after < numAhead p := by
  obtain ⟨ts, hne, hts⟩ := h
  obtain ⟨us, hus, hnum⟩ := exists_numAhead hp
  obtain rfl : us = ts := List.append_cancel_right (hus.symm.trans hts)
  have hpos := List.length_pos_iff.2 hne
  omega

/-! ## All calls -/

/-- A call that leaves a parser as it is can be repeated. -/
theorem afterCalls_of_after_eq (h : p.parse.after = p) (n : Nat) : afterCalls n p = p := by
  induction n with
  | zero => rfl
  | succ n ih => rw [afterCalls_succ, ih, h]

/-- As many calls as there are tokens bring a parser to rest. -/
theorem after_eq_of_numAhead_le (k : Nat) : ∀ {p : Parser}, p.depth = 0 → numAhead p ≤ k →
    (afterCalls k p).parse.after = afterCalls k p := by
  induction k with
  | zero =>
    intro p hp hk
    rcases advances_or_stuck hp with hadv | hstuck
    · exact absurd (hadv.numAhead_lt hp) (by omega)
    · exact congrArg Parse.after (parse_of_stuck hp hstuck)
  | succ k ih =>
    intro p hp hk
    rcases advances_or_stuck hp with hadv | hstuck
    · have hlt := hadv.numAhead_lt hp
      exact ih (depth_parse hp) (by omega)
    · have hself := congrArg Parse.after (parse_of_stuck hp hstuck)
      rw [afterCalls_of_after_eq hself]
      exact hself

theorem countP_parses_le (n : Nat) : ∀ {p : Parser}, p.depth = 0 →
    (parses n p).countP (fun q => q.expr?.isSome) ≤ numAhead p := by
  induction n with
  | zero =>
    intro p _
    exact Nat.zero_le _
  | succ n ih =>
    intro p hp
    have hrest := ih (depth_parse hp)
    rw [parses, List.countP_cons]
    split
    · next htree =>
      obtain ⟨e, he⟩ := Option.isSome_iff_exists.1 htree
      have hlt := (advances_of_ok hp (Parse.expr?_eq_some_iff.1 he)).numAhead_lt hp
      omega
    · have hle := numAhead_le hp
      omega

/-- Every call of a parser takes a token, or it is stuck and so is every call after it,
with the same error.  Trees are no more than the tokens in front of the first end mark,
and after as many calls as there are such tokens all calls are the same. -/
theorem comesToRest (ts : List Token) : ComesToRest { rest := ts } := by
  have hdepth : ∀ n, (afterCalls n { rest := ts }).depth = 0 := depth_afterCalls rfl
  constructor
  case advances_of_ok => exact fun n e he => advances_of_ok (hdepth n) he
  case advances_or_isStuck =>
    exact fun n => (advances_or_stuck (hdepth n)).imp id (isStuck_of_stuck (hdepth n))
  case stays =>
    intro n h k hk
    obtain ⟨j, rfl⟩ := Nat.exists_eq_add_of_le (Nat.succ_le_of_lt hk)
    have hparse := parse_after_of_isStuck (hdepth n) h
    have hself := congrArg Parse.after hparse
    rw [afterCalls_add, Nat.succ_eq_add_one, afterCalls_succ, afterCalls_of_after_eq hself, hparse]
  case countP_le => exact fun n => countP_parses_le n rfl
  case parse_eq =>
    intro n hn
    obtain ⟨j, rfl⟩ := Nat.exists_eq_add_of_le hn
    rw [afterCalls_add, afterCalls_of_after_eq (after_eq_of_numAhead_le _ rfl (Nat.le_refl _))]

end Parser

end Lox
