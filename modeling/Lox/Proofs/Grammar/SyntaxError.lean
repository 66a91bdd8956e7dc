import Lox.Proofs.Grammar.Beginning

/-!
# Syntax errors

A parser that fails on tokens with an end mark among them gives one error, at the
first token it has not taken.  `Parser.Rejects` says which one it is and that it
comes as early as it can: the tokens before it are the beginning of an expression,
unless they nest too deep already, and no list that goes on with the token in error
is any better.
-/

namespace Lox

open Pending

/-- The tokens are none, or the last one leaves an operand due. -/
def EndsOpen (ts : List Token) : Prop :=
  ts = [] ∨ ∃ us t, ts = us ++ [t] ∧
    (t.kind = .leftParen ∨ t.kind.isUnary = true ∨ t.kind.level?.isSome = true)

/-- The last token completes an operand. -/
def EndsComplete (ts : List Token) : Prop :=
  ∃ us t, ts = us ++ [t] ∧ (t.kind.isLiteral = true ∨ t.kind = .rightParen)

/-! ## The last token taken -/

section Last

variable {q : Pending} {c d : Cursor} {ts : List Token}

theorem Takes.endsOpen (h : Takes {} c q d) (hts : c.rest = ts ++ d.rest)
    (hq : q.operandDue = true) : EndsOpen ts := by
  rcases h.last hts with ⟨rfl, -⟩ | ⟨us, t, r, rfl, -, hs, -⟩
  · exact Or.inl rfl
  · right
    refine ⟨us, t, rfl, ?_⟩
    cases hs with
    | unary _ ht => exact Or.inr (Or.inl ht)
    | leftParen _ ht => exact Or.inl ht
    | operator ht => exact Or.inr (Or.inr (by simp [ht]))
    | literal _ _ | rightParen _ => cases hq

theorem Takes.endsComplete (h : Takes {} c q d) (hts : c.rest = ts ++ d.rest)
    (hq : q.operandDue = false) : EndsComplete ts := by
  rcases h.last hts with ⟨-, rfl⟩ | ⟨us, t, r, rfl, -, hs, -⟩
  · cases hq
  · refine ⟨us, t, rfl, ?_⟩
    cases hs with
    | literal _ ht => exact Or.inl ht
    | rightParen ht => exact Or.inr ht
    | unary _ _ | leftParen _ _ | operator _ => cases hq

/-- Only an opener can be one too many, and it is the last token then. -/
theorem Takes.last_opener (h : Takes {} c q d) (hts : c.rest = ts ++ d.rest)
    (hq : nestingLimit < q.openers.length) :
    ∃ us t, ts = us ++ [t] ∧ (t.kind = .leftParen ∨ t.kind.isUnary = true) ∧
      (after us).openers.length = nestingLimit := by
  rcases h.last hts with ⟨-, rfl⟩ | ⟨us, t, r, rfl, hr, hs, e, he⟩
  · exact absurd hq (Nat.not_lt_zero _)
  · have hvalid := he.valid valid_empty
    refine ⟨us, t, rfl, ?_⟩
    rw [after, ← hr]
    cases hs with
    | unary hos ht =>
      simp only [List.length_cons] at hq
      exact ⟨Or.inr ht, by dsimp only; omega⟩
    | leftParen hos ht =>
      simp only [List.length_cons] at hq
      exact ⟨Or.inl ht, by dsimp only; omega⟩
    | literal hos _ =>
      exact absurd (Nat.le_trans (length_complete_le _) hos) (Nat.not_le.2 hq)
    | operator _ => exact absurd (hvalid.length_le_of_complete rfl) (Nat.not_le.2 hq)
    | @rightParen os t _ =>
      have hle : os.length + 1 ≤ nestingLimit := hvalid.length_le_of_complete rfl
      have hcomplete := length_complete_le os
      omega

end Last

/-! ## The token in error -/

/-- What an expression starts with can be taken where an operand is due. -/
theorem Derives.head {e : Expr} {ts : List Token} (h : Derives e ts) : ∀ t, ts.head? = some t →
    t.kind.isUnary = true ∨ t.kind.isLiteral = true ∨ t.kind = .leftParen := by
  induction h with
  | literal hv =>
    intro t ht
    cases ht
    exact Or.inr (Or.inl (by rw [← isSome_ofToken?, ofToken?_eq_some_iff.2 hv]; rfl))
  | grouping hleft _ _ _ =>
    intro t ht
    cases ht
    exact Or.inr (Or.inr hleft)
  | unary hop _ _ _ =>
    intro t ht
    cases ht
    exact Or.inl (Kind.isUnary_iff.2 hop)
  | @binary op l e f ts us _ hl _ _ _ ih _ =>
    intro t ht
    obtain ⟨u, vs, rfl⟩ := List.exists_cons_of_ne_nil hl.ne_nil
    exact ih t ht

/-- No expression starts with a token that is stuck where an operand is due. -/
theorem kind_ne_of_stuck {os : List Opener} {o : Token} {rest : List Token}
    (hos : os.length ≤ nestingLimit) (hs : Stuck ⟨os, true⟩ (o :: rest)) {e : Expr} {t : Token}
    {us : List Token} (h : Derives e (t :: us)) : t.kind ≠ o.kind := by
  intro hk
  have hhead := h.head t rfl
  rw [hk] at hhead
  rcases hhead with hu | hl | hp
  · exact hs o rfl _ (.unary hos hu)
  · exact hs o rfl _ (.literal hos hl)
  · exact hs o rfl _ (.leftParen hos hp)

/-- A beginning within the limit can be completed. -/
theorem Takes.viable {q : Pending} {c d : Cursor} {ts : List Token} (h : Takes {} c q d)
    (hc : c.line = 1 ∧ c.operators = #[] ∧ c.depth = 0) (hts : c.rest = ts ++ d.rest)
    (hq : q.openers.length ≤ nestingLimit) :
    ∃ us, ∀ line, ∃ e,
      (Parser.parse { rest := ts ++ us ++ [Token.endOfFile line] }).expr? = some e ∧
      (Parser.parse { rest := ts ++ us ++ [Token.endOfFile line] }).after.rest =
        [Token.endOfFile line] := by
  obtain ⟨us, hus⟩ := (h.valid valid_empty).exists_completion hq
  refine ⟨us, fun line => ?_⟩
  obtain ⟨rest, line', ops, depth⟩ := c
  obtain ⟨rfl, rfl, rfl⟩ := hc
  have hframe := h.frame hts (us ++ [Token.endOfFile line])
  obtain ⟨d', htakes, hd'⟩ := hus { d with rest := us ++ [Token.endOfFile line] } _ rfl
  have hstuck : Stuck ⟨[], false⟩ d'.rest := by
    rw [hd']
    intro t ht r hs
    cases ht
    exact absurd hs.not_endOfFile (by simp)
  have hall := hframe.trans htakes
  rw [← List.append_assoc] at hall
  obtain ⟨hafter, -, e, he⟩ := Parser.parse_of_takes
    (p := { rest := ts ++ us ++ [Token.endOfFile line] }) rfl hall hstuck
  rw [hafter]
  exact ⟨e, Parse.expr?_eq_some_iff.2 he, hd'⟩

/-- Where an operand is complete and something is open, a parenthesis is innermost. -/
theorem exists_parenthesis {os : List Opener} (hv : Valid ⟨os, false⟩) (hos : os ≠ []) :
    ∃ ps, os = .parenthesis :: ps := by
  match os, hos with
  | .parenthesis :: ps, _ => exact ⟨ps, rfl⟩
  | .operator :: ps, _ => exact absurd rfl (hv.head?_ne_of_complete rfl)

/-- A token that is stuck where an operand is complete joins nothing to it. -/
theorem level?_eq_none_of_stuck {os : List Opener} {o : Token} {rest : List Token}
    (hs : Stuck ⟨os, false⟩ (o :: rest)) : o.kind.level? = none := by
  cases hl : o.kind.level? with
  | none => rfl
  | some l => exact absurd (.operator hl) (hs o rfl _)

/-- A token that completes an operand leaves none due. -/
theorem EndsOpen.not_endsComplete {ts : List Token} (h : EndsOpen ts) : ¬ EndsComplete ts := by
  intro hc
  obtain ⟨us, t, rfl, ht⟩ := hc
  rcases h with h | ⟨vs, u, he, hu⟩
  · simp at h
  · obtain ⟨-, he⟩ := List.append_inj' he rfl
    obtain rfl : t = u := List.singleton_inj.1 he
    cases hk : t.kind <;> simp_all [Kind.isLiteral, Kind.isUnary, Kind.level?]

/-! ## The one error -/

/-- A parser over `ts` takes the tokens `c` and fails at the token `o` behind them,
and no parser over tokens that go on from `c` with `o` does otherwise. -/
structure Parser.Rejects (ts c : List Token) (o : Token) (rest : List Token) (message : String) :
    Prop where
  tokens : ts = c ++ o :: rest
  error : (Parser.parse { rest := ts }).error? = some (.syntactic o message)
  after : (Parser.parse { rest := ts }).after.rest = o :: rest
  /-- No error comes sooner, whatever comes later. -/
  earliest : ∀ us, (Parser.parse { rest := c ++ o :: us }).error? = some (.syntactic o message)
  nesting_iff : message = "Too much nesting." ↔ (Pending.after c).openers.length = 65
  last_opener : message = "Too much nesting." →
    ∃ us t, c = us ++ [t] ∧ (t.kind = .leftParen ∨ t.kind.isUnary = true) ∧
      (Pending.after us).openers.length = 64
  /-- The tokens taken are the beginning of an expression. -/
  viable : message ≠ "Too much nesting." →
    ∃ us, ∀ line, ∃ e,
      (Parser.parse { rest := c ++ us ++ [Token.endOfFile line] }).expr? = some e ∧
      (Parser.parse { rest := c ++ us ++ [Token.endOfFile line] }).after.rest =
        [Token.endOfFile line]
  ends : EndsOpen c ∨ EndsComplete c
  expression : message ≠ "Too much nesting." → EndsOpen c →
    message = "Expect expression." ∧
      ∀ e t us, Derives e (t :: us) → t.kind ≠ o.kind
  parenthesis : message ≠ "Too much nesting." → EndsComplete c →
    message = "Expect ')' after expression." ∧ .parenthesis ∈ (Pending.after c).openers ∧
      o.kind ≠ .rightParen ∧ o.kind.level? = none

/-- An error that is not about nesting comes within the limit. -/
theorem message_eq_iff {q : Pending} {f : SyntaxFault} (hv : q.Valid) (hf : q.fault? = some f) :
    f.message = "Too much nesting." ↔ q.openers.length = nestingLimit + 1 := by
  obtain ⟨os, due⟩ := q
  by_cases hos : nestingLimit < os.length
  · rw [fault?_of_lt hos] at hf
    cases hf
    exact iff_of_true rfl (Nat.le_antisymm hv.length_le hos)
  · refine iff_of_false ?_ fun h : os.length = nestingLimit + 1 => by omega
    cases due with
    | true =>
      rw [fault?_operandDue (Nat.not_lt.1 hos)] at hf
      cases hf
      decide
    | false =>
      by_cases hne : os = []
      · subst hne
        cases hf
      · rw [fault?_open (Nat.not_lt.1 hos) hne] at hf
        cases hf
        decide

/-- Where an operand is due, the token in error starts no expression. -/
theorem message_of_operandDue {q : Pending} {f : SyntaxFault} {o : Token} {rest : List Token}
    (hq : q.operandDue = true) (hle : q.openers.length ≤ nestingLimit)
    (hs : q.Stuck (o :: rest)) (hf : q.fault? = some f) :
    f.message = "Expect expression." ∧ ∀ e t us, Derives e (t :: us) → t.kind ≠ o.kind := by
  obtain ⟨os, due⟩ := q
  obtain rfl : due = true := hq
  rw [fault?_operandDue hle] at hf
  cases hf
  exact ⟨rfl, fun e t us => kind_ne_of_stuck hle hs⟩

/-- Where an operand is complete, a parenthesis is open, and the token in error
neither closes it nor goes on with the expression. -/
theorem message_of_complete {q : Pending} {f : SyntaxFault} {o : Token} {rest : List Token}
    (hq : q.operandDue = false) (hv : q.Valid) (hle : q.openers.length ≤ nestingLimit)
    (hs : q.Stuck (o :: rest)) (hf : q.fault? = some f) :
    f.message = "Expect ')' after expression." ∧ .parenthesis ∈ q.openers ∧
      o.kind ≠ .rightParen ∧ o.kind.level? = none := by
  obtain ⟨os, due⟩ := q
  obtain rfl : due = false := hq
  have hos : os ≠ [] := by
    intro he
    rw [he] at hf
    cases hf
  rw [fault?_open hle hos] at hf
  cases hf
  obtain ⟨ps, rfl⟩ := exists_parenthesis hv hos
  exact ⟨rfl, List.mem_cons_self, fun hk => hs o rfl _ (.rightParen hk), level?_eq_none_of_stuck hs⟩

/-- With an end mark among its tokens, a parser that fails is stuck at one of them. -/
theorem Parser.exists_stuck {ts : List Token} (heof : ∃ t ∈ ts, t.isEndOfFile = true)
    (hfail : (Parser.parse { rest := ts }).expr? = none) :
    ∃ c o rest f d, ts = c ++ o :: rest ∧ Takes {} { rest := ts, line := 1 } (after c) d ∧
      d.rest = o :: rest ∧ Stuck (after c) (o :: rest) ∧ (after c).fault? = some f := by
  cases hres : (Parser.parse { rest := ts }).result with
  | ok e =>
    rw [Parse.expr?_eq_some_iff.2 hres] at hfail
    cases hfail
  | error err =>
    obtain ⟨d, ⟨q, f, htakes, hstuck, hf, -⟩, -⟩ := fails_of_parse rfl hres
    obtain ⟨c, hts : ts = c ++ d.rest, rfl⟩ := htakes.exists_tokens
    cases hd : d.rest with
    | nil =>
      -- The end mark would be among the tokens taken.
      obtain ⟨t, ht, hte⟩ := heof
      have htc : t ∈ c := by rwa [hts, hd, List.append_nil] at ht
      rw [htakes.not_endOfFile hts t htc] at hte
      cases hte
    | cons o rest =>
      rw [hd] at hts hstuck
      exact ⟨c, o, rest, f, d, hts, htakes, hd, hstuck, hf⟩

/-- A parser that fails on tokens with an end mark among them gives one error, at
the first token it has not taken and as soon as there can be one. -/
theorem Parser.exists_rejects {ts : List Token} (heof : ∃ t ∈ ts, t.isEndOfFile = true)
    (hfail : (Parser.parse { rest := ts }).expr? = none) :
    ∃ c o rest message, Rejects ts c o rest message := by
  obtain ⟨c, o, rest, f, d, hts, htakes, hd, hstuck, hf⟩ := exists_stuck heof hfail
  have hts' : ts = c ++ d.rest := by rw [hts, hd]
  have hv := htakes.valid valid_empty
  have hiff := message_eq_iff hv hf
  have hle : f.message ≠ "Too much nesting." → (after c).openers.length ≤ nestingLimit := by
    intro h
    have := hv.length_le
    have := mt hiff.2 h
    omega
  have hfails : ∀ us, (Parser.parse { rest := c ++ o :: us }).error? =
        some (.syntactic o f.message) ∧
      (Parser.parse { rest := c ++ o :: us }).after.rest = o :: us := by
    intro us
    have hstuck' : Stuck (after c) (o :: us) := hstuck
    obtain ⟨hafter, -, hres⟩ :=
      parse_of_takes (p := { rest := c ++ o :: us }) rfl (htakes.frame hts' (o :: us)) hstuck'
    rw [hf] at hres
    rw [hafter]
    exact ⟨by rw [Parse.error?, hres]; rfl, rfl⟩
  refine ⟨c, o, rest, f.message, ?_⟩
  constructor
  case tokens => exact hts
  case error => rw [hts]; exact (hfails rest).1
  case after => rw [hts]; exact (hfails rest).2
  case earliest => exact fun us => (hfails us).1
  case nesting_iff => exact hiff
  case last_opener =>
    intro h
    exact htakes.last_opener hts' (by rw [hiff.1 h]; exact Nat.lt_succ_self _)
  case viable => exact fun h => htakes.viable ⟨rfl, rfl, rfl⟩ hts' (hle h)
  case ends =>
    cases hdue : (after c).operandDue with
    | true => exact Or.inl (htakes.endsOpen hts' hdue)
    | false => exact Or.inr (htakes.endsComplete hts' hdue)
  case expression =>
    intro h hopen
    cases hdue : (after c).operandDue with
    | false => exact absurd (htakes.endsComplete hts' hdue) hopen.not_endsComplete
    | true => exact message_of_operandDue hdue (hle h) hstuck hf
  case parenthesis =>
    intro h hcomplete
    cases hdue : (after c).operandDue with
    | true => exact absurd hcomplete (htakes.endsOpen hts' hdue).not_endsComplete
    | false => exact message_of_complete hdue hv (hle h) hstuck hf

/-- `1 * )` -/
theorem Parser.exists_rejects_starParen :
    ∃ c o rest message, Rejects
      [⟨.number, "1", none, 1⟩, ⟨.star, "*", none, 1⟩, ⟨.rightParen, ")", none, 1⟩,
        Token.endOfFile 1] c o rest message :=
  Parser.exists_rejects ⟨Token.endOfFile 1, by decide, rfl⟩ (by decide +kernel)

end Lox
