import Lox.Grammar.Parser
import Lox.Proofs.Grammar.Reading

/-!
# What a parser accepts

A parser gives an expression exactly if some tokens at the front of its list spell
the expression, the expression nests no deeper than the limit, and no binary
operator comes next.  The tokens that spell it are the ones that are taken.

One half is the promise of the readers, `expression_reads`.  The other half is
`Accepts`: whatever is spelled at the front is read.  A chain joins its operands
to the left, as the spelling of a binary expression does, so what it has joined
after some operators is a subtree on the left edge (`chain_eq_chainFrom_of_derives`).
-/

namespace Lox

open Descent ReadM

/-- The reader reads every expression of the rank that is spelled at the front of
its tokens, unless it nests too deep for a place that is `depth` levels down.  Of
these levels `count` are counted. -/
def Accepts (count rank depth : Nat) (r : ReadM Expr) : Prop :=
  ∀ (e : Expr) (ts rest : List Token) (c : Cursor), Derives e ts →
    depth + e.nesting ≤ nestingLimit → rank ≤ e.rank → c.rest = ts ++ rest → Ends rank rest →
    c.depth = count → ∃ d, r c = .ok e d ∧ d.rest = rest ∧ d.depth = count

/-! ## Chains -/

section Chain

variable {l : Level} {count depth : Nat} {r : ReadM Expr}

/-- A chain comes to the point where it has joined the expression at the front. -/
theorem chain_eq_chainFrom_of_derives (hr : Accepts count (l.rank + 1) depth r) {e : Expr}
    {ts : List Token} (he : Derives e ts) : ∀ {rest : List Token} {c : Cursor},
      depth + e.nesting ≤ nestingLimit → l.rank ≤ e.rank → c.rest = ts ++ rest →
      Ends (l.rank + 1) rest → c.depth = count →
      ∃ d bound, d.rest = rest ∧ d.depth = count ∧ rest.length ≤ bound.length ∧
        chain l r c = chainFrom l r bound e d := by
  -- A tighter expression is the first operand of the chain.
  have hfirst : ∀ {e ts rest} {c : Cursor}, Derives e ts → depth + e.nesting ≤ nestingLimit →
      l.rank + 1 ≤ e.rank → c.rest = ts ++ rest → Ends (l.rank + 1) rest → c.depth = count →
      ∃ d bound, d.rest = rest ∧ d.depth = count ∧ rest.length ≤ bound.length ∧
        chain l r c = chainFrom l r bound e d := by
    intro e ts rest c he hn hk hc hends hcount
    obtain ⟨d, hread, hd, hcount'⟩ := hr e ts rest c he hn hk hc hends hcount
    exact ⟨d, d.rest, hd, hcount', Nat.le_of_eq (congrArg List.length hd).symm,
      chain_eq_chainFrom hread⟩
  induction he with
  | literal hv =>
    intro rest c hn _ hc hends hcount
    exact hfirst (.literal hv) hn (Level.rank_lt_operandRank l) hc hends hcount
  | grouping hleft he hright _ =>
    intro rest c hn _ hc hends hcount
    exact hfirst (.grouping hleft he hright) hn (Level.rank_lt_operandRank l) hc hends hcount
  | unary hop he hrank _ =>
    intro rest c hn _ hc hends hcount
    exact hfirst (.unary hop he hrank) hn (Level.rank_lt_operandRank l) hc hends hcount
  | @binary op m e f ts us hop he hf hle hlt ih _ =>
    intro rest c hn hk hc hends hcount
    have hrank : (Expr.binary e op f).rank = m.rank := by simp [Expr.rank, hop]
    rw [hrank] at hk
    rcases Nat.lt_or_eq_of_le hk with hlt' | heq
    · exact hfirst (.binary hop he hf hle hlt) hn (by omega) hc hends hcount
    · obtain rfl : l = m := Level.rank_injective heq
      simp only [Expr.nesting] at hn
      have hends' : Ends (l.rank + 1) (op :: (us ++ rest)) := by
        intro t k ht hk
        cases ht
        obtain rfl : l = k := Option.some.inj (hop.symm.trans hk)
        exact Nat.lt_succ_self _
      have hc' : c.rest = ts ++ op :: (us ++ rest) := by simpa using hc
      obtain ⟨d, bound, hd, hcount', hb, hchain⟩ := ih (by omega) hle hc' hends' hcount
      cases bound with
      | nil => simp at hb
      | cons b bound =>
        obtain ⟨d', hread, hd', hcount''⟩ :=
          hr f us rest
            { d with rest := us ++ rest, line := op.line, operators := d.operators.push op }
            hf (by omega) hlt rfl hends hcount'
        refine ⟨d', bound, hd', hcount'', ?_, ?_⟩
        · simp only [List.length_cons, List.length_append] at hb
          omega
        · rw [hchain, chainFrom_operator hd hop, bind_apply, hread]

theorem chain_accepts (hr : Accepts count (l.rank + 1) depth r) :
    Accepts count l.rank depth (chain l r) := by
  intro e ts rest c he hn hk hc hends hcount
  obtain ⟨d, bound, hd, hcount', -, hchain⟩ :=
    chain_eq_chainFrom_of_derives hr he hn hk hc (hends.mono (Nat.le_succ _)) hcount
  refine ⟨d, ?_, hd, hcount'⟩
  rw [hchain, chainFrom_stop]
  rw [hd]
  exact hends.level_ne

theorem climb_accepts (hr : Accepts count Level.operandRank depth r) :
    Accepts count 0 depth (climb r) := by
  have hfactor : Accepts count Level.factor.rank depth (chain .factor r) := chain_accepts hr
  have hterm : Accepts count Level.term.rank depth (chain .term (chain .factor r)) :=
    chain_accepts hfactor
  have hcomparison : Accepts count Level.comparison.rank depth
      (chain .comparison (chain .term (chain .factor r))) := chain_accepts hterm
  have hequality : Accepts count Level.equality.rank depth (climb r) := chain_accepts hcomparison
  exact hequality

end Chain

/-! ## Operands -/

/-- What is accepted one level further down is accepted before the level is counted. -/
theorem nested_accepts {depth rank : Nat} {r : ReadM Expr}
    (hr : Accepts (depth + 1) rank (depth + 1) r) : Accepts depth rank (depth + 1) (nested r) := by
  intro e ts rest c he hnest hrank hc hends hcount
  obtain ⟨d, hread, hd, hdepth⟩ :=
    hr e ts rest { c with depth := c.depth + 1 } he hnest hrank hc hends (congrArg (· + 1) hcount)
  rw [nested_eq_ok (by omega) hread]
  exact ⟨_, rfl, hd, congrArg (· - 1) hdepth⟩

theorem operandWith_accepts {depth : Nat} {behind inner : ReadM Expr}
    (hb : Accepts depth Level.operandRank (depth + 1) behind)
    (hi : Accepts depth 0 (depth + 1) inner) :
    Accepts depth Level.operandRank depth (operandWith behind inner) := by
  intro e ts rest c he hnest hrank hc hends hcount
  cases he with
  | @literal t v hv =>
    exact ⟨_, operandWith_literal hc (ofToken?_eq_some_iff.2 hv), rfl, hcount⟩
  | @grouping left right e us hleft he hright =>
    have hc' : c.rest = left :: (us ++ right :: rest) := by simp [hc]
    have hnest' : depth + 1 + e.nesting ≤ nestingLimit := by
      simp only [Expr.nesting] at hnest
      omega
    have hends' : Ends 0 (right :: rest) := by
      intro t l ht hl
      cases ht
      simp [hright, Kind.level?] at hl
    obtain ⟨d, hread, hd, hcount'⟩ :=
      hi e us (right :: rest) { c with rest := us ++ right :: rest, line := left.line }
        he hnest' (Nat.zero_le _) rfl hends' hcount
    rw [operandWith_leftParen hc' hleft, group_close hread hd hright]
    exact ⟨_, rfl, rfl, hcount'⟩
  | @unary op e us hop he hk =>
    have hnest' : depth + 1 + e.nesting ≤ nestingLimit := by
      simp only [Expr.nesting] at hnest
      omega
    obtain ⟨d, hread, hd, hcount'⟩ :=
      hb e us rest { c with rest := us ++ rest, line := op.line } he hnest' (Nat.le_of_eq hk.symm)
        rfl (ends_operandRank rest) hcount
    rw [operandWith_unary hc (Kind.isUnary_iff.2 hop), bind_apply]
    simp only [List.append_eq, hread]
    exact ⟨d, rfl, hd, hcount'⟩
  | @binary op l e f us vs hop _ _ _ _ =>
    -- A binary expression binds less tightly than an operand.
    have hlt := Level.rank_lt_operandRank l
    simp only [Expr.rank, hop, Option.map_some, Option.getD_some] at hrank
    omega

/-- Nothing is accepted where the limit is passed. -/
theorem accepts_of_lt {count rank depth : Nat} {r : ReadM Expr} (h : nestingLimit < depth) :
    Accepts count rank depth r := by
  intro e ts rest c _ hnest _ _ _ _
  omega

theorem operand_accepts : ∀ (bound : Nat) {depth : Nat}, depth + bound = nestingLimit + 1 →
    Accepts depth Level.operandRank depth (operand bound) := by
  intro bound
  induction bound with
  | zero =>
    intro depth hdepth
    exact accepts_of_lt (by omega)
  | succ n ih =>
    intro depth hdepth
    have hopen : Accepts (depth + 1) Level.operandRank (depth + 1) (operand n) := ih (by omega)
    exact operandWith_accepts (nested_accepts hopen) (nested_accepts (climb_accepts hopen))

theorem expression_accepts : Accepts 0 0 0 expression :=
  climb_accepts (operand_accepts (nestingLimit + 1) (Nat.zero_add _))

/-! ## Parsers -/

namespace Parser

variable {p : Parser} {e : Expr} {err : Error}

theorem parse_of_ok {d : Cursor} (h : expression p.cursor = .ok e d) :
    p.parse = ⟨.ok e, d.operators.toList, d.parser⟩ := by
  rw [parse, h]

theorem parse_of_error {d : Cursor} (h : expression p.cursor = .error err d) :
    p.parse = ⟨.error err, d.operators.toList, d.parser⟩ := by
  rw [parse, h]

/-- A call that gives an expression has read it. -/
theorem hasRead_of_parse (hp : p.depth = 0) (h : p.parse.result = .ok e) :
    ∃ d, HasRead 0 [] p.cursor e d ∧ Ends 0 d.rest ∧
      p.parse = ⟨.ok e, d.operators.toList, d.parser⟩ := by
  have hreads := expression_reads p.cursor hp
  cases hres : expression p.cursor with
  | ok e' d =>
    have hparse := parse_of_ok hres
    rw [hparse] at h
    cases h
    rw [hres] at hreads
    exact ⟨d, hreads.1, hreads.2, hparse⟩
  | error err d =>
    rw [parse_of_error hres] at h
    cases h

/-- A call that gives an error has found its cursor stuck. -/
theorem fails_of_parse (hp : p.depth = 0) (h : p.parse.result = .error err) :
    ∃ d, Fails {} p.cursor err d ∧ p.parse = ⟨.error err, d.operators.toList, d.parser⟩ := by
  have hreads := expression_reads p.cursor hp
  cases hres : expression p.cursor with
  | ok e d =>
    rw [parse_of_ok hres] at h
    cases h
  | error err' d =>
    have hparse := parse_of_error hres
    rw [hparse] at h
    cases h
    rw [hres] at hreads
    exact ⟨d, hreads, hparse⟩

theorem parse_eq_ok_iff (hp : p.depth = 0) {rest : List Token} :
    p.parse.result = .ok e ∧ p.parse.after.rest = rest ↔
      ∃ ts, p.rest = ts ++ rest ∧ Derives e ts ∧ e.nesting ≤ nestingLimit ∧ Ends 0 rest := by
  constructor
  · intro h
    obtain ⟨h, rfl⟩ := h
    obtain ⟨d, hread, hends, hparse⟩ := hasRead_of_parse hp h
    obtain ⟨ts, hts, hder⟩ := hread.derives
    rw [hparse]
    exact ⟨ts, hts, hder, by simpa using hread.nesting_le, hends⟩
  · intro h
    obtain ⟨ts, hts, hder, hnest, hends⟩ := h
    obtain ⟨d, hread, hd, -⟩ :=
      expression_accepts e ts rest p.cursor hder (by omega) (Nat.zero_le _) hts hends hp
    rw [parse_of_ok hread]
    exact ⟨rfl, hd⟩

end Parser

/-- No operator comes next exactly if the rank of none is reached. -/
theorem ends_zero_iff {ts : List Token} :
    Ends 0 ts ↔ ∀ t, ts.head? = some t → t.kind.level? = none := by
  constructor
  · intro h t ht
    cases hl : t.kind.level? with
    | none => rfl
    | some l => exact absurd (h t l ht hl) (Nat.not_lt_zero _)
  · intro h t l ht hl
    simp [h t ht] at hl

theorem Parse.expr?_eq_some_iff {q : Parse} {e : Expr} : q.expr? = some e ↔ q.result = .ok e := by
  rw [Parse.expr?]
  cases q.result <;> simp [Except.toOption]

/-- A parser gives an expression exactly if tokens at the front of its list spell
it, it nests no deeper than the limit, and no binary operator comes next.  The
tokens that spell it are the ones that are taken. -/
theorem Parser.expr?_parse_eq_some_iff (ts : List Token) (e : Expr) :
    ((Parser.parse { rest := ts }).expr? = some e ↔
      ∃ c rest, ts = c ++ rest ∧ Derives e c ∧ e.nesting ≤ nestingLimit ∧
        ∀ t, rest.head? = some t → t.kind.level? = none) ∧
    ∀ rest, (Parser.parse { rest := ts }).expr? = some e ∧
        (Parser.parse { rest := ts }).after.rest = rest ↔
      ∃ c, ts = c ++ rest ∧ Derives e c ∧ e.nesting ≤ nestingLimit ∧
        ∀ t, rest.head? = some t → t.kind.level? = none := by
  have hrest : ∀ rest, (Parser.parse { rest := ts }).expr? = some e ∧
        (Parser.parse { rest := ts }).after.rest = rest ↔
      ∃ c, ts = c ++ rest ∧ Derives e c ∧ e.nesting ≤ nestingLimit ∧
        ∀ t, rest.head? = some t → t.kind.level? = none := by
    intro rest
    rw [Parse.expr?_eq_some_iff, parse_eq_ok_iff rfl]
    simp only [ends_zero_iff]
  refine ⟨?_, hrest⟩
  constructor
  · intro h
    obtain ⟨c, hc⟩ := (hrest _).1 ⟨h, rfl⟩
    exact ⟨c, _, hc⟩
  · intro h
    obtain ⟨c, rest, hc⟩ := h
    exact ((hrest rest).2 ⟨c, hc⟩).1

end Lox
