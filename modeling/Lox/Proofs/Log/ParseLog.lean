import Lox.Proofs.Grammar.Resumption
import Lox.Proofs.Log.ScanLog

/-!
# The log of a call

A call of the parser logs the binary operators that it takes and no unary ones.  A minus
may be either, and the token in front of it tells which: only a binary operator stands
behind the last token of an operand.  `infixOperators` finds the binary operators among
some tokens in this way, without the grammar.

A cursor keeps a record of exactly these operators as it moves, and also where it gets
stuck (`Takes.operators_eq`).  Where the tokens spell an expression, they are the operators
of its tree from left to right (`Derives.infixOperators_eq`).  So what a call leaves in the
log can be read off the tokens it took (`Parser.exists_logsTaken`).

A log that keeps warnings only has the errors of the scan and of the call
(`keep_warn_transcript`).
-/

namespace Lox

open Pending Log

/-! ## Operators by the tokens in front of them -/

/-- Whether a token of the kind can be the last one of an operand. -/
def Kind.endsOperand (k : Kind) : Bool := k.isLiteral || k == .rightParen

/-- The tokens of a binary operator kind that stand right behind the last token of an
operand. -/
def infixOperators (ts : List Token) : List Token :=
  ((ts.zip ts.tail).filter fun (before, t) =>
    before.kind.endsOperand && t.kind.level?.isSome).map Prod.snd

theorem Kind.endsOperand_of_level? {k : Kind} {l : Level} (h : k.level? = some l) :
    k.endsOperand = false := by
  unfold level? at h
  split at h <;> first | rfl | cases h

theorem Kind.endsOperand_of_isUnary {k : Kind} (h : k.isUnary = true) : k.endsOperand = false := by
  obtain rfl | rfl := isUnary_iff.1 h
  · rfl
  · rfl

section InfixOperators

variable {t u : Token} {ts us : List Token}

theorem infixOperators_cons_cons (t u : Token) (ts : List Token) :
    infixOperators (t :: u :: ts) =
      (if t.kind.endsOperand && u.kind.level?.isSome then [u] else []) ++
        infixOperators (u :: ts) := by
  simp only [infixOperators, List.tail_cons, List.zip_cons_cons, List.filter_cons]
  split <;> rfl

/-- What does not end an operand has no influence. -/
theorem infixOperators_cons (h : t.kind.endsOperand = false) (ts : List Token) :
    infixOperators (t :: ts) = infixOperators ts := by
  cases ts with
  | nil => rfl
  | cons u us =>
    rw [infixOperators_cons_cons, h]
    rfl

theorem infixOperators_operator {l : Level} (ht : t.kind.endsOperand = true)
    (hu : u.kind.level? = some l) (ts : List Token) :
    infixOperators (t :: u :: ts) = u :: infixOperators (u :: ts) := by
  rw [infixOperators_cons_cons, ht, hu]
  rfl

theorem infixOperators_not_operator (hu : u.kind.level? = none) (ts : List Token) :
    infixOperators (t :: u :: ts) = infixOperators (u :: ts) := by
  rw [infixOperators_cons_cons, hu, Option.isSome_none, Bool.and_false]
  rfl

/-- A token belongs to what is in front of it and to what is behind it. -/
theorem infixOperators_append (ts : List Token) (t : Token) (us : List Token) :
    infixOperators (ts ++ t :: us) = infixOperators (ts ++ [t]) ++ infixOperators (t :: us) := by
  induction ts with
  | nil => rfl
  | cons u ts ih =>
    cases ts with
    | nil =>
      simp only [List.cons_append, List.nil_append, infixOperators_cons_cons u t]
      rw [List.append_assoc]
      rfl
    | cons v vs =>
      simp only [List.cons_append, infixOperators_cons_cons u v] at ih ⊢
      rw [ih, List.append_assoc]

end InfixOperators

/-! ## The operators that are taken -/

namespace Pending

variable {p q : Pending} {t before : Token}

/-- No operand is due behind the last token of one. -/
theorem Step.endsOperand (h : Step p t q) : t.kind.endsOperand = !q.operandDue := by
  cases h with
  | unary _ ht => exact Kind.endsOperand_of_isUnary ht
  | leftParen _ ht => rw [ht]; rfl
  | literal _ ht => rw [Kind.endsOperand, ht]; rfl
  | operator ht => exact Kind.endsOperand_of_level? ht
  | rightParen ht => rw [ht]; rfl

/-- One token is kept a record of exactly if it is a binary operator behind an operand. -/
theorem Step.operators_past (h : Step p t q) (hbefore : before.kind.endsOperand = !p.operandDue)
    (c : Cursor) (rest us : List Token) :
    (p.past c t rest).operators.toList ++ infixOperators (t :: us) =
      c.operators.toList ++ infixOperators (before :: t :: us) := by
  cases h with
  | unary | leftParen | literal => rw [infixOperators_cons hbefore]; rfl
  | operator ht =>
    rw [past_operator ht, infixOperators_operator hbefore ht, Array.toList_push, List.append_assoc]
    rfl
  | rightParen ht =>
    have hlevel : t.kind.level? = none := by rw [ht]; rfl
    rw [infixOperators_not_operator hlevel]
    simp [past, ht]

end Pending

/-- The operators that a cursor keeps a record of as it moves. -/
theorem Takes.operators_eq {p q : Pending} {c d : Cursor} (h : Takes p c q d) {ts : List Token}
    (hts : c.rest = ts ++ d.rest) {before : Token}
    (hbefore : before.kind.endsOperand = !p.operandDue) :
    d.operators.toList = c.operators.toList ++ infixOperators (before :: ts) := by
  induction h generalizing ts before with
  | refl =>
    obtain rfl : ts = [] := List.self_eq_append_left.1 hts
    exact (List.append_nil _).symm
  | step hc hs h ih =>
    obtain ⟨us, rfl, hus⟩ := h.tokens_cons hc hts
    rw [ih hus hs.endsOperand, hs.operators_past hbefore]

/-! ## The operators of an expression -/

section Derives

variable {e : Expr} {ts : List Token}

theorem Derives.exists_last (h : Derives e ts) :
    ∃ us t, ts = us ++ [t] ∧ t.kind.endsOperand = true := by
  induction h with
  | @literal t v hv =>
    have ht : t.kind.isLiteral = true := by
      rw [← isSome_ofToken?, ofToken?_eq_some_iff.2 hv]
      rfl
    exact ⟨[], t, rfl, by rw [Kind.endsOperand, ht, Bool.true_or]⟩
  | @grouping left right e ts _ _ hright _ =>
    exact ⟨left :: ts, right, rfl, by rw [hright]; rfl⟩
  | @unary operator e ts _ _ _ ih =>
    obtain ⟨us, t, rfl, ht⟩ := ih
    exact ⟨operator :: us, t, rfl, ht⟩
  | @binary operator l e f ts us _ _ _ _ _ _ ih =>
    obtain ⟨vs, t, rfl, ht⟩ := ih
    exact ⟨ts ++ operator :: vs, t, by simp, ht⟩

/-- The binary operators among the tokens of an expression are those of its tree. -/
theorem Derives.infixOperators_eq (h : Derives e ts) : infixOperators ts = e.operators := by
  induction h with
  | literal => rfl
  | @grouping left right e ts hleft he hright ih =>
    have hopen : left.kind.endsOperand = false := by rw [hleft]; rfl
    have hclose : right.kind.level? = none := by rw [hright]; rfl
    obtain ⟨us, t, rfl, -⟩ := he.exists_last
    rw [List.cons_append, infixOperators_cons hopen, List.append_assoc, List.singleton_append,
      infixOperators_append, infixOperators_not_operator hclose, ih]
    exact List.append_nil _
  | @unary operator e ts hoperator _ _ ih =>
    have hunary := Kind.endsOperand_of_isUnary (Kind.isUnary_iff.2 hoperator)
    rw [infixOperators_cons hunary, ih]
    rfl
  | @binary operator l e f ts us hoperator he _ _ _ ihl ihr =>
    have hends := Kind.endsOperand_of_level? hoperator
    obtain ⟨vs, t, rfl, ht⟩ := he.exists_last
    calc infixOperators (vs ++ [t] ++ operator :: us)
        = infixOperators (vs ++ t :: operator :: us) := by
          rw [List.append_assoc, List.singleton_append]
      _ = infixOperators (vs ++ [t]) ++ operator :: infixOperators us := by
          rw [infixOperators_append, infixOperators_operator ht hoperator,
            infixOperators_cons hends]
      _ = e.operators ++ operator :: f.operators := by rw [ihl, ihr]

end Derives

/-! ## Calls -/

/-- What a call that gave `q` and took the tokens `taken` leaves in the log. -/
structure LogsTaken (taken : List Token) (q : Parse) : Prop where
  /-- There is one record for each binary operator taken, with its line and its kind. -/
  traces : q.log.filter (·.severity == .trace) = (infixOperators taken).map fun t =>
    ⟨.trace, "line " ++ toString t.line ++ ": binary " ++ t.kind.name⟩
  /-- The operators are those of the tree, and the line of the last token taken follows. -/
  of_ok : ∀ e, q.result = .ok e → infixOperators taken = e.operators ∧
    ∃ us t, taken = us ++ [t] ∧ q.log = e.operators.map Token.operatorRecord ++
      [⟨.debug, "parsed expression ending on line " ++ toString t.line⟩]
  /-- The error follows. -/
  of_error : ∀ e, q.result = .error e →
    q.log = (infixOperators taken).map Token.operatorRecord ++ [⟨.warn, e.event.display⟩]

theorem Parse.filter_trace_log (q : Parse) :
    q.log.filter (·.severity == .trace) = q.operators.map Token.operatorRecord := by
  have hverdict : (q.verdict.severity == .trace) = false := by
    rw [verdict]
    split <;> rfl
  have hoperators : ∀ r ∈ q.operators.map Token.operatorRecord, (r.severity == .trace) = true := by
    intro r hr
    obtain ⟨t, -, rfl⟩ := List.mem_map.1 hr
    rfl
  rw [log, List.filter_append, List.filter_eq_self.2 hoperators, List.filter_singleton, hverdict]
  exact List.append_nil _

namespace Parser

variable {p : Parser}

/-- One call, wherever the calls before it have stopped. -/
theorem exists_logsTaken_of_depth (hp : p.depth = 0) :
    ∃ taken, p.rest = taken ++ p.parse.after.rest ∧ LogsTaken taken p.parse := by
  obtain ⟨q, d, htakes, hstuck⟩ := exists_takes hp
  obtain ⟨taken, htaken : p.rest = taken ++ d.rest, -⟩ := htakes.exists_tokens
  obtain ⟨hafter, hkept, -⟩ := parse_of_takes hp htakes hstuck
  have hoperators : p.parse.operators = infixOperators taken := by
    -- No token is in front, and an end mark is as good as none.
    have hmark : (Token.endOfFile 1).kind.endsOperand = false := rfl
    rw [hkept, htakes.operators_eq htaken hmark, infixOperators_cons hmark]
    rfl
  have hrest : p.rest = taken ++ p.parse.after.rest := by rw [hafter]; exact htaken
  refine ⟨taken, hrest, ?_⟩
  constructor
  case traces =>
    rw [Parse.filter_trace_log, hoperators]
    rfl
  case of_ok =>
    intro e he
    obtain ⟨ts, hts, hder, -⟩ := (parse_eq_ok_iff hp).1 ⟨he, rfl⟩
    obtain rfl : ts = taken := List.append_cancel_right (hts.symm.trans hrest)
    obtain ⟨us, t, rfl, -⟩ := hder.exists_last
    have hline : p.parse.after.line = t.line := by
      rw [hafter]
      exact (htakes.line_eq htaken hder.ne_nil).trans (by simp [lastLine])
    refine ⟨hder.infixOperators_eq, us, t, rfl, ?_⟩
    rw [Parse.log, Parse.verdict, hoperators, hder.infixOperators_eq, he, hline]
  case of_error =>
    intro e he
    rw [Parse.log, Parse.verdict, hoperators, he]
    rfl

/-- However often a parser has been called, the next call logs the binary operators among
the tokens it takes, in their order, and no unary ones.  If it gives an expression, these
are the operators of its tree from left to right, and the line of the last token taken is
the last record.  If it gives an error, the error is. -/
theorem exists_logsTaken (ts : List Token) (n : Nat) :
    ∃ taken, (afterCalls n { rest := ts }).rest =
        taken ++ (afterCalls n { rest := ts }).parse.after.rest ∧
      LogsTaken taken (afterCalls n { rest := ts }).parse :=
  exists_logsTaken_of_depth (depth_afterCalls rfl n)

/-- `1 - -2` -/
example : (Parser.parse { rest := [⟨.number, "1", none, 1⟩, ⟨.minus, "-", none, 1⟩,
      ⟨.minus, "-", none, 2⟩, ⟨.number, "2", none, 2⟩] }).log =
    [⟨.trace, "line 1: binary Minus"⟩, ⟨.debug, "parsed expression ending on line 2"⟩] := by
  decide +kernel

end Parser

/-! ## Warnings -/

theorem keep_warn (rs : List Record) : keep (some .warn) rs = rs.filter (·.severity == .warn) := by
  refine List.filter_congr fun r _ => ?_
  cases r.severity <;> rfl

/-- A call leaves a warning for its error, and none for the operators it took. -/
theorem Parse.filter_warn_log (q : Parse) :
    q.log.filter (·.severity == .warn) = q.error?.toList.map Error.record := by
  have hoperators : ∀ r ∈ q.operators.map Token.operatorRecord, (r.severity == .warn) ≠ true := by
    intro r hr
    obtain ⟨t, -, rfl⟩ := List.mem_map.1 hr
    exact Bool.false_ne_true
  rw [log, List.filter_append, List.filter_eq_nil_iff.2 hoperators, verdict, error?]
  cases q.result <;> rfl

/-- A log that keeps warnings only has one record for each error, first those of the scan
and then that of the call. -/
theorem keep_warn_transcript (source : String) :
    keep (some .warn) (transcript source) =
      ((scan source).errors ++
        (Parser.parse { rest := (scan source).tokens }).error?.toList).map Error.record := by
  obtain ⟨last, hlast, hrun⟩ := Scanner.exists_holds (Scanner.ofSource source) {}
  have htokens : ((Scanner.ofSource source).run {}).tokens.toList = (scan source).tokens := by
    rw [hrun, hlast.tokens_close]
    rfl
  have hscan : ((Scanner.ofSource source).run {}).log.toList.filter (·.severity == .warn) =
      (scan source).errors.map Error.record := by
    rw [hrun, hlast.log_close, List.filter_append, filter_warn_map_record]
    exact List.append_nil _
  show keep (some .warn) (((Scanner.ofSource source).run {}).log.toList ++
    (Parser.parse { rest := ((Scanner.ofSource source).run {}).tokens.toList }).log) = _
  rw [keep_warn, List.filter_append, hscan, htokens, Parse.filter_warn_log, List.map_append]

end Lox
