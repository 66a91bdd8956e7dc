import Lox.Proofs.Grammar.Beginning
import Mathlib.Data.List.Forall2

/-!
# Calling a parser again

A parser can be called again after any outcome.  The calls take consecutive tokens,
whether they give an expression or an error, and a call gives what a fresh parser
would give where it starts (`Resumes`).  Two things are carried from one call to the
next besides the tokens.  The count of levels is back at none after every call, so an
error deep down costs the next call nothing.  The line of the last token taken shows
in one place only, the error of a call that has no tokens left at all.

No call gets past an end mark, and what stands behind one has no influence
(`Agree`).

Both are proved for one call from what it takes (`Takes`), and for all calls by
induction on their number.
-/

namespace Lox

open Pending Descent

/-- The line of the last of some tokens, one if there are none. -/
def lastLine (ts : List Token) : Nat := (ts.getLast?.map Token.line).getD 1

/-- What a call gives that takes the tokens `taken` after other calls have taken the
tokens `before`, if it gives `fresh` by itself.  Where no token is left to take, the
error is on the line of the last one taken before. -/
def resultAfter (before taken : List Token) (fresh : Except Error Expr) : Except Error Expr :=
  match fresh with
  | .error (.unexpectedEnd line) =>
    .error (.unexpectedEnd (if taken = [] then lastLine before else line))
  | fresh => fresh

/-- A call that gave `q` took the tokens `taken` and left the tokens `rest`, after
other calls had taken the tokens `before`. -/
structure Continues (before taken rest : List Token) (q : Parse) : Prop where
  rest_eq : q.after.rest = rest
  /-- No end mark is taken. -/
  not_endOfFile : ∀ t ∈ taken, t.isEndOfFile = false
  /-- No level of nesting is left open. -/
  depth_eq : q.after.depth = 0
  line_eq : q.after.line = lastLine (before ++ taken)
  /-- A fresh parser stops at the same place. -/
  fresh_rest : (Parser.parse { rest := taken ++ rest }).after.rest = rest
  /-- A fresh parser gives the same. -/
  result_eq : q.result = resultAfter before taken (Parser.parse { rest := taken ++ rest }).result

/-- `Resumes before ts qs` says that calls over the tokens `ts` gave `qs` one after
the other, each where the one before it had stopped.  The tokens `before` had been
taken already. -/
inductive Resumes : List Token → List Token → List Parse → Prop
  | nil {before rest : List Token} : Resumes before rest []
  | cons {before taken rest : List Token} {q : Parse} {qs : List Parse} :
      Continues before taken rest q → Resumes (before ++ taken) rest qs →
      Resumes before (taken ++ rest) (q :: qs)

/-- Two calls are the same but for the tokens `us` and `vs` behind the end mark `eof`,
which both have left where they are. -/
structure Agree (eof : Token) (us vs : List Token) (q r : Parse) : Prop where
  result_eq : q.result = r.result
  operators_eq : q.operators = r.operators
  rest_eq : ∃ left, q.after.rest = left ++ eof :: us ∧ r.after.rest = left ++ eof :: vs
  line_eq : q.after.line = r.after.line

/-! ## The line of the last token taken -/

@[simp] theorem lastLine_nil : lastLine [] = 1 := rfl

theorem lastLine_append_of_ne_nil {ts us : List Token} (h : us ≠ []) :
    lastLine (ts ++ us) = lastLine us := by
  simp [lastLine, List.getLast?_append, List.getLast?_eq_some_getLast h]

theorem resultAfter_of_ne_nil {before taken : List Token} (h : taken ≠ [])
    (fresh : Except Error Expr) : resultAfter before taken fresh = fresh := by
  unfold resultAfter
  split <;> simp [h]

/-- Where nothing is taken, the line in front of the next token shows only if there
is none. -/
theorem resultAfter_before (before : List Token) (f : SyntaxFault) (next? : Option Token) :
    resultAfter before [] (.error (f.before next? 1)) = .error (f.before next? (lastLine before)) := by
  cases next? with
  | none => rfl
  | some t => rfl

namespace Takes

variable {p q : Pending} {c d : Cursor}

/-- Where a token is taken, the line before it does not matter. -/
theorem eq_or_withLine (h : Takes p c q d) : (p = q ∧ c = d) ∨
    (∀ line, Takes p { c with line } q d) ∧ ∀ ts, c.rest = ts ++ d.rest → ts ≠ [] := by
  cases h with
  | refl => exact Or.inl ⟨rfl, rfl⟩
  | step hc hs h =>
    right
    refine ⟨fun line => .step hc hs h, fun ts hts hnil => ?_⟩
    obtain ⟨us, hus, -⟩ := h.tokens_cons hc hts
    simp [hnil] at hus

/-- The line of a cursor is that of the last token taken. -/
theorem line_eq (h : Takes p c q d) {ts : List Token} (hts : c.rest = ts ++ d.rest)
    (hne : ts ≠ []) : d.line = lastLine ts := by
  induction h generalizing ts with
  | refl => exact absurd (List.self_eq_append_left.1 hts) hne
  | @step p q r c d t rest hc hs h ih =>
    obtain ⟨us, rfl, hus⟩ := h.tokens_cons hc hts
    by_cases hnil : us = []
    · subst hnil
      have hstay := h.eq_or_withLine
      rcases hstay with ⟨-, rfl⟩ | ⟨-, hmove⟩
      · rfl
      · exact absurd rfl (hmove [] hus)
    · have hlast : lastLine ([t] ++ us) = lastLine us := lastLine_append_of_ne_nil hnil
      rw [ih hus hnil]
      exact hlast.symm

/-- The same, where tokens have been taken before. -/
theorem line_eq_lastLine_append (h : Takes p c q d) {before ts : List Token}
    (hline : c.line = lastLine before) (hts : c.rest = ts ++ d.rest) :
    d.line = lastLine (before ++ ts) := by
  rcases h.eq_or_withLine with ⟨-, rfl⟩ | ⟨-, hne⟩
  · obtain rfl : ts = [] := List.self_eq_append_left.1 hts
    rwa [List.append_nil]
  · rw [lastLine_append_of_ne_nil (hne ts hts)]
    exact h.line_eq hts (hne ts hts)

end Takes

/-! ## One call -/

namespace Parser

variable {p p' : Parser}

/-- A call takes tokens until it is stuck. -/
theorem exists_takes (hp : p.depth = 0) :
    ∃ q d, Takes {} p.cursor q d ∧ q.Stuck d.rest := by
  cases hres : p.parse.result with
  | ok e =>
    obtain ⟨d, hread, hends, -⟩ := hasRead_of_parse hp hres
    exact ⟨_, d, hread.takes, stuck_of_ends hends⟩
  | error err =>
    obtain ⟨d, ⟨q, f, htakes, hstuck, -⟩, -⟩ := fails_of_parse hp hres
    exact ⟨q, d, htakes, hstuck⟩

/-- What a call takes holds no end mark. -/
theorem exists_taken (hp : p.depth = 0) :
    ∃ c, p.rest = c ++ p.parse.after.rest ∧ ∀ t ∈ c, t.isEndOfFile = false := by
  obtain ⟨q, d, htakes, hstuck⟩ := exists_takes hp
  obtain ⟨c, hc : p.rest = c ++ d.rest, -⟩ := htakes.exists_tokens
  rw [(parse_of_takes hp htakes hstuck).1]
  exact ⟨c, hc, htakes.not_endOfFile hc⟩

/-- With an end mark still to come, a call leaves it to the next one. -/
theorem exists_isEndOfFile_after (hp : p.depth = 0) (heof : ∃ t ∈ p.rest, t.isEndOfFile = true) :
    ∃ t ∈ p.parse.after.rest, t.isEndOfFile = true := by
  obtain ⟨c, hc, hend⟩ := exists_taken hp
  obtain ⟨t, ht, hte⟩ := heof
  rw [hc] at ht
  rcases List.mem_append.1 ht with ht | ht
  · rw [hend t ht] at hte
    cases hte
  · exact ⟨t, ht, hte⟩

/-- Every level that a call counts is off the count again at its end. -/
theorem depth_parse (hp : p.depth = 0) : p.parse.after.depth = 0 := by
  obtain ⟨q, d, htakes, hstuck⟩ := exists_takes hp
  rw [(parse_of_takes hp htakes hstuck).1]
  exact htakes.depth_eq.trans hp

/-- Two trees that are spelled by the same tokens are the same. -/
theorem eq_of_result_eq_ok {ts : List Token} {e e' : Expr} (hp : p.depth = 0) (hp' : p'.depth = 0)
    (he : p.parse.result = .ok e) (he' : p'.parse.result = .ok e')
    (hts : p.rest = ts ++ p.parse.after.rest) (hts' : p'.rest = ts ++ p'.parse.after.rest) :
    e = e' := by
  obtain ⟨us, hus, hder, hnest, -⟩ := (parse_eq_ok_iff hp).1 ⟨he, rfl⟩
  obtain ⟨-, -, -, -, hends⟩ := (parse_eq_ok_iff hp').1 ⟨he', rfl⟩
  obtain rfl : us = ts := List.append_cancel_right (hus.symm.trans hts)
  have h : p'.parse.result = .ok e := ((parse_eq_ok_iff hp').2 ⟨us, hts', hder, hnest, hends⟩).1
  exact Except.ok.inj (h.symm.trans he')

/-- A call gives what it takes the tokens for, and the token that it stops at. -/
theorem result_congr {q : Pending} {d d' : Cursor} {ts : List Token} (hp : p.depth = 0)
    (hp' : p'.depth = 0) (h : Takes {} p.cursor q d) (h' : Takes {} p'.cursor q d')
    (hs : q.Stuck d.rest) (hts : p.rest = ts ++ d.rest) (hts' : p'.rest = ts ++ d'.rest)
    (hhead : d.rest.head? = d'.rest.head?) (hline : d.line = d'.line) :
    p.parse.result = p'.parse.result := by
  have hs' : q.Stuck d'.rest := fun t ht => hs t (hhead.trans ht)
  obtain ⟨hafter, -, hres⟩ := parse_of_takes hp h hs
  obtain ⟨hafter', -, hres'⟩ := parse_of_takes hp' h' hs'
  cases hf : q.fault? with
  | some f =>
    rw [hf] at hres hres'
    rw [hres, hres', hhead, hline]
  | none =>
    rw [hf] at hres hres'
    obtain ⟨e, he⟩ := hres
    obtain ⟨e', he'⟩ := hres'
    have hsplit : p.rest = ts ++ p.parse.after.rest := by rw [hafter]; exact hts
    have hsplit' : p'.rest = ts ++ p'.parse.after.rest := by rw [hafter']; exact hts'
    rw [he, he', eq_of_result_eq_ok hp hp' he he' hsplit hsplit']

/-- One call, wherever the calls before it have stopped. -/
theorem exists_continues {before : List Token} (hp : p.depth = 0)
    (hline : p.line = lastLine before) :
    ∃ taken rest, p.rest = taken ++ rest ∧ Continues before taken rest p.parse := by
  obtain ⟨q, d, htakes, hstuck⟩ := exists_takes hp
  obtain ⟨taken, htaken : p.rest = taken ++ d.rest, -⟩ := htakes.exists_tokens
  obtain ⟨hafter, -, hres⟩ := parse_of_takes hp htakes hstuck
  have hend : ∀ t ∈ taken, t.isEndOfFile = false := htakes.not_endOfFile htaken
  have hline' : p.parse.after.line = lastLine (before ++ taken) := by
    rw [hafter]
    exact htakes.line_eq_lastLine_append hline htaken
  refine ⟨taken, d.rest, htaken, ?_⟩
  rcases htakes.eq_or_withLine with ⟨rfl, rfl⟩ | ⟨hmove, hne⟩
  · -- Nothing is taken, by this parser or by a fresh one.
    have hfresh : Takes {} (Parser.cursor { rest := p.rest }) {} (Parser.cursor { rest := p.rest }) :=
      .refl
    obtain ⟨hafter', -, hres'⟩ := parse_of_takes rfl hfresh hstuck
    have hfault : fault? {} = some .missingExpression := rfl
    rw [hfault] at hres hres'
    obtain rfl : taken = [] := List.self_eq_append_left.1 htaken
    refine ⟨congrArg Parser.rest hafter, hend, depth_parse hp, hline', ?_, ?_⟩
    · rw [← htaken, hafter']
      rfl
    · rw [← htaken, hres, hres', show p.cursor.line = lastLine before from hline]
      exact (resultAfter_before before _ _).symm
  · -- A fresh parser gets to the same place, since only the line in front differs.
    have htaken_ne : taken ≠ [] := hne taken htaken
    have hfresh : Takes {} (Parser.cursor { rest := p.rest }) q d := by
      have h := hmove 1
      rw [cursor, hp] at h
      exact h
    obtain ⟨hafter', -, -⟩ := parse_of_takes rfl hfresh hstuck
    refine ⟨congrArg Parser.rest hafter, hend, depth_parse hp, hline', ?_, ?_⟩
    · rw [← htaken, hafter']
      rfl
    · rw [← htaken, resultAfter_of_ne_nil htaken_ne]
      exact result_congr hp rfl htakes hfresh hstuck htaken htaken rfl rfl

/-- One call of each of two parsers whose tokens differ behind an end mark only. -/
theorem parse_agree {ts us vs : List Token} {eof : Token} (heof : eof.isEndOfFile = true)
    (hp : p.depth = 0) (hp' : p'.depth = 0) (hline : p.line = p'.line)
    (hrest : p.rest = ts ++ eof :: us) (hrest' : p'.rest = ts ++ eof :: vs) :
    Agree eof us vs p.parse p'.parse := by
  obtain ⟨q, d, htakes, hstuck⟩ := exists_takes hp
  obtain ⟨taken, htaken : p.rest = taken ++ d.rest, -⟩ := htakes.exists_tokens
  have hend := htakes.not_endOfFile htaken
  -- The end mark is not among the tokens taken, so they are some of those in front of it.
  obtain ⟨left, rfl, hleft⟩ : ∃ left, ts = taken ++ left ∧ d.rest = left ++ eof :: us := by
    rcases List.append_eq_append_iff.1 (hrest.symm.trans htaken) with ⟨as, has, hd⟩ | ⟨as, has, hd⟩
    · cases as with
      | nil => exact ⟨[], by simpa using has.symm, hd.symm⟩
      | cons a as =>
        obtain ⟨rfl, -⟩ := List.cons.inj hd
        have := hend eof (has ▸ by simp)
        rw [heof] at this
        cases this
    · exact ⟨as, has, hd⟩
  have hhead : (left ++ eof :: us).head? = (left ++ eof :: vs).head? := by
    cases left <;> rfl
  have htakes' : Takes {} p'.cursor q { d with rest := left ++ eof :: vs } := by
    have h := htakes.frame htaken (left ++ eof :: vs)
    rw [← List.append_assoc, ← hrest', cursor, hp, hline] at h
    rw [cursor, hp']
    exact h
  have hstuck' : q.Stuck (left ++ eof :: vs) := fun t ht => hstuck t (hleft ▸ hhead.trans ht)
  obtain ⟨hafter, hops, -⟩ := parse_of_takes hp htakes hstuck
  obtain ⟨hafter', hops', -⟩ := parse_of_takes hp' htakes' hstuck'
  constructor
  case result_eq =>
    refine result_congr hp hp' htakes htakes' hstuck htaken ?_ (hleft ▸ hhead) rfl
    rw [hrest', List.append_assoc]
  case operators_eq => rw [hops, hops']
  case rest_eq =>
    refine ⟨left, ?_, ?_⟩
    · rw [hafter]
      exact hleft
    · rw [hafter']
      rfl
  case line_eq =>
    rw [hafter, hafter']
    rfl

/-! ## All calls -/

theorem depth_afterCalls (hp : p.depth = 0) (n : Nat) : (afterCalls n p).depth = 0 := by
  induction n with
  | zero => exact hp
  | succ n ih =>
    rw [afterCalls_succ]
    exact depth_parse ih

/-- Calls leave what stands at the end of the tokens. -/
theorem isSuffix_rest_afterCalls (hp : p.depth = 0) (n k : Nat) :
    (afterCalls (n + k) p).rest <:+ (afterCalls n p).rest := by
  induction k with
  | zero => exact List.suffix_refl _
  | succ k ih =>
    obtain ⟨c, hc, -⟩ := exists_taken (depth_afterCalls hp (n + k))
    rw [← Nat.add_assoc, afterCalls_succ]
    exact List.IsSuffix.trans ⟨c, hc.symm⟩ ih

theorem parses_resumes_from (n : Nat) : ∀ {p : Parser} {before : List Token}, p.depth = 0 →
    p.line = lastLine before → Resumes before p.rest (parses n p) := by
  induction n with
  | zero =>
    intro p before _ _
    exact .nil
  | succ n ih =>
    intro p before hp hline
    obtain ⟨taken, rest, htaken, hcall⟩ := exists_continues hp hline
    rw [htaken, parses]
    have h := ih hcall.depth_eq hcall.line_eq
    rw [hcall.rest_eq] at h
    exact .cons hcall h

theorem parses_agree {eof : Token} {us vs : List Token} (heof : eof.isEndOfFile = true) (n : Nat) :
    ∀ {p p' : Parser} {ts : List Token}, p.depth = 0 → p'.depth = 0 → p.line = p'.line →
      p.rest = ts ++ eof :: us → p'.rest = ts ++ eof :: vs →
      List.Forall₂ (Agree eof us vs) (parses n p) (parses n p') := by
  induction n with
  | zero =>
    intro p p' ts _ _ _ _ _
    exact .nil
  | succ n ih =>
    intro p p' ts hp hp' hline hrest hrest'
    have hcall := parse_agree heof hp hp' hline hrest hrest'
    obtain ⟨left, hleft, hleft'⟩ := hcall.rest_eq
    exact .cons hcall
      (ih (depth_parse hp) (depth_parse hp') hcall.line_eq hleft hleft')

/-- However often a parser is called, the calls take consecutive tokens and none of
them an end mark.  Each leaves the count of levels at none and gives what a fresh
parser gives over the tokens that are left for it, but for the line of an error where
none are left.  What stands behind an end mark has no influence on any call. -/
theorem parses_resumes (n : Nat) :
    (∀ ts, Resumes [] ts (parses n { rest := ts })) ∧
    ∀ (ts us vs : List Token) (eof : Token), eof.isEndOfFile = true →
      List.Forall₂ (Agree eof us vs) (parses n { rest := ts ++ eof :: us })
        (parses n { rest := ts ++ eof :: vs }) := by
  constructor
  · intro ts
    have hline : Parser.line { rest := ts } = lastLine [] := rfl
    exact parses_resumes_from n rfl hline
  · intro ts us vs eof heof
    exact parses_agree heof n rfl rfl rfl rfl rfl

/-- `-(1 *` -/
def minusParen : List Token :=
  [⟨.minus, "-", none, 1⟩, ⟨.leftParen, "(", none, 1⟩, ⟨.number, "1", none, 2⟩,
    ⟨.star, "*", none, 2⟩]

/-- Once without an end mark, and once with a literal behind the end mark or nothing. -/
theorem parses_resumes_minusParen :
    Resumes [] minusParen (parses 2 { rest := minusParen }) ∧
    List.Forall₂ (Agree (Token.endOfFile 3) [⟨.number, "2", none, 4⟩] [])
      (parses 3 { rest := minusParen ++ [Token.endOfFile 3, ⟨.number, "2", none, 4⟩] })
      (parses 3 { rest := minusParen ++ [Token.endOfFile 3] }) := by
  constructor
  · exact (parses_resumes 2).1 minusParen
  · exact (parses_resumes 3).2 minusParen [⟨.number, "2", none, 4⟩] [] (Token.endOfFile 3) rfl

end Parser

end Lox
