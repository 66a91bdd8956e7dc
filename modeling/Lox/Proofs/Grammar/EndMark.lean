import Lox.Proofs.Grammar.Resumption

/-!
# A missing end mark

A list of tokens without an end mark is parsed like the list with one behind it, call
after call (`Parser.parses_append_endOfFile`).  The calls take the same tokens and give
the same trees, and the same errors at tokens of the list.  The one difference is in the
error of a call that gets to the end.  Without an end mark it is that the tokens ran out,
on the line of the last one taken.  With an end mark it is a fault at the end mark.

An end mark can never be taken (`Pending.Stuck.append_endOfFile`).  So a parser that is
stuck without one is stuck at the same place with one.
-/

namespace Lox

open Pending

/-- What two calls give of which one is over a list and the other over the list with the
end mark `eof` behind it.  The tokens `taken` have been taken by them and the calls before
them, and the tokens `rest` of the list are left. -/
inductive EndsAs (eof : Token) (taken rest : List Token) :
    Except Error Expr → Except Error Expr → Prop
  | tree {e : Expr} : EndsAs eof taken rest (.ok e) (.ok e)
  /-- The same error, at a token of the list. -/
  | refused {t : Token} {message : String} : rest.head? = some t → t.isEndOfFile = false →
      EndsAs eof taken rest (.error (.syntactic t message)) (.error (.syntactic t message))
  /-- No token of the list is left. -/
  | ended {f : SyntaxFault} : rest = [] →
      EndsAs eof taken rest (.error (.unexpectedEnd (lastLine taken)))
        (.error (.syntactic eof f.message))

/-- The parser `p` is over some tokens and `p'` over the same tokens with the end mark
`eof` behind them, and the tokens `before` have been taken already.  A call of either
takes the tokens `taken` and leaves the tokens `rest`. -/
structure CorrespondsTo (eof : Token) (before taken rest : List Token) (p p' : Parser) : Prop where
  rest_eq : p.rest = taken ++ rest
  rest_eq' : p'.rest = taken ++ rest ++ [eof]
  after_eq : p.parse.after.rest = rest
  after_eq' : p'.parse.after.rest = rest ++ [eof]
  line_eq : p.parse.after.line = lastLine (before ++ taken)
  line_eq' : p'.parse.after.line = lastLine (before ++ taken)
  endsAs : EndsAs eof (before ++ taken) rest p.parse.result p'.parse.result

/-- Behind tokens that none can be taken of, an end mark is no help. -/
theorem Pending.Stuck.append_endOfFile {p : Pending} {ts : List Token} {eof : Token}
    (heof : eof.isEndOfFile = true) (h : p.Stuck ts) : p.Stuck (ts ++ [eof]) := by
  intro t ht q hs
  cases ts with
  | nil =>
    cases ht
    rw [hs.not_endOfFile] at heof
    cases heof
  | cons u ts => exact h t ht q hs

/-- A fault at the place where a call stops. -/
theorem EndsAs.before {eof : Token} {taken rest : List Token} {line : Nat}
    (hrest : ∀ t ∈ rest, t.isEndOfFile = false) (hline : line = lastLine taken) (f : SyntaxFault) :
    EndsAs eof taken rest (.error (f.before rest.head? line))
      (.error (f.before (rest ++ [eof]).head? line)) := by
  cases rest with
  | nil =>
    rw [hline]
    exact .ended rfl
  | cons t rest => exact .refused rfl (hrest t List.mem_cons_self)

namespace Parser

variable {p p' : Parser} {eof : Token}

/-- One call without an end mark and with one. -/
theorem exists_correspondsTo {before : List Token} (heof : eof.isEndOfFile = true)
    (hp : p.depth = 0) (hp' : p'.depth = 0) (hline : p.line = lastLine before)
    (hline' : p'.line = lastLine before) (hrest : ∀ t ∈ p.rest, t.isEndOfFile = false)
    (hrest' : p'.rest = p.rest ++ [eof]) :
    ∃ taken rest, CorrespondsTo eof before taken rest p p' := by
  obtain ⟨q, d, htakes, hstuck⟩ := exists_takes hp
  obtain ⟨taken, htaken : p.rest = taken ++ d.rest, -⟩ := htakes.exists_tokens
  have htaken' : p'.rest = taken ++ (d.rest ++ [eof]) := by
    rw [hrest', htaken, List.append_assoc]
  -- The tokens are taken whatever stands behind them.
  have htakes' : Takes {} p'.cursor q { d with rest := d.rest ++ [eof] } := by
    have h := htakes.frame htaken (d.rest ++ [eof])
    rw [← htaken', cursor, hp, hline, ← hline'] at h
    rw [cursor, hp']
    exact h
  obtain ⟨hafter, -, hres⟩ := parse_of_takes hp htakes hstuck
  obtain ⟨hafter', -, hres'⟩ := parse_of_takes hp' htakes' (hstuck.append_endOfFile heof)
  have hd : d.line = lastLine (before ++ taken) := htakes.line_eq_lastLine_append hline htaken
  refine ⟨taken, d.rest, ?_⟩
  constructor
  case rest_eq => exact htaken
  case rest_eq' => rw [htaken', List.append_assoc]
  case after_eq => rw [hafter]; rfl
  case after_eq' => rw [hafter']; rfl
  case line_eq => rw [hafter]; exact hd
  case line_eq' => rw [hafter']; exact hd
  case endsAs =>
    cases hf : q.fault? with
    | some f =>
      rw [hf] at hres hres'
      rw [hres, hres']
      exact .before (fun t ht => hrest t (htaken ▸ List.mem_append_right _ ht)) hd f
    | none =>
      rw [hf] at hres hres'
      obtain ⟨e, he⟩ := hres
      obtain ⟨e', he'⟩ := hres'
      have hsplit : p.rest = taken ++ p.parse.after.rest := by rw [hafter]; exact htaken
      have hsplit' : p'.rest = taken ++ p'.parse.after.rest := by rw [hafter']; exact htaken'
      obtain rfl := eq_of_result_eq_ok hp hp' he he' hsplit hsplit'
      rw [he, he']
      exact .tree

/-- Without an end mark and with one, every call takes the same tokens.  Both calls give
the same tree, or the same error at a token that is no end mark, or they are at the end.
There the error is that the tokens ran out, on the line of the last token taken so far,
and a fault at the end mark. -/
theorem parses_append_endOfFile (n : Nat) {ts : List Token}
    (hts : ∀ t ∈ ts, t.isEndOfFile = false) (line : Nat) :
    ∃ before taken rest, ts = before ++ (taken ++ rest) ∧
      CorrespondsTo (Token.endOfFile line) before taken rest (afterCalls n { rest := ts })
        (afterCalls n { rest := ts ++ [Token.endOfFile line] }) := by
  induction n with
  | zero =>
    obtain ⟨taken, rest, h⟩ : ∃ taken rest, CorrespondsTo (Token.endOfFile line) [] taken rest
        { rest := ts } { rest := ts ++ [Token.endOfFile line] } :=
      exists_correspondsTo rfl rfl rfl rfl rfl hts rfl
    exact ⟨[], taken, rest, h.rest_eq, h⟩
  | succ n ih =>
    obtain ⟨before, taken, rest, hsplit, hcall⟩ := ih
    have hdepth : (afterCalls n { rest := ts }).depth = 0 := depth_afterCalls rfl n
    have hdepth' : (afterCalls n { rest := ts ++ [Token.endOfFile line] }).depth = 0 :=
      depth_afterCalls rfl n
    have hrest : ∀ t ∈ rest, t.isEndOfFile = false := fun t ht =>
      hts t (hsplit ▸ List.mem_append_right _ (List.mem_append_right _ ht))
    rw [afterCalls_succ, afterCalls_succ]
    obtain ⟨taken', rest', h⟩ := exists_correspondsTo (Token.isEndOfFile_endOfFile line)
      (depth_parse hdepth) (depth_parse hdepth') hcall.line_eq hcall.line_eq'
      (hcall.after_eq ▸ hrest) (hcall.after_eq ▸ hcall.after_eq')
    refine ⟨before ++ taken, taken', rest', ?_, h⟩
    rw [hsplit, ← h.rest_eq, hcall.after_eq, List.append_assoc]

/-- One opener more than the limit allows, and nothing behind it. -/
theorem parses_append_endOfFile_openers :
    (∀ t ∈ List.replicate 65 (⟨.bang, "!", none, 2⟩ : Token), t.isEndOfFile = false) ∧
    ∃ before taken rest,
      List.replicate 65 (⟨.bang, "!", none, 2⟩ : Token) = before ++ (taken ++ rest) ∧
      CorrespondsTo (Token.endOfFile 3) before taken rest
        (afterCalls 1 { rest := List.replicate 65 (⟨.bang, "!", none, 2⟩ : Token) })
        (afterCalls 1 { rest := List.replicate 65 (⟨.bang, "!", none, 2⟩ : Token) ++
          [Token.endOfFile 3] }) := by
  have h : ∀ t ∈ List.replicate 65 (⟨.bang, "!", none, 2⟩ : Token), t.isEndOfFile = false := by
    intro t ht
    rw [List.eq_of_mem_replicate ht]
    rfl
  exact ⟨h, parses_append_endOfFile 1 h 3⟩

end Parser

end Lox
