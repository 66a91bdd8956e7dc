import Lox.Proofs.Grammar.Lookahead
import Lox.Proofs.Source.CarriageReturns

/-!
# Line ends

It makes no difference to the tokens and errors of a source whether its lines end in a
line break or in a carriage return and a line break, but for the texts of strings that span
lines (`Proofs/Source/CarriageReturns`).  So it makes none to what a parser gives, however
often it is called, but for the texts of those strings in its trees and of the token that an
error is about (`parse_withReturns`).

Behind it is a fact about any change to the texts of tokens (`Parser.parse_mapText`).  If
only those of strings change, then only the strings of a tree do.
-/

namespace Lox

open Alphabet

/-! ## Texts changed -/

/-- The literal with its text changed if it is a string. -/
def Literal.mapString (f : String → String) : Literal → Literal
  | bool b => bool b
  | nil => nil
  | number text => number text
  | string text => string (f text)

/-- The expression with the texts of its strings changed. -/
def Expr.mapStrings (f : String → String) : Expr → Expr
  | binary left operator right => binary (left.mapStrings f) operator (right.mapStrings f)
  | grouping inner => grouping (inner.mapStrings f)
  | literal value => literal (value.mapString f)
  | unary operator operand => unary operator (operand.mapStrings f)

/-- The error with the texts of its token changed. -/
def Error.mapText (f : String → String) : Error → Error
  | syntactic token message => syntactic (token.mapText f) message
  | lexical line message => lexical line message
  | unexpectedEnd line => unexpectedEnd line

/-- Only strings change their texts. -/
def ChangesOnlyStrings (f : String → String) (ts : List Token) : Prop :=
  ∀ t ∈ ts, t.kind ≠ .string → t.mapText f = t

section Change

variable {f : String → String}

@[simp] theorem Expr.rank_mapStrings (e : Expr) : (e.mapStrings f).rank = e.rank := by
  cases e <;> rfl

@[simp] theorem Expr.nesting_mapStrings (e : Expr) : (e.mapStrings f).nesting = e.nesting := by
  induction e with
  | binary left operator right ihl ihr => rw [mapStrings, nesting, nesting, ihl, ihr]
  | grouping inner ih => rw [mapStrings, nesting, nesting, ih]
  | literal value => rfl
  | unary operator operand ih => rw [mapStrings, nesting, nesting, ih]

theorem Token.value_mapText (f : String → String) (t : Token) :
    (t.mapText f).value = f t.value := by
  obtain ⟨kind, lexeme, literal, line⟩ := t
  cases literal <;> rfl

theorem Spells.mapText {t : Token} {v : Literal} (h : Spells t v)
    (ht : t.kind ≠ .string → t.mapText f = t) : Spells (t.mapText f) (v.mapString f) := by
  cases h with
  | trueWord hk => exact .trueWord hk
  | falseWord hk => exact .falseWord hk
  | nilWord hk => exact .nilWord hk
  | number hk =>
    rw [ht (by rw [hk]; decide)]
    exact .number hk
  | string hk =>
    rw [Literal.mapString, ← t.value_mapText f]
    exact .string hk

/-- Changed strings spell the expression with its strings changed. -/
theorem Derives.mapText {e : Expr} {ts : List Token} (h : Derives e ts)
    (hts : ChangesOnlyStrings f ts) : Derives (e.mapStrings f) (ts.map (Token.mapText f)) := by
  induction h with
  | literal hv => exact .literal (hv.mapText (hts _ (List.mem_singleton.2 rfl)))
  | @grouping left right e ts hleft _ hright ih =>
    have hinner : ChangesOnlyStrings f ts :=
      fun t ht => hts t (List.mem_append_left _ (List.mem_cons_of_mem _ ht))
    rw [List.map_append, List.map_cons, List.map_singleton]
    exact .grouping hleft (ih hinner) hright
  | @unary operator e ts hop _ hrank ih =>
    have hne : operator.kind ≠ .string := by
      rcases hop with hop | hop <;> rw [hop] <;> decide
    have hself := hts operator List.mem_cons_self hne
    have hoperand : ChangesOnlyStrings f ts := fun t ht => hts t (List.mem_cons_of_mem _ ht)
    rw [List.map_cons, hself]
    exact .unary hop (ih hoperand) (by rw [Expr.rank_mapStrings, hrank])
  | @binary operator l e g ts us hl _ _ he hg ihe ihg =>
    have hne : operator.kind ≠ .string := by
      intro hk
      rw [hk] at hl
      cases hl
    have hself := hts operator (List.mem_append_right _ List.mem_cons_self) hne
    have hleft : ChangesOnlyStrings f ts := fun t ht => hts t (List.mem_append_left _ ht)
    have hright : ChangesOnlyStrings f us :=
      fun t ht => hts t (List.mem_append_right _ (List.mem_cons_of_mem _ ht))
    rw [List.map_append, List.map_cons, hself]
    exact .binary hl (ihe hleft) (ihg hright) (by rwa [Expr.rank_mapStrings])
      (by rwa [Expr.rank_mapStrings])

end Change

/-! ## Parsers over changed tokens -/

namespace Parser

variable {f : String → String} {p p' : Parser}

/-- One call over changed tokens. -/
theorem parse_mapText (hp : p.depth = 0) (hp' : p'.depth = 0)
    (heof : ∃ t ∈ p.rest, t.isEndOfFile = true) (hstrings : ChangesOnlyStrings f p.rest)
    (hrest : p'.rest = p.rest.map (Token.mapText f)) :
    p'.parse.after.rest = p.parse.after.rest.map (Token.mapText f) ∧
      p'.parse.result = (p.parse.result.map (Expr.mapStrings f)).mapError (Error.mapText f) := by
  obtain ⟨c, hc, -⟩ := exists_taken hp
  have hk : p.parse.after.rest = p.rest.drop c.length := by rw [hc, List.drop_left]
  have hkinds : (p'.rest.take (c.length + 1)).map Token.kind =
      (p.rest.take (c.length + 1)).map Token.kind := by
    rw [hrest, ← List.map_take, List.map_map]
    rfl
  obtain ⟨hafter, hpar⟩ := parse_parallel hp hp' hk hkinds
  have hafter' : p'.parse.after.rest = p.parse.after.rest.map (Token.mapText f) := by
    rw [hafter, hrest, hk, List.map_drop]
  refine ⟨hafter', ?_⟩
  cases hres : p.parse.result with
  | ok e =>
    obtain ⟨ts, hts, hder, hnest, hends⟩ := (parse_eq_ok_iff hp).1 ⟨hres, rfl⟩
    have hder' : Derives (e.mapStrings f) (ts.map (Token.mapText f)) :=
      hder.mapText fun t ht => hstrings t (hts ▸ List.mem_append_left _ ht)
    have hends' : Ends 0 (p.parse.after.rest.map (Token.mapText f)) := by
      intro t l ht hl
      rw [List.head?_map] at ht
      obtain ⟨u, hu, rfl⟩ := Option.map_eq_some_iff.1 ht
      exact hends u l hu hl
    have hts' : p'.rest = ts.map (Token.mapText f) ++ p.parse.after.rest.map (Token.mapText f) := by
      rw [hrest, ← List.map_append, ← hts]
    have hnest' : (e.mapStrings f).nesting ≤ nestingLimit := by rwa [Expr.nesting_mapStrings]
    exact ((parse_eq_ok_iff hp').2 ⟨_, hts', hder', hnest', hends'⟩).1
  | error err =>
    rw [hres] at hpar
    generalize p'.parse.result = r at hpar ⊢
    cases hpar with
    | refused ht hu =>
      rw [hrest, List.getElem?_map, ht, Option.map_some] at hu
      obtain rfl := Option.some.inj hu
      rfl
    | ended ht _ =>
      -- The end mark is never taken.
      obtain ⟨t, hmem, -⟩ := exists_isEndOfFile_after hp heof
      rw [hk, List.drop_eq_nil_of_le (List.getElem?_eq_none_iff.1 ht)] at hmem
      cases hmem

/-- All calls over changed tokens. -/
theorem afterCalls_mapText {ts : List Token} (heof : ∃ t ∈ ts, t.isEndOfFile = true)
    (hstrings : ChangesOnlyStrings f ts) (n : Nat) :
    (afterCalls n { rest := ts.map (Token.mapText f) }).rest =
        (afterCalls n { rest := ts }).rest.map (Token.mapText f) ∧
      (∃ t ∈ (afterCalls n { rest := ts }).rest, t.isEndOfFile = true) ∧
      ChangesOnlyStrings f (afterCalls n { rest := ts }).rest := by
  induction n with
  | zero => exact ⟨rfl, heof, hstrings⟩
  | succ n ih =>
    obtain ⟨hrest, heof, hstrings⟩ := ih
    have hdepth : (afterCalls n { rest := ts }).depth = 0 := depth_afterCalls rfl n
    have hdepth' : (afterCalls n { rest := ts.map (Token.mapText f) }).depth = 0 :=
      depth_afterCalls rfl n
    obtain ⟨c, hc, -⟩ := exists_taken hdepth
    rw [afterCalls_succ, afterCalls_succ]
    refine ⟨(parse_mapText hdepth hdepth' heof hstrings hrest).1,
      exists_isEndOfFile_after hdepth heof, fun t ht => hstrings t ?_⟩
    rw [hc]
    exact List.mem_append_right _ ht

end Parser

/-! ## Sources with carriage returns -/

theorem changesOnlyStrings_tokens (source : String) :
    ChangesOnlyStrings withReturns (scan source).tokens := by
  intro t ht hk
  by_contra hne
  exact hk ((mapText_withReturns_ne_iff ht).1 hne).1

/-- With a carriage return in front of each line break, a source has the same tokens on the
same lines, and only strings that span lines change their texts.  It has the same errors.
And however often a parser over the tokens is called, it gives the same tree with such
strings changed, or the same error with the text of its token changed. -/
theorem parse_withReturns (source : String) :
    (scan (withReturns source)).tokens = (scan source).tokens.map (Token.mapText withReturns) ∧
      (∀ t ∈ (scan source).tokens,
        t.mapText withReturns ≠ t ↔ t.kind = .string ∧ lineBreak ∈ t.lexeme.toList) ∧
      (scan (withReturns source)).errors = (scan source).errors ∧
      ∀ n, (Parser.afterCalls n { rest := (scan (withReturns source)).tokens }).parse.result =
        ((Parser.afterCalls n { rest := (scan source).tokens }).parse.result.map
          (Expr.mapStrings withReturns)).mapError (Error.mapText withReturns) := by
  refine ⟨tokens_withReturns source, fun t ht => mapText_withReturns_ne_iff ht,
    errors_withReturns source, fun n => ?_⟩
  rw [tokens_withReturns]
  obtain ⟨hrest, heof, hstrings⟩ :=
    Parser.afterCalls_mapText (scan source).exists_isEndOfFile (changesOnlyStrings_tokens source) n
  exact (Parser.parse_mapText (Parser.depth_afterCalls rfl n) (Parser.depth_afterCalls rfl n) heof
    hstrings hrest).2

/-- In a string, in a comment and between tokens. -/
example : (scan (withReturns "\"a\nb\" //c\n1")).tokens =
    [⟨.string, "\"a\r\nb\"", some "a\r\nb", 1⟩, ⟨.number, "1", some "1", 3⟩,
      Token.endOfFile 3] := by decide

end Lox
