import Lox.Expr.Basic
import Lox.Proofs.Grammar.Acceptance
import Lox.Proofs.Source.Separation

/-!
# Sources of expressions

An expression that the grammar derives and whose texts are as a source has them
reads back from its own source, but for the lines its operators stand on.  And
where a source is read to its end, the source of what was read has the same tokens
as the source itself, but for their lines.

Both directions rest on the tokens of an expression.  They are lexical where the
expression is canonical (`Expr.Canonical.lexical`), and the lexemes of an expression
are those of any lexical tokens that it is derived from (`Derives.lexemes_eq`).
-/

namespace Lox

open Alphabet Segment

/-! ## Up to lines -/

/-- The expression without the lines of its operators. -/
def Expr.eraseLines : Expr → Expr
  | binary left operator right => binary left.eraseLines operator.eraseLine right.eraseLines
  | grouping inner => grouping inner.eraseLines
  | literal value => literal value
  | unary operator operand => unary operator.eraseLine operand.eraseLines

@[simp] theorem Expr.rank_eraseLines (e : Expr) : e.eraseLines.rank = e.rank := by
  cases e <;> rfl

@[simp] theorem Expr.nesting_eraseLines (e : Expr) : e.eraseLines.nesting = e.nesting := by
  induction e with
  | binary left operator right ihl ihr => simp [eraseLines, nesting, ihl, ihr]
  | grouping inner ih => simp [eraseLines, nesting, ih]
  | literal value => rfl
  | unary operator operand ih => simp [eraseLines, nesting, ih]

section EraseLine

variable {t u : Token}

theorem Token.kind_eq (h : t.eraseLine = u.eraseLine) : t.kind = u.kind :=
  show t.eraseLine.kind = u.eraseLine.kind by rw [h]

theorem Token.value_eq (h : t.eraseLine = u.eraseLine) : t.value = u.value :=
  show t.eraseLine.value = u.eraseLine.value by rw [h]

theorem Spells.of_eraseLine {v : Literal} (hv : Spells t v) (h : u.eraseLine = t.eraseLine) :
    Spells u v := by
  have hk := Token.kind_eq h
  cases hv with
  | trueWord ht => exact .trueWord (hk.trans ht)
  | falseWord ht => exact .falseWord (hk.trans ht)
  | nilWord ht => exact .nilWord (hk.trans ht)
  | number ht => exact Token.value_eq h ▸ .number (hk.trans ht)
  | string ht => exact Token.value_eq h ▸ .string (hk.trans ht)

end EraseLine

/-- The lines of tokens do not matter to what they spell. -/
theorem Derives.of_eraseLine {e : Expr} {ts : List Token} (h : Derives e ts) :
    ∀ {us : List Token}, us.map Token.eraseLine = ts.map Token.eraseLine →
      ∃ f, Derives f us ∧ f.eraseLines = e.eraseLines := by
  induction h with
  | @literal t v hv =>
    intro us hus
    obtain ⟨u, rfl, hu⟩ := List.map_eq_singleton_iff.1 hus
    exact ⟨.literal v, .literal (hv.of_eraseLine hu), rfl⟩
  | @grouping left right e ts hleft _ hright ih =>
    intro us hus
    rw [List.cons_append, List.map_cons, List.map_append, List.map_singleton] at hus
    obtain ⟨u, us, rfl, hu, hus⟩ := List.map_eq_cons_iff.1 hus
    obtain ⟨vs, ws, rfl, hvs, hws⟩ := List.map_eq_append_iff.1 hus
    obtain ⟨v, rfl, hv⟩ := List.map_eq_singleton_iff.1 hws
    obtain ⟨f, hf, hfe⟩ := ih hvs
    exact ⟨.grouping f, .grouping ((Token.kind_eq hu).trans hleft) hf
      ((Token.kind_eq hv).trans hright), congrArg Expr.grouping hfe⟩
  | @unary op e ts hop _ hrank ih =>
    intro us hus
    obtain ⟨u, us, rfl, hu, hus⟩ := List.map_eq_cons_iff.1 hus
    obtain ⟨f, hf, hfe⟩ := ih hus
    rw [← Token.kind_eq hu] at hop
    rw [← Expr.rank_eraseLines, ← hfe, Expr.rank_eraseLines] at hrank
    exact ⟨.unary u f, .unary hop hf hrank, by rw [Expr.eraseLines, Expr.eraseLines, hu, hfe]⟩
  | @binary op l e f ts us hop _ _ hle hlt ihe ihf =>
    intro vs hvs
    rw [List.map_append, List.map_cons] at hvs
    obtain ⟨ws, xs, rfl, hws, hxs⟩ := List.map_eq_append_iff.1 hvs
    obtain ⟨v, xs, rfl, hv, hxs⟩ := List.map_eq_cons_iff.1 hxs
    obtain ⟨g, hg, hge⟩ := ihe hws
    obtain ⟨h, hh, hhf⟩ := ihf hxs
    rw [← Token.kind_eq hv] at hop
    rw [← Expr.rank_eraseLines, ← hge, Expr.rank_eraseLines] at hle
    rw [← Expr.rank_eraseLines, ← hhf, Expr.rank_eraseLines] at hlt
    exact ⟨.binary g v h, .binary hop hg hh hle hlt,
      by rw [Expr.eraseLines, Expr.eraseLines, hv, hge, hhf]⟩

/-! ## The tokens of an expression -/

/-- A text of digits, and a dot with digits after them if there is one. -/
def IsNumeral (cs : List Char) : Prop :=
  ∃ ds es, ds ≠ [] ∧ (∀ c ∈ ds, c.isDigit = true) ∧ (∀ c ∈ es, c.isDigit = true) ∧
    (cs = ds ∨ es ≠ [] ∧ cs = ds ++ '.' :: es)

/-- A token that is spelled in the only way its kind can be. -/
structure Token.Canonical (t : Token) : Prop where
  spelling : t.kind.spelling? = some t.lexeme
  literal : t.literal = none

/-- A literal whose text can stand in a source. -/
def Literal.Canonical : Literal → Prop
  | .number text => IsNumeral text.toList
  | .string text => quote ∉ text.toList
  | _ => True

/-- An expression whose operators and literals are canonical. -/
def Expr.Canonical : Expr → Prop
  | binary left operator right => left.Canonical ∧ operator.Canonical ∧ right.Canonical
  | grouping inner => inner.Canonical
  | literal value => value.Canonical
  | unary operator operand => operator.Canonical ∧ operand.Canonical

/-- The kind of the token that a literal is read from. -/
def Literal.kind : Literal → Kind
  | .bool true => .keyword .true_
  | .bool false => .keyword .false_
  | .nil => .keyword .nil_
  | .number _ => .number
  | .string _ => .string

/-- The tokens of an expression from left to right. -/
def Expr.tokens : Expr → List Token
  | binary left operator right => left.tokens ++ operator :: right.tokens
  | grouping inner =>
    Token.ofLexeme .leftParen ['('] 1 :: inner.tokens ++ [Token.ofLexeme .rightParen [')'] 1]
  | literal value => [Token.ofLexeme value.kind value.lexeme.toList 1]
  | unary operator operand => operator :: operand.tokens

theorem Expr.map_lexeme_tokens (e : Expr) : e.tokens.map Token.lexeme = e.lexemes := by
  induction e with
  | binary left operator right ihl ihr => simp [tokens, lexemes, ihl, ihr]
  | grouping inner ih =>
    have hleft : (Token.ofLexeme .leftParen ['('] 1).lexeme = "(" := rfl
    have hright : (Token.ofLexeme .rightParen [')'] 1).lexeme = ")" := rfl
    simp [tokens, lexemes, ih, hleft, hright]
  | literal value => simp [tokens, lexemes, Token.ofLexeme]
  | unary operator operand ih => simp [tokens, lexemes, ih]

/-! ## Canonical expressions -/

theorem Token.Canonical.lexical {t : Token} (h : t.Canonical) : t.Lexical :=
  ⟨wellFormed_of_spelling? h.spelling, h.literal.trans (Kind.valueOf?_eq_none h.spelling _).symm⟩

theorem IsNumeral.wellFormed {cs : List Char} (h : IsNumeral cs) :
    WellFormed (.lexeme .number cs) := by
  obtain ⟨ds, es, hne, hds, hes, rfl | ⟨hne', rfl⟩⟩ := h
  · obtain ⟨d, ds, rfl⟩ := List.exists_cons_of_ne_nil hne
    exact .integer hds
  · obtain ⟨d, ds, rfl⟩ := List.exists_cons_of_ne_nil hne
    obtain ⟨e, es, rfl⟩ := List.exists_cons_of_ne_nil hne'
    exact .decimal hds hes

theorem IsNumeral.of_wellFormed {cs : List Char} (h : WellFormed (.lexeme .number cs)) :
    IsNumeral cs := by
  rcases h.string_or_number rfl (by decide) with ⟨hk, -⟩ | ⟨-, hds⟩
  · cases hk
  · exact hds

theorem Literal.toList_lexeme_string (text : String) :
    (Literal.string text).lexeme.toList = quote :: (text.toList ++ [quote]) := by
  simp [lexeme, quote]

theorem Literal.Canonical.wellFormed {v : Literal} (h : v.Canonical) :
    WellFormed (.lexeme v.kind v.lexeme.toList) := by
  cases v with
  | bool b =>
    cases b with
    | true => exact wellFormed_keyword .true_
    | false => exact wellFormed_keyword .false_
  | nil => exact wellFormed_keyword .nil_
  | number text => exact IsNumeral.wellFormed h
  | string text =>
    rw [toList_lexeme_string]
    exact .string h

/-- A literal is spelled by the token of its lexeme. -/
theorem Literal.spells (v : Literal) (line : Nat) :
    Spells (Token.ofLexeme v.kind v.lexeme.toList line) v := by
  cases v with
  | bool b =>
    cases b with
    | true => exact .trueWord rfl
    | false => exact .falseWord rfl
  | nil => exact .nilWord rfl
  | number text =>
    have hvalue : (Token.ofLexeme .number text.toList line).value = text := String.ofList_toList
    have h := Spells.number (t := Token.ofLexeme .number text.toList line) rfl
    rw [hvalue] at h
    exact h
  | string text =>
    have hvalue : (Token.ofLexeme .string (quote :: (text.toList ++ [quote])) line).value = text := by
      simp [Token.value, Token.ofLexeme, Kind.valueOf?]
    have h := Spells.string (t := Token.ofLexeme .string (quote :: (text.toList ++ [quote])) line) rfl
    rw [hvalue, ← toList_lexeme_string] at h
    exact h

namespace Expr.Canonical

theorem lexical {e : Expr} (h : e.Canonical) : ∀ t ∈ e.tokens, t.Lexical := by
  induction e with
  | binary left operator right ihl ihr =>
    obtain ⟨hleft, hop, hright⟩ := h
    intro t ht
    rcases List.mem_append.1 ht with ht | ht
    · exact ihl hleft t ht
    · exact List.forall_mem_cons.2 ⟨hop.lexical, ihr hright⟩ t ht
  | grouping inner ih =>
    have hparen : (Token.ofLexeme .leftParen ['('] 1).Lexical := .of_wellFormed (.single rfl) 1
    have hparen' : (Token.ofLexeme .rightParen [')'] 1).Lexical := .of_wellFormed (.single rfl) 1
    intro t ht
    rcases List.mem_append.1 ht with ht | ht
    · exact List.forall_mem_cons.2 ⟨hparen, ih h⟩ t ht
    · exact List.forall_mem_singleton.2 hparen' t ht
  | literal value => exact List.forall_mem_singleton.2 (.of_wellFormed h.wellFormed 1)
  | unary operator operand ih => exact List.forall_mem_cons.2 ⟨h.1.lexical, ih h.2⟩

end Expr.Canonical

/-- What can be derived at all is derived from its tokens. -/
theorem Derives.tokens {e : Expr} {ts : List Token} (h : Derives e ts) : Derives e e.tokens := by
  induction h with
  | @literal t v _ => exact .literal (v.spells 1)
  | grouping _ _ _ ih => exact .grouping rfl ih rfl
  | unary hop _ hrank ih => exact .unary hop ih hrank
  | binary hop _ _ hle hlt ihe ihf => exact .binary hop ihe ihf hle hlt

/-! ## Derived expressions -/

theorem Token.Lexical.lexeme_eq {t : Token} {s : String} (h : t.Lexical)
    (hs : t.kind.spelling? = some s) : t.lexeme = s :=
  String.toList_inj.1 (h.wellFormed.eq_toList hs)

theorem Token.Lexical.value_of_number {t : Token} (h : t.Lexical) (hk : t.kind = .number) :
    t.value = t.lexeme := by
  rw [value, h.literal, hk]
  exact String.ofList_toList

theorem Token.Lexical.lexeme_of_string {t : Token} (h : t.Lexical) (hk : t.kind = .string) :
    t.lexeme = (Literal.string t.value).lexeme := by
  have hwell := h.wellFormed
  rw [hk] at hwell
  obtain ⟨cs, -, hcs⟩ := hwell.exists_string
  have hvalue : t.value = String.ofList cs := by
    rw [value, h.literal, hk, hcs, Kind.valueOf?, List.tail_cons, List.dropLast_concat]
    rfl
  rw [← String.toList_inj, Literal.toList_lexeme_string, hvalue, String.toList_ofList, hcs]

theorem Spells.lexeme_eq {t : Token} {v : Literal} (h : Spells t v) (ht : t.Lexical) :
    v.lexeme = t.lexeme := by
  cases h with
  | trueWord hk | falseWord hk | nilWord hk =>
    refine (ht.lexeme_eq ?_).symm
    rw [hk]
    rfl
  | number hk => exact ht.value_of_number hk
  | string hk => exact (ht.lexeme_of_string hk).symm

/-- An expression has the lexemes of the tokens that it is derived from. -/
theorem Derives.lexemes_eq {e : Expr} {ts : List Token} (h : Derives e ts)
    (hts : ∀ t ∈ ts, t.Lexical) : e.lexemes = ts.map Token.lexeme := by
  induction h with
  | literal hv =>
    rw [Expr.lexemes, List.map_singleton, hv.lexeme_eq (hts _ List.mem_cons_self)]
  | @grouping left right e ts hleft _ hright ih =>
    obtain ⟨hl, hts⟩ := List.forall_mem_cons.1 hts
    obtain ⟨hts, hr⟩ := List.forall_mem_append.1 hts
    have hlexeme : left.lexeme = "(" := hl.lexeme_eq (by rw [hleft]; rfl)
    have hlexeme' : right.lexeme = ")" :=
      (hr right List.mem_cons_self).lexeme_eq (by rw [hright]; rfl)
    rw [Expr.lexemes, ih hts, List.cons_append, List.map_cons, List.map_append, hlexeme,
      List.map_singleton, hlexeme']
  | unary _ _ _ ih =>
    obtain ⟨-, hts⟩ := List.forall_mem_cons.1 hts
    rw [Expr.lexemes, ih hts, List.map_cons]
  | binary _ _ _ _ _ ihe ihf =>
    obtain ⟨hts, hus⟩ := List.forall_mem_append.1 hts
    obtain ⟨-, hus⟩ := List.forall_mem_cons.1 hus
    rw [Expr.lexemes, ihe hts, ihf hus, List.map_append, List.map_cons]

/-! ## Round trips -/

theorem Token.eq_endOfFile {t : Token} (h : t.eraseLine = Token.endOfFile 0) :
    t = Token.endOfFile t.line := by
  obtain ⟨kind, lexeme, literal, line⟩ := t
  simp only [eraseLine, endOfFile, Token.mk.injEq, and_true] at h
  obtain ⟨rfl, rfl, rfl⟩ := h
  rfl

theorem ends_endOfFile (line : Nat) : Ends 0 [Token.endOfFile line] :=
  ends_zero_iff.2 fun _ ht => Option.some.inj ht ▸ rfl

/-- The source of a canonical expression reads back as the expression. -/
theorem Expr.Canonical.parse_source {e : Expr} {ts : List Token} (hc : e.Canonical)
    (h : Derives e ts) (hn : e.nesting ≤ nestingLimit) :
    ∃ f line, (Parser.parse { rest := (scan e.source).tokens }).expr? = some f ∧
      f.eraseLines = e.eraseLines ∧
      (Parser.parse { rest := (scan e.source).tokens }).after.rest = [Token.endOfFile line] := by
  have hscan := (scan_intercalate hc.lexical).2
  rw [e.map_lexeme_tokens] at hscan
  obtain ⟨us, vs, htokens, hus, hvs⟩ := List.map_eq_append_iff.1 hscan
  obtain ⟨v, rfl, hv⟩ := List.map_eq_singleton_iff.1 hvs
  rw [Token.eq_endOfFile hv] at htokens
  obtain ⟨f, hf, hfe⟩ := h.tokens.of_eraseLine hus
  rw [← e.nesting_eraseLines, ← hfe, f.nesting_eraseLines] at hn
  obtain ⟨hparse, hrest⟩ :=
    (Parser.parse_eq_ok_iff (p := { rest := (scan e.source).tokens }) rfl).2
      ⟨us, htokens, hf, hn, ends_endOfFile v.line⟩
  exact ⟨f, v.line, Parse.expr?_eq_some_iff.2 hparse, hfe, hrest⟩

/-- Where a source is read to its end, the source of what was read has its tokens. -/
theorem Parser.scan_source {source : String} {e : Expr} {line : Nat}
    (h : (Parser.parse { rest := (scan source).tokens }).expr? = some e)
    (hrest : (Parser.parse { rest := (scan source).tokens }).after.rest = [Token.endOfFile line]) :
    (scan e.source).errors = [] ∧
      (scan e.source).tokens.map Token.eraseLine = (scan source).tokens.map Token.eraseLine := by
  obtain ⟨ts, htokens, hder, -, -⟩ :=
    (parse_eq_ok_iff rfl).1 ⟨Parse.expr?_eq_some_iff.1 h, hrest⟩
  obtain ⟨hts, -⟩ := List.append_inj' (show _ = _ from htokens) rfl
  have hlexical : ∀ t ∈ ts, t.Lexical := fun t ht => lexical_of_mem_tokens (hts ▸ ht)
  have hscan := scan_intercalate hlexical
  rw [← hder.lexemes_eq hlexical] at hscan
  have herase : (scan source).tokens.map Token.eraseLine =
      ts.map Token.eraseLine ++ [Token.endOfFile 0] := by
    rw [show (scan source).tokens = _ from htokens, List.map_append]
    rfl
  rw [herase]
  exact hscan

/-- A canonical expression of the grammar reads back from its source, which has no
errors, but for the lines of its operators.  And where a source is read to its end,
the source of what was read has the tokens of the source itself, but for their lines. -/
theorem source_roundTrip :
    (∀ (e : Expr) (ts : List Token), Derives e ts → e.nesting ≤ nestingLimit → e.Canonical →
      (scan e.source).errors = [] ∧
      ∃ f line, (Parser.parse { rest := (scan e.source).tokens }).expr? = some f ∧
        f.eraseLines = e.eraseLines ∧
        (Parser.parse { rest := (scan e.source).tokens }).after.rest =
          [Token.endOfFile line]) ∧
    ∀ (source : String) (e : Expr) (line : Nat),
      (Parser.parse { rest := (scan source).tokens }).expr? = some e →
      (Parser.parse { rest := (scan source).tokens }).after.rest = [Token.endOfFile line] →
      (scan e.source).errors = [] ∧
      (scan e.source).tokens.map Token.eraseLine = (scan source).tokens.map Token.eraseLine := by
  constructor
  · intro e ts h hn hc
    have herrors := (scan_intercalate hc.lexical).1
    rw [e.map_lexeme_tokens] at herrors
    exact ⟨herrors, hc.parse_source h hn⟩
  · intro source e line h hrest
    exact Parser.scan_source h hrest

/-- `!"//"` -/
def bangSlashes : Expr := .unary ⟨.bang, "!", none, 1⟩ (.literal (.string "//"))

theorem source_roundTrip_bangSlashes :
    ((scan bangSlashes.source).errors = [] ∧
      ∃ f line, (Parser.parse { rest := (scan bangSlashes.source).tokens }).expr? = some f ∧
        f.eraseLines = bangSlashes.eraseLines ∧
        (Parser.parse { rest := (scan bangSlashes.source).tokens }).after.rest =
          [Token.endOfFile line]) ∧
    (scan bangSlashes.source).errors = [] ∧
      (scan bangSlashes.source).tokens.map Token.eraseLine =
        (scan "!\"//\"").tokens.map Token.eraseLine := by
  have hquote : quote ∉ "//".toList := by decide
  constructor
  · exact source_roundTrip.1 bangSlashes [⟨.bang, "!", none, 1⟩, ⟨.string, "", some "//", 1⟩]
      (.unary (Or.inl rfl) (.literal (.string rfl)) rfl) (by decide) ⟨⟨rfl, rfl⟩, hquote⟩
  · exact source_roundTrip.2 "!\"//\"" bangSlashes 1 (by decide +kernel) (by decide +kernel)

end Lox
