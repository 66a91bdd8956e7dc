import Lox.Expr.Basic
import Lox.Proofs.Grammar.Resumption
import Lox.Proofs.RoundTrip
import Lox.Proofs.Text.Boundary

/-!
# Reading prefix forms back

Different expressions without strings have different prefix forms, unless they differ in
the lines of their operators only (`prefixForm_identifies`).  With strings this is not so,
since a string is written as it is and can look like anything.

A prefix form is the text of a `Form`, which is an atom or has one or two parts in
parentheses.  The text tells the form, and where the form ends (`Form.text_append_inj`).
The form tells the expression: a unary operator has one part and a binary operator two, and
no operator is spelled like the head of a group.
-/

namespace Lox

open Segment

/-! ## Forms and their texts -/

/-- What a prefix form is made of. -/
inductive Form where
  /-- A text by itself. -/
  | atom (text : List Char)
  /-- A head and one part. -/
  | one (head : List Char) (part : Form)
  /-- A head and two parts. -/
  | two (head : List Char) (left right : Form)

/-- Whether a character can be in an atom or a head. -/
def isInner (c : Char) : Bool := c != '(' && c != ')' && c != ' '

namespace Form

/-- The text of a form. -/
def text : Form → List Char
  | atom text => text
  | one head part => '(' :: (head ++ ' ' :: (part.text ++ [')']))
  | two head left right => '(' :: (head ++ ' ' :: (left.text ++ ' ' :: (right.text ++ [')'])))

theorem text_one_append (head : List Char) (part : Form) (rest : List Char) :
    (one head part).text ++ rest = '(' :: (head ++ ' ' :: (part.text ++ ')' :: rest)) := by
  simp [text]

theorem text_two_append (head : List Char) (left right : Form) (rest : List Char) :
    (two head left right).text ++ rest =
      '(' :: (head ++ ' ' :: (left.text ++ ' ' :: (right.text ++ ')' :: rest))) := by
  simp [text]

/-- A form whose atoms and heads can be told from what is around them. -/
inductive Readable : Form → Prop
  | atom {text : List Char} : text ≠ [] → (∀ c ∈ text, isInner c = true) → Readable (.atom text)
  | one {head : List Char} {part : Form} : (∀ c ∈ head, isInner c = true) → Readable part →
      Readable (.one head part)
  | two {head : List Char} {left right : Form} : (∀ c ∈ head, isInner c = true) →
      Readable left → Readable right → Readable (.two head left right)

/-- Nothing follows that can be in an atom. -/
def Stops (rest : List Char) : Prop := ∀ c, rest.head? = some c → isInner c = false

theorem stops_nil : Stops [] := nofun

theorem stops_space (rest : List Char) : Stops (' ' :: rest) := by
  rintro c ⟨⟩
  rfl

theorem stops_close (rest : List Char) : Stops (')' :: rest) := by
  rintro c ⟨⟩
  rfl

/-- No atom starts with a parenthesis. -/
theorem atom_append_ne {text rest rest' : List Char} (hne : text ≠ [])
    (htext : ∀ c ∈ text, isInner c = true) : text ++ rest ≠ '(' :: rest' :=
  Text.append_ne_cons hne fun h => Bool.false_ne_true (htext '(' h)

/-- A head is told from its parts. -/
theorem head_append_inj {head head' rest rest' : List Char}
    (hhead : ∀ c ∈ head, isInner c = true) (hhead' : ∀ c ∈ head', isInner c = true)
    (h : '(' :: (head ++ ' ' :: rest) = '(' :: (head' ++ ' ' :: rest')) :
    head = head' ∧ rest = rest' := by
  obtain ⟨hheads, hrest⟩ := Text.append_inj_of_class hhead hhead' (stops_space rest)
    (stops_space rest') (List.cons.inj h).2
  exact ⟨hheads, (List.cons.inj hrest).2⟩

/-- The text of a form tells the form and where it ends. -/
theorem text_append_inj {f : Form} (hf : f.Readable) : ∀ {g : Form} {rest rest' : List Char},
    g.Readable → Stops rest → Stops rest' → f.text ++ rest = g.text ++ rest' →
    f = g ∧ rest = rest' := by
  induction hf with
  | @atom text hne htext =>
    intro g rest rest' hg hrest hrest' h
    cases hg with
    | atom _ htext' =>
      obtain ⟨rfl, hrest⟩ := Text.append_inj_of_class htext htext' hrest hrest' h
      exact ⟨rfl, hrest⟩
    | one _ _ | two _ _ _ => exact absurd h (atom_append_ne hne htext)
  | one hhead _ ih =>
    intro g rest rest' hg _ _ h
    cases hg with
    | atom hne htext => exact absurd h.symm (atom_append_ne hne htext)
    | one hhead' hpart' =>
      rw [text_one_append, text_one_append] at h
      obtain ⟨rfl, hpart⟩ := head_append_inj hhead hhead' h
      obtain ⟨rfl, hclose⟩ := ih hpart' (stops_close _) (stops_close _) hpart
      exact ⟨rfl, (List.cons.inj hclose).2⟩
    | two hhead' hleft' _ =>
      -- A form with two parts goes on where a form with one part ends.
      rw [text_one_append, text_two_append] at h
      obtain ⟨-, hpart⟩ := head_append_inj hhead hhead' h
      obtain ⟨-, hclose⟩ := ih hleft' (stops_close _) (stops_space _) hpart
      cases hclose
  | two hhead _ _ ihl ihr =>
    intro g rest rest' hg _ _ h
    cases hg with
    | atom hne htext => exact absurd h.symm (atom_append_ne hne htext)
    | one hhead' hpart' =>
      rw [text_two_append, text_one_append] at h
      obtain ⟨-, hpart⟩ := head_append_inj hhead hhead' h
      obtain ⟨-, hclose⟩ := ihl hpart' (stops_space _) (stops_close _) hpart
      cases hclose
    | two hhead' hleft' hright' =>
      rw [text_two_append, text_two_append] at h
      obtain ⟨rfl, hleft⟩ := head_append_inj hhead hhead' h
      obtain ⟨rfl, hspace⟩ := ihl hleft' (stops_space _) (stops_space _) hleft
      obtain ⟨rfl, hclose⟩ :=
        ihr hright' (stops_close _) (stops_close _) (List.cons.inj hspace).2
      exact ⟨rfl, (List.cons.inj hclose).2⟩

end Form

/-! ## The form of an expression -/

namespace Expr

/-- The form that the prefix form of an expression is the text of. -/
def form : Expr → Form
  | binary left operator right => .two operator.lexeme.toList left.form right.form
  | grouping inner => .one "group".toList inner.form
  | literal value => .atom value.display.toList
  | unary operator operand => .one operator.lexeme.toList operand.form

theorem text_form (e : Expr) : e.form.text = e.prefixForm.toList := by
  induction e with
  | binary left operator right ihl ihr => simp [form, Form.text, prefixForm, ihl, ihr]
  | grouping inner ih => simp [form, Form.text, prefixForm, ih]
  | literal value => rfl
  | unary operator operand ih => simp [form, Form.text, prefixForm, ih]

/-- An expression without strings. -/
def StringFree : Expr → Prop
  | binary left _ right => left.StringFree ∧ right.StringFree
  | grouping inner => inner.StringFree
  | literal (.string _) => False
  | literal _ => True
  | unary _ operand => operand.StringFree

/-- An expression without strings whose operators and numbers are as they are spelled in a
source. -/
inductive Plain : Expr → Prop
  | binary {left right : Expr} {operator : Token} : left.Plain →
      operator.kind.level?.isSome = true → operator.Canonical → right.Plain →
      Plain (.binary left operator right)
  | grouping {inner : Expr} : inner.Plain → Plain (.grouping inner)
  | bool (b : Bool) : Plain (.literal (.bool b))
  | nil : Plain (.literal .nil)
  | number {text : String} : IsNumeral text.toList → Plain (.literal (.number text))
  | unary {operator : Token} {operand : Expr} : operator.kind.isUnary = true →
      operator.Canonical → operand.Plain → Plain (.unary operator operand)

end Expr

/-! ## Operators and literals -/

/-- A kind that is spelled in one way is told by its spelling. -/
theorem Kind.spelling?_inj {k l : Kind} {s : String} (hk : k.spelling? = some s)
    (hl : l.spelling? = some s) : k = l := by
  have h := (wellFormed_of_spelling? hk).eq_of_text_eq (wellFormed_of_spelling? hl) rfl
  cases h
  rfl

/-- A canonical token is told by its lexeme, but for its line. -/
theorem Token.Canonical.eraseLine_eq {t u : Token} (ht : t.Canonical) (hu : u.Canonical)
    (h : t.lexeme = u.lexeme) : t.eraseLine = u.eraseLine := by
  have hkind : t.kind = u.kind := Kind.spelling?_inj ht.spelling (h ▸ hu.spelling)
  rw [eraseLine, eraseLine, hkind, h, ht.literal, hu.literal]

/-- An operator is spelled with marks only. -/
theorem Kind.isInner_of_spelling? {k : Kind} {s : String} (hs : k.spelling? = some s)
    (hk : k.level?.isSome = true ∨ k.isUnary = true) : ∀ c ∈ s.toList, isInner c = true := by
  cases k <;> cases hs <;>
    first | exact List.all_eq_true.1 (by decide) | simp [level?, isUnary] at hk

/-- No unary operator is spelled like the head of a group. -/
theorem Kind.spelling?_ne_group {k : Kind} (hk : k.isUnary = true) : k.spelling? ≠ some "group" := by
  rcases isUnary_iff.1 hk with rfl | rfl <;> decide

theorem isInner_of_isDigit {c : Char} (h : c.isDigit = true) : isInner c = true := by
  have hne : ∀ d : Char, d.isDigit = false → (c != d) = true := by
    intro d hd
    rw [bne_iff_ne]
    rintro rfl
    exact Bool.false_ne_true (hd.symm.trans h)
  simp only [isInner, hne '(' rfl, hne ')' rfl, hne ' ' rfl, Bool.and_self]

theorem IsNumeral.forall_isInner {cs : List Char} (h : IsNumeral cs) :
    ∀ c ∈ cs, isInner c = true := by
  obtain ⟨ds, es, -, hds, hes, rfl | ⟨-, rfl⟩⟩ := h
  · exact fun c hc => isInner_of_isDigit (hds c hc)
  · refine List.forall_mem_append.2 ⟨fun c hc => isInner_of_isDigit (hds c hc), ?_⟩
    exact List.forall_mem_cons.2 ⟨rfl, fun c hc => isInner_of_isDigit (hes c hc)⟩

/-- A literal whose text can stand in a source is told by its lexeme there. -/
theorem Literal.Canonical.eq_of_lexeme_eq {v w : Literal} (hv : v.Canonical) (hw : w.Canonical)
    (h : v.lexeme = w.lexeme) : v = w := by
  have hsegment := hv.wellFormed.eq_of_text_eq hw.wellFormed (congrArg String.toList h)
  obtain ⟨hkind, -⟩ := Segment.lexeme.inj hsegment
  have hspells := ofToken?_eq_some_iff.2 (v.spells 1)
  rw [hkind, h, ofToken?_eq_some_iff.2 (w.spells 1)] at hspells
  exact (Option.some.inj hspells).symm

namespace Expr.Plain

variable {e f : Expr} {v w : Literal}

theorem canonical (h : (literal v).Plain) : v.Canonical := by
  cases h with
  | bool _ | nil => trivial
  | number hnum => exact hnum

/-- What is no string is shown as it is spelled in a source. -/
theorem display_eq (h : (literal v).Plain) : v.display = v.lexeme := by
  cases h with
  | bool b => cases b <;> rfl
  | nil | number _ => rfl

theorem readable_literal (h : (literal v).Plain) : (literal v).form.Readable := by
  refine .atom ?_ ?_
  · rw [h.display_eq]
    exact h.canonical.wellFormed.text_ne_nil
  · cases h with
    | bool b => cases b <;> exact List.all_eq_true.1 (by decide)
    | nil => exact List.all_eq_true.1 (by decide)
    | number hnum => exact hnum.forall_isInner

theorem readable (h : e.Plain) : e.form.Readable := by
  induction h with
  | binary _ hop hcanonical _ ihl ihr =>
    exact .two (Kind.isInner_of_spelling? hcanonical.spelling (Or.inl hop)) ihl ihr
  | grouping _ ih => exact .one (List.all_eq_true.1 (by decide)) ih
  | bool b => exact readable_literal (.bool b)
  | nil => exact readable_literal .nil
  | number hnum => exact readable_literal (.number hnum)
  | unary hop hcanonical _ ih =>
    exact .one (Kind.isInner_of_spelling? hcanonical.spelling (Or.inr hop)) ih

theorem eq_of_form_eq (hv : (literal v).Plain) (hw : (literal w).Plain)
    (h : (literal v).form = (literal w).form) : v = w := by
  have hdisplay := String.toList_inj.1 (Form.atom.inj h)
  rw [hv.display_eq, hw.display_eq] at hdisplay
  exact hv.canonical.eq_of_lexeme_eq hw.canonical hdisplay

/-- No operator in front of its operand is spelled like the head of a group. -/
theorem lexeme_ne_group {t : Token} (hop : t.kind.isUnary = true) (ht : t.Canonical) :
    t.lexeme ≠ "group" := by
  intro h
  exact Kind.spelling?_ne_group hop (h ▸ ht.spelling)

/-- The form tells the expression, but for the lines of its operators. -/
theorem eraseLines_eq (he : e.Plain) : ∀ {f : Expr}, f.Plain → e.form = f.form →
    e.eraseLines = f.eraseLines := by
  -- The forms of literals, of one part and of two parts differ.
  have hliteral : ∀ {v : Literal}, (literal v).Plain → ∀ {f : Expr}, f.Plain →
      (literal v).form = f.form → (literal v).eraseLines = f.eraseLines := by
    intro v hv f hf h
    cases f with
    | literal w => rw [hv.eq_of_form_eq hf h]
    | binary _ _ _ | grouping _ | unary _ _ => cases h
  induction he with
  | bool b => exact hliteral (.bool b)
  | nil => exact hliteral .nil
  | number hnum => exact hliteral (.number hnum)
  | @binary left right op _ _ hcanonical _ ihl ihr =>
    intro f hf h
    cases hf with
    | binary hleft _ hcanonical' hright =>
      obtain ⟨hhead, hl, hr⟩ := Form.two.inj h
      have hop := hcanonical.eraseLine_eq hcanonical' (String.toList_inj.1 hhead)
      rw [eraseLines, eraseLines, ihl hleft hl, ihr hright hr, hop]
    | grouping _ | bool _ | nil | number _ | unary _ _ _ => cases h
  | @grouping inner _ ih =>
    intro f hf h
    cases hf with
    | grouping hinner => rw [eraseLines, eraseLines, ih hinner (Form.one.inj h).2]
    | unary hop hcanonical _ =>
      have hhead := String.toList_inj.1 (Form.one.inj h).1
      exact absurd hhead.symm (lexeme_ne_group hop hcanonical)
    | binary _ _ _ _ | bool _ | nil | number _ => cases h
  | @unary op operand hunary hcanonical _ ih =>
    intro f hf h
    cases hf with
    | grouping _ =>
      have hhead := String.toList_inj.1 (Form.one.inj h).1
      exact absurd hhead (lexeme_ne_group hunary hcanonical)
    | unary _ hcanonical' hoperand =>
      obtain ⟨hhead, hinner⟩ := Form.one.inj h
      have hop := hcanonical.eraseLine_eq hcanonical' (String.toList_inj.1 hhead)
      rw [eraseLines, eraseLines, ih hoperand hinner, hop]
    | binary _ _ _ _ | bool _ | nil | number _ => cases h

end Expr.Plain

/-! ## Expressions of a source -/

theorem Token.Lexical.canonical {t : Token} (h : t.Lexical) (hs : t.kind.spelling?.isSome = true) :
    t.Canonical := by
  obtain ⟨s, hs⟩ := Option.isSome_iff_exists.1 hs
  exact ⟨hs.trans (congrArg some (h.lexeme_eq hs).symm),
    h.literal.trans (Kind.valueOf?_eq_none hs _)⟩

theorem Kind.isSome_spelling? {k : Kind} (hk : k.level?.isSome = true ∨ k.isUnary = true) :
    k.spelling?.isSome = true := by
  cases k <;> first | rfl | simp [level?, isUnary] at hk

/-- What is derived from tokens of a source is plain, but for its strings. -/
theorem Derives.plain {e : Expr} {ts : List Token} (h : Derives e ts)
    (hts : ∀ t ∈ ts, t.Lexical) (hs : e.StringFree) : e.Plain := by
  induction h with
  | @literal t v hv =>
    have ht := hts t List.mem_cons_self
    cases hv with
    | trueWord _ => exact .bool true
    | falseWord _ => exact .bool false
    | nilWord _ => exact .nil
    | number hk =>
      have hwell := ht.wellFormed
      rw [hk] at hwell
      rw [ht.value_of_number hk]
      exact .number (.of_wellFormed hwell)
    | string _ => cases hs
  | grouping _ _ _ ih =>
    obtain ⟨-, hts⟩ := List.forall_mem_cons.1 hts
    exact .grouping (ih (List.forall_mem_append.1 hts).1 hs)
  | unary hop _ _ ih =>
    obtain ⟨ht, hts⟩ := List.forall_mem_cons.1 hts
    have hunary := Kind.isUnary_iff.2 hop
    exact .unary hunary (ht.canonical (Kind.isSome_spelling? (Or.inr hunary))) (ih hts hs)
  | binary hop _ _ _ _ ihe ihf =>
    obtain ⟨hts, hus⟩ := List.forall_mem_append.1 hts
    obtain ⟨ht, hus⟩ := List.forall_mem_cons.1 hus
    have hbinary := Option.isSome_iff_exists.2 ⟨_, hop⟩
    exact .binary (ihe hts hs.1) hbinary (ht.canonical (Kind.isSome_spelling? (Or.inl hbinary)))
      (ihf hus hs.2)

/-- A scanned and parsed expression is plain, but for its strings. -/
theorem Parser.plain_of_parse {source : String} {p : Parser} {e : Expr} (hp : p.depth = 0)
    (hsuffix : p.rest <:+ (scan source).tokens) (h : p.parse.expr? = some e) (hs : e.StringFree) :
    e.Plain := by
  obtain ⟨ts, hts, hder, -, -⟩ := (parse_eq_ok_iff hp).1 ⟨Parse.expr?_eq_some_iff.1 h, rfl⟩
  obtain ⟨taken, htaken, hend⟩ := exists_taken hp
  obtain rfl : ts = taken := List.append_cancel_right (hts.symm.trans htaken)
  have hscan : ∀ t ∈ ts, t ∈ (scan source).tokens := by
    intro t ht
    exact hsuffix.subset (hts ▸ List.mem_append_left _ ht)
  exact hder.plain (fun t ht => lexical_of_mem_scan (hscan t ht) (hend t ht)) hs

/-- Plain expressions with one prefix form are the same but for the lines of their
operators.  Every expression without strings that a call reads from a source is plain. -/
theorem Expr.prefixForm_identifies :
    (∀ e f : Expr, e.Plain → f.Plain → e.prefixForm = f.prefixForm →
      e.eraseLines = f.eraseLines) ∧
    ∀ (source : String) (n : Nat), ∀ q ∈ Parser.parses n { rest := (scan source).tokens },
      ∀ e : Expr, q.expr? = some e → e.StringFree → e.Plain := by
  constructor
  · intro e f he hf h
    have htext : e.form.text ++ [] = f.form.text ++ [] := by rw [e.text_form, f.text_form, h]
    obtain ⟨hform, -⟩ :=
      Form.text_append_inj he.readable hf.readable Form.stops_nil Form.stops_nil htext
    exact he.eraseLines_eq hf hform
  · intro source n q hq e h hs
    rw [Parser.parses_eq_map] at hq
    obtain ⟨i, -, rfl⟩ := List.mem_map.1 hq
    have hsuffix := Parser.isSuffix_rest_afterCalls (p := { rest := (scan source).tokens }) rfl 0 i
    rw [Nat.zero_add] at hsuffix
    exact Parser.plain_of_parse (Parser.depth_afterCalls rfl i) hsuffix h hs

/-- `-1 - (-1)` -/
def minuses (line : Nat) : Expr :=
  .binary (.unary ⟨.minus, "-", none, line⟩ (.literal (.number "1"))) ⟨.minus, "-", none, line⟩
    (.grouping (.unary ⟨.minus, "-", none, line⟩ (.literal (.number "1"))))

theorem Expr.prefixForm_identifies_minuses :
    (Parser.parse { rest := (scan "-1 - (-1)").tokens }).expr? = some (minuses 1) ∧
    (Parser.parse { rest := (scan "\n-1 - (-1)").tokens }).expr? = some (minuses 2) ∧
    (minuses 1).Plain ∧ (minuses 2).Plain ∧ (minuses 1).prefixForm = (minuses 2).prefixForm ∧
    (minuses 1).eraseLines = (minuses 2).eraseLines := by
  have hparse : (Parser.parse { rest := (scan "-1 - (-1)").tokens }).expr? = some (minuses 1) := by
    decide +kernel
  have hparse' : (Parser.parse { rest := (scan "\n-1 - (-1)").tokens }).expr? =
      some (minuses 2) := by
    decide +kernel
  have hfree : ∀ line, (minuses line).StringFree := fun _ => ⟨trivial, trivial⟩
  have hplain := prefixForm_identifies.2 _ 1 _ List.mem_cons_self _ hparse (hfree 1)
  have hplain' := prefixForm_identifies.2 _ 1 _ List.mem_cons_self _ hparse' (hfree 2)
  exact ⟨hparse, hparse', hplain, hplain', rfl,
    prefixForm_identifies.1 _ _ hplain hplain' rfl⟩

/-- A string can look like anything. -/
example : (Expr.literal (.string "nil")).prefixForm = (Expr.literal .nil).prefixForm := rfl

end Lox
