import Lox.Grammar.Derivation
import Lox.Grammar.Parser

/-!
# Taking tokens one by one

What is open decides which token can be taken next.  `Pending.Step` has one case
for each sort of token: a unary operator, a left parenthesis or a literal where an
operand is due, a binary operator or a right parenthesis where none is.  Where
more is open than the nesting limit allows, no token can be taken.

`Takes p c q d` says that a cursor moves from `c` to `d` over such tokens while
what is open changes from `p` to `q`.  Everything in a cursor is accounted for,
its line and its operators included.  A cursor that moves until it is stuck can
end in one place only (`Takes.unique`), and how it gets there depends on no token
past that place (`Takes.frame`).

`Pending.fault?` reads the error off what is open where a cursor is stuck.  The
next token is needed for its place and not for its wording.
-/

namespace Lox

/-- Whether a token of the kind is a literal by itself. -/
def Kind.isLiteral : Kind → Bool
  | .keyword .true_ | .keyword .false_ | .keyword .nil_ | .number | .string => true
  | _ => false

theorem isSome_ofToken? (t : Token) : (Literal.ofToken? t).isSome = t.kind.isLiteral := by
  unfold Literal.ofToken? Kind.isLiteral
  split <;> simp_all

namespace Pending

/-! ## One token -/

/-- `Step p t q` says that the token `t` can be taken where `p` is open, and that
`q` is open after it. -/
inductive Step : Pending → Token → Pending → Prop
  | unary {os : List Opener} {t : Token} : os.length ≤ nestingLimit → t.kind.isUnary = true →
      Step ⟨os, true⟩ t ⟨.operator :: os, true⟩
  | leftParen {os : List Opener} {t : Token} : os.length ≤ nestingLimit → t.kind = .leftParen →
      Step ⟨os, true⟩ t ⟨.parenthesis :: os, true⟩
  | literal {os : List Opener} {t : Token} : os.length ≤ nestingLimit → t.kind.isLiteral = true →
      Step ⟨os, true⟩ t (complete os)
  | operator {os : List Opener} {t : Token} {l : Level} : t.kind.level? = some l →
      Step ⟨os, false⟩ t ⟨os, true⟩
  | rightParen {os : List Opener} {t : Token} : t.kind = .rightParen →
      Step ⟨.parenthesis :: os, false⟩ t (complete os)

/-- No token of the front of a list can be taken. -/
def Stuck (p : Pending) (ts : List Token) : Prop :=
  ∀ t, ts.head? = some t → ∀ q, ¬ Step p t q

/-- The fault of the next token where it cannot be taken.  There is none where an
expression is complete. -/
def fault? (p : Pending) : Option SyntaxFault :=
  if nestingLimit < p.openers.length then some .tooMuchNesting
  else if p.operandDue then some .missingExpression
  else if p.openers.isEmpty then none
  else some .missingParenthesis

section Fault

variable {os : List Opener}

theorem fault?_of_lt {due : Bool} (h : nestingLimit < os.length) :
    fault? ⟨os, due⟩ = some .tooMuchNesting := by
  simp [fault?, h]

theorem fault?_operandDue (h : os.length ≤ nestingLimit) :
    fault? ⟨os, true⟩ = some .missingExpression := by
  simp [fault?, Nat.not_lt.2 h]

theorem fault?_open (h : os.length ≤ nestingLimit) (hne : os ≠ []) :
    fault? ⟨os, false⟩ = some .missingParenthesis := by
  simp [fault?, Nat.not_lt.2 h, hne]

end Fault

/-- An operand takes the unary operators in front of it along. -/
@[simp] theorem complete_operator (os : List Opener) :
    complete (.operator :: os) = complete os := rfl

@[simp] theorem complete_parenthesis (os : List Opener) :
    complete (.parenthesis :: os) = ⟨.parenthesis :: os, false⟩ := rfl

/-- Nothing is completed where no unary operator is innermost. -/
theorem complete_of_head? {os : List Opener} (h : os.head? ≠ some .operator) :
    complete os = ⟨os, false⟩ := by
  match os, h with
  | [], _ => rfl
  | .parenthesis :: os, _ => rfl
  | .operator :: os, h => exact absurd rfl h

theorem length_complete_le (os : List Opener) : (complete os).openers.length ≤ os.length :=
  (List.dropWhile_suffix _).length_le

theorem head?_complete (os : List Opener) : (complete os).openers.head? ≠ some .operator := by
  induction os with
  | nil => simp [complete]
  | cons o os ih =>
    cases o with
    | parenthesis => simp
    | operator => exact ih

/-- A token that can be taken has the effect that `step` gives it. -/
theorem Step.eq_step {p q : Pending} {t : Token} (h : Step p t q) : q = p.step t := by
  cases h with
  | unary _ hk => simp [step, hk]
  | leftParen _ hk => simp [step, hk, Kind.isUnary]
  | literal _ hk =>
    have hu : t.kind.isUnary = false := by
      revert hk
      unfold Kind.isLiteral Kind.isUnary
      split <;> simp_all
    have hp : t.kind ≠ .leftParen := by
      intro he
      simp [he, Kind.isLiteral] at hk
    simp [step, hu, hp]
  | operator hl =>
    have hp : t.kind ≠ .rightParen := by
      intro he
      simp [he, Kind.level?] at hl
    simp [step, hp]
  | rightParen hk => simp [step, hk]

/-! ## Tokens one after the other -/

/-- The cursor after the token `t`.  A binary operator is kept a record of. -/
def past (p : Pending) (c : Cursor) (t : Token) (rest : List Token) : Cursor where
  rest := rest
  line := t.line
  operators := if p.operandDue || t.kind == .rightParen then c.operators else c.operators.push t
  depth := c.depth

@[simp] theorem rest_past (p : Pending) (c : Cursor) (t : Token) (rest : List Token) :
    (p.past c t rest).rest = rest := rfl

@[simp] theorem depth_past (p : Pending) (c : Cursor) (t : Token) (rest : List Token) :
    (p.past c t rest).depth = c.depth := rfl

theorem past_operator {l : Level} {t : Token} (h : t.kind.level? = some l) (os : List Opener)
    (c : Cursor) (rest : List Token) :
    past ⟨os, false⟩ c t rest =
      { c with rest, line := t.line, operators := c.operators.push t } := by
  have hp : t.kind ≠ .rightParen := by
    intro he
    simp [he, Kind.level?] at h
  simp [past, hp]

end Pending

open Pending

/-- `Takes p c q d` says that a cursor gets from `c` to `d` over tokens that can be
taken one by one, and that `q` is open in the end if `p` was at first. -/
inductive Takes : Pending → Cursor → Pending → Cursor → Prop
  | refl {p : Pending} {c : Cursor} : Takes p c p c
  | step {p q r : Pending} {c d : Cursor} {t : Token} {rest : List Token} :
      c.rest = t :: rest → Step p t q → Takes q (p.past c t rest) r d → Takes p c r d

namespace Takes

variable {p q r : Pending} {c d e : Cursor}

theorem trans (h : Takes p c q d) (h' : Takes q d r e) : Takes p c r e := by
  induction h with
  | refl => exact h'
  | step hc hs _ ih => exact .step hc hs (ih h')

/-- To take one token. -/
theorem single {t : Token} {rest : List Token} (hc : c.rest = t :: rest) (hs : Step p t q) :
    Takes p c q (p.past c t rest) :=
  .step hc hs .refl

/-- The tokens between two cursors lead from what is open at the one to what is
open at the other. -/
theorem exists_tokens (h : Takes p c q d) :
    ∃ ts, c.rest = ts ++ d.rest ∧ q = ts.foldl Pending.step p := by
  induction h with
  | refl => exact ⟨[], rfl, rfl⟩
  | @step p q r c d t rest hc hs _ ih =>
    obtain ⟨ts, hts, hq⟩ := ih
    refine ⟨t :: ts, ?_, ?_⟩
    · rw [hc, List.cons_append, ← hts, rest_past]
    · rw [List.foldl_cons, ← hs.eq_step, hq]

/-- To take tokens leaves the count of levels as it is. -/
theorem depth_eq (h : Takes p c q d) : d.depth = c.depth := by
  induction h with
  | refl => rfl
  | step _ _ _ ih => exact ih

/-- The count of levels does not matter to what is taken. -/
theorem withDepth (h : Takes p c q d) (n : Nat) :
    Takes p { c with depth := n } q { d with depth := n } := by
  induction h with
  | refl => exact .refl
  | step hc hs _ ih => exact .step hc hs ih

/-- The first token taken is the first one between the two cursors. -/
theorem tokens_cons {t : Token} {rest ts : List Token} (h : Takes q (p.past c t rest) r d)
    (hc : c.rest = t :: rest) (hts : c.rest = ts ++ d.rest) :
    ∃ us, ts = t :: us ∧ rest = us ++ d.rest := by
  obtain ⟨us, hus, -⟩ := h.exists_tokens
  rw [rest_past] at hus
  refine ⟨us, List.append_cancel_right (hts.symm.trans ?_), hus⟩
  rw [hc, hus, List.cons_append]

/-- The tokens behind the last one taken do not matter. -/
theorem frame (h : Takes p c q d) {ts : List Token} (hts : c.rest = ts ++ d.rest)
    (us : List Token) :
    Takes p { c with rest := ts ++ us } q { d with rest := us } := by
  induction h generalizing ts with
  | refl =>
    obtain rfl : ts = [] := List.self_eq_append_left.1 hts
    exact .refl
  | step hc hs h ih =>
    obtain ⟨vs, rfl, hvs⟩ := h.tokens_cons hc hts
    exact .step rfl hs (ih hvs)

/-- A cursor that moves until it is stuck ends in one place. -/
theorem unique {q' : Pending} {d' : Cursor} (h : Takes p c q d) (hd : q.Stuck d.rest)
    (h' : Takes p c q' d') (hd' : q'.Stuck d'.rest) : q = q' ∧ d = d' := by
  induction h with
  | refl =>
    cases h' with
    | refl => exact ⟨rfl, rfl⟩
    | step hc hs _ => exact absurd hs (hd _ (by rw [hc]; rfl) _)
  | step hc hs _ ih =>
    cases h' with
    | refl => exact absurd hs (hd' _ (by rw [hc]; rfl) _)
    | step hc' hs' h' =>
      rw [hc, List.cons.injEq] at hc'
      obtain ⟨rfl, rfl⟩ := hc'
      obtain rfl := hs.eq_step.trans hs'.eq_step.symm
      exact ih hd h'

end Takes

end Lox
