import Lox.Proofs.Grammar.Acceptance

/-!
# Beginnings of expressions

Tokens that can be taken one by one from the start are the beginning of an
expression.  What is open after them has an invariant, `Pending.Valid`: at most
one opener is past the limit, and none is where an operand is complete, nor is a
unary operator innermost there.

Two facts follow from it.  The last token tells whether an operand is due
(`Takes.last`).  And every beginning within the limit can be completed
(`Pending.Valid.exists_completion`): by an operand where one is due, and then by a
right parenthesis for each left one.

A parser takes tokens until it is stuck, and what is open there decides what it
gives (`Parser.parse_of_takes`).
-/

namespace Lox

open Pending Descent

namespace Pending

/-- What is true of what is open after the beginning of an expression. -/
structure Valid (p : Pending) : Prop where
  length_le : p.openers.length ≤ nestingLimit + 1
  length_le_of_complete : p.operandDue = false → p.openers.length ≤ nestingLimit
  head?_ne_of_complete : p.operandDue = false → p.openers.head? ≠ some .operator

theorem valid_empty : Valid {} :=
  ⟨Nat.zero_le _, fun _ => Nat.zero_le _, fun _ => by simp⟩

theorem valid_complete {os : List Opener} (h : os.length ≤ nestingLimit) : Valid (complete os) := by
  have hle := Nat.le_trans (length_complete_le os) h
  exact ⟨Nat.le_succ_of_le hle, fun _ => hle, fun _ => head?_complete os⟩

/-- One token keeps the invariant. -/
theorem Step.valid {p q : Pending} {t : Token} (h : Step p t q) (hp : p.Valid) : q.Valid := by
  cases h with
  | unary hos _ | leftParen hos _ => exact ⟨Nat.succ_le_succ hos, nofun, nofun⟩
  | literal hos _ => exact valid_complete hos
  | operator _ => exact ⟨hp.length_le, nofun, nofun⟩
  | @rightParen os t _ =>
    have hos : os.length + 1 ≤ nestingLimit := hp.length_le_of_complete rfl
    exact valid_complete (Nat.le_of_succ_le hos)

/-- An end mark cannot be taken. -/
theorem Step.not_endOfFile {p q : Pending} {t : Token} (h : Step p t q) :
    t.isEndOfFile = false := by
  rw [Token.isEndOfFile, beq_eq_false_iff_ne]
  intro he
  cases h with
  | unary _ ht | literal _ ht | operator ht => rw [he] at ht; cases ht
  | leftParen _ ht | rightParen ht => rw [he] at ht; cases ht

/-- Every beginning within the limit is completed by right parentheses, and by an
operand before them where one is due.  What comes behind does not matter. -/
theorem exists_closers : ∀ (n : Nat) {os : List Opener}, os.length ≤ n →
    os.head? ≠ some .operator →
    ∃ ts, ∀ (c : Cursor) (rest : List Token), c.rest = ts ++ rest →
      ∃ d, Takes ⟨os, false⟩ c ⟨[], false⟩ d ∧ d.rest = rest := by
  intro n
  induction n with
  | zero =>
    intro os hn _
    obtain rfl := List.eq_nil_of_length_eq_zero (Nat.le_zero.1 hn)
    exact ⟨[], fun c rest hc => ⟨c, .refl, hc⟩⟩
  | succ n ih =>
    intro os hn hhead
    match os, hn, hhead with
    | [], _, _ => exact ⟨[], fun c rest hc => ⟨c, .refl, hc⟩⟩
    | .operator :: os, _, hhead => exact absurd rfl hhead
    | .parenthesis :: os, hn, _ =>
      have hle : (complete os).openers.length ≤ n :=
        Nat.le_trans (length_complete_le os) (Nat.le_of_succ_le_succ hn)
      obtain ⟨ts, hts⟩ := ih hle (head?_complete os)
      refine ⟨⟨.rightParen, ")", none, 1⟩ :: ts, fun c rest hc => ?_⟩
      obtain ⟨d, htakes, hd⟩ := hts (past ⟨.parenthesis :: os, false⟩ c _ (ts ++ rest)) rest rfl
      exact ⟨d, .step hc (.rightParen rfl) htakes, hd⟩

theorem Valid.exists_completion {p : Pending} (hp : p.Valid)
    (hle : p.openers.length ≤ nestingLimit) :
    ∃ ts, ∀ (c : Cursor) (rest : List Token), c.rest = ts ++ rest →
      ∃ d, Takes p c ⟨[], false⟩ d ∧ d.rest = rest := by
  obtain ⟨os, due⟩ := p
  cases due with
  | false => exact exists_closers _ (Nat.le_refl _) (hp.head?_ne_of_complete rfl)
  | true =>
    obtain ⟨ts, hts⟩ := exists_closers _ (Nat.le_refl _) (head?_complete os)
    refine ⟨⟨.keyword .nil_, "nil", none, 1⟩ :: ts, fun c rest hc => ?_⟩
    obtain ⟨d, htakes, hd⟩ := hts (past ⟨os, true⟩ c _ (ts ++ rest)) rest rfl
    exact ⟨d, .step hc (.literal hle rfl) htakes, hd⟩

end Pending

/-! ## Tokens taken -/

namespace Takes

variable {p q : Pending} {c d : Cursor}

theorem valid (h : Takes p c q d) (hp : p.Valid) : q.Valid := by
  induction h with
  | refl => exact hp
  | step _ hs _ ih => exact ih (hs.valid hp)

/-- No end mark is among the tokens taken. -/
theorem not_endOfFile (h : Takes p c q d) {ts : List Token} (hts : c.rest = ts ++ d.rest) :
    ∀ t ∈ ts, t.isEndOfFile = false := by
  induction h generalizing ts with
  | @refl p c =>
    obtain rfl : ts = [] := List.self_eq_append_left.1 hts
    nofun
  | step hc hs h ih =>
    obtain ⟨us, rfl, hus⟩ := h.tokens_cons hc hts
    intro u hu
    rcases List.mem_cons.1 hu with rfl | hu
    · exact hs.not_endOfFile
    · exact ih hus u hu

/-- If any token was taken then the last one was. -/
theorem last (h : Takes p c q d) {ts : List Token} (hts : c.rest = ts ++ d.rest) :
    ts = [] ∧ q = p ∨
      ∃ us t r, ts = us ++ [t] ∧ r = us.foldl Pending.step p ∧ Pending.Step r t q ∧
        ∃ e, Takes p c r e := by
  induction h generalizing ts with
  | @refl p c => exact Or.inl ⟨List.self_eq_append_left.1 hts, rfl⟩
  | @step p q r c d t rest hc hs h ih =>
    obtain ⟨us, rfl, hus⟩ := h.tokens_cons hc hts
    right
    rcases ih hus with ⟨rfl, rfl⟩ | ⟨vs, u, s, rfl, hvs, hu, e, he⟩
    · exact ⟨[], t, p, rfl, rfl, hs, c, .refl⟩
    · refine ⟨t :: vs, u, s, rfl, ?_, hu, e, .step hc hs he⟩
      rw [hvs, List.foldl_cons, hs.eq_step]

end Takes

/-! ## Parsers -/

theorem stuck_of_ends {ts : List Token} (h : Ends 0 ts) : Stuck ⟨[], false⟩ ts := by
  intro t ht q hs
  cases hs with
  | operator hl => exact Nat.not_lt_zero _ (h t _ ht hl)

/-- What is open where a cursor is stuck decides what a parser gives. -/
theorem Parser.parse_of_takes {p : Parser} {q : Pending} {d : Cursor} (hp : p.depth = 0)
    (h : Takes {} p.cursor q d) (hs : q.Stuck d.rest) :
    p.parse.after = d.parser ∧ p.parse.operators = d.operators.toList ∧
      match q.fault? with
      | some f => p.parse.result = .error (f.before d.rest.head? d.line)
      | none => ∃ e, p.parse.result = .ok e := by
  cases hres : p.parse.result with
  | ok e =>
    obtain ⟨d', hread, hends, hparse⟩ := hasRead_of_parse hp hres
    obtain ⟨rfl, rfl⟩ := h.unique hs hread.takes (stuck_of_ends hends)
    rw [hparse]
    exact ⟨rfl, rfl, e, rfl⟩
  | error err =>
    obtain ⟨d', ⟨q', f, htakes, hs', hf, rfl⟩, hparse⟩ := fails_of_parse hp hres
    obtain ⟨rfl, rfl⟩ := h.unique hs htakes hs'
    rw [hparse, hf]
    exact ⟨rfl, rfl, rfl⟩

end Lox
