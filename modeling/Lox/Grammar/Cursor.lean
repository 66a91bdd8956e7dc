import Lox.Diagnostic.Basic
import Lox.Expr.Basic

/-!
# Reading from a list of tokens

A *cursor* is a place in a list of tokens: the tokens still to come, the line of
the last token taken, and the binary operators taken on the way.  It also counts
the levels of nesting it is down.  A `ReadM` is a way to read on from a cursor.  It
gives a value or an error, and the cursor after it in both cases.  So what was read
before an error stays read.

There are only two ways to look at a token.  `take?` takes the next token if it
is recognised, and `refuse` makes the next token an error and leaves it where it
is.  Nothing looks further ahead.

`nested` reads one level further down.  It counts the level before it reads and
takes it off the count afterwards, also where the reading failed.  At the limit it
refuses the next token instead.
-/

namespace Lox

/-- A place in a list of tokens. -/
structure Cursor where
  /-- The tokens still to come. -/
  rest : List Token
  /-- The line of the last token taken. -/
  line : Nat
  /-- The binary operators taken, in order. -/
  operators : Array Token := #[]
  /-- The levels of nesting that are open. -/
  depth : Nat := 0

/-- How many unary operators and parentheses may be open at once. -/
def nestingLimit : Nat := 64

/-- A way to read on from a cursor. -/
abbrev ReadM := EStateM Error Cursor

namespace ReadM

/-- Take the next token if `f` recognises it. -/
def take? {α : Type} (f : Token → Option α) : ReadM (Option α) := fun c =>
  match c.rest with
  | [] => .ok none c
  | t :: rest =>
    match f t with
    | none => .ok none c
    | some a => .ok (some a) { c with rest, line := t.line }

/-- Take the next token if its kind is of some sort. -/
def takeIf? (p : Kind → Bool) : ReadM (Option Token) :=
  take? fun t => if p t.kind then some t else none

/-- Take the next token if it is a binary operator of a level, and keep a record
of it. -/
def takeOperator? (l : Level) : ReadM (Option Token) := do
  match ← takeIf? fun k => k.level? == some l with
  | none => pure none
  | some t =>
    modify fun c => { c with operators := c.operators.push t }
    pure (some t)

/-- The next token is in error. -/
def refuse {α : Type} (fault : SyntaxFault) : ReadM α := fun c =>
  .error (fault.before c.rest.head? c.line) c

/-- Read one level further down, unless that is past the limit. -/
def nested {α : Type} (r : ReadM α) : ReadM α := fun c =>
  if nestingLimit ≤ c.depth then refuse .tooMuchNesting c
  else
    match r { c with depth := c.depth + 1 } with
    | .ok a d => .ok a { d with depth := d.depth - 1 }
    | .error e d => .error e { d with depth := d.depth - 1 }

/-! ## What a reading gives -/

variable {α β : Type}

/-- A reading goes on from where the one before it stopped, unless that failed. -/
theorem bind_apply (x : ReadM α) (f : α → ReadM β) (c : Cursor) :
    (x >>= f) c =
      match x c with
      | .ok a c => f a c
      | .error e c => .error e c := by
  cases h : x c <;> simp [bind, EStateM.bind, h]

/-- A token is taken exactly if it is the next one and recognised. -/
theorem take?_eq_some_iff {f : Token → Option α} {c c' : Cursor} {a : α} :
    take? f c = .ok (some a) c' ↔
      ∃ t rest, c.rest = t :: rest ∧ f t = some a ∧ c' = { c with rest, line := t.line } := by
  obtain ⟨rest, line, operators⟩ := c
  cases rest with
  | nil => exact ⟨nofun, by rintro ⟨_, _, ⟨⟩, _⟩⟩
  | cons t rest =>
    cases hf : f t with
    | none =>
      rw [take?]
      simp only [hf]
      exact ⟨nofun, by rintro ⟨_, _, ⟨⟩, h, _⟩; cases hf.symm.trans h⟩
    | some b =>
      rw [take?]
      simp only [hf]
      constructor
      · rintro ⟨⟩
        exact ⟨t, rest, rfl, hf, rfl⟩
      · rintro ⟨_, _, ⟨⟩, h, rfl⟩
        cases hf.symm.trans h
        rfl

/-- A cursor stays where it is exactly if the next token is not recognised. -/
theorem take?_eq_none_iff {f : Token → Option α} {c c' : Cursor} :
    take? f c = .ok none c' ↔ c' = c ∧ ∀ t, c.rest.head? = some t → f t = none := by
  obtain ⟨rest, line, operators⟩ := c
  cases rest with
  | nil =>
    constructor
    · rintro ⟨⟩
      exact ⟨rfl, nofun⟩
    · rintro ⟨rfl, _⟩
      rfl
  | cons t rest =>
    cases hf : f t with
    | none =>
      rw [take?]
      simp only [hf]
      constructor
      · rintro ⟨⟩
        refine ⟨rfl, ?_⟩
        rintro _ ⟨⟩
        exact hf
      · rintro ⟨rfl, _⟩
        rfl
    | some b =>
      rw [take?]
      simp only [hf]
      exact ⟨nofun, fun h => by cases hf.symm.trans (h.2 t rfl)⟩

theorem takeIf?_eq_some_iff {p : Kind → Bool} {c c' : Cursor} {t : Token} :
    takeIf? p c = .ok (some t) c' ↔
      ∃ rest, c.rest = t :: rest ∧ p t.kind = true ∧ c' = { c with rest, line := t.line } := by
  rw [takeIf?, take?_eq_some_iff]
  constructor
  · rintro ⟨u, rest, h, hf, rfl⟩
    split at hf
    · next hp => cases hf; exact ⟨rest, h, hp, rfl⟩
    · cases hf
  · rintro ⟨rest, h, hp, rfl⟩
    exact ⟨t, rest, h, by simp [hp], rfl⟩

theorem takeIf?_eq_none_iff {p : Kind → Bool} {c c' : Cursor} :
    takeIf? p c = .ok none c' ↔ c' = c ∧ ∀ t, c.rest.head? = some t → p t.kind = false := by
  rw [takeIf?, take?_eq_none_iff]
  simp

theorem takeOperator?_eq_some {l : Level} {c : Cursor} {t : Token} {rest : List Token}
    (hc : c.rest = t :: rest) (hl : t.kind.level? = some l) :
    takeOperator? l c =
      .ok (some t) { c with rest, line := t.line, operators := c.operators.push t } := by
  rw [takeOperator?, bind_apply, takeIf?_eq_some_iff.2 ⟨rest, hc, by simp [hl], rfl⟩]
  rfl

theorem takeOperator?_eq_none {l : Level} {c : Cursor}
    (h : ∀ t, c.rest.head? = some t → t.kind.level? ≠ some l) :
    takeOperator? l c = .ok none c := by
  rw [takeOperator?, bind_apply, takeIf?_eq_none_iff.2 ⟨rfl, fun t ht => by simpa using h t ht⟩]
  rfl

/-- At the limit the next token is refused. -/
theorem nested_of_le {r : ReadM α} {c : Cursor} (h : nestingLimit ≤ c.depth) :
    nested r c = refuse .tooMuchNesting c := by
  rw [nested, if_pos h]

/-- Below the limit the level counts while it is read, and not afterwards. -/
theorem nested_eq_ok {r : ReadM α} {c d : Cursor} {a : α} (h : c.depth < nestingLimit)
    (hr : r { c with depth := c.depth + 1 } = .ok a d) :
    nested r c = .ok a { d with depth := d.depth - 1 } := by
  rw [nested, if_neg (Nat.not_le.2 h), hr]

theorem nested_eq_error {r : ReadM α} {c d : Cursor} {e : Error} (h : c.depth < nestingLimit)
    (hr : r { c with depth := c.depth + 1 } = .error e d) :
    nested r c = .error e { d with depth := d.depth - 1 } := by
  rw [nested, if_neg (Nat.not_le.2 h), hr]

/-- To look for a token never fails. -/
theorem take?_ne_error {f : Token → Option α} {c c' : Cursor} {e : Error} :
    take? f c ≠ .error e c' := by
  unfold take?
  split
  · nofun
  · split <;> nofun

end ReadM

end Lox
