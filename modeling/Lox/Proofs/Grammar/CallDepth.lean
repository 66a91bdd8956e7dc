import Lox.Grammar.Calls
import Lox.Proofs.Grammar.Resumption

/-!
# How deep calls go

A reading by calls gives what the readers of `Lox.Grammar.Descent` give, with a fuel that is
the same for all tokens (`Parser.exists_fuel`).  From an expression to an expression in
parentheses there are eight calls, and from a unary operator to the next one there are two.
On the way there is always one of `nested`, so the limit of nesting bounds how often there
is a way on.

Every call leaves the count of levels as it found it, whether it gives an expression or not,
and finds it within the limit.

Both are said by `Follows`, which is closed under everything that calls are made of.
-/

namespace Lox

open CallM

/-- The levels are within the limit when the call is made, and as many when it comes back. -/
structure Call.Balanced (k : Call) : Prop where
  before_le : k.before ≤ nestingLimit
  after_eq : k.after = k.before

/-- `Tracks j x r` says that `x` is what comes of a reading by calls from `j` on if `r` comes
of the reading without.  No level is left open, and all calls in between are balanced. -/
inductive Tracks {α : Type} (j : Journey) :
    EStateM.Result Halt Journey α → EStateM.Result Error Cursor α → Prop
  | ok {a : α} {c : Cursor} {ks : List Call} : c.depth = j.cursor.depth →
      (∀ k ∈ ks, k.Balanced) → Tracks j (.ok a ⟨c, j.calls ++ ks⟩) (.ok a c)
  | error {e : Error} {c : Cursor} {ks : List Call} : c.depth = j.cursor.depth →
      (∀ k ∈ ks, k.Balanced) → Tracks j (.error (.error e) ⟨c, j.calls ++ ks⟩) (.error e c)

/-- Where `depth` levels are counted, to read by calls as `x` does is to read as `r` does. -/
def Follows {α : Type} (depth : Nat) (x : CallM α) (r : ReadM α) : Prop :=
  ∀ j : Journey, j.cursor.depth = depth → Tracks j (x j) (r j.cursor)

/-- A reader that opens no level and closes none. -/
def KeepsDepth {α : Type} (r : ReadM α) : Prop :=
  ∀ c, match r c with
    | .ok _ d => d.depth = c.depth
    | .error _ d => d.depth = c.depth

section KeepsDepth

variable {α : Type}

theorem take?_keepsDepth {f : Token → Option α} : KeepsDepth (ReadM.take? f) := by
  intro c
  cases hres : ReadM.take? f c with
  | error e d => exact absurd hres ReadM.take?_ne_error
  | ok a? d =>
    cases a? with
    | none =>
      obtain ⟨rfl, -⟩ := ReadM.take?_eq_none_iff.1 hres
      exact rfl
    | some a =>
      obtain ⟨t, rest, -, -, rfl⟩ := ReadM.take?_eq_some_iff.1 hres
      exact rfl

theorem takeOperator?_keepsDepth {l : Level} : KeepsDepth (ReadM.takeOperator? l) := by
  intro c
  have hkeep := take?_keepsDepth (f := fun t => if t.kind.level? == some l then some t else none) c
  rw [ReadM.takeOperator?, ReadM.bind_apply, ReadM.takeIf?]
  generalize ReadM.take? _ c = taken at hkeep
  cases taken with
  | ok operator? d => cases operator? <;> exact hkeep
  | error e d => exact hkeep

theorem refuse_keepsDepth {fault : SyntaxFault} : KeepsDepth (ReadM.refuse (α := α) fault) :=
  fun _ => rfl

end KeepsDepth

section Follows

variable {α β : Type} {depth : Nat}

/-! ## One reading after the other -/

section NoCalls

variable {j : Journey} {c : Cursor}

/-- What is read without a call leaves none. -/
theorem tracks_ok {a : α} (h : c.depth = j.cursor.depth) :
    Tracks j (.ok a ⟨c, j.calls⟩) (.ok a c) := by
  have hnone : Tracks j (.ok a ⟨c, j.calls ++ []⟩) (.ok a c) := .ok h nofun
  rwa [List.append_nil] at hnone

theorem tracks_error {e : Error} (h : c.depth = j.cursor.depth) :
    Tracks (α := α) j (.error (.error e) ⟨c, j.calls⟩) (.error e c) := by
  have hnone : Tracks (α := α) j (.error (.error e) ⟨c, j.calls ++ []⟩) (.error e c) :=
    .error h nofun
  rwa [List.append_nil] at hnone

end NoCalls

/-- What is read in two parts leaves the calls of both. -/
theorem Tracks.trans {j : Journey} {c : Cursor} {ks : List Call}
    {x : EStateM.Result Halt Journey α} {r : EStateM.Result Error Cursor α}
    (hc : c.depth = j.cursor.depth) (hks : ∀ k ∈ ks, k.Balanced)
    (h : Tracks ⟨c, j.calls ++ ks⟩ x r) : Tracks j x r := by
  have hall : ∀ {ls : List Call}, (∀ k ∈ ls, k.Balanced) → ∀ k ∈ ks ++ ls, k.Balanced :=
    fun hls => List.forall_mem_append.2 ⟨hks, hls⟩
  cases h with
  | ok hd hls =>
    rw [List.append_assoc]
    exact .ok (hd.trans hc) (hall hls)
  | error hd hls =>
    rw [List.append_assoc]
    exact .error (hd.trans hc) (hall hls)

theorem pure_follows (a : α) : Follows depth (pure a) (pure a) := by
  intro j _
  exact tracks_ok rfl

theorem bind_follows {x : CallM α} {r : ReadM α} {f : α → CallM β} {g : α → ReadM β}
    (hx : Follows depth x r) (hf : ∀ a, Follows depth (f a) (g a)) :
    Follows depth (x >>= f) (r >>= g) := by
  intro j hj
  have hfirst := hx j hj
  rw [ReadM.bind_apply]
  show Tracks j (EStateM.bind x f j) _
  rw [EStateM.bind]
  generalize x j = first, r j.cursor = first' at hfirst
  cases hfirst with
  | @ok a c ks hc hks => exact (hf a ⟨c, j.calls ++ ks⟩ (hc.trans hj)).trans hc hks
  | error hc hks => exact .error hc hks

theorem directly_follows {r : ReadM α} (hr : KeepsDepth r) : Follows depth (directly r) r := by
  intro j _
  have hkeep := hr j.cursor
  rw [directly]
  cases hres : r j.cursor with
  | ok a c =>
    rw [hres] at hkeep
    exact tracks_ok hkeep
  | error e c =>
    rw [hres] at hkeep
    exact tracks_error hkeep

theorem recorded_follows {rule : Rule} {x : CallM α} {r : ReadM α} (hdepth : depth ≤ nestingLimit)
    (hx : Follows depth x r) : Follows depth (recorded rule x) r := by
  intro j hj
  have hinner := hx j hj
  rw [recorded]
  generalize x j = inner, r j.cursor = inner' at hinner
  have hbalanced : ∀ {c : Cursor}, c.depth = j.cursor.depth →
      Call.Balanced ⟨rule, j.cursor.depth, c.depth⟩ :=
    fun hc => ⟨Nat.le_trans (Nat.le_of_eq hj) hdepth, hc⟩
  cases hinner with
  | ok hc hks =>
    have hall := List.forall_mem_append.2 ⟨hks, List.forall_mem_singleton.2 (hbalanced hc)⟩
    simp only [Journey.record, List.append_assoc]
    exact .ok hc hall
  | error hc hks =>
    have hall := List.forall_mem_append.2 ⟨hks, List.forall_mem_singleton.2 (hbalanced hc)⟩
    simp only [Journey.record, List.append_assoc]
    exact .error hc hall

/-- Past the limit nothing is called.  Within it the level that is opened for the call is
closed again. -/
theorem nested_follows {x : CallM Expr} {r : ReadM Expr}
    (hx : depth < nestingLimit → Follows (depth + 1) x r) :
    Follows depth (nested x) (ReadM.nested r) := by
  intro j hj
  by_cases hlimit : nestingLimit ≤ j.cursor.depth
  · rw [nested, if_pos hlimit, ReadM.nested_of_le hlimit]
    exact directly_follows refuse_keepsDepth j hj
  have hlt : j.cursor.depth < nestingLimit := Nat.not_le.1 hlimit
  have hinner := hx (hj ▸ hlt) (j.withDepth (j.cursor.depth + 1)) (congrArg (· + 1) hj)
  rw [nested, ReadM.nested, if_neg hlimit, if_neg hlimit]
  have hcursor : (j.withDepth (j.cursor.depth + 1)).cursor =
      { j.cursor with depth := j.cursor.depth + 1 } := rfl
  rw [hcursor] at hinner
  generalize x (j.withDepth (j.cursor.depth + 1)) = inner,
    r { j.cursor with depth := j.cursor.depth + 1 } = inner' at hinner
  cases hinner with
  | ok hc hks => exact .ok (congrArg (· - 1) hc) hks
  | error hc hks => exact .error (congrArg (· - 1) hc) hks

end Follows

/-! ## Rules -/

section Rules

variable {l : Level} {depth fuel : Nat}

theorem chainFrom_follows {x : CallM Expr} {r : ReadM Expr} (hx : Follows depth x r)
    (bound : List Token) : ∀ left : Expr,
      Follows depth (chainFrom l x bound left) (Descent.chainFrom l r bound left) := by
  induction bound with
  | nil => exact fun left => pure_follows left
  | cons b bound ih =>
    intro left
    rw [chainFrom, Descent.chainFrom]
    refine bind_follows (directly_follows takeOperator?_keepsDepth) fun operator? => ?_
    cases operator? with
    | none => exact pure_follows left
    | some operator => exact bind_follows hx fun right => ih (.binary left operator right)

theorem chain_follows {x : CallM Expr} {r : ReadM Expr} (hx : Follows depth x r) :
    Follows depth (chain l x) (Descent.chain l r) := by
  refine bind_follows hx fun left => ?_
  intro j hj
  exact chainFrom_follows hx j.cursor.rest left j hj

/-- An operand without unary operators. -/
def primaryWith (inner : ReadM Expr) : ReadM Expr := do
  match ← ReadM.take? Literal.ofToken? with
  | some value => pure (.literal value)
  | none =>
    match ← ReadM.takeIf? (· == .leftParen) with
    | some _ => Descent.group inner
    | none => ReadM.refuse .missingExpression

theorem primary_follows {x : CallM Expr} {r : ReadM Expr} (hx : Follows depth x r) :
    Follows depth (primary x) (primaryWith r) := by
  refine bind_follows (directly_follows take?_keepsDepth) fun value? => ?_
  cases value? with
  | some value => exact pure_follows _
  | none =>
    refine bind_follows (directly_follows take?_keepsDepth) fun left? => ?_
    cases left? with
    | none => exact directly_follows refuse_keepsDepth
    | some left =>
      refine bind_follows hx fun e => ?_
      refine bind_follows (directly_follows take?_keepsDepth) fun right? => ?_
      cases right? with
      | some right => exact pure_follows _
      | none => exact directly_follows refuse_keepsDepth

theorem unary_follows {x y : CallM Expr} {behind inner : ReadM Expr} (hx : Follows depth x behind)
    (hy : Follows depth y (primaryWith inner)) :
    Follows depth (unary x y) (Descent.operandWith behind inner) := by
  refine bind_follows (directly_follows take?_keepsDepth) fun operator? => ?_
  cases operator? with
  | some operator => exact bind_follows hx fun e => pure_follows _
  | none => exact hy

/-- From an operand to the operand of a unary operator there are two calls, and to an
expression in parentheses three. -/
theorem call_unary_follows {r : ReadM Expr} (hdepth : depth ≤ nestingLimit)
    (hunary : depth < nestingLimit → Follows (depth + 1) (call (fuel + 1) .unary) r)
    (hexpression : depth < nestingLimit →
      Follows (depth + 1) (call fuel .expression) (Descent.climb r)) :
    Follows depth (call (fuel + 3) .unary)
      (Descent.operandWith (ReadM.nested r) (ReadM.nested (Descent.climb r))) := by
  have hbehind : Follows depth (call (fuel + 2) (.nested .unary)) (ReadM.nested r) :=
    recorded_follows hdepth (nested_follows hunary)
  have hinner : Follows depth (call (fuel + 1) (.nested .expression))
      (ReadM.nested (Descent.climb r)) := recorded_follows hdepth (nested_follows hexpression)
  have hprimary : Follows depth (call (fuel + 2) .primary)
      (primaryWith (ReadM.nested (Descent.climb r))) :=
    recorded_follows hdepth (primary_follows hinner)
  exact recorded_follows hdepth (unary_follows hbehind hprimary)

/-- From an expression to its first operand there are five calls. -/
theorem call_expression_follows {r : ReadM Expr} (hdepth : depth ≤ nestingLimit)
    (hunary : Follows depth (call fuel .unary) r) :
    Follows depth (call (fuel + 5) .expression) (Descent.climb r) := by
  have hfactor : Follows depth (call (fuel + 1) .factor) (Descent.chain .factor r) :=
    recorded_follows hdepth (chain_follows hunary)
  have hterm : Follows depth (call (fuel + 2) .term)
      (Descent.chain .term (Descent.chain .factor r)) :=
    recorded_follows hdepth (chain_follows hfactor)
  have hcomparison : Follows depth (call (fuel + 3) .comparison)
      (Descent.chain .comparison (Descent.chain .term (Descent.chain .factor r))) :=
    recorded_follows hdepth (chain_follows hterm)
  have hequality : Follows depth (call (fuel + 4) .equality) (Descent.climb r) :=
    recorded_follows hdepth (chain_follows hcomparison)
  exact recorded_follows hdepth hequality

/-- Eight units of fuel are enough for each level that can still be opened.  The induction is
on the number of these levels, since every way on to a further operand opens one. -/
theorem call_operand_follows : ∀ (n : Nat) {depth fuel : Nat}, depth + n = nestingLimit →
    8 * n + 3 ≤ fuel → Follows depth (call fuel .unary) (Descent.operand (n + 1)) := by
  intro n
  induction n with
  | zero =>
    intro depth fuel hdepth hfuel
    obtain ⟨k, rfl⟩ := Nat.exists_eq_add_of_le' hfuel
    exact call_unary_follows (by omega) (by omega) (by omega)
  | succ n ih =>
    intro depth fuel hdepth hfuel
    obtain ⟨k, rfl⟩ := Nat.exists_eq_add_of_le' hfuel
    have hfirst : Follows (depth + 1) (call (k + 8 * n + 3) .unary) (Descent.operand (n + 1)) :=
      ih (by omega) (by omega)
    have hexpression := call_expression_follows (by omega) hfirst
    have hunary : Follows (depth + 1) (call (k + 8 * n + 9) .unary) (Descent.operand (n + 1)) :=
      ih (by omega) (by omega)
    exact call_unary_follows (by omega) (fun _ => hunary) (fun _ => hexpression)

end Rules

/-! ## Parsers -/

namespace Parser

/-- The fuel for as many expressions, one in the other, as the limit allows. -/
def callLimit : Nat := 8 * (nestingLimit + 1)

theorem call_follows_expression {fuel : Nat} (hfuel : callLimit ≤ fuel) :
    Follows 0 (call fuel .expression) Descent.expression := by
  obtain ⟨k, rfl⟩ := Nat.exists_eq_add_of_le' hfuel
  have hunary : Follows 0 (call (k + (8 * nestingLimit + 3)) .unary)
      (Descent.operand (nestingLimit + 1)) :=
    call_operand_follows nestingLimit (Nat.zero_add _) (Nat.le_add_left _ _)
  exact call_expression_follows (Nat.zero_le _) hunary

theorem parseByCalls?_eq {p : Parser} {fuel : Nat} (hp : p.depth = 0) (hfuel : callLimit ≤ fuel) :
    ∃ calls, p.parseByCalls? fuel = some (p.parse, calls) ∧ ∀ k ∈ calls, k.Balanced := by
  have h := call_follows_expression hfuel ⟨p.cursor, []⟩ hp
  rw [parseByCalls?, parse]
  generalize call fuel .expression ⟨p.cursor, []⟩ = x, Descent.expression p.cursor = r at h
  cases h with
  | @ok e c ks _ hks => exact ⟨ks, rfl, hks⟩
  | @error e c ks _ hks => exact ⟨ks, rfl, hks⟩

/-- There is an amount of fuel that is enough for all tokens and for every call of a parser
over them.  With it the parser gives what it gives without counting fuel.  Whatever comes
of the calls that are made on the way, each of them finds the levels of nesting within the
limit and leaves as many as it found. -/
theorem exists_fuel : ∃ bound, ∀ fuel ≥ bound, ∀ (ts : List Token) (n : Nat),
    ∃ calls, (afterCalls n { rest := ts }).parseByCalls? fuel =
        some ((afterCalls n { rest := ts }).parse, calls) ∧
      ∀ k ∈ calls, k.before ≤ 64 ∧ k.after = k.before := by
  refine ⟨callLimit, fun fuel hfuel ts n => ?_⟩
  obtain ⟨calls, hparse, hcalls⟩ := parseByCalls?_eq (depth_afterCalls (p := { rest := ts }) rfl n) hfuel
  exact ⟨calls, hparse, fun k hk => ⟨(hcalls k hk).before_le, (hcalls k hk).after_eq⟩⟩

/-- The calls for `!1`, each behind those it has made. -/
example :
    (parseByCalls? 9 { rest := [⟨.bang, "!", none, 1⟩, ⟨.number, "1", none, 1⟩] }).map Prod.snd =
      some [⟨.primary, 1, 1⟩, ⟨.unary, 1, 1⟩, ⟨.nested .unary, 0, 0⟩, ⟨.unary, 0, 0⟩,
        ⟨.factor, 0, 0⟩, ⟨.term, 0, 0⟩, ⟨.comparison, 0, 0⟩, ⟨.equality, 0, 0⟩,
        ⟨.expression, 0, 0⟩] := by decide +kernel

/-- As many parentheses as can be taken need all of the fuel. -/
example :
    (parseByCalls? (callLimit - 1)
      { rest := List.replicate 65 ⟨.leftParen, "(", none, 1⟩ }).isNone = true := by
  decide +kernel

end Parser

end Lox
