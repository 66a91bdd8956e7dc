import Lox.Proofs.Grammar.Resumption

/-!
# Kinds and one token ahead

A parser looks at the kinds of tokens and at nothing else, and never past the first
token that it leaves.  So two lists whose tokens are of the same kinds up to there are
parsed alike, call after call (`Parser.parses_parallel`).

What two trees have in common then is their `Shape`, a tree with positions in place of
its tokens.  Each of the two trees is the shape filled with the tokens of its own list.

Whether a token can be taken is a matter of its kind (`Pending.Step.of_kind`), and this
carries over from one token to all that are taken (`Takes.of_kinds`).  For the trees it
carries over from the derivation of one to a derivation of the other
(`Derives.of_kinds`).
-/

namespace Lox

open Pending

/-! ## Shapes -/

/-- An expression with positions in a list in place of the tokens. -/
inductive Shape where
  /-- Two operands and the position of the operator. -/
  | binary (left : Shape) (operator : Nat) (right : Shape)
  /-- An expression in parentheses. -/
  | grouping (inner : Shape)
  /-- The position of a literal. -/
  | literal (position : Nat)
  /-- The position of an operator, and its operand. -/
  | unary (operator : Nat) (operand : Shape)
deriving DecidableEq, Repr

/-- The expression of a shape, with the tokens of a list at their positions. -/
def Shape.fill? (ts : List Token) : Shape → Option Expr
  | binary left operator right => do
    return .binary (← left.fill? ts) (← ts[operator]?) (← right.fill? ts)
  | grouping inner => return .grouping (← inner.fill? ts)
  | literal position => return .literal (← Literal.ofToken? (← ts[position]?))
  | unary operator operand => return .unary (← ts[operator]?) (← operand.fill? ts)

namespace Expr

/-- The number of tokens that spell an expression. -/
def width : Expr → Nat
  | binary left _ right => left.width + (right.width + 1)
  | grouping inner => inner.width + 2
  | literal _ => 1
  | unary _ operand => operand.width + 1

/-- The shape of an expression that is spelled from a position on. -/
def shapeAt : Expr → Nat → Shape
  | binary left _ right, n =>
    .binary (left.shapeAt n) (n + left.width) (right.shapeAt (n + left.width + 1))
  | grouping inner, n => .grouping (inner.shapeAt (n + 1))
  | literal _, n => .literal n
  | unary _ operand, n => .unary n (operand.shapeAt (n + 1))

/-- Two expressions that differ in what their tokens are, and not in where they stand. -/
structure Parallel (e f : Expr) : Prop where
  rank_eq : e.rank = f.rank
  nesting_eq : e.nesting = f.nesting
  width_eq : e.width = f.width
  shapeAt_eq : ∀ n, e.shapeAt n = f.shapeAt n

end Expr

theorem getElem?_of_isPrefix_drop {all ts : List Token} {t : Token} {n : Nat}
    (h : t :: ts <+: all.drop n) : all[n]? = some t := by
  obtain ⟨rest, hrest⟩ := h
  rw [← List.head?_drop, ← hrest]
  rfl

theorem isPrefix_drop_append {all us : List Token} {n : Nat} (ts : List Token)
    (h : ts ++ us <+: all.drop n) :
    ts <+: all.drop n ∧ us <+: all.drop (n + ts.length) := by
  obtain ⟨rest, hrest⟩ := h
  rw [List.append_assoc] at hrest
  refine ⟨⟨us ++ rest, hrest⟩, rest, ?_⟩
  rw [← List.drop_drop, ← hrest, List.drop_left]

namespace Derives

variable {e : Expr} {ts us : List Token}

theorem length_eq (h : Derives e ts) : ts.length = e.width := by
  induction h with
  | literal _ => rfl
  | grouping _ _ _ ih => simp [Expr.width, ih]
  | unary _ _ _ ih => simp [Expr.width, ih]
  | binary _ _ _ _ _ ihe ihf => simp [Expr.width, ihe, ihf]

/-- An expression is its shape filled with the tokens that spell it. -/
theorem fill?_shapeAt (h : Derives e ts) : ∀ {all : List Token} {n : Nat},
    ts <+: all.drop n → (e.shapeAt n).fill? all = some e := by
  induction h with
  | literal hv =>
    intro all n hall
    simp [Expr.shapeAt, Shape.fill?, getElem?_of_isPrefix_drop hall, ofToken?_eq_some_iff.2 hv]
  | @grouping left right e ts _ _ _ ih =>
    intro all n hall
    have hopened := (isPrefix_drop_append ([left] ++ ts) hall).1
    have hinner : (e.shapeAt (n + 1)).fill? all = some e :=
      ih (isPrefix_drop_append [left] hopened).2
    simp [Expr.shapeAt, Shape.fill?, hinner]
  | @unary operator e ts _ _ _ ih =>
    intro all n hall
    have hoperand : (e.shapeAt (n + 1)).fill? all = some e :=
      ih (isPrefix_drop_append [operator] hall).2
    simp [Expr.shapeAt, Shape.fill?, getElem?_of_isPrefix_drop hall, hoperand]
  | @binary operator l e f ts us _ he _ _ _ ihe ihf =>
    intro all n hall
    obtain ⟨hleft, hright⟩ := isPrefix_drop_append ts hall
    rw [he.length_eq] at hright
    have hoperand : (f.shapeAt (n + e.width + 1)).fill? all = some f :=
      ihf (isPrefix_drop_append [operator] hright).2
    simp [Expr.shapeAt, Shape.fill?, getElem?_of_isPrefix_drop hright, ihe hleft, hoperand]

end Derives

/-! ## Tokens of the same kinds -/

theorem map_take_eq_of_le {ts us : List Token} {m n : Nat} (hmn : m ≤ n)
    (h : (us.take n).map Token.kind = (ts.take n).map Token.kind) :
    (us.take m).map Token.kind = (ts.take m).map Token.kind := by
  have hm := congrArg (List.take m) h
  rwa [← List.map_take, ← List.map_take, List.take_take, List.take_take, Nat.min_eq_left hmn] at hm

theorem Spells.of_kind {t u : Token} {v : Literal} (h : Spells t v) (hk : u.kind = t.kind) :
    ∃ w, Spells u w := by
  have ht : t.kind.isLiteral = true := by
    rw [← isSome_ofToken?, ofToken?_eq_some_iff.2 h]
    rfl
  rw [← hk, ← isSome_ofToken?] at ht
  obtain ⟨w, hw⟩ := Option.isSome_iff_exists.1 ht
  exact ⟨w, ofToken?_eq_some_iff.1 hw⟩

/-- Tokens of the same kinds spell an expression of the same shape. -/
theorem Derives.of_kinds {e : Expr} {ts : List Token} (h : Derives e ts) :
    ∀ {us : List Token}, us.map Token.kind = ts.map Token.kind →
      ∃ f, Derives f us ∧ e.Parallel f := by
  induction h with
  | literal hv =>
    intro us hus
    obtain ⟨u, rfl, hu⟩ := List.map_eq_singleton_iff.1 hus
    obtain ⟨w, hw⟩ := hv.of_kind hu
    exact ⟨.literal w, .literal hw, rfl, rfl, rfl, fun _ => rfl⟩
  | @grouping left right e ts hleft _ hright ih =>
    intro us hus
    rw [List.map_append, List.map_cons] at hus
    obtain ⟨vs, ws, rfl, hvs, hws⟩ := List.map_eq_append_iff.1 hus
    obtain ⟨left', ts', rfl, hleft', hts'⟩ := List.map_eq_cons_iff.1 hvs
    obtain ⟨right', rfl, hright'⟩ := List.map_eq_singleton_iff.1 hws
    obtain ⟨f, hf, hsame⟩ := ih hts'
    refine ⟨.grouping f, .grouping (hleft'.trans hleft) hf (hright'.trans hright), ?_⟩
    constructor
    case rank_eq => rfl
    case nesting_eq => simp [Expr.nesting, hsame.nesting_eq]
    case width_eq => simp [Expr.width, hsame.width_eq]
    case shapeAt_eq => simp [Expr.shapeAt, hsame.shapeAt_eq]
  | @unary operator e ts hop _ hrank ih =>
    intro us hus
    obtain ⟨operator', ts', rfl, hop', hts'⟩ := List.map_eq_cons_iff.1 hus
    obtain ⟨f, hf, hsame⟩ := ih hts'
    refine ⟨.unary operator' f, .unary (hop' ▸ hop) hf (hsame.rank_eq ▸ hrank), ?_⟩
    constructor
    case rank_eq => rfl
    case nesting_eq => simp [Expr.nesting, hsame.nesting_eq]
    case width_eq => simp [Expr.width, hsame.width_eq]
    case shapeAt_eq => simp [Expr.shapeAt, hsame.shapeAt_eq]
  | @binary operator l e g ts vs hl _ _ he hg ihe ihg =>
    intro us hus
    rw [List.map_append, List.map_cons] at hus
    obtain ⟨ts', ws, rfl, hts', hws⟩ := List.map_eq_append_iff.1 hus
    obtain ⟨operator', vs', rfl, hop', hvs'⟩ := List.map_eq_cons_iff.1 hws
    obtain ⟨e', he', hsame⟩ := ihe hts'
    obtain ⟨g', hg', hsame'⟩ := ihg hvs'
    refine ⟨.binary e' operator' g', .binary (hop' ▸ hl) he' hg' (hsame.rank_eq ▸ he)
      (hsame'.rank_eq ▸ hg), ?_⟩
    constructor
    case rank_eq => simp [Expr.rank, hop']
    case nesting_eq => simp [Expr.nesting, hsame.nesting_eq, hsame'.nesting_eq]
    case width_eq => simp [Expr.width, hsame.width_eq, hsame'.width_eq]
    case shapeAt_eq =>
      simp [Expr.shapeAt, hsame.width_eq, hsame.shapeAt_eq, hsame'.shapeAt_eq]

/-- Whether a token can be taken, and what is open after it, is told by its kind. -/
theorem Pending.Step.of_kind {p q : Pending} {t u : Token} (h : Step p t q)
    (hk : u.kind = t.kind) : Step p u q := by
  cases h with
  | unary hos ht => exact .unary hos (hk ▸ ht)
  | leftParen hos ht => exact .leftParen hos (hk ▸ ht)
  | literal hos ht => exact .literal hos (hk ▸ ht)
  | operator hl => exact .operator (hk ▸ hl)
  | rightParen ht => exact .rightParen (hk ▸ ht)

theorem Pending.Stuck.of_kind {p : Pending} {ts us : List Token} (h : p.Stuck ts)
    (hk : us.head?.map Token.kind = ts.head?.map Token.kind) : p.Stuck us := by
  intro u hu q hs
  rw [hu] at hk
  obtain ⟨t, ht, htu⟩ := Option.map_eq_some_iff.1 hk.symm
  exact h t ht q (hs.of_kind htu)

/-- Tokens of the same kinds are taken alike. -/
theorem Takes.of_kinds {p q : Pending} {c d : Cursor} (h : Takes p c q d) :
    ∀ {ts us rest : List Token} {c' : Cursor}, c.rest = ts ++ d.rest → c'.rest = us ++ rest →
      us.map Token.kind = ts.map Token.kind → ∃ d', Takes p c' q d' ∧ d'.rest = rest := by
  induction h with
  | refl =>
    intro ts us rest c' hts hus hk
    obtain rfl : ts = [] := List.self_eq_append_left.1 hts
    obtain rfl : us = [] := List.map_eq_nil_iff.1 hk
    exact ⟨c', .refl, hus⟩
  | @step p q r c d t rest₀ hc hs h ih =>
    intro ts us rest c' hts hus hk
    obtain ⟨vs, rfl, hvs⟩ := h.tokens_cons hc hts
    obtain ⟨u, us, rfl, hu, hk⟩ := List.map_eq_cons_iff.1 hk
    have hpast : (p.past c' u (us ++ rest)).rest = us ++ rest := rfl
    obtain ⟨d', htakes, hd'⟩ := ih hvs hpast hk
    exact ⟨d', .step hus (hs.of_kind hu) htakes, hd'⟩

/-! ## One call of each of two parsers -/

/-- What two calls give over the lists `ts` and `us`, if both take the tokens at the
positions from `first` up to `next` and leave the one at `next`. -/
inductive Parallel (ts us : List Token) (first next : Nat) :
    Except Error Expr → Except Error Expr → Prop
  /-- Trees of one shape, with the tokens of either list at the same positions. -/
  | tree {s : Shape} {e f : Expr} : s.fill? (ts.extract first next) = some e →
      s.fill? (us.extract first next) = some f → Parallel ts us first next (.ok e) (.ok f)
  /-- One message, at the token that is left. -/
  | refused {t u : Token} {message : String} : ts[next]? = some t → us[next]? = some u →
      Parallel ts us first next (.error (.syntactic t message)) (.error (.syntactic u message))
  /-- Neither list has a token left. -/
  | ended {line line' : Nat} : ts[next]? = none → us[next]? = none →
      Parallel ts us first next (.error (.unexpectedEnd line)) (.error (.unexpectedEnd line'))

/-- Positions in what is left of two lists, seen from their start. -/
theorem Parallel.of_drop {ts us : List Token} {n k : Nat} {r r' : Except Error Expr}
    (h : Parallel (ts.drop n) (us.drop n) 0 k r r') : Parallel ts us n (n + k) r r' := by
  have hextract : ∀ vs : List Token, (vs.drop n).extract 0 k = vs.extract n (n + k) := by
    intro vs
    simp [List.extract]
  cases h with
  | tree he hf =>
    rw [hextract] at he hf
    exact .tree he hf
  | refused ht hu =>
    rw [List.getElem?_drop] at ht hu
    exact .refused ht hu
  | ended ht hu =>
    rw [List.getElem?_drop] at ht hu
    exact .ended ht hu

/-- One fault, at the token that is left. -/
theorem Parallel.before {ts us : List Token} {first next : Nat}
    (h : us[next]?.map Token.kind = ts[next]?.map Token.kind) (f : SyntaxFault) (line line' : Nat) :
    Parallel ts us first next (.error (f.before ts[next]? line))
      (.error (f.before us[next]? line')) := by
  cases ht : ts[next]? with
  | none =>
    rw [ht] at h
    have hu : us[next]? = none := Option.map_eq_none_iff.1 h
    rw [hu]
    exact .ended ht hu
  | some t =>
    rw [ht] at h
    obtain ⟨u, hu, -⟩ := Option.map_eq_some_iff.1 h
    rw [hu]
    exact .refused ht hu

namespace Parser

variable {p p' : Parser}

/-- What spells the one tree spells the other, but for what the tokens are. -/
theorem parallel_of_ok {k : Nat} {e f : Expr} (hp : p.depth = 0) (hp' : p'.depth = 0)
    (he : p.parse.result = .ok e ∧ p.parse.after.rest = p.rest.drop k)
    (hf : p'.parse.result = .ok f ∧ p'.parse.after.rest = p'.rest.drop k)
    (hkinds : (p'.rest.take k).map Token.kind = (p.rest.take k).map Token.kind) :
    Parallel p.rest p'.rest 0 k (.ok e) (.ok f) := by
  obtain ⟨c, hc, hder, hnest, -⟩ := (parse_eq_ok_iff hp).1 he
  obtain ⟨-, -, -, -, hends⟩ := (parse_eq_ok_iff hp').1 hf
  obtain rfl : c = p.rest.take k :=
    List.append_cancel_right (hc.symm.trans (List.take_append_drop k _).symm)
  obtain ⟨g, hder', hsame⟩ := hder.of_kinds hkinds
  have hsplit : p'.rest = p'.rest.take k ++ p'.rest.drop k := (List.take_append_drop k _).symm
  have hg : p'.parse.result = .ok g :=
    ((parse_eq_ok_iff hp').2 ⟨_, hsplit, hder', hsame.nesting_eq ▸ hnest, hends⟩).1
  obtain rfl : g = f := Except.ok.inj (hg.symm.trans hf.1)
  refine .tree (s := e.shapeAt 0) (hder.fill?_shapeAt (List.prefix_refl _)) ?_
  rw [hsame.shapeAt_eq]
  exact hder'.fill?_shapeAt (List.prefix_refl _)

/-- A parser takes the tokens that another one takes before it is stuck, and is stuck there
too. -/
theorem exists_takes_of_kinds {q : Pending} {d : Cursor} {k : Nat} (h : Takes {} p.cursor q d)
    (hs : q.Stuck d.rest) (hd : d.rest = p.rest.drop k)
    (htaken : (p'.rest.take k).map Token.kind = (p.rest.take k).map Token.kind)
    (hnext : p'.rest[k]?.map Token.kind = p.rest[k]?.map Token.kind) :
    ∃ d', Takes {} p'.cursor q d' ∧ q.Stuck d'.rest ∧ d'.rest = p'.rest.drop k := by
  have hsplit : p.cursor.rest = p.rest.take k ++ d.rest := by
    rw [hd]
    exact (List.take_append_drop k _).symm
  have hsplit' : p'.cursor.rest = p'.rest.take k ++ p'.rest.drop k :=
    (List.take_append_drop k _).symm
  obtain ⟨d', htakes, hd'⟩ := h.of_kinds hsplit hsplit' htaken
  refine ⟨d', htakes, hs.of_kind ?_, hd'⟩
  rw [hd, hd', List.head?_drop, List.head?_drop, hnext]

/-- Where the tokens are of the same kinds as far as one parser looks, the other one
stops at the same place and gives the same but for what the tokens are. -/
theorem parse_parallel {k : Nat} (hp : p.depth = 0) (hp' : p'.depth = 0)
    (hk : p.parse.after.rest = p.rest.drop k)
    (hkinds : (p'.rest.take (k + 1)).map Token.kind = (p.rest.take (k + 1)).map Token.kind) :
    p'.parse.after.rest = p'.rest.drop k ∧
      Parallel p.rest p'.rest 0 k p.parse.result p'.parse.result := by
  have htaken := map_take_eq_of_le (Nat.le_succ k) hkinds
  have hnext : p'.rest[k]?.map Token.kind = p.rest[k]?.map Token.kind := by
    have h := congrArg (·[k]?) hkinds
    simpa [List.getElem?_take] using h
  obtain ⟨q, d, htakes, hstuck⟩ := exists_takes hp
  obtain ⟨hafter, -, hres⟩ := parse_of_takes hp htakes hstuck
  have hd : d.rest = p.rest.drop k := by
    rw [← hk, hafter]
    rfl
  obtain ⟨d', htakes', hstuck', hd'⟩ := exists_takes_of_kinds htakes hstuck hd htaken hnext
  obtain ⟨hafter', -, hres'⟩ := parse_of_takes hp' htakes' hstuck'
  have hk' : p'.parse.after.rest = p'.rest.drop k := by
    rw [hafter', ← hd']
    rfl
  refine ⟨hk', ?_⟩
  cases hf : q.fault? with
  | some f =>
    rw [hf, hd, List.head?_drop] at hres
    rw [hf, hd', List.head?_drop] at hres'
    rw [hres, hres']
    exact .before hnext f _ _
  | none =>
    rw [hf] at hres hres'
    obtain ⟨e, he⟩ := hres
    obtain ⟨f, hf⟩ := hres'
    rw [he, hf]
    exact parallel_of_ok hp hp' ⟨he, hk⟩ ⟨hf, hk'⟩ htaken

/-! ## All calls -/

/-- How many tokens the first `n` calls take. -/
def numTaken (n : Nat) (p : Parser) : Nat := p.rest.length - (afterCalls n p).rest.length

theorem rest_afterCalls (hp : p.depth = 0) (n : Nat) :
    (afterCalls n p).rest = p.rest.drop (numTaken n p) := by
  have h := isSuffix_rest_afterCalls hp 0 n
  rw [Nat.zero_add] at h
  exact List.suffix_iff_eq_drop.1 h

theorem numTaken_le_length (n : Nat) (p : Parser) : numTaken n p ≤ p.rest.length := Nat.sub_le _ _

theorem numTaken_mono (hp : p.depth = 0) {m n : Nat} (h : m ≤ n) : numTaken m p ≤ numTaken n p := by
  obtain ⟨k, rfl⟩ := Nat.exists_eq_add_of_le h
  exact Nat.sub_le_sub_left (isSuffix_rest_afterCalls hp m k).length_le _

theorem numTaken_eq_of_rest {n k : Nat} (h : (afterCalls n p).rest = p.rest.drop k)
    (hk : k ≤ p.rest.length) : numTaken n p = k := by
  rw [numTaken, h, List.length_drop]
  omega

/-- One call after `n` others, seen from the start of the lists. -/
theorem parse_parallel_afterCalls {n : Nat} (hp : p.depth = 0) (hp' : p'.depth = 0)
    (hrest : (afterCalls n p').rest = p'.rest.drop (numTaken n p))
    (hkinds : (p'.rest.take (numTaken (n + 1) p + 1)).map Token.kind =
      (p.rest.take (numTaken (n + 1) p + 1)).map Token.kind) :
    (afterCalls (n + 1) p').rest = p'.rest.drop (numTaken (n + 1) p) ∧
      Parallel p.rest p'.rest (numTaken n p) (numTaken (n + 1) p)
        (afterCalls n p).parse.result (afterCalls n p').parse.result := by
  obtain ⟨k, hk⟩ := Nat.exists_eq_add_of_le (numTaken_mono hp (Nat.le_succ n))
  have hstart := rest_afterCalls hp n
  have hstop := rest_afterCalls hp (n + 1)
  rw [hk, ← List.drop_drop, ← hstart, afterCalls_succ] at hstop
  have hahead : ((afterCalls n p').rest.take (k + 1)).map Token.kind =
      ((afterCalls n p).rest.take (k + 1)).map Token.kind := by
    have h := congrArg (List.drop (numTaken n p)) hkinds
    rw [hk, ← List.map_drop, ← List.map_drop, List.drop_take, List.drop_take] at h
    rw [hrest, hstart]
    simpa [Nat.add_assoc] using h
  obtain ⟨hafter, hpar⟩ :=
    parse_parallel (depth_afterCalls hp n) (depth_afterCalls hp' n) hstop hahead
  rw [hstart, hrest] at hpar
  rw [hk, afterCalls_succ, hafter, hrest, List.drop_drop]
  exact ⟨rfl, hpar.of_drop⟩

/-- If the tokens of two lists are of the same kinds through the first one that some
calls over `ts` leave, then the same calls over `us` take as many tokens each.  They give
trees of the same shape with tokens from the same positions, or the same message at the
same position. -/
theorem parses_parallel (n : Nat) {ts us : List Token}
    (h : (us.take (numTaken n { rest := ts } + 1)).map Token.kind =
      (ts.take (numTaken n { rest := ts } + 1)).map Token.kind) :
    ∀ i < n, numTaken (i + 1) { rest := us } = numTaken (i + 1) { rest := ts } ∧
      Parallel ts us (numTaken i { rest := ts }) (numTaken (i + 1) { rest := ts })
        (afterCalls i { rest := ts }).parse.result (afterCalls i { rest := us }).parse.result := by
  have hkinds : ∀ i ≤ n, (us.take (numTaken i { rest := ts } + 1)).map Token.kind =
      (ts.take (numTaken i { rest := ts } + 1)).map Token.kind := by
    intro i hi
    have hmono : numTaken i { rest := ts } ≤ numTaken n { rest := ts } := numTaken_mono rfl hi
    exact map_take_eq_of_le (Nat.succ_le_succ hmono) h
  have hrest : ∀ i ≤ n,
      (afterCalls i { rest := us }).rest = us.drop (numTaken i { rest := ts }) := by
    intro i
    induction i with
    | zero =>
      intro _
      rw [numTaken, afterCalls, afterCalls, Nat.sub_self, List.drop_zero]
    | succ i ih =>
      intro hi
      exact (parse_parallel_afterCalls rfl rfl (ih (Nat.le_of_succ_le hi)) (hkinds (i + 1) hi)).1
  intro i hi
  refine ⟨numTaken_eq_of_rest (hrest (i + 1) hi) ?_,
    (parse_parallel_afterCalls rfl rfl (hrest i (Nat.le_of_lt hi)) (hkinds (i + 1) hi)).2⟩
  have hle : numTaken (i + 1) { rest := ts } ≤ ts.length := numTaken_le_length _ _
  have hlength := congrArg List.length (hkinds (i + 1) hi)
  simp only [List.length_map, List.length_take] at hlength
  show _ ≤ us.length
  omega

/-- `-1 ( ) 2` -/
def minusOneParens : List Token :=
  [⟨.minus, "-", none, 1⟩, ⟨.number, "1", some "1", 1⟩, ⟨.leftParen, "(", none, 2⟩,
    ⟨.rightParen, ")", none, 2⟩, ⟨.number, "2", some "2", 3⟩]

/-- Other tokens of the same kinds, but for the last one. -/
def minusOddParens : List Token :=
  [⟨.minus, "*", some "x", 7⟩, ⟨.number, "(", none, 3⟩, ⟨.leftParen, "", some "\n", 1⟩,
    ⟨.rightParen, "2", none, 0⟩, ⟨.endOfFile, "2", none, 5⟩]

/-- The first call gives a tree, and the second one an error at the right parenthesis.
Neither gets to the last token. -/
theorem parses_parallel_minusParens :
    (minusOddParens.take (numTaken 2 { rest := minusOneParens } + 1)).map Token.kind =
        (minusOneParens.take (numTaken 2 { rest := minusOneParens } + 1)).map Token.kind ∧
      ∀ i < 2, numTaken (i + 1) { rest := minusOddParens } =
          numTaken (i + 1) { rest := minusOneParens } ∧
        Parallel minusOneParens minusOddParens (numTaken i { rest := minusOneParens })
          (numTaken (i + 1) { rest := minusOneParens })
          (afterCalls i { rest := minusOneParens }).parse.result
          (afterCalls i { rest := minusOddParens }).parse.result := by
  have h : (minusOddParens.take (numTaken 2 { rest := minusOneParens } + 1)).map Token.kind =
      (minusOneParens.take (numTaken 2 { rest := minusOneParens } + 1)).map Token.kind := by
    decide +kernel
  exact ⟨h, parses_parallel 2 h⟩

end Parser

end Lox
