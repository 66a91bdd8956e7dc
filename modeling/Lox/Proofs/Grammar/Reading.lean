import Lox.Grammar.Derivation
import Lox.Proofs.Grammar.Taking

/-!
# What a reading leaves behind

Every reader of expressions keeps one promise, `Reads`.  If it gives an expression
then the tokens it took spell the expression, the expression nests no deeper than
the reader is allowed to, and no operator of its rank comes next.  If it fails
then its cursor is stuck, and the error says why.  In both cases the cursor moved
by `Takes`, so what is open around the reader decides what it takes, and the levels
that it counted are off the count again.

The promise is for cursors that have counted as many levels as are open around the
reader.  In front of `nested` they have counted one less, since the opener is taken
but its level not counted yet.

A reader of operands can stand behind unary operators, which its operand takes
along.  A chain cannot, since the operand of a unary operator is no binary
expression.

`expression_reads` is the promise of the reader that a parser calls.
-/

namespace Lox

open Pending Descent ReadM

/-- No binary operator of this rank or a tighter one comes next. -/
def Ends (rank : Nat) (ts : List Token) : Prop :=
  ∀ t l, ts.head? = some t → t.kind.level? = some l → l.rank < rank

theorem Ends.mono {m n : Nat} {ts : List Token} (h : Ends m ts) (hmn : m ≤ n) : Ends n ts := by
  intro t l ht hl
  exact Nat.lt_of_lt_of_le (h t l ht hl) hmn

/-- A level is over where no operator of it comes next and no tighter one either. -/
theorem Ends.of_succ {l : Level} {ts : List Token} (h : Ends (l.rank + 1) ts)
    (hne : ∀ t, ts.head? = some t → t.kind.level? ≠ some l) : Ends l.rank ts := by
  intro t m ht hm
  have hle : m.rank ≤ l.rank := Nat.lt_succ_iff.1 (h t m ht hm)
  have hml : m.rank ≠ l.rank := fun he => hne t ht (Level.rank_injective he ▸ hm)
  omega

theorem Ends.level_ne {l : Level} {ts : List Token} (h : Ends l.rank ts) :
    ∀ t, ts.head? = some t → t.kind.level? ≠ some l :=
  fun t ht hl => Nat.lt_irrefl _ (h t l ht hl)

theorem ends_operandRank (ts : List Token) : Ends Level.operandRank ts :=
  fun _ l _ _ => Level.rank_lt_operandRank l

/-- What holds when the expression `e` has been read from `c` on and the cursor has
come to `d`.  The openers `os` were there before. -/
structure HasRead (rank : Nat) (os : List Opener) (c : Cursor) (e : Expr) (d : Cursor) :
    Prop where
  takes : Takes ⟨os, true⟩ c (complete os) d
  derives : ∃ ts, c.rest = ts ++ d.rest ∧ Derives e ts
  nesting_le : os.length + e.nesting ≤ nestingLimit
  rank_le : rank ≤ e.rank

/-- The cursor is stuck and the error says why. -/
def Fails (p : Pending) (c : Cursor) (err : Error) (d : Cursor) : Prop :=
  ∃ q f, Takes p c q d ∧ q.Stuck d.rest ∧ q.fault? = some f ∧ err = f.before d.rest.head? d.line

theorem Fails.of_takes {p q : Pending} {c d e : Cursor} {err : Error} (h : Takes p c q d)
    (h' : Fails q d err e) : Fails p c err e := by
  obtain ⟨r, f, ht, hs, hf, he⟩ := h'
  exact ⟨r, f, h.trans ht, hs, hf, he⟩

/-- What a reading from the cursor `c` on may give. -/
def ReadsFrom (rank : Nat) (os : List Opener) (c : Cursor) :
    EStateM.Result Error Cursor Expr → Prop
  | .ok e d => HasRead rank os c e d ∧ Ends rank d.rest
  | .error err d => Fails ⟨os, true⟩ c err d

/-- What every reader of expressions promises where `depth` levels are counted. -/
def Reads (depth rank : Nat) (os : List Opener) (r : ReadM Expr) : Prop :=
  ∀ c, c.depth = depth → ReadsFrom rank os c (r c)

/-! ## Chains -/

section Chain

variable {l : Level} {os : List Opener} {depth : Nat} {r : ReadM Expr}

/-- One more operator and its right operand. -/
theorem HasRead.binary {c d d' : Cursor} {left right : Expr} {t : Token} {rest : List Token}
    (hos : os.head? ≠ some .operator) (hl : HasRead l.rank os c left d)
    (hd : d.rest = t :: rest) (ht : t.kind.level? = some l)
    (hr : HasRead (l.rank + 1) os (Pending.past ⟨os, false⟩ d t rest) right d') :
    HasRead l.rank os c (.binary left t right) d' := by
  have hc : complete os = ⟨os, false⟩ := complete_of_head? hos
  refine ⟨?_, ?_, ?_, ?_⟩
  · have h1 := hl.takes
    rw [hc] at h1
    exact h1.trans (.step hd (.operator ht) hr.takes)
  · obtain ⟨ts, hts, hdl⟩ := hl.derives
    obtain ⟨us, hus, hdr⟩ := hr.derives
    refine ⟨ts ++ t :: us, ?_, .binary ht hdl hdr hl.rank_le hr.rank_le⟩
    rw [rest_past] at hus
    rw [hts, hd, hus, List.append_assoc, List.cons_append]
  · have h1 := hl.nesting_le
    have h2 := hr.nesting_le
    simp only [Expr.nesting]
    omega
  · simp [Expr.rank, ht]

/-- The invariant of a chain is that what it has joined so far has been read.  The
induction is on the bound, which the tokens to come never exceed. -/
theorem chainFrom_reads (hos : os.head? ≠ some .operator) (hr : Reads depth (l.rank + 1) os r)
    {c : Cursor} (hdepth : c.depth = depth) : ∀ (bound : List Token) {left : Expr} {d : Cursor},
      d.rest.length ≤ bound.length → HasRead l.rank os c left d → Ends (l.rank + 1) d.rest →
      ReadsFrom l.rank os c (chainFrom l r bound left d) := by
  intro bound
  induction bound with
  | nil =>
    intro left d hb hl hd
    have hnil : d.rest = [] := List.eq_nil_of_length_eq_zero (Nat.le_zero.1 hb)
    exact ⟨hl, hd.of_succ (by simp [hnil])⟩
  | cons b bound ih =>
    intro left d hb hl hd
    by_cases hop : ∃ t, d.rest.head? = some t ∧ t.kind.level? = some l
    · obtain ⟨t, hhead, ht⟩ := hop
      obtain ⟨rest, hrest⟩ := List.head?_eq_some_iff.1 hhead
      rw [chainFrom_operator hrest ht, bind_apply, ← past_operator ht os]
      have hright := hr (Pending.past ⟨os, false⟩ d t rest) (hl.takes.depth_eq.trans hdepth)
      cases hres : r (Pending.past ⟨os, false⟩ d t rest) with
      | ok right d' =>
        rw [hres] at hright
        obtain ⟨hread, hends⟩ := hright
        refine ih ?_ (hl.binary hos hrest ht hread) hends
        obtain ⟨us, hus, -⟩ := hread.derives
        have hlen := congrArg List.length hus
        have hlen' := congrArg List.length hrest
        simp only [rest_past, List.length_append, List.length_cons] at hlen hlen' hb
        omega
      | error err d' =>
        rw [hres] at hright
        have htakes := hl.takes
        rw [complete_of_head? hos] at htakes
        exact Fails.of_takes (htakes.trans (.single hrest (.operator ht))) hright
    · have hstop : ∀ t, d.rest.head? = some t → t.kind.level? ≠ some l :=
        fun t hhead ht => hop ⟨t, hhead, ht⟩
      rw [chainFrom_stop hstop]
      exact ⟨hl, hd.of_succ hstop⟩

theorem chain_reads (hos : os.head? ≠ some .operator) (hr : Reads depth (l.rank + 1) os r) :
    Reads depth l.rank os (chain l r) := by
  intro c hdepth
  have hleft := hr c hdepth
  cases hres : r c with
  | ok left d =>
    rw [hres] at hleft
    obtain ⟨hread, hends⟩ := hleft
    rw [chain_eq_chainFrom hres]
    have hread' : HasRead l.rank os c left d :=
      { hread with rank_le := Nat.le_of_succ_le hread.rank_le }
    exact chainFrom_reads hos hr hdepth d.rest (Nat.le_refl _) hread' hends
  | error err d =>
    rw [hres] at hleft
    rw [chain_eq_error hres]
    exact hleft

theorem climb_reads (hos : os.head? ≠ some .operator) (hr : Reads depth Level.operandRank os r) :
    Reads depth 0 os (climb r) :=
  chain_reads hos (chain_reads hos (chain_reads hos (chain_reads hos hr)))

end Chain

/-! ## Operands -/

section Operand

variable {os : List Opener} {behind inner : ReadM Expr}

/-- Where too much is open the next token is refused, whatever it is. -/
theorem refuse_reads {depth rank : Nat} (hos : nestingLimit < os.length) :
    Reads depth rank os (refuse .tooMuchNesting) := by
  intro c _
  refine ⟨⟨os, true⟩, .tooMuchNesting, .refl, ?_, fault?_of_lt hos, rfl⟩
  intro t _ q hs
  cases hs with
  | unary hle _ | leftParen hle _ | literal hle _ => omega

/-- The level of an opener is counted while it is read.  It is off the count again
whether that fails or not, and what is read is the same. -/
theorem nested_reads {rank : Nat} {o : Opener} {r : ReadM Expr}
    (hr : Reads (os.length + 1) rank (o :: os) r) : Reads os.length rank (o :: os) (nested r) := by
  intro c hdepth
  by_cases hle : nestingLimit ≤ c.depth
  · rw [nested_of_le hle]
    have hlt : nestingLimit < (o :: os).length := by
      simp only [List.length_cons]
      omega
    exact refuse_reads hlt c rfl
  have hlt : c.depth < nestingLimit := Nat.not_le.1 hle
  have hread := hr { c with depth := c.depth + 1 } (congrArg (· + 1) hdepth)
  cases hres : r { c with depth := c.depth + 1 } with
  | ok e d =>
    rw [hres] at hread
    obtain ⟨⟨htakes, hder, hnest, hrank⟩, hends⟩ := hread
    rw [nested_eq_ok hlt hres]
    have hback : d.depth - 1 = c.depth := by simp [htakes.depth_eq]
    exact ⟨⟨hback ▸ htakes.withDepth (d.depth - 1), hder, hnest, hrank⟩, hends⟩
  | error err d =>
    rw [hres] at hread
    obtain ⟨q, f, htakes, hstuck, hf, herr⟩ := hread
    rw [nested_eq_error hlt hres]
    have hback : d.depth - 1 = c.depth := by simp [htakes.depth_eq]
    exact ⟨q, f, hback ▸ htakes.withDepth (d.depth - 1), hstuck, hf, herr⟩

/-- A group is read once its left parenthesis is taken. -/
theorem group_reads (hos : os.length ≤ nestingLimit)
    (hi : Reads os.length 0 (.parenthesis :: os) inner) {c : Cursor} (hdepth : c.depth = os.length)
    {t : Token} {rest : List Token} (hc : c.rest = t :: rest) (ht : t.kind = .leftParen) :
    ReadsFrom Level.operandRank os c (group inner { c with rest, line := t.line }) := by
  have hopen : Takes ⟨os, true⟩ c ⟨.parenthesis :: os, true⟩ { c with rest, line := t.line } :=
    .single hc (.leftParen hos ht)
  have hinner := hi { c with rest, line := t.line } hdepth
  cases hres : inner { c with rest, line := t.line } with
  | error err d =>
    rw [hres] at hinner
    rw [group_error hres]
    exact Fails.of_takes hopen hinner
  | ok e d =>
    rw [hres] at hinner
    obtain ⟨hread, hends⟩ := hinner
    have htakes := hopen.trans hread.takes
    by_cases hclose : ∃ u, d.rest.head? = some u ∧ u.kind = .rightParen
    · obtain ⟨u, hhead, hu⟩ := hclose
      obtain ⟨rest', hd⟩ := List.head?_eq_some_iff.1 hhead
      rw [group_close hres hd hu]
      refine ⟨⟨?_, ?_, ?_, Nat.le_refl _⟩, ends_operandRank _⟩
      · have hlast := htakes.trans (.single hd (.rightParen hu))
        simpa [Pending.past, hu] using hlast
      · obtain ⟨ts, hts, hder⟩ := hread.derives
        refine ⟨t :: ts ++ [u], ?_, .grouping ht hder hu⟩
        simp only [hd] at hts
        simp [hc, hts]
      · have hle := hread.nesting_le
        simp only [List.length_cons] at hle
        simp only [Expr.nesting]
        omega
    · have hmissing : ∀ u, d.rest.head? = some u → u.kind ≠ .rightParen :=
        fun u hhead hu => hclose ⟨u, hhead, hu⟩
      rw [group_missing hres hmissing]
      refine ⟨⟨.parenthesis :: os, false⟩, .missingParenthesis, htakes, ?_, ?_, rfl⟩
      · intro u hhead q hs
        cases hs with
        | operator hl => exact absurd (hends u _ hhead hl) (Nat.not_lt_zero _)
        | rightParen hu => exact hmissing u hhead hu
      · have hle := hread.nesting_le
        exact fault?_open (by omega) (List.cons_ne_nil _ _)

/-- A unary operator is read with its operand, once it is taken. -/
theorem unary_reads (hos : os.length ≤ nestingLimit)
    (hb : Reads os.length Level.operandRank (.operator :: os) behind) {c : Cursor}
    (hdepth : c.depth = os.length) {t : Token} {rest : List Token} (hc : c.rest = t :: rest)
    (ht : t.kind.isUnary = true) :
    ReadsFrom Level.operandRank os c
      ((behind >>= fun e => pure (.unary t e)) { c with rest, line := t.line }) := by
  have hopen : Takes ⟨os, true⟩ c ⟨.operator :: os, true⟩ { c with rest, line := t.line } :=
    .single hc (.unary hos ht)
  have hbehind := hb { c with rest, line := t.line } hdepth
  rw [bind_apply]
  cases hres : behind { c with rest, line := t.line } with
  | error err d =>
    rw [hres] at hbehind
    exact Fails.of_takes hopen hbehind
  | ok e d =>
    rw [hres] at hbehind
    obtain ⟨hread, -⟩ := hbehind
    refine ⟨⟨hopen.trans hread.takes, ?_, ?_, Nat.le_refl _⟩, ends_operandRank _⟩
    · obtain ⟨ts, hts, hder⟩ := hread.derives
      have hrank : e.rank = Level.operandRank :=
        Nat.le_antisymm e.rank_le_operandRank hread.rank_le
      refine ⟨t :: ts, ?_, .unary (Kind.isUnary_iff.1 ht) hder hrank⟩
      exact hc.trans (congrArg (t :: ·) hts)
    · have hle := hread.nesting_le
      simp only [List.length_cons] at hle
      simp only [Expr.nesting]
      omega

/-- A literal is read with its token. -/
theorem literal_reads (hos : os.length ≤ nestingLimit) {c : Cursor} {t : Token} {v : Literal}
    {rest : List Token} (hc : c.rest = t :: rest) (ht : Literal.ofToken? t = some v) :
    ReadsFrom Level.operandRank os c (.ok (.literal v) { c with rest, line := t.line }) := by
  have hl : t.kind.isLiteral = true := by
    rw [← isSome_ofToken?, ht]
    rfl
  refine ⟨⟨.single hc (.literal hos hl), ⟨[t], hc, ?_⟩, hos, Nat.le_refl _⟩,
    ends_operandRank _⟩
  exact .literal (ofToken?_eq_some_iff.1 ht)

theorem operandWith_reads (hos : os.length ≤ nestingLimit)
    (hb : Reads os.length Level.operandRank (.operator :: os) behind)
    (hi : Reads os.length 0 (.parenthesis :: os) inner) :
    Reads os.length Level.operandRank os (operandWith behind inner) := by
  intro c hdepth
  by_cases hu : ∃ t, c.rest.head? = some t ∧ t.kind.isUnary = true
  · obtain ⟨t, hhead, ht⟩ := hu
    obtain ⟨rest, hc⟩ := List.head?_eq_some_iff.1 hhead
    rw [operandWith_unary hc ht]
    exact unary_reads hos hb hdepth hc ht
  by_cases hv : ∃ t v, c.rest.head? = some t ∧ Literal.ofToken? t = some v
  · obtain ⟨t, v, hhead, ht⟩ := hv
    obtain ⟨rest, hc⟩ := List.head?_eq_some_iff.1 hhead
    rw [operandWith_literal hc ht]
    exact literal_reads hos hc ht
  by_cases hp : ∃ t, c.rest.head? = some t ∧ t.kind = .leftParen
  · obtain ⟨t, hhead, ht⟩ := hp
    obtain ⟨rest, hc⟩ := List.head?_eq_some_iff.1 hhead
    rw [operandWith_leftParen hc ht]
    exact group_reads hos hi hdepth hc ht
  -- Nothing starts an operand, so the next token is stuck here.
  have hu' : ∀ t, c.rest.head? = some t → t.kind.isUnary = false :=
    fun t hhead => Bool.eq_false_iff.2 fun ht => hu ⟨t, hhead, ht⟩
  have hv' : ∀ t, c.rest.head? = some t → Literal.ofToken? t = none :=
    fun t hhead => Option.eq_none_iff_forall_ne_some.2 fun v ht => hv ⟨t, v, hhead, ht⟩
  have hp' : ∀ t, c.rest.head? = some t → t.kind ≠ .leftParen :=
    fun t hhead ht => hp ⟨t, hhead, ht⟩
  rw [operandWith_refuse hu' hv' hp']
  refine ⟨⟨os, true⟩, .missingExpression, .refl, ?_, fault?_operandDue hos, rfl⟩
  intro t hhead q hs
  cases hs with
  | unary _ ht => simp [hu' t hhead] at ht
  | leftParen _ ht => exact hp' t hhead ht
  | literal _ ht => simp [← isSome_ofToken?, hv' t hhead] at ht

/-- What is open around a reader and its bound make up one more than the limit. -/
theorem operand_reads : ∀ (bound : Nat) {os : List Opener},
    os.length + bound = nestingLimit + 1 →
    Reads os.length Level.operandRank os (operand bound) := by
  intro bound
  induction bound with
  | zero =>
    intro os hos
    exact refuse_reads (by omega)
  | succ n ih =>
    intro os hos
    have hopen : ∀ o : Opener,
        Reads (os.length + 1) Level.operandRank (o :: os) (operand n) := by
      intro o
      have hlength : (o :: os).length + n = nestingLimit + 1 := by
        simp only [List.length_cons]
        omega
      exact ih hlength
    exact operandWith_reads (by omega) (nested_reads (hopen _))
      (nested_reads (climb_reads (by simp) (hopen _)))

end Operand

/-- The promise of the reader that a parser calls. -/
theorem expression_reads : Reads 0 0 [] expression := by
  have hlength : ([] : List Opener).length + (nestingLimit + 1) = nestingLimit + 1 :=
    Nat.zero_add _
  exact climb_reads (by simp) (operand_reads (nestingLimit + 1) hlength)

end Lox
