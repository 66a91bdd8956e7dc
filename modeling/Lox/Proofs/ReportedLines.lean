import Lox.Proofs.Grammar.Resumption
import Lox.Proofs.Source.LineNumbers
import Lox.Proofs.Source.Places

/-!
# Reported lines

A token carries the line of its first character, and so does the error of a stray
character.  The end mark and the error of a string that never ends are on the last line
of the source.  A parser over the tokens reports a syntax error on the line of the token
it stops at.  `TrueLines` says all this of the lines as they are counted in the source,
and with it that lines never go back.

An error of a call is about the token behind those that were taken, however many calls
there were before (`Parser.parses_error`).  So its line is the one of a place.
-/

namespace Lox

/-! ## The token that a call stops at -/

namespace Parser

variable {p : Parser}

/-- The error of a call is about the token that it stops at, or about none if there
are no more. -/
theorem token?_error {e : Error} (hp : p.depth = 0) (h : p.parse.error? = some e) :
    e.token? = p.parse.after.rest.head? := by
  cases hres : p.parse.result with
  | ok expr =>
    rw [Parse.error?, hres] at h
    cases h
  | error err =>
    rw [Parse.error?, hres] at h
    cases h
    obtain ⟨d, ⟨q, f, -, -, -, rfl⟩, hparse⟩ := fails_of_parse hp hres
    rw [hparse]
    show _ = d.rest.head?
    cases d.rest.head? with
    | none => rfl
    | some t => rfl

/-- However often a parser is called, the error of a call is about the token behind
those that were taken. -/
theorem parses_error (n : Nat) : ∀ {p : Parser}, p.depth = 0 →
    (∃ t ∈ p.rest, t.isEndOfFile = true) → ∀ q ∈ parses n p, ∀ e, q.error? = some e →
      ∃ c o rest, p.rest = c ++ o :: rest ∧ q.after.rest = o :: rest ∧ e.token? = some o := by
  induction n with
  | zero =>
    intro p _ _ q hq
    exact absurd hq List.not_mem_nil
  | succ n ih =>
    intro p hp heof
    obtain ⟨c, hc, -⟩ := exists_taken hp
    have hafter := exists_isEndOfFile_after hp heof
    rw [parses]
    refine List.forall_mem_cons.2 ⟨fun e he => ?_, fun q hq e he => ?_⟩
    · obtain ⟨t, ht, -⟩ := hafter
      obtain ⟨o, rest, hrest⟩ := List.exists_cons_of_ne_nil (List.ne_nil_of_mem ht)
      refine ⟨c, o, rest, hrest ▸ hc, hrest, ?_⟩
      rw [token?_error hp he, hrest]
      rfl
    · obtain ⟨us, o, rest, hus, hrest, ho⟩ := ih (depth_parse hp) hafter q hq e he
      refine ⟨c ++ us, o, rest, ?_, hrest, ho⟩
      rw [hc, hus, List.append_assoc]

end Parser

/-! ## Lines -/

theorem Error.line_eq {e : Error} {t : Token} (h : e.token? = some t) : e.line = t.line := by
  cases e with
  | syntactic token message =>
    cases h
    rfl
  | lexical _ _ | unexpectedEnd _ => cases h

/-- The lines reported for a source are those of its places `ps`.  Its tokens, but for
the end mark, are `ts`. -/
structure TrueLines (source : String) (ps : List Place) (ts : List Token) : Prop where
  fallsInto : FallsInto [] source.toList ps
  before : ∀ p ∈ ps, ∃ after, source.toList = p.before ++ (p.segment.text ++ after)
  tokens : (scan source).tokens = ts ++ [Token.endOfFile (lineAt source.toList)]
  /-- The tokens are those of the places that one starts at, each on the line of its
  first character. -/
  starts : List.Forall₂ Place.Starts (ps.filter Place.isToken) ts
  /-- The errors are those of the places in error. -/
  faults : List.Forall₂ (Place.Faults source.toList) (ps.filter Place.isFault) (scan source).errors
  pairwise_tokens : (scan source).tokens.Pairwise fun t u => t.line ≤ u.line
  pairwise_events : ((scan source).errors.map Error.event).Pairwise fun e f => e.line ≤ f.line
  /-- An error of a parser is on the line of the token it has stopped at, which is the
  end mark or has a place. -/
  syntactic : ∀ n, ∀ q ∈ Parser.parses n { rest := (scan source).tokens },
    ∀ e, q.error? = some e →
      ∃ c o rest, (scan source).tokens = c ++ o :: rest ∧ q.after.rest = o :: rest ∧
        e.token? = some o ∧
        (o.isEndOfFile = true ∧ rest = [] ∧ e.line = lineAt source.toList ∨
          ∃ p, (ps.filter Place.isToken)[c.length]? = some p ∧ p.Starts o ∧
            e.line = lineAt p.before)

/-- A token of a scan is the end mark or the one that starts at the place of the same
number. -/
theorem exists_place_of_tokens {ps : List Place} {ts c rest : List Token} {o eof : Token}
    (hstarts : List.Forall₂ Place.Starts ps ts) (h : ts ++ [eof] = c ++ o :: rest) :
    o = eof ∧ rest = [] ∨ ∃ p, ps[c.length]? = some p ∧ p.Starts o := by
  rcases List.append_eq_append_iff.1 h with ⟨us, rfl, hus⟩ | ⟨us, rfl, hus⟩
  · left
    cases us with
    | nil =>
      cases hus
      exact ⟨rfl, rfl⟩
    | cons u us => simp at hus
  · cases us with
    | nil =>
      left
      simpa using hus
    | cons u us =>
      right
      obtain ⟨rfl, -⟩ := List.cons.inj hus
      obtain ⟨hlength, hget⟩ := List.forall₂_iff_get.1 hstarts
      have hc : c.length < ps.length := by
        rw [hlength, List.length_append, List.length_cons]
        omega
      have ho := hget c.length hc (hlength ▸ hc)
      refine ⟨ps[c.length], List.getElem?_eq_getElem hc, ?_⟩
      simpa using ho

/-- Tokens and errors are reported on the lines of the source where they stand, in the
order of the source, and a syntax error on the line of the token that it is about. -/
theorem exists_trueLines (source : String) : ∃ ps ts, TrueLines source ps ts := by
  obtain ⟨ps, hps, hgives⟩ := exists_places source
  have hstarts := forall₂_starts hgives
  have hfaults := forall₂_faults hgives
  rw [filter_filter_of_imp Place.isFound_of_isToken] at hstarts
  rw [filter_filter_of_imp Place.isFound_of_isFault] at hfaults
  have htokens : (scan source).tokens = (scan source).items.filterMap Item.token? ++
      [Token.endOfFile (lineAt source.toList)] := by
    rw [Scan.tokens, endLine_scan]
  refine ⟨ps, (scan source).items.filterMap Item.token?, ?_⟩
  constructor
  case fallsInto => exact hps
  case before => exact hps.exists_after
  case tokens => exact htokens
  case starts => exact hstarts
  case faults => exact hfaults
  case pairwise_tokens => exact pairwise_line_tokens source
  case pairwise_events => exact List.pairwise_map.2 (pairwise_line_errors source)
  case syntactic =>
    intro n q hq e he
    obtain ⟨c, o, rest, hc, hrest, ho⟩ :=
      Parser.parses_error n rfl (scan source).exists_isEndOfFile q hq e he
    refine ⟨c, o, rest, hc, hrest, ho, ?_⟩
    rw [Error.line_eq ho]
    rcases exists_place_of_tokens hstarts (htokens.symm.trans hc) with ⟨rfl, hnil⟩ | ⟨p, hp, hpo⟩
    · exact Or.inl ⟨Token.isEndOfFile_endOfFile _, hnil, Token.line_endOfFile _⟩
    · exact Or.inr ⟨p, hp, hpo, hpo.line⟩

end Lox
