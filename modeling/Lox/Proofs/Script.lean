import Lox.Command.Outcome
import Lox.Proofs.Session.Runs

/-!
# Scripts

The program says by its exit code and by the stream it writes to whether a script is in
order (`Outcome.Tells`).  It is if the scan reports nothing and the tokens start with an
expression, or if it reports nothing and the tokens are only dumped.

A script is run on a fresh session, so its outcome goes by the exit of that run.  Whether
the tokens start with an expression is a question about the grammar, which
`Parser.result_eq_ok_iff` answers for the parser.
-/

namespace Lox

/-- The tokens start with the expression: tokens at their front spell it, it nests no deeper
than the limit, and no binary operator comes next. -/
def StartWith (ts : List Token) (e : Expr) : Prop :=
  ∃ c rest, ts = c ++ rest ∧ Derives e c ∧ e.nesting ≤ nestingLimit ∧
    ∀ t, rest.head? = some t → t.kind.level? = none

theorem Parser.result_eq_ok_iff {ts : List Token} {e : Expr} :
    (Parser.parse { rest := ts }).result = .ok e ↔ StartWith ts e := by
  constructor
  · intro h
    obtain ⟨c, hts, hder, hn, hends⟩ := (parse_eq_ok_iff rfl).1 ⟨h, rfl⟩
    exact ⟨c, _, hts, hder, hn, ends_zero_iff.1 hends⟩
  · rintro ⟨c, rest, hts, hder, hn, hend⟩
    exact ((parse_eq_ok_iff rfl).2 ⟨c, hts, hder, hn, ends_zero_iff.2 hend⟩).1

/-- Tokens start with one expression at most. -/
theorem StartWith.unique {ts : List Token} {e f : Expr} (he : StartWith ts e)
    (hf : StartWith ts f) : e = f := by
  have h := Parser.result_eq_ok_iff.2 he
  rw [Parser.result_eq_ok_iff.2 hf] at h
  exact (Except.ok.inj h).symm

namespace Outcome

/-- The outcome of a script in order. -/
def Succeeded (o : Outcome) : Prop := o.exit = 0 ∧ o.written.out ≠ "" ∧ o.written.err = ""

/-- The outcome of a script with errors. -/
def Failed (o : Outcome) : Prop := o.exit = 65 ∧ o.written.out = "" ∧ o.written.err ≠ ""

theorem Failed.not_succeeded {o : Outcome} (h : o.Failed) : ¬ o.Succeeded := by
  intro h'
  have hexit := h.1.symm.trans h'.1
  cases hexit

/-- What an outcome tells of a script. -/
structure Tells (o : Outcome) (dumpTokens : Bool) (source : String) : Prop where
  succeeded_or_failed : o.Succeeded ∨ o.Failed
  /-- An expression is shown if the tokens start with one. -/
  shown_iff : dumpTokens = false →
    (o.Succeeded ↔ (scan source).errors = [] ∧ ∃ e, StartWith (scan source).tokens e)
  out_eq : dumpTokens = false → o.Succeeded →
    ∀ e, StartWith (scan source).tokens e → o.written.out = e.prefixForm ++ "\n"
  /-- Tokens are dumped whether they start with an expression or not. -/
  dumped_iff : dumpTokens = true → (o.Succeeded ↔ (scan source).errors = [])
  dump_eq : dumpTokens = true → o.Succeeded → o.written.out = tokenDump (scan source).tokens
  /-- What the scan reports comes first. -/
  err_of_scan : o.Failed → (scan source).errors ≠ [] →
    o.written.err = Diagnostics.display ⟨(scan source).errors.map Error.event⟩
  err_of_parse : o.Failed → (scan source).errors = [] →
    ∃ (f : SyntaxFault) (t : Token), t ∈ (scan source).tokens ∧
      (Parser.parse { rest := (scan source).tokens }).result = .error (.syntactic t f.message) ∧
      o.written.err = Diagnostics.display ⟨[(Error.syntactic t f.message).event]⟩

/-! ## Runs of scripts -/

/-- The outcome of a run. -/
def ofRun (r : Written × Session) : Outcome :=
  { exit := if r.2.diagnostics.hasError then 65 else 0, written := r.1 }

section Run

variable {s : Session} {source out : String}

theorem succeeded_ofRun (hs : s.diagnostics.events = []) (hout : out ≠ "") :
    (ofRun ({ out }, s)).Succeeded := by
  refine ⟨?_, hout, rfl⟩
  rw [ofRun, Diagnostics.hasError, Diagnostics.isEmpty, hs]
  rfl

theorem failed_complain (h : s.diagnostics.hasError = true) : (ofRun s.complain).Failed :=
  ⟨if_pos h, rfl, Diagnostics.display_ne_empty h⟩

theorem display_report (hs : s.diagnostics.events = []) (es : List Error) :
    (s.report es).diagnostics.display = Diagnostics.display ⟨es.map Error.event⟩ := by
  rw [Diagnostics.display, Session.events_report, hs, List.nil_append]
  rfl

section Outcomes

variable {o : Outcome} {dumpTokens : Bool}

theorem tells_of_succeeded (h : o.Succeeded) (herrors : (scan source).errors = [])
    (hshown : dumpTokens = false → ∃ e, StartWith (scan source).tokens e ∧
      o.written.out = e.prefixForm ++ "\n")
    (hdumped : dumpTokens = true → o.written.out = tokenDump (scan source).tokens) :
    o.Tells dumpTokens source where
  succeeded_or_failed := Or.inl h
  shown_iff hdump := by
    obtain ⟨e, he, -⟩ := hshown hdump
    exact iff_of_true h ⟨herrors, e, he⟩
  out_eq hdump _ e he := by
    obtain ⟨f, hf, hout⟩ := hshown hdump
    rw [hout, he.unique hf]
  dumped_iff _ := iff_of_true h herrors
  dump_eq hdump _ := hdumped hdump
  err_of_scan hfailed _ := absurd h hfailed.not_succeeded
  err_of_parse hfailed _ := absurd h hfailed.not_succeeded

theorem tells_of_scan (h : o.Failed) (herrors : (scan source).errors ≠ [])
    (herr : o.written.err = Diagnostics.display ⟨(scan source).errors.map Error.event⟩) :
    o.Tells dumpTokens source where
  succeeded_or_failed := Or.inr h
  shown_iff _ := iff_of_false h.not_succeeded fun hshown => herrors hshown.1
  out_eq _ hsucceeded := absurd hsucceeded h.not_succeeded
  dumped_iff _ := iff_of_false h.not_succeeded herrors
  dump_eq _ hsucceeded := absurd hsucceeded h.not_succeeded
  err_of_scan _ _ := herr
  err_of_parse _ hnil := absurd hnil herrors

theorem tells_of_parse {f : SyntaxFault} {t : Token} (h : o.Failed)
    (herrors : (scan source).errors = []) (hdump : dumpTokens = false)
    (ht : t ∈ (scan source).tokens)
    (hres : (Parser.parse { rest := (scan source).tokens }).result =
      .error (.syntactic t f.message))
    (herr : o.written.err = Diagnostics.display ⟨[(Error.syntactic t f.message).event]⟩) :
    o.Tells dumpTokens source where
  succeeded_or_failed := Or.inr h
  shown_iff _ := by
    refine iff_of_false h.not_succeeded ?_
    rintro ⟨-, e, he⟩
    rw [Parser.result_eq_ok_iff.2 he] at hres
    cases hres
  out_eq _ hsucceeded := absurd hsucceeded h.not_succeeded
  dumped_iff hdumped := nomatch hdump.symm.trans hdumped
  dump_eq _ hsucceeded := absurd hsucceeded h.not_succeeded
  err_of_scan _ hne := absurd herrors hne
  err_of_parse _ _ := ⟨f, t, ht, hres, herr⟩

end Outcomes

/-- The outcome of a run on a fresh session goes by the exit that the run comes to. -/
theorem tells_ofRun {r : Written × Session} (hs : s.diagnostics.events = [])
    (h : s.Exit source r) : (ofRun r).Tells s.dumpTokens source := by
  cases h with
  | diagnostics hfound =>
    have herrors : (scan source).errors ≠ [] := by
      intro hnil
      rw [Session.clean_iff.1 ⟨List.isEmpty_iff.2 hs, hnil⟩] at hfound
      cases hfound
    exact tells_of_scan (failed_complain hfound) herrors (display_report hs _)
  | dump hclean hdump =>
    have hsucceeded := succeeded_ofRun hs (scan source).tokenDump_ne_empty
    exact tells_of_succeeded hsucceeded hclean.2 (fun hshow => nomatch hdump.symm.trans hshow)
      fun _ => rfl
  | @expression e hclean hshow hres =>
    have hout : e.prefixForm ++ "\n" ≠ "" := by simp [String.append_eq_empty_iff]
    exact tells_of_succeeded (succeeded_ofRun hs hout) hclean.2
      (fun _ => ⟨e, Parser.result_eq_ok_iff.1 hres, rfl⟩)
      fun hdump => nomatch hdump.symm.trans hshow
  | @syntactic f t hclean hshow ht hres =>
    have hfailed := failed_complain (s.hasError_report (.syntactic t f.message))
    exact tells_of_parse hfailed hclean.2 hshow ht hres (display_report hs _)

end Run

/-- The outcome of a script tells whether the script is in order. -/
theorem tells_of_script (inputs : Inputs) (name : String) (bytes : List UInt8) (source : String)
    (dumpTokens : Bool) (hfile : inputs.file name = .ok bytes)
    (hsource : Text.ofUtf8? bytes = some source) :
    ((Command.run dumpTokens (some name)).outcome inputs).Tells dumpTokens source := by
  have houtcome : (Command.run dumpTokens (some name)).outcome inputs =
      ofRun (Session.run { dumpTokens } source) := by
    rw [Command.outcome, hfile]
    show ofScriptBytes dumpTokens bytes = _
    rw [ofScriptBytes, readText, hsource]
    rfl
  rw [houtcome]
  exact tells_ofRun rfl (Session.run_exit { dumpTokens } source)

/-- A minus and a one, and on the next line a parenthesis that is not read. -/
def minusOne : Inputs where
  file _ := .ok [45, 49, 10, 41]
  standard := []

theorem tells_of_script_minusOne :
    (Command.run false (some "a.lox")).outcome minusOne = { written := { out := "(- 1)\n" } } ∧
      ((Command.run false (some "a.lox")).outcome minusOne).Tells false "-1\n)" := by
  have hsource : Text.ofUtf8? [45, 49, 10, 41] = some "-1\n)" := by decide
  exact ⟨by decide +kernel, tells_of_script minusOne "a.lox" _ _ false rfl hsource⟩

end Outcome

end Lox
