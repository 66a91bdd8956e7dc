import Lox.Proofs.Grammar.SyntaxError
import Lox.Session.Basic

/-!
# Runs of a session

A run comes to one of four ends, and `Session.Exit` has a case for each of them.  The
first one is that of every run on a session with diagnostics, whatever its source.

A session that is run and cleared any number of times is `Orderly`: all it has kept is
about characters, but for the first diagnostic, which can be about the grammar.
-/

namespace Lox

/-! ## Two sorts of events -/

/-- An event about characters that no token is made of. -/
def Event.IsLexical (e : Event) : Prop := ∃ (f : LexicalFault) (line : Nat), e = (f.onLine line).event

/-- An event about a token that the grammar has no use for. -/
def Event.IsSyntactic (e : Event) : Prop :=
  ∃ (f : SyntaxFault) (t : Token), e = (Error.syntactic t f.message).event

theorem Event.IsLexical.location_eq {e : Event} (h : e.IsLexical) : e.location = "" := by
  obtain ⟨f, line, rfl⟩ := h
  rfl

theorem Event.IsSyntactic.location_ne {e : Event} (h : e.IsSyntactic) : e.location ≠ "" := by
  obtain ⟨f, t, rfl⟩ := h
  show (Error.syntactic t f.message).location ≠ ""
  rw [Error.location]
  split
  · decide
  · simp [String.append_eq_empty_iff]

/-- The place of an event tells its sort. -/
theorem Event.IsLexical.not_isSyntactic {e : Event} (h : e.IsLexical) : ¬ e.IsSyntactic :=
  fun h' => h'.location_ne h.location_eq

theorem Located.exists_fault {g : Located} {e : Error} (h : g.item? = some (.error e)) :
    ∃ (f : LexicalFault) (line : Nat), e = f.onLine line := by
  obtain ⟨line, segment⟩ := g
  cases segment with
  | blank _ | comment _ | lexeme _ _ => cases h
  | unterminated text =>
    cases h
    exact ⟨_, _, rfl⟩
  | stray c =>
    cases h
    exact ⟨_, _, rfl⟩

/-- The errors of a scan are about characters. -/
theorem isLexical_of_mem_errors {source : String} {e : Error} (h : e ∈ (scan source).errors) :
    e.event.IsLexical := by
  obtain ⟨g, -, hg⟩ := List.mem_filterMap.1 (Scan.mem_errors_iff.1 h)
  obtain ⟨f, line, rfl⟩ := Located.exists_fault hg
  exact ⟨f, line, rfl⟩

/-- With an end mark among its tokens, the error of a parser is about one of them. -/
theorem Parser.exists_fault {ts : List Token} {err : Error}
    (heof : ∃ t ∈ ts, t.isEndOfFile = true) (h : (Parser.parse { rest := ts }).result = .error err) :
    ∃ (f : SyntaxFault) (t : Token), t ∈ ts ∧ err = .syntactic t f.message := by
  have hfail : (Parser.parse { rest := ts }).expr? = none := by rw [Parse.expr?, h]; rfl
  obtain ⟨c, o, rest, f, d, hts, htakes, hd, hstuck, hf⟩ := exists_stuck heof hfail
  rw [← hd] at hstuck
  obtain ⟨-, -, hres⟩ := parse_of_takes (p := { rest := ts }) rfl htakes hstuck
  rw [hf, hd, h] at hres
  cases hres
  exact ⟨f, o, by simp [hts], rfl⟩

/-! ## What is written is something -/

/-- Something is written to one of the two streams and nothing to the other. -/
def Written.OneStream (w : Written) : Prop := w.out ≠ "" ∧ w.err = "" ∨ w.out = "" ∧ w.err ≠ ""

theorem Diagnostics.display_ne_empty {d : Diagnostics} (h : d.hasError = true) : d.display ≠ "" := by
  obtain ⟨_ | ⟨e, es⟩⟩ := d
  · cases h
  · simp [display, String.join_cons, String.append_eq_empty_iff]

theorem Scan.tokenDump_ne_empty (s : Scan) : tokenDump s.tokens ≠ "" := by
  simp [tokenDump, tokens, String.join_append, String.join_cons, Token.row,
    String.append_eq_empty_iff]

namespace Session

/-! ## One run -/

@[simp] theorem events_report (s : Session) (es : List Error) :
    (s.report es).diagnostics.events = s.diagnostics.events ++ es.map Error.event :=
  Diagnostics.events_reportAll _ _

@[simp] theorem dumpTokens_report (s : Session) (es : List Error) :
    (s.report es).dumpTokens = s.dumpTokens := rfl

theorem hasError_report (s : Session) (e : Error) : (s.report [e]).diagnostics.hasError = true := by
  simp [Diagnostics.hasError, Diagnostics.isEmpty]

theorem report_nil (s : Session) : s.report [] = s := by
  simp [report, Diagnostics.reportAll]

/-- There are no diagnostics, and the scan of the source adds none. -/
def Clean (s : Session) (source : String) : Prop :=
  s.diagnostics.isEmpty = true ∧ (scan source).errors = []

/-- What a run comes to: all diagnostics where there are any after the scan, and
otherwise a dump, an expression or the one error of the parser. -/
inductive Exit (s : Session) (source : String) : Written × Session → Prop
  | diagnostics : (s.report (scan source).errors).diagnostics.hasError = true →
      Exit s source (s.report (scan source).errors).complain
  | dump : s.Clean source → s.dumpTokens = true →
      Exit s source ({ out := tokenDump (scan source).tokens }, s)
  | expression {e : Expr} : s.Clean source → s.dumpTokens = false →
      (Parser.parse { rest := (scan source).tokens }).result = .ok e →
      Exit s source ({ out := e.prefixForm ++ "\n" }, s)
  | syntactic {f : SyntaxFault} {t : Token} : s.Clean source → s.dumpTokens = false →
      t ∈ (scan source).tokens →
      (Parser.parse { rest := (scan source).tokens }).result = .error (.syntactic t f.message) →
      Exit s source (s.report [.syntactic t f.message]).complain

variable {s : Session} {source : String}

theorem clean_iff :
    s.Clean source ↔ (s.report (scan source).errors).diagnostics.hasError = false := by
  simp [Clean, Diagnostics.hasError, Diagnostics.isEmpty]

theorem run_of_hasError (h : (s.report (scan source).errors).diagnostics.hasError = true) :
    s.run source = (s.report (scan source).errors).complain := by
  rw [run, if_pos h]

theorem run_exit (s : Session) (source : String) : s.Exit source (s.run source) := by
  cases hfound : (s.report (scan source).errors).diagnostics.hasError with
  | true =>
    rw [run_of_hasError hfound]
    exact .diagnostics hfound
  | false =>
    have hclean := clean_iff.2 hfound
    have hkept : s.diagnostics.hasError = false := by rw [Diagnostics.hasError, hclean.1]; rfl
    simp only [run, hclean.2, report_nil, hkept, Bool.false_eq_true, if_false]
    cases hdump : s.dumpTokens with
    | true => exact .dump hclean hdump
    | false =>
      cases hres : (Parser.parse { rest := (scan source).tokens }).result with
      | ok e =>
        simp only [Parse.expr?, Parse.error?, hres, Except.toOption, Option.toList, report_nil, hkept]
        exact .expression hclean hdump hres
      | error err =>
        obtain ⟨f, t, ht, rfl⟩ := Parser.exists_fault (scan source).exists_isEndOfFile hres
        simp only [Parse.expr?, Parse.error?, hres, Except.toOption, Option.toList]
        exact .syntactic hclean hdump ht hres

namespace Exit

variable {r : Written × Session}

theorem oneStream (h : s.Exit source r) : r.1.OneStream := by
  cases h with
  | diagnostics hfound => exact Or.inr ⟨rfl, Diagnostics.display_ne_empty hfound⟩
  | dump _ _ => exact Or.inl ⟨(scan source).tokenDump_ne_empty, rfl⟩
  | expression _ _ _ => exact Or.inl ⟨by simp [String.append_eq_empty_iff], rfl⟩
  | syntactic _ _ _ _ => exact Or.inr ⟨rfl, Diagnostics.display_ne_empty (s.hasError_report _)⟩

theorem dumpTokens_eq (h : s.Exit source r) : r.2.dumpTokens = s.dumpTokens := by
  cases h with
  | diagnostics _ | dump _ _ | expression _ _ _ | syntactic _ _ _ _ => rfl

end Exit

/-- Where diagnostics are kept, a run shows them again, with those of the scan. -/
theorem run_of_kept (h : s.diagnostics.isEmpty = false) :
    s.run source = (s.report (scan source).errors).complain := by
  apply run_of_hasError
  rw [← Bool.not_eq_false, ← clean_iff]
  intro hclean
  rw [hclean.1] at h
  cases h

/-! ## What is kept -/

/-- What a session can have kept.  All of it is about characters, but the first
diagnostic can be about the grammar where expressions are shown. -/
structure Orderly (s : Session) : Prop where
  first : ∀ e ∈ s.diagnostics.events.head?,
    e.IsLexical ∧ ¬ e.IsSyntactic ∨ e.IsSyntactic ∧ s.dumpTokens = false
  others : ∀ e ∈ s.diagnostics.events.tail, e.IsLexical ∧ ¬ e.IsSyntactic

theorem orderly_of_isEmpty (h : s.diagnostics.isEmpty = true) : s.Orderly := by
  have hnil : s.diagnostics.events = [] := List.isEmpty_iff.1 h
  constructor <;> simp [hnil]

/-- Diagnostics about characters can be added to any. -/
theorem Orderly.report {es : List Error} (hs : s.Orderly) (hes : ∀ e ∈ es, e.event.IsLexical) :
    (s.report es).Orderly := by
  have hnew : ∀ e ∈ es.map Error.event, e.IsLexical := by simpa using hes
  cases hkept : s.diagnostics.events with
  | nil =>
    constructor
    · intro e he
      rw [events_report, hkept, List.nil_append] at he
      have hlexical := hnew e (List.mem_of_mem_head? he)
      exact Or.inl ⟨hlexical, hlexical.not_isSyntactic⟩
    · intro e he
      rw [events_report, hkept, List.nil_append] at he
      have hlexical := hnew e (List.mem_of_mem_tail he)
      exact ⟨hlexical, hlexical.not_isSyntactic⟩
  | cons first others =>
    constructor
    · intro e he
      rw [events_report, hkept] at he
      exact hs.first e (by rw [hkept]; exact he)
    · intro e he
      rw [events_report, hkept, List.cons_append, List.tail_cons] at he
      rcases List.mem_append.1 he with he | he
      · exact hs.others e (by rw [hkept]; exact he)
      · exact ⟨hnew e he, (hnew e he).not_isSyntactic⟩

theorem Exit.orderly {r : Written × Session} (h : s.Exit source r) (hs : s.Orderly) :
    r.2.Orderly := by
  cases h with
  | diagnostics _ => exact hs.report fun e he => isLexical_of_mem_errors he
  | dump _ _ | expression _ _ _ => exact hs
  | @syntactic f t hclean hdump _ _ =>
    have hnil : s.diagnostics.events = [] := List.isEmpty_iff.1 hclean.1
    constructor
    · intro e he
      simp only [complain, events_report, hnil, List.nil_append, List.map_cons, List.head?_cons,
        Option.mem_some_iff] at he
      exact Or.inr ⟨⟨f, t, he.symm⟩, hdump⟩
    · intro e he
      simp [complain, hnil] at he

/-! ## Runs and clears -/

/-- What can be done with a session. -/
inductive Action where
  /-- Run a source. -/
  | run (source : String)
  /-- Forget the diagnostics. -/
  | clear
deriving DecidableEq, Repr

/-- Do one thing. -/
def act (s : Session) : Action → Written × Session
  | .run source => s.run source
  | .clear => ({}, s.clear)

/-- Do one thing after the other. -/
def acts (s : Session) : List Action → Written × Session
  | [] => ({}, s)
  | a :: as =>
    let (written, next) := s.act a
    let (more, last) := next.acts as
    (written ++ more, last)

theorem acts_concat (s : Session) (as : List Action) (a : Action) :
    s.acts (as ++ [a]) =
      ((s.acts as).1 ++ ((s.acts as).2.act a).1, ((s.acts as).2.act a).2) := by
  induction as generalizing s with
  | nil => simp [acts]
  | cons b as ih => simp [acts, ih, Written.append_assoc]

/-- What every action preserves holds after any number of them. -/
theorem acts_induction {P : Session → Prop} (hact : ∀ s a, P s → P (s.act a).2) :
    ∀ {s : Session}, P s → ∀ as : List Action, P (s.acts as).2 := by
  intro s hs as
  induction as generalizing s with
  | nil => exact hs
  | cons a as ih => exact ih (hact s a hs)

theorem act_dumpTokens (s : Session) (a : Action) : (s.act a).2.dumpTokens = s.dumpTokens := by
  cases a with
  | run source => exact (s.run_exit source).dumpTokens_eq
  | clear => rfl

theorem act_orderly (hs : s.Orderly) (a : Action) : (s.act a).2.Orderly := by
  cases a with
  | run source => exact (s.run_exit source).orderly hs
  | clear => exact orderly_of_isEmpty rfl

theorem acts_dumpTokens (s : Session) (as : List Action) :
    (s.acts as).2.dumpTokens = s.dumpTokens :=
  acts_induction (P := fun r => r.dumpTokens = s.dumpTokens)
    (fun r a h => (r.act_dumpTokens a).trans h) rfl as

theorem acts_orderly (hs : s.Orderly) (as : List Action) : (s.acts as).2.Orderly :=
  acts_induction (P := Orderly) (fun _ a h => act_orderly h a) hs as

/-- How a run on a session goes by the diagnostics kept.  `fresh` is the session at
the start. -/
structure RunsOn (fresh s : Session) (source : String) : Prop where
  oneStream : (s.run source).1.OneStream
  /-- Without diagnostics the past makes no difference. -/
  of_isEmpty : s.diagnostics.isEmpty = true → s.run source = fresh.run source
  /-- With diagnostics the source is scanned and no more. -/
  of_kept : s.diagnostics.isEmpty = false →
    (s.run source).1.out = "" ∧
      (s.run source).2.diagnostics.events =
        s.diagnostics.events ++ (scan source).errors.map Error.event ∧
      (s.run source).1.err = (s.run source).2.diagnostics.display

theorem runsOn {fresh : Session} (hempty : fresh.diagnostics.isEmpty = true)
    (hdump : s.dumpTokens = fresh.dumpTokens) (source : String) : RunsOn fresh s source where
  oneStream := (s.run_exit source).oneStream
  of_isEmpty h := by
    obtain ⟨d, ⟨es⟩⟩ := s
    obtain ⟨d', ⟨es'⟩⟩ := fresh
    obtain rfl : d = d' := hdump
    obtain rfl : es = [] := List.isEmpty_iff.1 h
    obtain rfl : es' = [] := List.isEmpty_iff.1 hempty
    rfl
  of_kept h := by
    rw [run_of_kept h]
    exact ⟨rfl, events_report _ _, rfl⟩

/-- Whatever was run and cleared before, what a session has kept is in order, and a
run goes by that. -/
theorem acts_run (dumpTokens : Bool) (as : List Action) (source : String) :
    (Session.acts { dumpTokens } as).2.Orderly ∧
      (Session.acts { dumpTokens } as).2.dumpTokens = dumpTokens ∧
      RunsOn { dumpTokens } (Session.acts { dumpTokens } as).2 source ∧
      Session.acts { dumpTokens } (as ++ [.run source]) =
        ((Session.acts { dumpTokens } as).1 ++ ((Session.acts { dumpTokens } as).2.run source).1,
          ((Session.acts { dumpTokens } as).2.run source).2) :=
  ⟨acts_orderly (orderly_of_isEmpty rfl) as, acts_dumpTokens _ as,
    runsOn rfl (acts_dumpTokens _ as) source, acts_concat _ as (.run source)⟩

/-- The second source is not parsed, and the third one is after a clear. -/
example : (Session.acts {} [.run "(1", .run "# 1", .clear, .run "1"]).1.err =
    "[line 1] Error at end: Expect ')' after expression.\n" ++
    "[line 1] Error at end: Expect ')' after expression.\n" ++
    "[line 1] Error: Unexpected character: #\n" := by decide +kernel

end Session

end Lox
