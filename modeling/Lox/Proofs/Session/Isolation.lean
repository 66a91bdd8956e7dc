import Lox.Command.Outcome
import Lox.Proofs.Session.Runs
import Lox.Proofs.Source.LineNumbers
import Lox.Proofs.Text.Lines

/-!
# Lines at the prompt

A session has no diagnostics when it comes to a line, since they are cleared after every
line.  So a line is run as if it were the only one, and the prompt writes what
`Session.separately` says (`Session.promptLines_append`).

The source of a line has no line break, and all that is said about it names line one
(`Session.onLineOne`).

The prompt takes its turns at a console one at a time.  At a console that has the lines of
an input, all of them together come to what the prompt comes to (`Session.serve_linesOf`).
-/

namespace Lox

open Alphabet

/-- The source of a line has no line break. -/
theorem lineBreak_not_mem_promptLine {line : String} (h : Text.IsTextLines line [line]) :
    lineBreak ∉ (promptLine line).toList := by
  obtain ⟨front, hfront, hline⟩ := h.exists_front line.toList List.mem_cons_self
  intro hbreak
  rw [promptLine, String.toList_ofList] at hbreak
  rcases hline with hline | hline
  · rw [hline, Text.dropEndWhile_concat rfl] at hbreak
    exact hfront (Text.mem_of_mem_dropEndWhile hbreak)
  · rw [hline] at hbreak
    exact hfront (Text.mem_of_mem_dropEndWhile hbreak)

namespace Session

variable {s : Session} {source : String}

/-! ## What is said about a line -/

/-- All that a run says is about line one. -/
structure OnLineOne (s : Session) (source : String) : Prop where
  /-- What goes to the error stream are the diagnostics. -/
  err : (s.run source).1.err = (s.run source).2.diagnostics.display
  events : ∀ e ∈ (s.run source).2.diagnostics.events, e.line = 1
  /-- What is dumped are the tokens. -/
  out : s.dumpTokens = true →
    (s.run source).1.out = "" ∨ (s.run source).1.out = tokenDump (scan source).tokens
  tokens : ∀ t ∈ (scan source).tokens, t.line = 1

section Exit

variable {r : Written × Session}

theorem Exit.err_eq (h : s.Exit source r) (hs : s.diagnostics.events = []) :
    r.1.err = r.2.diagnostics.display := by
  cases h with
  | diagnostics _ | syntactic _ _ _ _ => rfl
  | dump _ _ | expression _ _ _ =>
    rw [Diagnostics.display, hs]
    rfl

theorem Exit.out_eq (h : s.Exit source r) (hdump : s.dumpTokens = true) :
    r.1.out = "" ∨ r.1.out = tokenDump (scan source).tokens := by
  cases h with
  | diagnostics _ => exact Or.inl rfl
  | dump _ _ => exact Or.inr rfl
  | expression _ hshow _ | syntactic _ hshow _ _ =>
    rw [hdump] at hshow
    cases hshow

theorem Exit.line_eq (h : s.Exit source r) (hs : s.diagnostics.events = [])
    (hsource : lineBreak ∉ source.toList) : ∀ e ∈ r.2.diagnostics.events, e.line = 1 := by
  intro e he
  cases h with
  | diagnostics _ =>
    simp only [complain, events_report, hs, List.nil_append] at he
    obtain ⟨err, herr, rfl⟩ := List.mem_map.1 he
    exact line_error_of_not_mem hsource herr
  | dump _ _ | expression _ _ _ =>
    rw [hs] at he
    cases he
  | syntactic _ _ ht _ =>
    simp only [complain, events_report, hs, List.nil_append, List.map_singleton] at he
    obtain rfl := List.mem_singleton.1 he
    exact line_token_of_not_mem hsource ht

end Exit

theorem onLineOne (hs : s.diagnostics.events = []) (h : lineBreak ∉ source.toList) :
    s.OnLineOne source where
  err := (s.run_exit source).err_eq hs
  events := (s.run_exit source).line_eq hs h
  out := (s.run_exit source).out_eq
  tokens _ ht := line_token_of_not_mem h ht

/-! ## One line after the other -/

/-- What the prompt writes for some lines if each has the session to itself. -/
def separately (s : Session) (lines : List String) : Written where
  out := String.join (lines.map fun line => "> " ++ (s.run (promptLine line)).1.out)
  err := String.join (lines.map fun line => (s.run (promptLine line)).1.err)

theorem separately_cons (s : Session) (line : String) (lines : List String) :
    s.separately (line :: lines) =
      promptMark ++ (s.run (promptLine line)).1 ++ s.separately lines := by
  ext1 <;> simp [separately, promptMark, String.join_cons]

/-- A session is left as it was before a line. -/
theorem clear_run (hs : s.diagnostics.events = []) (source : String) :
    (s.run source).2.clear = s := by
  have hdump := (s.run_exit source).dumpTokens_eq
  obtain ⟨dumpTokens, ⟨events⟩⟩ := s
  obtain rfl : events = [] := hs
  rw [clear, hdump]
  rfl

theorem answer_of_ofUtf8? (hs : s.diagnostics.events = []) {line : List UInt8} {text : String}
    (h : Text.ofUtf8? line = some text) :
    s.answer line = .ok ((s.run (promptLine text)).1, s) := by
  have hread : readText line = .ok text := by rw [readText, h]
  simp only [answer, hread]
  show Except.ok ((s.run (promptLine text)).1, (s.run (promptLine text)).2.clear) = _
  rw [clear_run hs]

/-- Lines that are texts are run by themselves, whatever comes behind them. -/
theorem promptLines_append (hs : s.diagnostics.events = []) {before : List (List UInt8)}
    (h : ∀ line ∈ before, (Text.ofUtf8? line).isSome = true) (rest : List (List UInt8)) :
    s.promptLines (before ++ rest) =
      (s.separately (before.filterMap Text.ofUtf8?) ++ (s.promptLines rest).1,
        (s.promptLines rest).2) := by
  induction before with
  | nil =>
    show s.promptLines rest = ({} ++ (s.promptLines rest).1, (s.promptLines rest).2)
    rw [Written.empty_append]
  | cons line before ih =>
    obtain ⟨hline, hbefore⟩ := List.forall_mem_cons.1 h
    obtain ⟨text, htext⟩ := Option.isSome_iff_exists.1 hline
    rw [List.cons_append, promptLines, answer_of_ofUtf8? hs htext]
    simp only [ih hbefore, List.filterMap_cons, htext, separately_cons, Written.append_assoc]

theorem answer_of_eq_none {line : List UInt8} (h : Text.ofUtf8? line = none) :
    s.answer line = .error .notUtf8 := by
  have hread : readText line = .error .notUtf8 := by rw [readText, h]
  rw [answer, hread]
  rfl

/-! ## Turns -/

/-- There is no turn behind the end of the input. -/
theorem turn_nil (s : Session) (before : Written) :
    (turn .ofLines s).run ([], before) = (.inr none, [], before ++ promptMark) := rfl

/-- A turn takes one line.  There is a next one if the line is a text. -/
theorem turn_cons (s : Session) {line : List UInt8} (hne : line ≠ [])
    (lines : List (List UInt8)) (before : Written) :
    (turn .ofLines s).run (line :: lines, before) =
      match s.answer line with
      | .error e => (.inr (some e), lines, before ++ promptMark)
      | .ok (written, next) => (.inl next, lines, before ++ promptMark ++ written) := by
  obtain ⟨b, bs, rfl⟩ := List.exists_cons_of_ne_nil hne
  show (match s.answer (b :: bs) with
    | .error e => pure (.inr (some e))
    | .ok (written, next) => do
      Console.ofLines.write written
      return .inl next : StateM _ (Session ⊕ Option ReadError)).run
        (lines, before ++ promptMark) = _
  cases s.answer (b :: bs) <;> rfl

/-- One turn, and then the others if there are any. -/
theorem serve_run (s : Session) (lines : List (List UInt8)) (before : Written) :
    (serve .ofLines s).run (lines, before) =
      match (turn .ofLines s).run (lines, before) with
      | (.inl next, st) => (serve .ofLines next).run st
      | (.inr e?, st) => (e?, st) := by
  rw [serve, repeatM_eq_of_monadTail, repeatM.body, StateT.run_bind]
  rcases (turn .ofLines s).run (lines, before) with ⟨_ | _, _⟩ <;> rfl

/-- The turns at a console with lines come to what running the lines comes to. -/
theorem serve_ofLines {lines : List (List UInt8)} (hne : ∀ line ∈ lines, line ≠ [])
    (s : Session) (before : Written) :
    ∃ rest, (serve .ofLines s).run (lines, before) =
      ((s.promptLines lines).2, rest, before ++ (s.promptLines lines).1) := by
  induction lines generalizing s before with
  | nil => exact ⟨[], by rw [serve_run, turn_nil, promptLines]⟩
  | cons line lines ih =>
    obtain ⟨hline, hlines⟩ := List.forall_mem_cons.1 hne
    rw [serve_run, turn_cons s hline, promptLines]
    cases s.answer line with
    | error e => exact ⟨lines, rfl⟩
    | ok r =>
      obtain ⟨written, next⟩ := r
      obtain ⟨rest, hrest⟩ := ih hlines next (before ++ promptMark ++ written)
      exact ⟨rest, hrest.trans (by simp only [Written.append_assoc])⟩

/-- The turns at a console with the lines of an input come to what the prompt comes to. -/
theorem serve_linesOf (s : Session) (input : List UInt8) :
    ∃ rest, (serve .ofLines s).run (Text.linesOf lineFeed input, {}) =
      ((s.prompt input).2, rest, (s.prompt input).1) := by
  obtain ⟨rest, hrest⟩ := serve_ofLines (Text.isLines_linesOf lineFeed input).ne_nil s {}
  exact ⟨rest, by rw [hrest, Written.empty_append, prompt]⟩

end Session

namespace Outcome

variable (dumpTokens : Bool)

/-- The prompt on a text: it announces and answers every line, each by itself, and
announces itself once more. -/
theorem ofPrompt_of_isTextLines {text : String} {lines : List String}
    (h : Text.IsTextLines text lines) :
    ofPrompt dumpTokens (Text.toUtf8 text) =
      { exit := 0, written := Session.separately { dumpTokens } lines ++ { out := "> " } } := by
  have hall := Text.isLines_iff.1 (Text.isLines_toUtf8 h)
  have htext : ∀ line ∈ lines.map Text.toUtf8, (Text.ofUtf8? line).isSome = true := by
    intro line hline
    obtain ⟨t, -, rfl⟩ := List.mem_map.1 hline
    rw [Text.ofUtf8?_toUtf8]
    rfl
  have hdecode : (lines.map Text.toUtf8).filterMap Text.ofUtf8? = lines := by
    have hsome : Text.ofUtf8? ∘ Text.toUtf8 = some := funext Text.ofUtf8?_toUtf8
    rw [List.filterMap_map, hsome, List.filterMap_some]
  have hprompt := Session.promptLines_append (s := { dumpTokens }) rfl htext []
  rw [List.append_nil, hdecode] at hprompt
  rw [ofPrompt, Session.prompt, hall, hprompt]
  rfl

/-- The prompt on bytes with a line that is no text: it stops there, after all that it
has written for the lines before. -/
theorem ofPrompt_of_isLines {input bad : List UInt8} {before after : List (List UInt8)}
    (h : Text.IsLines lineFeed input (before ++ bad :: after))
    (hbefore : ∀ line ∈ before, (Text.ofUtf8? line).isSome = true)
    (hbad : Text.ofUtf8? bad = none) :
    ofPrompt dumpTokens input =
      { exit := 1
        written := Session.separately { dumpTokens } (before.filterMap Text.ofUtf8?) ++
          { out := "> ", err := ReadError.notUtf8.report } } := by
  have hprompt := Session.promptLines_append (s := { dumpTokens }) rfl hbefore (bad :: after)
  rw [Session.promptLines, Session.answer_of_eq_none hbad] at hprompt
  have hend : promptMark ++ { err := ReadError.notUtf8.report } =
      { out := "> ", err := ReadError.notUtf8.report } := by
    ext1 <;> simp [promptMark]
  rw [ofPrompt, Session.prompt, Text.isLines_iff.1 h, hprompt, ← hend, ← Written.append_assoc]
  rfl

/-- The prompt runs every line by itself and on line one.  It stops at the end of the
input, or at the first line that is no text. -/
theorem ofPrompt_isolates :
    (∀ text : String, ∃ lines, Text.IsTextLines text lines ∧
      ofPrompt dumpTokens (Text.toUtf8 text) =
        { exit := 0, written := Session.separately { dumpTokens } lines ++ { out := "> " } } ∧
      ∀ line ∈ lines, Session.OnLineOne { dumpTokens } (promptLine line)) ∧
    ∀ (input bad : List UInt8) (before after : List (List UInt8)),
      Text.IsLines lineFeed input (before ++ bad :: after) →
      (∀ line ∈ before, (Text.ofUtf8? line).isSome = true) → Text.ofUtf8? bad = none →
      ofPrompt dumpTokens input =
        { exit := 1
          written := Session.separately { dumpTokens } (before.filterMap Text.ofUtf8?) ++
            { out := "> ", err := ReadError.notUtf8.report } } ∧
      ∀ line ∈ before.filterMap Text.ofUtf8?,
        Session.OnLineOne { dumpTokens } (promptLine line) := by
  have hone : ∀ line, Text.IsTextLines line [line] →
      Session.OnLineOne { dumpTokens } (promptLine line) :=
    fun line hline => Session.onLineOne rfl (lineBreak_not_mem_promptLine hline)
  constructor
  · intro text
    obtain ⟨lines, hlines⟩ := Text.exists_isTextLines text
    refine ⟨lines, hlines, ofPrompt_of_isTextLines dumpTokens hlines, fun line hline => hone line ?_⟩
    exact Text.IsLines.of_mem hlines line.toList (List.mem_map_of_mem hline)
  · intro input bad before after hlines hbefore hbad
    refine ⟨ofPrompt_of_isLines dumpTokens hlines hbefore hbad, fun line hline => ?_⟩
    obtain ⟨bytes, hbytes, htext⟩ := List.mem_filterMap.1 hline
    have hline := hlines.of_mem bytes (List.mem_append_left _ hbytes)
    exact hone line (Text.isTextLines_of_ofUtf8? hline htext)

/-- `1` on a line, then a byte that no character has, then another line. -/
theorem ofPrompt_isolates_loneByte :
    ofPrompt false [49, 10, 255, 10, 50] =
        { exit := 1, written := { out := "> 1\n> ", err := ReadError.notUtf8.report } } ∧
      Session.OnLineOne {} (promptLine "1\n") := by
  have h := (ofPrompt_isolates false).2 [49, 10, 255, 10, 50] [255, 10] [[49, 10]] [[50]]
    (Text.isLines_iff.2 (by decide)) (by decide) (by decide)
  exact ⟨h.1.trans (by decide +kernel), h.2 "1\n" (by decide)⟩

end Outcome

end Lox
