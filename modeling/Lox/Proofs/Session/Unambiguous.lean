import Lox.Proofs.Session.Runs
import Lox.Proofs.Source.Separation
import Lox.Proofs.Text.Boundary

/-!
# Diagnostics that can be read back

Sessions that show the same diagnostics have kept the same events
(`Session.events_eq_of_display_eq`).  This is not so for events at large, whose places
and messages can hold line ends and texts that look like further events.

An event that a session can keep is `Reported`.  Its place is empty, or the end, or a
lexeme of a source between apostrophes.  A lexeme without quotes has no apostrophe, and
a string has no quotes but the two at its ends.  So a place tells where it ends, and a
message does too, since only one of them varies, in its last character.
-/

namespace Lox

open Alphabet Segment

/-! ## Lexemes between apostrophes -/

/-- The characters of a lexeme stand between quotes, or are no quotes and no apostrophes. -/
theorem Segment.WellFormed.quoted_or {k : Kind} {cs : List Char} (h : WellFormed (.lexeme k cs)) :
    (∃ ds, quote ∉ ds ∧ cs = quote :: (ds ++ [quote])) ∨
      cs ≠ [] ∧ quote ∉ cs ∧ '\'' ∉ cs := by
  by_cases hk : k = .string
  · subst hk
    exact Or.inl h.exists_string
  · exact Or.inr ⟨h.text_ne_nil, h.not_mem hk rfl rfl, h.not_mem hk rfl rfl⟩

/-- A lexeme ends where an apostrophe closes it. -/
theorem Segment.WellFormed.append_inj {k l : Kind} {cs ds rest rest' : List Char}
    (hcs : WellFormed (.lexeme k cs)) (hds : WellFormed (.lexeme l ds))
    (h : cs ++ '\'' :: rest = ds ++ '\'' :: rest') : cs = ds ∧ rest = rest' := by
  rcases hcs.quoted_or with ⟨as, has, rfl⟩ | ⟨hne, hquote, happ⟩
  · rcases hds.quoted_or with ⟨bs, hbs, rfl⟩ | ⟨hne', hquote', -⟩
    · simp only [List.cons_append, List.append_assoc, List.cons.injEq, true_and] at h
      obtain ⟨rfl, hrest⟩ := Text.append_cons_inj has hbs h
      exact ⟨rfl, (List.cons.inj hrest).2⟩
    · exact absurd h.symm (Text.append_ne_cons hne' hquote')
  · rcases hds.quoted_or with ⟨bs, -, rfl⟩ | ⟨-, -, happ'⟩
    · exact absurd h (Text.append_ne_cons hne hquote)
    · exact Text.append_cons_inj happ happ' h

/-! ## Messages -/

section Messages

variable {rest rest' : List Char}

theorem LexicalFault.toList_unexpectedCharacter (c : Char) :
    (unexpectedCharacter c).message.toList = "Unexpected character: ".toList ++ [c] :=
  String.toList_append.trans (congrArg _ String.toList_ofList)

theorem LexicalFault.unexpectedCharacter_ne (c : Char) :
    (unexpectedCharacter c).message.toList ++ rest ≠ unterminatedString.message.toList ++ rest' := by
  rw [toList_unexpectedCharacter, List.append_assoc]
  exact Text.append_ne (by decide) (by decide)

/-- A message about characters tells where it ends. -/
theorem LexicalFault.message_append_inj {f g : LexicalFault}
    (h : f.message.toList ++ rest = g.message.toList ++ rest') : f = g ∧ rest = rest' := by
  cases f with
  | unexpectedCharacter c =>
    cases g with
    | unexpectedCharacter d =>
      rw [toList_unexpectedCharacter, toList_unexpectedCharacter, List.append_assoc,
        List.append_assoc] at h
      obtain ⟨rfl, hrest⟩ := List.cons.inj (List.append_cancel_left h)
      exact ⟨rfl, hrest⟩
    | unterminatedString => exact absurd h (unexpectedCharacter_ne c)
  | unterminatedString =>
    cases g with
    | unexpectedCharacter d => exact absurd h.symm (unexpectedCharacter_ne d)
    | unterminatedString => exact ⟨rfl, List.append_cancel_left h⟩

/-- No message about the grammar is the beginning of another one. -/
theorem SyntaxFault.eq_of_isPrefix {f g : SyntaxFault} :
    f.message.toList <+: g.message.toList → f = g := by
  cases f <;> cases g <;> decide

/-- A message about the grammar tells where it ends. -/
theorem SyntaxFault.message_append_inj {f g : SyntaxFault}
    (h : f.message.toList ++ rest = g.message.toList ++ rest') : f = g ∧ rest = rest' := by
  obtain rfl : f = g := by
    rcases Text.isPrefix_or_isPrefix h with hfg | hgf
    · exact eq_of_isPrefix hfg
    · exact (eq_of_isPrefix hgf).symm
  exact ⟨rfl, List.append_cancel_left h⟩

end Messages

/-! ## Places -/

/-- The text between `Error` and the message of an event that a source can give rise to. -/
inductive IsPlace : List Char → Prop
  | line : IsPlace ": ".toList
  | ending : IsPlace " at end: ".toList
  | lexeme {k : Kind} {cs : List Char} : WellFormed (.lexeme k cs) →
      IsPlace (" at '".toList ++ (cs ++ '\'' :: ": ".toList))

/-- A place tells where it ends. -/
theorem IsPlace.append_inj {ps qs rest rest' : List Char} (hp : IsPlace ps) (hq : IsPlace qs)
    (h : ps ++ rest = qs ++ rest') : ps = qs ∧ rest = rest' := by
  -- The sorts differ in their first characters, which are given.
  have hline : ∀ {rest rest' : List Char}, ": ".toList ++ rest ≠ " at end: ".toList ++ rest' :=
    Text.append_ne (by decide) (by decide)
  have hline' : ∀ {rest rest' : List Char}, ": ".toList ++ rest ≠ " at '".toList ++ rest' :=
    Text.append_ne (by decide) (by decide)
  have hending : ∀ {rest rest' : List Char}, " at end: ".toList ++ rest ≠ " at '".toList ++ rest' :=
    Text.append_ne (by decide) (by decide)
  cases hp with
  | line =>
    cases hq with
    | line => exact ⟨rfl, List.append_cancel_left h⟩
    | ending => exact absurd h hline
    | lexeme _ =>
      rw [List.append_assoc] at h
      exact absurd h hline'
  | ending =>
    cases hq with
    | line => exact absurd h.symm hline
    | ending => exact ⟨rfl, List.append_cancel_left h⟩
    | lexeme _ =>
      rw [List.append_assoc] at h
      exact absurd h hending
  | lexeme hcs =>
    rw [List.append_assoc] at h
    cases hq with
    | line => exact absurd h.symm hline'
    | ending => exact absurd h.symm hending
    | lexeme hds =>
      rw [List.append_assoc, List.append_assoc, List.append_assoc] at h
      obtain ⟨rfl, hrest⟩ := hcs.append_inj hds (List.append_cancel_left h)
      exact ⟨rfl, List.append_cancel_left hrest⟩

/-! ## Events -/

namespace Event

/-- An event that a source can give rise to. -/
inductive Reported : Event → Prop
  | lexical (f : LexicalFault) (line : Nat) : Reported (f.onLine line).event
  | syntactic (f : SyntaxFault) {t : Token} : (t.isEndOfFile = false → t.Lexical) →
      Reported (Error.syntactic t f.message).event

/-- The text of an event with a line end and what follows it. -/
theorem toList_display_append (e : Event) (rest : List Char) :
    (e.display ++ "\n").toList ++ rest =
      "[line ".toList ++ ((toString e.line).toList ++ ']' :: (" Error".toList ++
        (e.location.toList ++ ": ".toList ++ (e.message.toList ++ '\n' :: rest)))) := by
  simp [display]

namespace Reported

variable {e f : Event} {rest rest' : List Char}

theorem isPlace (h : e.Reported) : IsPlace (e.location.toList ++ ": ".toList) := by
  cases h with
  | lexical f line => exact .line
  | @syntactic f t ht =>
    show IsPlace ((Error.syntactic t f.message).location.toList ++ ": ".toList)
    rw [Error.location]
    split
    · exact .ending
    · next hend =>
      have hplace := IsPlace.lexeme (ht (Bool.eq_false_iff.2 hend)).wellFormed
      simpa using hplace

theorem message_append_inj (he : e.Reported) (hf : f.Reported) (hlocation : e.location = f.location)
    (h : e.message.toList ++ rest = f.message.toList ++ rest') :
    e.message = f.message ∧ rest = rest' := by
  cases he with
  | lexical f line =>
    cases hf with
    | lexical g line' =>
      obtain ⟨rfl, hrest⟩ := LexicalFault.message_append_inj h
      exact ⟨rfl, hrest⟩
    | @syntactic g t _ => exact absurd hlocation.symm (IsSyntactic.location_ne ⟨g, t, rfl⟩)
  | @syntactic f t _ =>
    cases hf with
    | lexical g line' => exact absurd hlocation (IsSyntactic.location_ne ⟨f, t, rfl⟩)
    | syntactic g _ =>
      obtain ⟨rfl, hrest⟩ := SyntaxFault.message_append_inj h
      exact ⟨rfl, hrest⟩

/-- The text of an event tells the event and where it ends. -/
theorem display_append_inj (he : e.Reported) (hf : f.Reported)
    (h : (e.display ++ "\n").toList ++ rest = (f.display ++ "\n").toList ++ rest') :
    e = f ∧ rest = rest' := by
  rw [toList_display_append, toList_display_append] at h
  obtain ⟨hline, h⟩ := Text.toString_append_inj rfl (List.append_cancel_left h)
  obtain ⟨hplace, h⟩ := he.isPlace.append_inj hf.isPlace (List.append_cancel_left h)
  have hlocation : e.location = f.location := String.toList_inj.1 (List.append_cancel_right hplace)
  obtain ⟨hmessage, h⟩ := he.message_append_inj hf hlocation h
  have hevent : e = f :=
    calc e = ⟨e.line, e.location, e.message⟩ := rfl
      _ = ⟨f.line, f.location, f.message⟩ := by rw [hline, hlocation, hmessage]
  exact ⟨hevent, (List.cons.inj h).2⟩

end Reported

end Event

theorem Diagnostics.toList_display (d : Diagnostics) :
    d.display.toList = d.events.flatMap fun e => (e.display ++ "\n").toList := by
  rw [display, String.toList_join, List.flatMap_map]

namespace Session

/-! ## What is kept -/

variable {s : Session} {source : String}

/-- Everything that a session has kept can come from a source. -/
def Reports (s : Session) : Prop := ∀ e ∈ s.diagnostics.events, e.Reported

theorem reports_of_events_eq (h : s.diagnostics.events = []) : s.Reports := by
  intro e he
  rw [h] at he
  cases he

theorem Reports.report {es : List Error} (hs : s.Reports) (hes : ∀ e ∈ es, e.event.Reported) :
    (s.report es).Reports := by
  intro e he
  rw [events_report] at he
  rcases List.mem_append.1 he with he | he
  · exact hs e he
  · obtain ⟨err, herr, rfl⟩ := List.mem_map.1 he
    exact hes err herr

theorem Exit.reports {r : Written × Session} (h : s.Exit source r) (hs : s.Reports) :
    r.2.Reports := by
  cases h with
  | diagnostics _ =>
    refine hs.report fun e he => ?_
    obtain ⟨f, line, hevent⟩ := isLexical_of_mem_errors he
    exact hevent ▸ .lexical f line
  | dump _ _ | expression _ _ _ => exact hs
  | @syntactic f t _ _ ht _ =>
    exact hs.report (List.forall_mem_singleton.2 (.syntactic f fun hend => lexical_of_mem_scan ht hend))

theorem act_reports (hs : s.Reports) (a : Action) : (s.act a).2.Reports := by
  cases a with
  | run source => exact (s.run_exit source).reports hs
  | clear => exact reports_of_events_eq rfl

/-- Sessions that show the same diagnostics have kept the same events, whatever was run
and cleared before. -/
theorem events_eq_of_display_eq (d d' : Bool) (as bs : List Action)
    (h : (Session.acts { dumpTokens := d } as).2.diagnostics.display =
      (Session.acts { dumpTokens := d' } bs).2.diagnostics.display) :
    (Session.acts { dumpTokens := d } as).2.diagnostics.events =
      (Session.acts { dumpTokens := d' } bs).2.diagnostics.events := by
  have hreports : ∀ (dumpTokens : Bool) (as : List Action),
      (Session.acts { dumpTokens } as).2.Reports := fun dumpTokens as =>
    acts_induction (P := Reports) (fun _ a hs => act_reports hs a) (reports_of_events_eq rfl) as
  have htext := congrArg String.toList h
  rw [Diagnostics.toList_display, Diagnostics.toList_display] at htext
  exact Text.flatMap_inj (by simp) Event.Reported.display_append_inj (hreports d as)
    (hreports d' bs) htext

/-- A group that is not closed before a string, which looks like the end of one diagnostic
and the beginning of another. -/
def unclosed : String := "(1 \"': Expect expression.\n[line 2] Error: Unterminated string.\""

theorem events_eq_of_display_eq_unclosed :
    (Session.acts { dumpTokens := false } [.run "#", .clear, .run unclosed]).2.diagnostics.display =
      (Session.acts { dumpTokens := false } [.run unclosed]).2.diagnostics.display ∧
    (Session.acts { dumpTokens := false } [.run "#", .clear, .run unclosed]).2.diagnostics.events =
      (Session.acts { dumpTokens := false } [.run unclosed]).2.diagnostics.events := by
  have h :
      (Session.acts { dumpTokens := false } [.run "#", .clear, .run unclosed]).2.diagnostics.display =
        (Session.acts { dumpTokens := false } [.run unclosed]).2.diagnostics.display := by
    decide +kernel
  exact ⟨h, events_eq_of_display_eq false false _ _ h⟩

/-- Other events can be shown alike. -/
example : Diagnostics.display ⟨[⟨1, "", "a\n[line 1] Error: b"⟩]⟩ =
    Diagnostics.display ⟨[⟨1, "", "a"⟩, ⟨1, "", "b"⟩]⟩ := by decide

end Session

end Lox
