import Lox.Proofs.Source.Classes
import Lox.Source.Scanner

/-!
# Scanning across a line break

A line break ends every segment but a string.  So where the text in front of it has
all of its strings closed, the segments on both sides are those of the two texts by
themselves (`segments_append_lineBreak`), whatever the text in front ends in: a
comment, a number with a dot, half an operator or a stray character.

What the second text is scanned as differs in its lines only.  They come after those
of the first one (`items_add`).
-/

namespace Lox

open Alphabet

/-! ## Moved down -/

/-- The token some lines further down. -/
def Token.moveDown (n : Nat) (t : Token) : Token := { t with line := t.line + n }

/-- The event some lines further down. -/
def Event.moveDown (n : Nat) (e : Event) : Event := { e with line := e.line + n }

/-- The error some lines further down. -/
def Error.moveDown (n : Nat) : Error → Error
  | .lexical line message => .lexical (line + n) message
  | .syntactic token message => .syntactic (token.moveDown n) message
  | .unexpectedEnd line => .unexpectedEnd (line + n)

/-- The item some lines further down. -/
def Item.moveDown (n : Nat) : Item → Item
  | .ok t => .ok (t.moveDown n)
  | .error e => .error (e.moveDown n)

@[simp] theorem Token.moveDown_endOfFile (n line : Nat) :
    (Token.endOfFile line).moveDown n = Token.endOfFile (line + n) := rfl

theorem Error.event_moveDown (n : Nat) (e : Error) :
    (e.moveDown n).event = e.event.moveDown n := by
  cases e with
  | lexical line message => rfl
  | syntactic token message => rfl
  | unexpectedEnd line => rfl

theorem Item.token?_moveDown (n : Nat) (i : Item) :
    (i.moveDown n).token? = i.token?.map (Token.moveDown n) := by
  cases i with
  | ok t => rfl
  | error e => rfl

theorem Item.error?_moveDown (n : Nat) (i : Item) :
    (i.moveDown n).error? = i.error?.map (Error.moveDown n) := by
  cases i with
  | ok t => rfl
  | error e => rfl

/-- The tokens of items further down are their tokens, further down. -/
theorem filterMap_token?_moveDown (n : Nat) (is : List Item) :
    (is.map (Item.moveDown n)).filterMap Item.token? =
      (is.filterMap Item.token?).map (Token.moveDown n) :=
  Item.filterMap_token?_map (Item.token?_moveDown n) is

theorem filterMap_error?_moveDown (n : Nat) (is : List Item) :
    (is.map (Item.moveDown n)).filterMap Item.error? =
      (is.filterMap Item.error?).map (Error.moveDown n) :=
  Item.filterMap_error?_map (Item.error?_moveDown n) is

theorem map_event_moveDown (n : Nat) (es : List Error) :
    (es.map (Error.moveDown n)).map Error.event = (es.map Error.event).map (Event.moveDown n) := by
  rw [List.map_map, List.map_map]
  exact List.map_congr_left fun e _ => e.event_moveDown n

/-! ## Segments on both sides -/

/-- Whether a segment is a string that never ends. -/
def Segment.isUnterminated : Segment → Bool
  | .unterminated _ => true
  | _ => false

namespace Segment

section Append

variable {c : Char} {cs ds : List Char}

theorem takeWhile_append_cons {p : Char → Bool} {r : Char} (hr : p r = false) :
    (cs ++ r :: ds).takeWhile p = cs.takeWhile p := by
  induction cs with
  | nil => simp [hr]
  | cons c cs ih =>
    cases hc : p c with
    | true => simp [hc, ih]
    | false => simp [hc]

theorem dropWhile_append_cons {p : Char → Bool} {r : Char} (hr : p r = false) :
    (cs ++ r :: ds).dropWhile p = cs.dropWhile p ++ r :: ds := by
  induction cs with
  | nil => simp [hr]
  | cons c cs ih =>
    cases hc : p c with
    | true => simp [hc, ih]
    | false => simp [hc]

/-- What comes next in front of a line break is no other character than before. -/
theorem head?_append_lineBreak {d : Char} (hd : d ≠ lineBreak) :
    (cs ++ lineBreak :: ds).head? = some d ↔ cs.head? = some d := by
  cases cs with
  | nil => simp [hd.symm]
  | cons c cs => simp

theorem fraction_append_lineBreak : fraction (cs ++ lineBreak :: ds) = fraction cs := by
  by_cases hdot : cs.head? = some '.'
  · obtain ⟨es, rfl⟩ := List.head?_eq_some_iff.1 hdot
    cases es with
    | nil => rfl
    | cons e es => simp [fraction, takeWhile_append_cons (show lineBreak.isDigit = false from rfl)]
  · have hdot' : (cs ++ lineBreak :: ds).head? ≠ some '.' :=
      mt (head?_append_lineBreak (by decide)).1 hdot
    rw [fraction_eq_nil hdot, fraction_eq_nil hdot']

theorem punctuation_append_lineBreak (k : Kind) :
    punctuation k c (cs ++ lineBreak :: ds) = punctuation k c cs := by
  by_cases hequal : cs.head? = some '='
  · obtain ⟨es, rfl⟩ := List.head?_eq_some_iff.1 hequal
    cases hk : k.withEqual? with
    | none => simp [punctuation, hk]
    | some l => simp [punctuation, hk]
  · have hequal' : (cs ++ lineBreak :: ds).head? ≠ some '=' :=
      mt (head?_append_lineBreak (by decide)).1 hequal
    rw [punctuation_eq_single hequal, punctuation_eq_single hequal']

theorem string_append_lineBreak (h : (string cs).isUnterminated = false) :
    string (cs ++ lineBreak :: ds) = string cs := by
  rcases dropWhile_bne_eq_nil_or quote cs with hnil | ⟨rest, hrest⟩
  · rw [string, hnil] at h
    cases h
  · obtain ⟨es, hes, rfl⟩ : ∃ es, quote ∉ es ∧ cs = es ++ quote :: rest :=
      ⟨_, not_mem_takeWhile_bne quote, by rw [← hrest, List.takeWhile_append_dropWhile]⟩
    have hstring : ∀ rest, string (es ++ quote :: rest) = .lexeme .string (quote :: (es ++ [quote])) := by
      intro rest
      rw [← front_quote, front_string hes]
    rw [hstring, List.append_assoc, List.cons_append, hstring]

/-- A line break does not change the segment in front of it, unless that is a string
it gets into. -/
theorem front_append_lineBreak (h : (front c cs).isUnterminated = false) :
    front c (cs ++ lineBreak :: ds) = front c cs := by
  by_cases hb : isBlank c = true
  · rw [front_of_isBlank hb, front_of_isBlank hb]
  by_cases hq : c = quote
  · subst hq
    rw [front_quote] at h ⊢
    rw [front_quote, string_append_lineBreak h]
  by_cases hd : c.isDigit = true
  · have hbreak : lineBreak.isDigit = false := rfl
    rw [front_of_isDigit hd, front_of_isDigit hd, number, number, takeWhile_append_cons hbreak,
      dropWhile_append_cons hbreak, fraction_append_lineBreak]
  by_cases hw : isWordStart c = true
  · have hbreak : isWordPart lineBreak = false := rfl
    rw [front_of_isWordStart hw, front_of_isWordStart hw, word, word, takeWhile_append_cons hbreak]
  cases hp : Kind.punctuation? c with
  | none =>
    simp only [Bool.not_eq_true] at hb hd hw
    rw [front_of_no_class hb hq hd hw hp, front_of_no_class hb hq hd hw hp]
  | some k =>
    by_cases hslash : c = '/' ∧ cs.head? = some '/'
    · obtain ⟨rfl, hslash⟩ := hslash
      obtain ⟨es, rfl⟩ := List.head?_eq_some_iff.1 hslash
      have hbreak : (lineBreak != lineBreak) = false := rfl
      rw [List.cons_append, front_slash_slash, front_slash_slash, ← List.cons_append,
        takeWhile_append_cons (p := (· != lineBreak)) hbreak]
    · have hcomment : c = '/' → cs.head? ≠ some '/' := fun hc hs => hslash ⟨hc, hs⟩
      have hcomment' : c = '/' → (cs ++ lineBreak :: ds).head? ≠ some '/' :=
        fun hc => mt (head?_append_lineBreak (by decide)).1 (hcomment hc)
      rw [front_of_punctuation hp hcomment, front_of_punctuation hp hcomment',
        punctuation_append_lineBreak]

end Append

/-- A line break and the text behind it are cut off from the text in front of it. -/
theorem segments_append_lineBreak {cs : List Char} (ds : List Char)
    (h : ∀ g ∈ segments cs, g.isUnterminated = false) :
    segments (cs ++ lineBreak :: ds) = segments cs ++ .blank lineBreak :: segments ds := by
  induction hn : cs.length using Nat.strongRecOn generalizing cs with
  | ind n ih =>
    cases cs with
    | nil =>
      rw [List.nil_append, segments_cons, front_of_isBlank rfl]
      rfl
    | cons c cs =>
      rw [segments_cons, List.forall_mem_cons] at h
      obtain ⟨hfront, hrest⟩ := h
      have hlength : (front c cs).text.length ≤ cs.length + 1 := (text_front_isPrefix c cs).length_le
      have hdrop : (front c cs).text.length - 1 ≤ cs.length := by omega
      have hlt : (cs.drop ((front c cs).text.length - 1)).length < n := by
        rw [← hn, List.length_drop, List.length_cons]
        omega
      rw [List.cons_append, segments_cons, front_append_lineBreak hfront,
        List.drop_append_of_le_length hdrop, ih _ hlt hrest rfl, segments_cons c cs,
        List.cons_append]

end Segment

/-! ## Lines on both sides -/

theorem lineAfter_add (line n : Nat) (gs : List Segment) :
    lineAfter (line + n) gs = lineAfter line gs + n := by
  rw [lineAfter_eq, lineAfter_eq, Nat.add_right_comm]

theorem Located.item?_add (line n : Nat) (g : Segment) :
    Located.item? ⟨line + n, g⟩ = (Located.item? ⟨line, g⟩).map (Item.moveDown n) := by
  cases g with
  | blank _ | comment _ | lexeme _ _ | stray _ => rfl
  | unterminated text =>
    have hend : (⟨line + n, .unterminated text⟩ : Located).endLine =
        (⟨line, .unterminated text⟩ : Located).endLine + n := Nat.add_right_comm _ _ _
    rw [Located.item?, hend]
    rfl

/-- The items of segments further down are those of the segments, further down. -/
theorem items_add (line n : Nat) (gs : List Segment) :
    items (line + n) gs = (items line gs).map (Item.moveDown n) := by
  induction gs generalizing line with
  | nil => rfl
  | cons g gs ih =>
    rw [items_cons, items_cons, Nat.add_right_comm, ih, Located.item?_add, List.map_append]
    cases Located.item? ⟨line, g⟩ with
    | none => rfl
    | some i => rfl

/-! ## Scans -/

/-- A string that never ends has its error. -/
theorem exists_error_of_isUnterminated {line : Nat} {gs : List Segment} {g : Segment}
    (hg : g ∈ gs) (h : g.isUnterminated = true) :
    ∃ l, .error (LexicalFault.unterminatedString.onLine l) ∈ items line gs := by
  induction gs generalizing line with
  | nil => cases hg
  | cons f gs ih =>
    rw [items_cons]
    rcases List.mem_cons.1 hg with rfl | hg
    · cases g with
      | unterminated text => exact ⟨_, List.mem_append_left _ (List.mem_singleton.2 rfl)⟩
      | blank _ | comment _ | lexeme _ _ | stray _ => cases h
    · obtain ⟨l, hl⟩ := ih hg
      exact ⟨l, List.mem_append_right _ hl⟩

theorem isUnterminated_eq_false {source : String}
    (h : ∀ e ∈ (scan source).errors, e.event.message ≠ "Unterminated string.") :
    ∀ g ∈ segments source.toList, g.isUnterminated = false := by
  intro g hg
  rw [← Bool.not_eq_true]
  intro hopen
  obtain ⟨l, hl⟩ := exists_error_of_isUnterminated hg hopen
  exact h _ (Scan.mem_errors_iff.2 hl) rfl

/-- The items of two texts with a line break between them. -/
theorem items_append_lineBreak {a : String} (b : String)
    (h : ∀ e ∈ (scan a).errors, e.event.message ≠ "Unterminated string.") :
    (scan (a ++ "\n" ++ b)).items =
        (scan a).items ++ (scan b).items.map (Item.moveDown (scan a).endLine) ∧
      (scan (a ++ "\n" ++ b)).endLine = (scan b).endLine + (scan a).endLine := by
  have hlist : (a ++ "\n" ++ b).toList = a.toList ++ lineBreak :: b.toList := by
    simp [lineBreak]
  have hsegments := Segment.segments_append_lineBreak b.toList (isUnterminated_eq_false h)
  rw [← hlist] at hsegments
  have hline : lineAfter 1 (segments a.toList) + (Segment.blank lineBreak).lineBreaks =
      1 + (scan a).endLine := Nat.add_comm _ _
  constructor
  · rw [items_scan, hsegments, items_append, items_cons, hline, items_add]
    rfl
  · show lineAfter 1 (segments (a ++ "\n" ++ b).toList) = _
    rw [hsegments, lineAfter_append, lineAfter, hline, lineAfter_add]
    rfl

/-- A text in which every string is closed, a line break, and any text: the tokens of
the first one come before those of the second one, which are as many lines further
down as the first one has, and so do the events. -/
theorem scan_append_lineBreak (a b : String)
    (h : ∀ e ∈ (scan a).errors, e.event.message ≠ "Unterminated string.") :
    ∃ ts line, (scan a).tokens = ts ++ [Token.endOfFile line] ∧
      (scan (a ++ "\n" ++ b)).tokens = ts ++ (scan b).tokens.map (Token.moveDown line) ∧
      (scan (a ++ "\n" ++ b)).errors.map Error.event =
        (scan a).errors.map Error.event ++
          ((scan b).errors.map Error.event).map (Event.moveDown line) := by
  obtain ⟨hitems, hline⟩ := items_append_lineBreak b h
  refine ⟨(scan a).items.filterMap Item.token?, (scan a).endLine, rfl, ?_, ?_⟩
  · rw [Scan.tokens, Scan.tokens, hitems, hline, List.filterMap_append, filterMap_token?_moveDown,
      List.map_append, List.map_singleton, Token.moveDown_endOfFile, List.append_assoc]
  · rw [Scan.errors, hitems, List.filterMap_append, filterMap_error?_moveDown, List.map_append,
      map_event_moveDown]
    rfl

/-- A stray character and a comment in front of the line break, and a string that
never ends behind it. -/
theorem scan_append_lineBreak_comment :
    (∀ e ∈ (scan "12.\n# //\"").errors, e.event.message ≠ "Unterminated string.") ∧
    ∃ ts line, (scan "12.\n# //\"").tokens = ts ++ [Token.endOfFile line] ∧
      (scan ("12.\n# //\"" ++ "\n" ++ "5 \"\n")).tokens =
        ts ++ (scan "5 \"\n").tokens.map (Token.moveDown line) ∧
      (scan ("12.\n# //\"" ++ "\n" ++ "5 \"\n")).errors.map Error.event =
        (scan "12.\n# //\"").errors.map Error.event ++
          ((scan "5 \"\n").errors.map Error.event).map (Event.moveDown line) := by
  have h : ∀ e ∈ (scan "12.\n# //\"").errors, e.event.message ≠ "Unterminated string." := by
    decide
  exact ⟨h, scan_append_lineBreak "12.\n# //\"" "5 \"\n" h⟩

end Lox
