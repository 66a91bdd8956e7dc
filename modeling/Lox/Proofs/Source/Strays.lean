import Lox.Proofs.Source.Places

/-!
# Stray characters

A character that is of no class of the alphabet is as good as a space.  Where all such
characters of a source are made spaces, the segments are the same ones with their
characters changed, but for the stray characters, which are blanks now
(`segments_map_toBlank`).  This is so wherever the characters stand: behind half an
operator or a number with a dot, in a string or a comment, or in a string that never
ends.

So a scan gives the same tokens on the same lines, and the same errors but for those of
the stray characters (`scan_map_toBlank`).
-/

namespace Lox

open Alphabet Segment

namespace Alphabet

/-- The characters of punctuation and operators. -/
def marks : List Char :=
  ['(', ')', '{', '}', ',', '.', '-', '+', ';', '/', '*', '!', '=', '<', '>']

/-- Whether a character is of any class.  All others can stand in strings and comments
only. -/
def hasClass (c : Char) : Bool :=
  c.isAlpha || c.isDigit || c == '_' || marks.contains c || c == quote || isBlank c

/-- A space in place of a character of no class. -/
def toBlank (c : Char) : Char := if hasClass c then c else ' '

section ToBlank

variable {c d : Char}

theorem exists_punctuation?_iff : (∃ k, Kind.punctuation? c = some k) ↔ c ∈ marks := by
  unfold Kind.punctuation?
  split <;> simp_all [marks]

/-- The classes are those of the characters that segments other than stray ones start
with. -/
theorem hasClass_iff : hasClass c = true ↔ isBlank c = true ∨ c = quote ∨ c.isDigit = true ∨
    isWordStart c = true ∨ ∃ k, Kind.punctuation? c = some k := by
  rw [exists_punctuation?_iff, hasClass, isWordStart]
  simp only [Bool.or_eq_true, beq_iff_eq, List.contains_iff_mem]
  tauto

theorem hasClass_eq_false_iff : hasClass c = false ↔
    isBlank c = false ∧ c ≠ quote ∧ c.isDigit = false ∧ isWordStart c = false ∧
      Kind.punctuation? c = none := by
  simp only [← Bool.not_eq_true, hasClass_iff, not_or, Option.eq_none_iff_forall_ne_some,
    not_exists]

theorem toBlank_of_hasClass (h : hasClass c = true) : toBlank c = c := if_pos h

theorem toBlank_of_no_class (h : hasClass c = false) : toBlank c = ' ' := by
  rw [toBlank, h]
  rfl

/-- What tells no space from a character of no class, tells none from another. -/
theorem apply_toBlank {α : Type} {p : Char → α} (h : ∀ c, hasClass c = false → p c = p ' ')
    (c : Char) : p (toBlank c) = p c := by
  cases hc : hasClass c with
  | true => rw [toBlank_of_hasClass hc]
  | false => rw [toBlank_of_no_class hc, h c hc]

theorem isDigit_toBlank (c : Char) : (toBlank c).isDigit = c.isDigit :=
  apply_toBlank (fun _ h => (hasClass_eq_false_iff.1 h).2.2.1) c

theorem isWordPart_toBlank (c : Char) : isWordPart (toBlank c) = isWordPart c := by
  refine apply_toBlank (fun c h => ?_) c
  obtain ⟨-, -, hd, hw, -⟩ := hasClass_eq_false_iff.1 h
  rw [isWordPart, hw, hd]
  rfl

/-- A character of a class is made from itself only, unless it is a space. -/
theorem toBlank_eq_iff (hd : hasClass d = true) (hspace : d ≠ ' ') : toBlank c = d ↔ c = d := by
  cases hc : hasClass c with
  | true => rw [toBlank_of_hasClass hc]
  | false =>
    rw [toBlank_of_no_class hc]
    refine iff_of_false hspace.symm fun h => ?_
    rw [h, hd] at hc
    cases hc

theorem toBlank_bne (hd : hasClass d = true) (hspace : d ≠ ' ') (c : Char) :
    (toBlank c != d) = (c != d) := by
  rw [Bool.eq_iff_iff, bne_iff_ne, bne_iff_ne]
  exact not_congr (toBlank_eq_iff hd hspace)

theorem hasClass_of_isWordPart (h : isWordPart c = true) : hasClass c = true := by
  rw [← Bool.not_eq_false]
  intro hc
  obtain ⟨-, -, hd, hw, -⟩ := hasClass_eq_false_iff.1 hc
  rw [isWordPart, hw, hd] at h
  cases h

end ToBlank

end Alphabet

/-! ## Segments -/

namespace Segment

/-- The segment with spaces in place of the characters of no class. -/
def blankOut : Segment → Segment
  | blank c => blank (toBlank c)
  | comment text => comment (text.map toBlank)
  | lexeme kind text => lexeme kind (text.map toBlank)
  | unterminated text => unterminated (text.map toBlank)
  | stray c => blank (toBlank c)

@[simp] theorem text_blankOut (g : Segment) : g.blankOut.text = g.text.map toBlank := by
  cases g <;> rfl

@[simp] theorem lineBreaks_blankOut (g : Segment) : g.blankOut.lineBreaks = g.lineBreaks := by
  rw [lineBreaks, lineBreaks, text_blankOut, List.count_eq_countP, List.count_eq_countP,
    List.countP_map]
  refine List.countP_congr fun c _ => ?_
  rw [Function.comp_apply, beq_iff_eq, beq_iff_eq, toBlank_eq_iff (by decide) (by decide)]

section Front

variable {c : Char} {cs : List Char}

theorem takeWhile_map_toBlank {p : Char → Bool} (h : ∀ c, p (toBlank c) = p c) (cs : List Char) :
    (cs.map toBlank).takeWhile p = (cs.takeWhile p).map toBlank := by
  rw [List.takeWhile_map, show p ∘ toBlank = p from funext h]

theorem dropWhile_map_toBlank {p : Char → Bool} (h : ∀ c, p (toBlank c) = p c) (cs : List Char) :
    (cs.map toBlank).dropWhile p = (cs.dropWhile p).map toBlank := by
  rw [List.dropWhile_map, show p ∘ toBlank = p from funext h]

theorem head?_map_toBlank {d : Char} (hd : hasClass d = true) (hspace : d ≠ ' ') :
    (cs.map toBlank).head? = some d ↔ cs.head? = some d := by
  rw [List.head?_map, Option.map_eq_some_iff]
  simp only [toBlank_eq_iff hd hspace, exists_eq_right]

theorem string_map_toBlank (cs : List Char) : string (cs.map toBlank) = (string cs).blankOut := by
  have hquote := toBlank_bne (d := quote) (by decide) (by decide)
  rw [string, string, dropWhile_map_toBlank hquote, takeWhile_map_toBlank hquote]
  cases cs.dropWhile (· != quote) with
  | nil => rfl
  | cons r rest =>
    rw [List.map_cons, blankOut, List.map_cons, List.map_append]
    rfl

theorem fraction_map_toBlank (cs : List Char) :
    fraction (cs.map toBlank) = (fraction cs).map toBlank := by
  by_cases hdot : cs.head? = some '.'
  · obtain ⟨es, rfl⟩ := List.head?_eq_some_iff.1 hdot
    cases es with
    | nil => rfl
    | cons e es =>
      have htail := takeWhile_map_toBlank isDigit_toBlank es
      have hdot' : toBlank '.' = '.' := rfl
      simp only [List.map_cons, hdot', fraction, isDigit_toBlank, htail]
      split
      · rw [List.map_cons, List.map_cons, hdot']
      · rfl
  · have hdot' : (cs.map toBlank).head? ≠ some '.' :=
      mt (head?_map_toBlank (by decide) (by decide)).1 hdot
    rw [fraction_eq_nil hdot, fraction_eq_nil hdot', List.map_nil]

theorem word_map_toBlank (hc : toBlank c = c) : word c (cs.map toBlank) = (word c cs).blankOut := by
  -- A word has characters of its class only, so none of them is changed.
  have hword : (cs.takeWhile isWordPart).map toBlank = cs.takeWhile isWordPart :=
    (List.map_congr_left fun d hd =>
      toBlank_of_hasClass (hasClass_of_isWordPart (forall_mem_takeWhile d hd))).trans (List.map_id' _)
  rw [word, takeWhile_map_toBlank isWordPart_toBlank, hword, word, blankOut, List.map_cons, hword, hc]

theorem punctuation_map_toBlank (k : Kind) (hc : toBlank c = c) :
    punctuation k c (cs.map toBlank) = (punctuation k c cs).blankOut := by
  by_cases hequal : cs.head? = some '='
  · obtain ⟨es, rfl⟩ := List.head?_eq_some_iff.1 hequal
    have hequal' : toBlank '=' = '=' := rfl
    cases hk : k.withEqual? with
    | none => simp [punctuation, hk, blankOut, hc]
    | some l => simp [punctuation, hk, blankOut, hc, hequal']
  · have hequal' : (cs.map toBlank).head? ≠ some '=' :=
      mt (head?_map_toBlank (by decide) (by decide)).1 hequal
    rw [punctuation_eq_single hequal, punctuation_eq_single hequal', blankOut, List.map_singleton, hc]

/-- The segment at the front stays the one at the front. -/
theorem front_map_toBlank (c : Char) (cs : List Char) :
    front (toBlank c) (cs.map toBlank) = (front c cs).blankOut := by
  by_cases hb : isBlank c = true
  · have hc : toBlank c = c := toBlank_of_hasClass (hasClass_iff.2 (.inl hb))
    rw [hc, front_of_isBlank hb, front_of_isBlank hb, blankOut, hc]
  by_cases hq : c = quote
  · subst hq
    have hc : toBlank quote = quote := rfl
    rw [hc, front_quote, front_quote, string_map_toBlank]
  by_cases hd : c.isDigit = true
  · have hc : toBlank c = c := toBlank_of_hasClass (hasClass_iff.2 (.inr (.inr (.inl hd))))
    rw [hc, front_of_isDigit hd, front_of_isDigit hd, number, number,
      takeWhile_map_toBlank isDigit_toBlank, dropWhile_map_toBlank isDigit_toBlank,
      fraction_map_toBlank, blankOut, List.map_cons, List.map_append, hc]
  by_cases hw : isWordStart c = true
  · have hc : toBlank c = c := toBlank_of_hasClass (hasClass_iff.2 (.inr (.inr (.inr (.inl hw)))))
    rw [hc, front_of_isWordStart hw, front_of_isWordStart hw, word_map_toBlank hc]
  cases hp : Kind.punctuation? c with
  | none =>
    simp only [Bool.not_eq_true] at hb hd hw
    have hc : toBlank c = ' ' := toBlank_of_no_class (hasClass_eq_false_iff.2 ⟨hb, hq, hd, hw, hp⟩)
    rw [front_of_no_class hb hq hd hw hp, blankOut, hc]
    exact front_of_isBlank rfl
  | some k =>
    have hc : toBlank c = c := toBlank_of_hasClass (hasClass_iff.2 (.inr (.inr (.inr (.inr ⟨k, hp⟩)))))
    rw [hc]
    by_cases hslash : c = '/' ∧ cs.head? = some '/'
    · obtain ⟨rfl, hslash⟩ := hslash
      obtain ⟨es, rfl⟩ := List.head?_eq_some_iff.1 hslash
      have hbreak := toBlank_bne (d := lineBreak) (by decide) (by decide)
      rw [List.map_cons, hc, front_slash_slash, front_slash_slash, blankOut, List.map_cons, hc,
        ← takeWhile_map_toBlank hbreak, List.map_cons, hc]
    · have hcomment : c = '/' → cs.head? ≠ some '/' := fun h hs => hslash ⟨h, hs⟩
      have hcomment' : c = '/' → (cs.map toBlank).head? ≠ some '/' :=
        fun h => mt (head?_map_toBlank (by decide) (by decide)).1 (hcomment h)
      rw [front_of_punctuation hp hcomment, front_of_punctuation hp hcomment',
        punctuation_map_toBlank k hc]

end Front

theorem segmentsPast_map_toBlank (cs : List Char) : ∀ n,
    segmentsPast n (cs.map toBlank) = (segmentsPast n cs).map blankOut := by
  induction cs with
  | nil => simp [segmentsPast]
  | cons c cs ih =>
    intro n
    cases n with
    | zero =>
      rw [List.map_cons, segmentsPast, segmentsPast, front_map_toBlank, text_blankOut,
        List.length_map, List.map_cons, ih]
    | succ n => exact ih n

/-- The segments are the same ones with their characters changed. -/
theorem segments_map_toBlank (cs : List Char) :
    segments (cs.map toBlank) = (segments cs).map blankOut :=
  segmentsPast_map_toBlank cs 0

end Segment

/-! ## Tokens and errors -/

/-- The token with its lexeme and its value changed. -/
def Token.mapText (f : String → String) (t : Token) : Token :=
  { t with lexeme := f t.lexeme, literal := t.literal.map f }

/-- Whether an event reports a stray character. -/
def Event.isUnexpectedCharacter (e : Event) : Bool :=
  "Unexpected character: ".toList.isPrefixOf e.message.toList

theorem isUnexpectedCharacter_onLine (c : Char) (line : Nat) :
    ((LexicalFault.unexpectedCharacter c).onLine line).event.isUnexpectedCharacter = true := by
  have hmessage : ((LexicalFault.unexpectedCharacter c).onLine line).event.message =
      "Unexpected character: " ++ String.ofList [c] := rfl
  rw [Event.isUnexpectedCharacter, hmessage, String.toList_append, List.isPrefixOf_iff_prefix]
  exact List.prefix_append _ _

@[simp] theorem Token.mapText_endOfFile {f : String → String} (h : f "" = "") (line : Nat) :
    (Token.endOfFile line).mapText f = Token.endOfFile line := by
  simp [mapText, endOfFile, h]

theorem ofLexeme_map_toBlank (k : Kind) (text : List Char) (line : Nat) :
    Token.ofLexeme k (text.map toBlank) line =
      (Token.ofLexeme k text line).mapText (String.map toBlank) := by
  have htext : ∀ cs : List Char,
      String.ofList (cs.map toBlank) = (String.ofList cs).map toBlank := by
    intro cs
    rw [← String.toList_inj, String.toList_map, String.toList_ofList, String.toList_ofList]
  have hvalue : k.valueOf? (text.map toBlank) = (k.valueOf? text).map (String.map toBlank) := by
    cases k with
    | string =>
      rw [Kind.valueOf?, ← List.map_tail, ← List.map_dropLast, htext]
      rfl
    | number | identifier => exact congrArg some (htext text)
    | _ => rfl
  rw [Token.ofLexeme, hvalue, htext]
  rfl

theorem tokens_items_blankOut (line : Nat) (gs : List Segment) :
    (items line (gs.map blankOut)).filterMap Item.token? =
      ((items line gs).filterMap Item.token?).map (Token.mapText (String.map toBlank)) := by
  induction gs generalizing line with
  | nil => rfl
  | cons g gs ih =>
    rw [List.map_cons, items_cons, items_cons, List.filterMap_append, List.filterMap_append,
      List.map_append, lineBreaks_blankOut, ih]
    cases g with
    | lexeme k text =>
      refine congrArg (· ++ _) (congrArg ([·]) ?_)
      exact ofLexeme_map_toBlank k text line
    | blank _ | comment _ | unterminated _ | stray _ => rfl

theorem isUnexpectedCharacter_unterminatedString (line : Nat) :
    (LexicalFault.unterminatedString.onLine line).event.isUnexpectedCharacter = false := by
  have hmessage : "Unexpected character: ".toList.isPrefixOf "Unterminated string.".toList = false := by
    decide
  exact hmessage

theorem errors_items_blankOut (line : Nat) (gs : List Segment) :
    (items line (gs.map blankOut)).filterMap Item.error? =
      ((items line gs).filterMap Item.error?).filter fun e => !e.event.isUnexpectedCharacter := by
  induction gs generalizing line with
  | nil => rfl
  | cons g gs ih =>
    rw [List.map_cons, items_cons, items_cons, List.filterMap_append, List.filterMap_append,
      List.filter_append, lineBreaks_blankOut, ih]
    refine congrArg (· ++ _) ?_
    cases g with
    | blank _ | comment _ | lexeme _ _ => rfl
    | stray c =>
      show [] = List.filter _ [(LexicalFault.unexpectedCharacter c).onLine line]
      rw [List.filter_singleton, isUnexpectedCharacter_onLine]
      rfl
    | unterminated text =>
      have hline : (⟨line, (unterminated text).blankOut⟩ : Located).endLine =
          (⟨line, .unterminated text⟩ : Located).endLine := by
        rw [Located.endLine, lineBreaks_blankOut]
        rfl
      show [LexicalFault.unterminatedString.onLine _] =
        List.filter _ [LexicalFault.unterminatedString.onLine _]
      rw [List.filter_singleton, isUnexpectedCharacter_unterminatedString, hline]
      rfl

theorem lineAfter_blankOut (line : Nat) (gs : List Segment) :
    lineAfter line (gs.map blankOut) = lineAfter line gs := by
  induction gs generalizing line with
  | nil => rfl
  | cons g gs ih => rw [List.map_cons, lineAfter, lineAfter, lineBreaks_blankOut, ih]

/-! ## Stray characters at their places -/

/-- Whether a segment is a stray character. -/
def Segment.isStray : Segment → Bool
  | .stray _ => true
  | _ => false

namespace Place

/-- Whether a stray character stands at a place. -/
def isStray (p : Place) : Bool := p.segment.isStray

theorem isFault_of_isStray (p : Place) (h : p.isStray = true) : p.isFault = true := by
  obtain ⟨before, segment⟩ := p
  cases segment with
  | stray c => rfl
  | blank _ | comment _ | lexeme _ _ | unterminated _ => cases h

/-- The event that reports the character of no class that stands at a place by itself. -/
def Strays (p : Place) (e : Event) : Prop :=
  ∃ c, p.segment = .stray c ∧ hasClass c = false ∧
    e = ⟨lineAt p.before, "", "Unexpected character: " ++ String.ofList [c]⟩

end Place

/-- A character of a class is no stray one, since something starts with it. -/
theorem Segment.IsFront.hasClass_eq_false {c : Char} {cs : List Char}
    (h : IsFront (.stray c) cs) : hasClass c = false := by
  cases h with
  | longest hm _ => cases hm.wellFormed
  | @stray c cs hc hnone =>
    have hprefix : [c] <+: c :: cs := ⟨cs, rfl⟩
    refine hasClass_eq_false_iff.2 ⟨?_, hc, ?_, ?_, ?_⟩
    · exact Bool.eq_false_iff.2 fun hb => hnone _ ⟨.blank hb, hprefix⟩
    · exact Bool.eq_false_iff.2 fun hd => hnone _ ⟨.integer (by simpa using hd), hprefix⟩
    · exact Bool.eq_false_iff.2 fun hw => hnone _ ⟨.word hw (by simp), hprefix⟩
    · exact Option.eq_none_iff_forall_ne_some.2 fun k hk => hnone _ ⟨.single hk, hprefix⟩

theorem FallsInto.hasClass_eq_false {before cs : List Char} {ps : List Place}
    (h : FallsInto before cs ps) : ∀ p ∈ ps, ∀ c, p.segment = .stray c → hasClass c = false := by
  induction h with
  | nil => nofun
  | @cons before cs g ps hg _ ih =>
    refine List.forall_mem_cons.2 ⟨fun c hc => ?_, ih⟩
    obtain rfl : g = .stray c := hc
    exact hg.hasClass_eq_false

/-- Of the errors, those of the stray characters are the ones about characters. -/
theorem forall₂_strays {cs : List Char} {ps : List Place} {es : List Error}
    (h : List.Forall₂ (Place.Faults cs) ps es)
    (hps : ∀ p ∈ ps, ∀ c, p.segment = .stray c → hasClass c = false) :
    List.Forall₂ Place.Strays (ps.filter Place.isStray)
      ((es.map Error.event).filter Event.isUnexpectedCharacter) := by
  induction h with
  | nil => exact .nil
  | @cons p e ps es hp _ ih =>
    obtain ⟨hclass, hrest⟩ := List.forall_mem_cons.1 hps
    rw [List.map_cons]
    cases hp with
    | @stray before c =>
      have hstray : (Error.lexical (lineAt before)
          ("Unexpected character: " ++ String.ofList [c])).event.isUnexpectedCharacter = true :=
        isUnexpectedCharacter_onLine c (lineAt before)
      rw [List.filter_cons_of_pos hstray]
      exact .cons ⟨c, rfl, hclass c rfl, rfl⟩ (ih hrest)
    | unterminated =>
      have hother : ¬ (Error.lexical (lineAt cs)
          "Unterminated string.").event.isUnexpectedCharacter = true :=
        Bool.eq_false_iff.1 (isUnexpectedCharacter_unterminatedString (lineAt cs))
      rw [List.filter_cons_of_neg hother]
      exact ih hrest

/-! ## Scans -/

theorem items_map_toBlank (source : String) :
    (scan (source.map toBlank)).items = items 1 ((segments source.toList).map blankOut) ∧
      (scan (source.map toBlank)).endLine = (scan source).endLine := by
  have hsegments : segments (source.map toBlank).toList = (segments source.toList).map blankOut := by
    rw [String.toList_map, segments_map_toBlank]
  constructor
  · exact congrArg (items 1) hsegments
  · exact (congrArg (lineAfter 1) hsegments).trans (lineAfter_blankOut 1 _)

/-- With spaces in place of the characters of no class, a source has the same tokens, with
such characters changed in their texts, and the same events but for those about
characters.  These are about the stray characters, which stand by themselves and not in
strings or comments. -/
theorem scan_map_toBlank (source : String) :
    (scan (source.map toBlank)).tokens =
        (scan source).tokens.map (Token.mapText (String.map toBlank)) ∧
      (scan (source.map toBlank)).errors.map Error.event =
        ((scan source).errors.map Error.event).filter (fun e => !e.isUnexpectedCharacter) ∧
      ∃ ps, FallsInto [] source.toList ps ∧
        List.Forall₂ Place.Strays (ps.filter Place.isStray)
          (((scan source).errors.map Error.event).filter Event.isUnexpectedCharacter) := by
  obtain ⟨hitems, hend⟩ := items_map_toBlank source
  refine ⟨?_, ?_, ?_⟩
  · have hempty : String.map toBlank "" = "" := by
      rw [← String.toList_inj, String.toList_map]
      rfl
    rw [Scan.tokens, hitems, hend, tokens_items_blankOut, Scan.tokens, List.map_append,
      List.map_singleton, Token.mapText_endOfFile hempty]
    rfl
  · rw [Scan.errors, hitems, errors_items_blankOut, List.filter_map]
    rfl
  · obtain ⟨ps, hps, hgives⟩ := exists_places source
    have hfaults := forall₂_faults hgives
    rw [filter_filter_of_imp Place.isFound_of_isFault] at hfaults
    have hstrays := forall₂_strays hfaults fun p hp =>
      hps.hasClass_eq_false p (List.mem_of_mem_filter hp)
    rw [filter_filter_of_imp Place.isFault_of_isStray] at hstrays
    exact ⟨ps, hps, hstrays⟩

/-- Between the halves of an operator, in a number, in a string and in a comment. -/
example : (scan "!§= 1é.5 \"ü\" //ö").errors.map Error.message =
    ["Unexpected character: §", "Unexpected character: é"] := by decide

end Lox
