import Lox.Proofs.Source.Strays

/-!
# Carriage returns

A line may end in a line break or in a carriage return and a line break.  Where each line
break of a source gets a carriage return in front of it (`withReturns`), the scan gives the
same tokens on the same lines, but for the texts of strings that span lines, and the same
errors (`tokens_withReturns`, `errors_withReturns`).

A carriage return is one more blank between tokens, and it ends what a line break ends.  In
a string it is one more character.  A comment takes it along, since a comment ends at the
line break only.  `Returned` says this of two lists of segments, and `returned_segments`
that the segments of the two texts are such lists.
-/

namespace Lox

open Alphabet Segment

namespace Alphabet

/-- A line break with a carriage return in front of it, or any other character by itself. -/
def withReturn (c : Char) : List Char := if c = lineBreak then ['\r', c] else [c]

/-- A text with a carriage return in front of each line break. -/
def addReturns (cs : List Char) : List Char := cs.flatMap withReturn

section AddReturns

variable {c d : Char} {cs ds : List Char}

@[simp] theorem addReturns_nil : addReturns [] = [] := rfl

@[simp] theorem addReturns_lineBreak (cs : List Char) :
    addReturns (lineBreak :: cs) = '\r' :: lineBreak :: addReturns cs := rfl

theorem addReturns_cons (h : c ≠ lineBreak) (cs : List Char) :
    addReturns (c :: cs) = c :: addReturns cs := by
  rw [addReturns, List.flatMap_cons, withReturn, if_neg h]
  rfl

@[simp] theorem addReturns_append (cs ds : List Char) :
    addReturns (cs ++ ds) = addReturns cs ++ addReturns ds := List.flatMap_append

theorem addReturns_of_not_mem (h : lineBreak ∉ cs) : addReturns cs = cs := by
  induction cs with
  | nil => rfl
  | cons c cs ih =>
    rw [List.mem_cons, not_or] at h
    rw [addReturns_cons (Ne.symm h.1), ih h.2]

theorem length_addReturns (cs : List Char) :
    (addReturns cs).length = cs.length + cs.count lineBreak := by
  induction cs with
  | nil => rfl
  | cons c cs ih =>
    by_cases hc : c = lineBreak
    · subst hc
      rw [addReturns_lineBreak, List.count_cons_self]
      simp only [List.length_cons, ih]
      omega
    · rw [addReturns_cons hc, List.count_cons_of_ne hc, List.length_cons, ih, List.length_cons]
      omega

/-- Only a text with a line break in it gets longer. -/
theorem addReturns_eq_self_iff : addReturns cs = cs ↔ lineBreak ∉ cs := by
  refine ⟨fun h => ?_, addReturns_of_not_mem⟩
  have hlength := congrArg List.length h
  rw [length_addReturns] at hlength
  exact List.count_eq_zero.1 (by omega)

theorem count_addReturns (cs : List Char) :
    (addReturns cs).count lineBreak = cs.count lineBreak := by
  induction cs with
  | nil => rfl
  | cons c cs ih =>
    by_cases hc : c = lineBreak
    · subst hc
      rw [addReturns_lineBreak, List.count_cons_of_ne (by decide), List.count_cons_self,
        List.count_cons_self, ih]
    · rw [addReturns_cons hc, List.count_cons_of_ne hc, List.count_cons_of_ne hc, ih]

/-- What comes next is no other character than before, unless it is one of the two. -/
theorem head?_addReturns (hbreak : d ≠ lineBreak) (hreturn : d ≠ '\r') :
    (addReturns cs).head? = some d ↔ cs.head? = some d := by
  cases cs with
  | nil => rfl
  | cons c cs =>
    by_cases hc : c = lineBreak
    · subst hc
      simp [hbreak.symm, hreturn.symm]
    · rw [addReturns_cons hc, List.head?_cons, List.head?_cons]

/-- What takes both characters or none, takes the carriage returns along. -/
theorem takeWhile_addReturns {p : Char → Bool} (h : p '\r' = p lineBreak) (cs : List Char) :
    (addReturns cs).takeWhile p = addReturns (cs.takeWhile p) := by
  induction cs with
  | nil => rfl
  | cons c cs ih =>
    by_cases hc : c = lineBreak
    · subst hc
      cases hp : p lineBreak with
      | true => simp [h, hp, ih]
      | false => simp [h, hp]
    · cases hp : p c with
      | true => simp [addReturns_cons hc, hp, ih]
      | false => simp [addReturns_cons hc, hp]

theorem dropWhile_addReturns {p : Char → Bool} (h : p '\r' = p lineBreak) (cs : List Char) :
    (addReturns cs).dropWhile p = addReturns (cs.dropWhile p) := by
  have hsplit : addReturns (cs.takeWhile p) ++ (addReturns cs).dropWhile p =
      addReturns (cs.takeWhile p) ++ addReturns (cs.dropWhile p) := by
    rw [← takeWhile_addReturns h, List.takeWhile_append_dropWhile, takeWhile_addReturns h,
      ← addReturns_append, List.takeWhile_append_dropWhile]
  exact List.append_cancel_left hsplit

end AddReturns

end Alphabet

/-! ## Segments -/

namespace Segment

/-- The segment with carriage returns in its text. -/
def addReturns : Segment → Segment
  | comment text => comment (Alphabet.addReturns text)
  | lexeme kind text => lexeme kind (Alphabet.addReturns text)
  | unterminated text => unterminated (Alphabet.addReturns text)
  | blank c => blank c
  | stray c => stray c

section Front

variable {c : Char} {cs : List Char}

theorem string_addReturns (cs : List Char) :
    string (Alphabet.addReturns cs) = (string cs).addReturns := by
  have hquote : ('\r' != quote) = (lineBreak != quote) := rfl
  rw [string, string, dropWhile_addReturns (p := (· != quote)) hquote,
    takeWhile_addReturns (p := (· != quote)) hquote]
  rcases dropWhile_bne_eq_nil_or quote cs with hnil | ⟨rest, hrest⟩
  · rw [hnil]
    rfl
  · rw [hrest]
    show lexeme .string (quote :: (Alphabet.addReturns (cs.takeWhile (· != quote)) ++ [quote])) =
      lexeme .string (Alphabet.addReturns (quote :: (cs.takeWhile (· != quote) ++ [quote])))
    rw [addReturns_cons (by decide), addReturns_append]
    rfl

theorem fraction_addReturns (cs : List Char) :
    fraction (Alphabet.addReturns cs) = Alphabet.addReturns (fraction cs) := by
  by_cases hdot : cs.head? = some '.'
  · obtain ⟨es, rfl⟩ := List.head?_eq_some_iff.1 hdot
    rw [addReturns_cons (by decide)]
    cases es with
    | nil => rfl
    | cons e es =>
      by_cases he : e = lineBreak
      · subst he
        rfl
      · have hdigit : '\r'.isDigit = lineBreak.isDigit := rfl
        rw [addReturns_cons he, fraction, fraction, takeWhile_addReturns hdigit]
        split
        · rw [addReturns_cons (by decide), addReturns_cons he]
        · rfl
  · have hdot' : (Alphabet.addReturns cs).head? ≠ some '.' :=
      mt (head?_addReturns (by decide) (by decide)).1 hdot
    rw [fraction_eq_nil hdot, fraction_eq_nil hdot', addReturns_nil]

theorem punctuation_addReturns (k : Kind) (hc : c ≠ lineBreak) :
    punctuation k c (Alphabet.addReturns cs) = (punctuation k c cs).addReturns := by
  by_cases hequal : cs.head? = some '='
  · obtain ⟨es, rfl⟩ := List.head?_eq_some_iff.1 hequal
    rw [addReturns_cons (by decide)]
    cases hk : k.withEqual? with
    | none => simp [punctuation, hk, addReturns, addReturns_cons hc]
    | some l =>
      have hequal' : Alphabet.addReturns ['='] = ['='] := rfl
      simp [punctuation, hk, addReturns, addReturns_cons hc, hequal']
  · have hequal' : (Alphabet.addReturns cs).head? ≠ some '=' :=
      mt (head?_addReturns (by decide) (by decide)).1 hequal
    rw [punctuation_eq_single hequal, punctuation_eq_single hequal', addReturns, addReturns_cons hc,
      addReturns_nil]

/-- The segment at the front stays the one at the front, unless it is a line break or a
comment. -/
theorem front_addReturns (hc : c ≠ lineBreak) (hcomment : c = '/' → cs.head? ≠ some '/') :
    front c (Alphabet.addReturns cs) = (front c cs).addReturns := by
  by_cases hb : isBlank c = true
  · rw [front_of_isBlank hb, front_of_isBlank hb]
    rfl
  by_cases hq : c = quote
  · subst hq
    rw [front_quote, front_quote, string_addReturns]
  by_cases hd : c.isDigit = true
  · have hdigit : '\r'.isDigit = lineBreak.isDigit := rfl
    rw [front_of_isDigit hd, front_of_isDigit hd, number, number, takeWhile_addReturns hdigit,
      dropWhile_addReturns hdigit, fraction_addReturns, addReturns, addReturns_cons hc,
      addReturns_append]
  by_cases hw : isWordStart c = true
  · -- A word has no line break in it, so its kind stays what it is.
    have hpart : isWordPart '\r' = isWordPart lineBreak := rfl
    have hword : lineBreak ∉ cs.takeWhile isWordPart :=
      fun h => Bool.false_ne_true (forall_mem_takeWhile (p := isWordPart) lineBreak h)
    rw [front_of_isWordStart hw, front_of_isWordStart hw, word, word, takeWhile_addReturns hpart,
      addReturns_of_not_mem hword, addReturns, addReturns_cons hc, addReturns_of_not_mem hword]
  cases hp : Kind.punctuation? c with
  | none =>
    simp only [Bool.not_eq_true] at hb hd hw
    rw [front_of_no_class hb hq hd hw hp, front_of_no_class hb hq hd hw hp]
    rfl
  | some k =>
    have hcomment' : c = '/' → (Alphabet.addReturns cs).head? ≠ some '/' :=
      fun h => mt (head?_addReturns (by decide) (by decide)).1 (hcomment h)
    rw [front_of_punctuation hp hcomment, front_of_punctuation hp hcomment',
      punctuation_addReturns k hc]

theorem text_addReturns {g : Segment} (h : g.text ≠ [lineBreak]) :
    g.addReturns.text = Alphabet.addReturns g.text := by
  cases g with
  | comment _ | lexeme _ _ | unterminated _ => rfl
  | blank c => exact (addReturns_cons (fun hc => h (hc ▸ rfl)) []).symm
  | stray c => exact (addReturns_cons (fun hc => h (hc ▸ rfl)) []).symm

end Front

/-- The segment at the front is cut off from what follows it. -/
theorem segments_of_front {g : Segment} {c : Char} {cs rest : List Char} (h : front c cs = g)
    (ht : c :: cs = g.text ++ rest) : segments (c :: cs) = g :: segments rest := by
  have happend := text_front_append c cs
  rw [h, ht] at happend
  rw [segments_cons, h, List.append_cancel_left happend]

end Segment

/-- `Returned gs hs` says that the segments `hs` are the segments `gs` where each line
break has got a carriage return in front of it. -/
inductive Returned : List Segment → List Segment → Prop
  | nil : Returned [] []
  /-- The carriage return is a blank by itself. -/
  | newLine {gs hs : List Segment} : Returned gs hs →
      Returned (.blank lineBreak :: gs) (.blank '\r' :: .blank lineBreak :: hs)
  /-- The carriage return belongs to the comment. -/
  | comment {text : List Char} {gs hs : List Segment} : Returned gs hs →
      Returned (.comment text :: .blank lineBreak :: gs)
        (.comment (text ++ ['\r']) :: .blank lineBreak :: hs)
  /-- All carriage returns are within the segment. -/
  | other {g : Segment} {gs hs : List Segment} : WellFormed g ∨ g.isError = true →
      Returned gs hs → Returned (g :: gs) (g.addReturns :: hs)

theorem segments_lineBreak (cs : List Char) :
    segments (lineBreak :: cs) = .blank lineBreak :: segments cs :=
  segments_of_front (front_of_isBlank rfl) rfl

/-- A comment ends at the line break behind it. -/
theorem segments_comment {text : List Char} (h : lineBreak ∉ text) (cs : List Char) :
    segments ('/' :: '/' :: (text ++ lineBreak :: cs)) =
      .comment ('/' :: '/' :: text) :: .blank lineBreak :: segments cs := by
  rw [← segments_lineBreak]
  refine segments_append (.comment h) fun r hr => ?_
  cases hr
  rfl

/-- A comment and the text behind it. -/
theorem Returned.of_comment {text rest : List Char} (htext : lineBreak ∉ text)
    (hrest : rest = [] ∨ ∃ ds, rest = lineBreak :: ds ∧
      Returned (segments ds) (segments (addReturns ds))) :
    Returned (segments ('/' :: '/' :: (text ++ rest)))
      (segments (addReturns ('/' :: '/' :: (text ++ rest)))) := by
  rw [addReturns_cons (by decide), addReturns_cons (by decide), addReturns_append,
    addReturns_of_not_mem htext]
  rcases hrest with rfl | ⟨ds, rfl, ih⟩
  · -- The comment ends the text, and no line break is left.
    have hsegments : segments ('/' :: '/' :: (text ++ [])) = [.comment ('/' :: '/' :: text)] := by
      rw [List.append_nil]
      exact segments_text (.comment htext)
    have hself : (Segment.comment ('/' :: '/' :: text)).addReturns =
        .comment ('/' :: '/' :: text) := by
      have hmem : lineBreak ∉ ['/', '/'] ++ text := List.not_mem_append (by decide) htext
      exact congrArg Segment.comment (addReturns_of_not_mem hmem)
    rw [addReturns_nil, hsegments]
    have h := Returned.other (.inl (.comment htext)) .nil
    rwa [hself] at h
  · have hreturn : lineBreak ∉ text ++ ['\r'] := List.not_mem_append htext (by decide)
    have happend : text ++ addReturns (lineBreak :: ds) =
        (text ++ ['\r']) ++ lineBreak :: addReturns ds := by simp
    rw [happend, segments_comment htext, segments_comment hreturn]
    exact .comment ih

/-- A line break and the text behind it. -/
theorem Returned.of_lineBreak {cs : List Char}
    (h : Returned (segments cs) (segments (addReturns cs))) :
    Returned (segments (lineBreak :: cs)) (segments (addReturns (lineBreak :: cs))) := by
  have hreturn : segments ('\r' :: lineBreak :: addReturns cs) =
      .blank '\r' :: segments (lineBreak :: addReturns cs) :=
    segments_of_front (front_of_isBlank rfl) rfl
  rw [addReturns_lineBreak, hreturn, segments_lineBreak, segments_lineBreak]
  exact .newLine h

/-- Any other segment and the text behind it. -/
theorem Returned.of_front {c : Char} {cs rest : List Char} (hc : c ≠ lineBreak)
    (hcomment : c = '/' → cs.head? ≠ some '/') (hsplit : (front c cs).text ++ rest = c :: cs)
    (h : Returned (segments rest) (segments (addReturns rest))) :
    Returned (segments (c :: cs)) (segments (addReturns (c :: cs))) := by
  have hbreak : (front c cs).text ≠ [lineBreak] := by
    intro ht
    rw [ht] at hsplit
    exact hc (List.cons.inj hsplit).1.symm
  have hsplit' : c :: addReturns cs = (front c cs).addReturns.text ++ addReturns rest := by
    rw [text_addReturns hbreak, ← addReturns_append, hsplit, addReturns_cons hc]
  rw [addReturns_cons hc, segments_of_front (front_addReturns hc hcomment) hsplit',
    segments_of_front rfl hsplit.symm]
  refine .other ?_ h
  refine (wellFormed_front_or c cs).imp id ?_
  rintro (⟨-, hfront⟩ | ⟨-, hfront⟩)
  · rw [hfront]
    rfl
  · rw [hfront]
    rfl

/-- The segments of a text with carriage returns are those of the text, with carriage
returns. -/
theorem returned_segments (cs : List Char) : Returned (segments cs) (segments (addReturns cs)) := by
  induction hn : cs.length using Nat.strongRecOn generalizing cs with
  | ind n ih =>
    cases cs with
    | nil => exact .nil
    | cons c cs =>
      rw [List.length_cons] at hn
      by_cases hc : c = lineBreak
      · subst hc
        exact .of_lineBreak (ih _ (by omega) _ rfl)
      by_cases hslash : c = '/' ∧ cs.head? = some '/'
      · obtain ⟨rfl, hslash⟩ := hslash
        obtain ⟨es, rfl⟩ := List.head?_eq_some_iff.1 hslash
        have hsplit : es.takeWhile (· != lineBreak) ++ es.dropWhile (· != lineBreak) = es :=
          List.takeWhile_append_dropWhile
        have hlength := congrArg List.length hsplit
        rw [List.length_append] at hlength
        rw [← hsplit]
        refine .of_comment (not_mem_takeWhile_bne lineBreak) ?_
        refine (dropWhile_bne_eq_nil_or lineBreak es).imp id fun ⟨ds, hds⟩ => ?_
        rw [hds, List.length_cons] at hlength
        rw [List.length_cons] at hn
        exact ⟨ds, hds, ih _ (by omega) _ rfl⟩
      · have hcomment : c = '/' → cs.head? ≠ some '/' := fun h hs => hslash ⟨h, hs⟩
        have hlt : (cs.drop ((front c cs).text.length - 1)).length < n := by
          rw [← hn, List.length_drop]
          omega
        exact .of_front hc hcomment (text_front_append c cs) (ih _ hlt _ rfl)

/-! ## Items -/

/-- A source with a carriage return in front of each line break. -/
def withReturns (source : String) : String := String.ofList (addReturns source.toList)

theorem withReturns_ofList (cs : List Char) :
    withReturns (String.ofList cs) = String.ofList (addReturns cs) := by
  rw [withReturns, String.toList_ofList]

/-- The item with the texts of its token changed. -/
def Item.mapText (f : String → String) : Item → Item
  | .ok t => .ok (t.mapText f)
  | .error e => .error e

theorem Item.token?_mapText (f : String → String) (i : Item) :
    (i.mapText f).token? = i.token?.map (Token.mapText f) := by
  cases i with
  | ok t => rfl
  | error e => rfl

theorem Item.error?_mapText (f : String → String) (i : Item) :
    (i.mapText f).error? = i.error?.map id := by
  cases i with
  | ok t => rfl
  | error e => rfl

/-- The value of a lexeme with carriage returns is its value with carriage returns. -/
theorem ofLexeme_addReturns {k : Kind} {text : List Char} (h : WellFormed (.lexeme k text))
    (line : Nat) :
    Token.ofLexeme k (addReturns text) line = (Token.ofLexeme k text line).mapText withReturns := by
  have hvalue : k.valueOf? (addReturns text) = (k.valueOf? text).map withReturns := by
    cases k with
    | string =>
      obtain ⟨ds, -, rfl⟩ := h.exists_string
      have hquotes :
          addReturns (quote :: (ds ++ [quote])) = quote :: (addReturns ds ++ [quote]) := by
        rw [addReturns_cons (by decide), addReturns_append]
        rfl
      have hdropLast : ∀ cs : List Char, (cs ++ [quote]).dropLast = cs :=
        fun _ => List.dropLast_concat
      rw [hquotes, Kind.valueOf?, Kind.valueOf?, List.tail_cons, List.tail_cons, hdropLast,
        hdropLast, Option.map_some, withReturns_ofList]
    | number | identifier => exact congrArg some (withReturns_ofList text).symm
    | _ => rfl
  rw [Token.ofLexeme, hvalue, ← withReturns_ofList]
  rfl

theorem lineBreaks_addReturns (g : Segment) : g.addReturns.lineBreaks = g.lineBreaks := by
  cases g with
  | comment text | lexeme _ text | unterminated text => exact count_addReturns text
  | blank _ | stray _ => rfl

theorem item?_addReturns {g : Segment} (hg : WellFormed g ∨ g.isError = true) (line : Nat) :
    Located.item? ⟨line, g.addReturns⟩ =
      (Located.item? ⟨line, g⟩).map (Item.mapText withReturns) := by
  cases g with
  | blank _ | comment _ | stray _ => rfl
  | unterminated text =>
    have hline : (⟨line, (unterminated text).addReturns⟩ : Located).endLine =
        (⟨line, .unterminated text⟩ : Located).endLine := by
      rw [Located.endLine, Located.endLine, lineBreaks_addReturns]
    exact congrArg (fun l => some (Except.error (LexicalFault.unterminatedString.onLine l))) hline
  | lexeme k text =>
    rcases hg with hg | hg
    · exact congrArg (fun t => some (Except.ok t)) (ofLexeme_addReturns hg line)
    · cases hg

/-- Carriage returns change the texts of tokens and nothing else. -/
theorem Returned.items_eq {gs hs : List Segment} (h : Returned gs hs) (line : Nat) :
    items line hs = (items line gs).map (Item.mapText withReturns) := by
  induction h generalizing line with
  | nil => rfl
  | newLine _ ih =>
    rw [items_cons, items_cons, items_cons, ih]
    rfl
  | @comment text gs hs _ ih =>
    have hline :
        (Segment.comment (text ++ ['\r'])).lineBreaks = (Segment.comment text).lineBreaks :=
      List.count_append
    rw [items_cons, items_cons, items_cons, items_cons, hline, ih]
    rfl
  | other hg _ ih =>
    rw [items_cons, items_cons, item?_addReturns hg, lineBreaks_addReturns, ih, List.map_append]
    cases Located.item? _ with
    | none => rfl
    | some i => rfl

/-! ## Scans -/

theorem items_withReturns (source : String) :
    (scan (withReturns source)).items = (scan source).items.map (Item.mapText withReturns) := by
  have hlist : (withReturns source).toList = addReturns source.toList := String.toList_ofList
  rw [items_scan, items_scan, hlist, (returned_segments source.toList).items_eq]

theorem endLine_withReturns (source : String) :
    (scan (withReturns source)).endLine = (scan source).endLine := by
  have hlist : (withReturns source).toList = addReturns source.toList := String.toList_ofList
  rw [endLine_scan, endLine_scan, hlist, lineAt, lineAt, count_addReturns]

/-- A scan of a source with carriage returns gives the same tokens with carriage returns in
their texts. -/
theorem tokens_withReturns (source : String) :
    (scan (withReturns source)).tokens =
      (scan source).tokens.map (Token.mapText withReturns) := by
  have hempty : withReturns "" = "" := rfl
  rw [Scan.tokens, items_withReturns, endLine_withReturns,
    Item.filterMap_token?_map (Item.token?_mapText withReturns), Scan.tokens, List.map_append,
    List.map_singleton, Token.mapText_endOfFile hempty]

theorem errors_withReturns (source : String) :
    (scan (withReturns source)).errors = (scan source).errors := by
  rw [Scan.errors, items_withReturns, Item.filterMap_error?_map (Item.error?_mapText withReturns),
    List.map_id]
  rfl

/-- A token changes where its lexeme does. -/
theorem mapText_ofLexeme_eq_self_iff {k : Kind} {cs : List Char} (h : WellFormed (.lexeme k cs))
    (line : Nat) : (Token.ofLexeme k cs line).mapText withReturns = Token.ofLexeme k cs line ↔
      lineBreak ∉ cs := by
  rw [← ofLexeme_addReturns h, ← addReturns_eq_self_iff]
  constructor
  · intro ht
    exact String.ofList_inj.1 (congrArg Token.lexeme ht)
  · intro ht
    rw [ht]

/-- Of the tokens of a scan only strings that span lines change. -/
theorem mapText_withReturns_ne_iff {source : String} {t : Token} (ht : t ∈ (scan source).tokens) :
    t.mapText withReturns ≠ t ↔ t.kind = .string ∧ lineBreak ∈ t.lexeme.toList := by
  rcases List.mem_append.1 ht with ht | ht
  · obtain ⟨k, cs, line, hmem, rfl⟩ := exists_lexeme_of_mem_items ht
    have hwell := wellFormed_of_mem_segments hmem
    have hlexeme : (Token.ofLexeme k cs line).lexeme.toList = cs := String.toList_ofList
    rw [Ne, mapText_ofLexeme_eq_self_iff hwell, Classical.not_not, hlexeme]
    constructor
    · intro hbreak
      refine ⟨?_, hbreak⟩
      by_contra hk
      exact hwell.not_mem hk rfl rfl hbreak
    · exact fun h => h.2
  · obtain rfl := List.mem_singleton.1 ht
    have hempty : withReturns "" = "" := rfl
    rw [Token.mapText_endOfFile hempty]
    exact iff_of_false (fun h => h rfl) (by rintro ⟨h, -⟩; cases h)

end Lox
