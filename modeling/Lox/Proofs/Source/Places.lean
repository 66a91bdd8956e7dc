import Lox.Proofs.Source.Separation
import Lox.Proofs.Source.Transcription
import Mathlib.Data.List.Forall2

/-!
# Places

A *place* of a source is one of its segments together with the text in front of it.
`FallsInto` says which places a source has, in the order of the source and without
the scanner.

The scanner counts lines as it goes.  The line of a place can be told from the source
alone, by the line breaks in front of it.  `FallsInto.gives` says that the two are the
same: the items of a scan are given by the places that are not blank and no comments,
one by one and in order, each on the line of its place.
-/

namespace Lox

open Alphabet Segment

/-- A segment of a source and the text in front of it. -/
structure Place where
  /-- The text in front of the segment. -/
  before : List Char
  /-- The segment. -/
  segment : Segment

/-- `FallsInto before cs ps` says that the text `cs`, behind the text `before`, falls
into the segments at the places `ps`, each of them as long as it can be. -/
inductive FallsInto : List Char → List Char → List Place → Prop
  | nil {before : List Char} : FallsInto before [] []
  | cons {before cs : List Char} {g : Segment} {ps : List Place} : IsFront g (g.text ++ cs) →
      FallsInto (before ++ g.text) cs ps → FallsInto before (g.text ++ cs) (⟨before, g⟩ :: ps)

/-- Whether a segment is a lexeme. -/
def Segment.isLexeme : Segment → Bool
  | .lexeme _ _ => true
  | _ => false

namespace Place

/-- Whether a token starts at a place. -/
def isToken (p : Place) : Bool := p.segment.isLexeme

/-- Whether a place is in error. -/
def isFault (p : Place) : Bool := p.segment.isError

/-- Whether a place gives a token or an error. -/
def isFound (p : Place) : Bool := p.isToken || p.isFault

theorem isFound_of_isToken (p : Place) (h : p.isToken = true) : p.isFound = true := by
  rw [isFound, h, Bool.true_or]

theorem isFound_of_isFault (p : Place) (h : p.isFault = true) : p.isFound = true := by
  rw [isFound, h, Bool.or_true]

/-- The token that starts at a place.  It carries the line of its first character. -/
structure Starts (p : Place) (t : Token) : Prop where
  segment : p.segment = .lexeme t.kind t.lexeme.toList
  line : t.line = lineAt p.before

/-- The error of a place of the source `cs`.  A stray character is reported on its
own line, a string that never ends on the last line of the source. -/
inductive Faults (cs : List Char) : Place → Error → Prop
  | stray {before : List Char} {c : Char} :
      Faults cs ⟨before, .stray c⟩
        (.lexical (lineAt before) ("Unexpected character: " ++ String.ofList [c]))
  | unterminated {before text : List Char} :
      Faults cs ⟨before, .unterminated text⟩ (.lexical (lineAt cs) "Unterminated string.")

/-- The token or the error that a place of the source `cs` gives. -/
def Gives (cs : List Char) (p : Place) : Item → Prop
  | .ok t => p.Starts t
  | .error e => p.Faults cs e

theorem starts_ofLexeme (before : List Char) (k : Kind) (text : List Char) :
    Starts ⟨before, .lexeme k text⟩ (Token.ofLexeme k text (lineAt before)) := by
  constructor
  case segment => simp [Token.ofLexeme]
  case line => rfl

end Place

/-! ## The places of a source -/

/-- What a string that never ends takes is all of the text. -/
theorem Segment.IsFront.eq_of_unterminated {text cs : List Char}
    (h : IsFront (.unterminated text) cs) : text = cs := by
  cases h with
  | longest hm _ => cases hm.wellFormed
  | unterminated _ => rfl

theorem MaximalMunch.exists_fallsInto {gs : List Segment} {cs : List Char}
    (h : MaximalMunch gs cs) (before : List Char) :
    ∃ ps, FallsInto before cs ps ∧ ps.map Place.segment = gs := by
  induction h generalizing before with
  | nil => exact ⟨[], .nil, rfl⟩
  | @cons g gs cs hg _ ih =>
    obtain ⟨ps, hps, hsegments⟩ := ih (before ++ g.text)
    exact ⟨⟨before, g⟩ :: ps, .cons hg hps, by rw [List.map_cons, hsegments]⟩

namespace FallsInto

variable {before cs : List Char} {ps : List Place}

/-- Each place is behind the text in front of it. -/
theorem exists_after (h : FallsInto before cs ps) :
    ∀ p ∈ ps, ∃ after, before ++ cs = p.before ++ (p.segment.text ++ after) := by
  induction h with
  | nil => nofun
  | @cons before cs g ps _ _ ih =>
    refine List.forall_mem_cons.2 ⟨⟨cs, rfl⟩, ?_⟩
    rwa [List.append_assoc] at ih

/-- The places come one behind the other. -/
theorem pairwise (h : FallsInto before cs ps) :
    (∀ p ∈ ps, before <+: p.before) ∧
      ps.Pairwise fun p q => p.before ++ p.segment.text <+: q.before := by
  induction h with
  | nil => exact ⟨nofun, .nil⟩
  | @cons before cs g ps _ _ ih =>
    obtain ⟨hbehind, hpairwise⟩ := ih
    refine ⟨List.forall_mem_cons.2 ⟨List.prefix_refl _, fun p hp => ?_⟩, .cons hbehind hpairwise⟩
    exact (List.prefix_append before g.text).trans (hbehind p hp)

/-- The items of segments are given by their places, whatever comes behind them. -/
theorem gives_of_append {qs rs : List Place} (h : FallsInto before cs (qs ++ rs)) :
    List.Forall₂ (Place.Gives (before ++ cs)) (qs.filter Place.isFound)
      (items (lineAt before) (qs.map Place.segment)) := by
  induction qs generalizing before cs with
  | nil => exact .nil
  | cons q qs ih =>
    cases h with
    | @cons _ cs g _ hg hrest =>
      have hgives := ih hrest
      rw [lineAt_append, List.append_assoc] at hgives
      rw [List.map_cons, items_cons]
      cases g with
      | blank c => exact hgives
      | comment text => exact hgives
      | lexeme k text => exact .cons (Place.starts_ofLexeme before k text) hgives
      | stray c => exact .cons .stray hgives
      | unterminated text =>
        -- Nothing comes behind it, so it ends where the source does.
        obtain rfl : cs = [] := List.self_eq_append_right.1 hg.eq_of_unterminated
        have hline := lineAt_append before (.unterminated text)
        refine .cons ?_ hgives
        rw [Located.endLine, ← hline, Segment.text, List.append_nil]
        exact .unterminated

theorem gives (h : FallsInto before cs ps) :
    List.Forall₂ (Place.Gives (before ++ cs)) (ps.filter Place.isFound)
      (items (lineAt before) (ps.map Place.segment)) := by
  have hall : FallsInto before cs (ps ++ []) := by rwa [List.append_nil]
  exact hall.gives_of_append

/-- What is behind some of the places falls into the others. -/
theorem exists_behind {qs rs : List Place} (h : FallsInto before cs (qs ++ rs)) :
    ∃ after, cs = (qs.map Place.segment).flatMap text ++ after ∧
      FallsInto (before ++ (qs.map Place.segment).flatMap text) after rs := by
  induction qs generalizing before cs with
  | nil => exact ⟨cs, rfl, by rwa [List.map_nil, List.flatMap_nil, List.append_nil]⟩
  | cons q qs ih =>
    cases h with
    | @cons _ cs g _ _ hrest =>
      obtain ⟨after, rfl, hafter⟩ := ih hrest
      rw [List.append_assoc] at hafter
      exact ⟨after, (List.append_assoc _ _ _).symm, hafter⟩

end FallsInto

/-! ## Tokens and errors apart -/

section Forall₂

variable {cs : List Char} {ps : List Place} {is : List Item}

theorem forall₂_starts (h : List.Forall₂ (Place.Gives cs) ps is) :
    List.Forall₂ Place.Starts (ps.filter Place.isToken) (is.filterMap Item.token?) := by
  induction h with
  | nil => exact .nil
  | @cons p i ps is hp _ ih =>
    cases i with
    | ok t =>
      have htoken : p.isToken = true := by
        rw [Place.isToken, hp.segment]
        rfl
      rw [List.filter_cons_of_pos htoken]
      exact .cons hp ih
    | error e =>
      cases hp with
      | stray | unterminated => exact ih

theorem forall₂_faults (h : List.Forall₂ (Place.Gives cs) ps is) :
    List.Forall₂ (Place.Faults cs) (ps.filter Place.isFault) (is.filterMap Item.error?) := by
  induction h with
  | nil => exact .nil
  | @cons p i ps is hp _ ih =>
    cases i with
    | ok t =>
      have hfault : ¬ p.isFault = true := by
        rw [Place.isFault, hp.segment]
        exact Bool.false_ne_true
      rw [List.filter_cons_of_neg hfault]
      exact ih
    | error e =>
      cases hp with
      | stray => exact .cons .stray ih
      | unterminated => exact .cons .unterminated ih

end Forall₂

/-- Of elements that are kept, one keeps what one would keep of all. -/
theorem filter_filter_of_imp {α : Type} {p q : α → Bool} (h : ∀ a, q a = true → p a = true)
    (as : List α) : (as.filter p).filter q = as.filter q := by
  rw [List.filter_filter]
  refine List.filter_congr fun a _ => ?_
  cases hq : q a with
  | false => rfl
  | true => rw [h a hq, Bool.and_self]

/-! ## Scans -/

/-- A source has places, and they give the items of its scan. -/
theorem exists_places (source : String) :
    ∃ ps, FallsInto [] source.toList ps ∧
      List.Forall₂ (Place.Gives source.toList) (ps.filter Place.isFound) (scan source).items := by
  obtain ⟨ps, hps, hsegments⟩ := (maximalMunch_segments source.toList).exists_fallsInto []
  have hgives := hps.gives
  rw [hsegments] at hgives
  exact ⟨ps, hps, hgives⟩

/-- A source ends on the line that its line breaks count. -/
theorem endLine_scan (source : String) : (scan source).endLine = lineAt source.toList := by
  show lineAfter 1 (segments source.toList) = _
  rw [lineAfter_eq, flatMap_text_segments, lineAt]

end Lox
