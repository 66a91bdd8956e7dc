import Lox.Proofs.Source.LongestMatch
import Lox.Source.Scanner

/-!
# Lexemes with spaces between them

A space ends every lexeme, so lexemes with spaces between them are scanned one by
one.  `scan_intercalate` says so of any tokens whose kind and value are those of
their lexeme (`Token.Lexical`), which all tokens of a scan are but the end mark
(`lexical_of_mem_tokens`).  The tokens that come back are the same but for their
lines.  A source written with spaces (`respaced`) is therefore as good as the source.
-/

namespace Lox

open Alphabet Segment

/-! ## Up to lines -/

/-- The token without its line. -/
def Token.eraseLine (t : Token) : Token := { t with line := 0 }

/-- The token of a segment, without its line. -/
def Segment.token? : Segment → Option Token
  | .lexeme kind text => some (Token.ofLexeme kind text 0)
  | _ => none

/-- Whether a segment is in error. -/
def Segment.isError : Segment → Bool
  | .unterminated _ | .stray _ => true
  | _ => false

theorem map_eraseLine_items (line : Nat) (gs : List Segment) :
    ((items line gs).filterMap Item.token?).map Token.eraseLine = gs.filterMap Segment.token? := by
  induction gs generalizing line with
  | nil => rfl
  | cons g gs ih =>
    rw [items_cons, List.filterMap_append, List.map_append, ih]
    cases g with
    | blank _ | comment _ | lexeme _ _ | unterminated _ | stray _ => rfl

theorem errors_items_eq_nil_iff {line : Nat} {gs : List Segment} :
    (items line gs).filterMap Item.error? = [] ↔ ∀ g ∈ gs, g.isError = false := by
  induction gs generalizing line with
  | nil => simp [items_nil]
  | cons g gs ih =>
    rw [items_cons, List.filterMap_append, List.append_eq_nil_iff, ih, List.forall_mem_cons]
    cases g with
    | blank _ | comment _ | lexeme _ _ | unterminated _ | stray _ =>
      simp [Located.item?, Item.error?, isError]

theorem map_eraseLine_tokens (source : String) :
    (scan source).tokens.map Token.eraseLine =
      (segments source.toList).filterMap Segment.token? ++ [Token.endOfFile 0] := by
  rw [Scan.tokens, List.map_append, List.map_singleton]
  exact congrArg (· ++ [Token.endOfFile 0]) (map_eraseLine_items 1 (segments source.toList))

theorem errors_eq_nil_iff {source : String} :
    (scan source).errors = [] ↔ ∀ g ∈ segments source.toList, g.isError = false :=
  errors_items_eq_nil_iff

/-! ## Lexemes by themselves -/

/-- A token that is what its lexeme is scanned as. -/
structure Token.Lexical (t : Token) : Prop where
  wellFormed : WellFormed (.lexeme t.kind t.lexeme.toList)
  literal : t.literal = t.kind.valueOf? t.lexeme.toList

theorem Token.Lexical.eraseLine {t : Token} (h : t.Lexical) :
    t.eraseLine = Token.ofLexeme t.kind t.lexeme.toList 0 := by
  rw [Token.eraseLine, Token.ofLexeme, ← h.literal, String.ofList_toList]

theorem Token.Lexical.of_wellFormed {k : Kind} {cs : List Char} (h : WellFormed (.lexeme k cs))
    (line : Nat) : (Token.ofLexeme k cs line).Lexical := by
  constructor
  · simpa [Token.ofLexeme] using h
  · simp [Token.ofLexeme]

theorem MaximalMunch.exists_isFront {gs : List Segment} {cs : List Char}
    (h : MaximalMunch gs cs) : ∀ g ∈ gs, ∃ ds, IsFront g ds := by
  induction h with
  | nil => nofun
  | cons hg _ ih => exact List.forall_mem_cons.2 ⟨⟨_, hg⟩, ih⟩

theorem wellFormed_of_mem_segments {k : Kind} {cs ds : List Char}
    (h : .lexeme k cs ∈ segments ds) : WellFormed (.lexeme k cs) := by
  obtain ⟨es, hfront⟩ := (maximalMunch_segments ds).exists_isFront _ h
  cases hfront with
  | longest hm _ => exact hm.wellFormed

theorem exists_lexeme_of_mem_items {line : Nat} {gs : List Segment} {t : Token}
    (h : t ∈ (items line gs).filterMap Item.token?) :
    ∃ k cs l, .lexeme k cs ∈ gs ∧ t = Token.ofLexeme k cs l := by
  induction gs generalizing line with
  | nil => cases h
  | cons g gs ih =>
    rw [items_cons, List.filterMap_append, List.mem_append] at h
    rcases h with h | h
    · cases g with
      | lexeme k cs =>
        obtain rfl := List.mem_singleton.1 h
        exact ⟨k, cs, line, List.mem_cons_self, rfl⟩
      | blank _ | comment _ | unterminated _ | stray _ => cases h
    · obtain ⟨k, cs, l, hmem, ht⟩ := ih h
      exact ⟨k, cs, l, List.mem_cons_of_mem _ hmem, ht⟩

/-- Every token of a scan is lexical but for the end mark. -/
theorem lexical_of_mem_tokens {source : String} {t : Token}
    (h : t ∈ (scan source).items.filterMap Item.token?) : t.Lexical := by
  obtain ⟨k, cs, l, hmem, rfl⟩ := exists_lexeme_of_mem_items h
  exact .of_wellFormed (wellFormed_of_mem_segments hmem) l

/-! ## Lexemes one after the other -/

/-- A well-formed segment is cut off where the next character cannot belong to it. -/
theorem segments_append {g : Segment} {rest : List Char} (hg : WellFormed g)
    (hr : ∀ r, rest.head? = some r → g.EndsBefore r) :
    segments (g.text ++ rest) = g :: segments rest := by
  obtain ⟨c, cs, hc⟩ := List.exists_cons_of_ne_nil hg.text_ne_nil
  rw [hc, List.cons_append, segments_cons, hg.front_append hc hr, hc]
  simp

theorem segments_text {g : Segment} (hg : WellFormed g) : segments g.text = [g] := by
  have h : segments (g.text ++ []) = g :: segments [] := segments_append hg nofun
  rwa [List.append_nil, segments_nil] at h

/-- A space after a lexeme and the text behind it are cut off from it. -/
theorem segments_space {k : Kind} {cs rest : List Char} (h : WellFormed (.lexeme k cs)) :
    segments (cs ++ [' '] ++ rest) = .lexeme k cs :: .blank ' ' :: segments rest := by
  have hblank : WellFormed (.blank ' ') := .blank rfl
  have hlexeme : segments (cs ++ ' ' :: rest) = .lexeme k cs :: segments (' ' :: rest) := by
    refine segments_append h fun r hr => ?_
    cases hr
    rfl
  have hspace : segments (' ' :: rest) = .blank ' ' :: segments rest :=
    segments_append hblank fun _ _ => trivial
  rw [List.append_assoc, List.singleton_append, hlexeme, hspace]

theorem segments_intercalate : ∀ {ts : List Token}, (∀ t ∈ ts, t.Lexical) →
    segments ([' '].intercalate (ts.map fun t => t.lexeme.toList)) =
      (ts.map fun t => Segment.lexeme t.kind t.lexeme.toList).intersperse (.blank ' ')
  | [], _ => rfl
  | [t], h => by
    rw [List.map_singleton, List.map_singleton, List.intercalate_singleton]
    exact segments_text (h t List.mem_cons_self).wellFormed
  | t :: u :: ts, h => by
    obtain ⟨ht, hts⟩ := List.forall_mem_cons.1 h
    have ih := segments_intercalate hts
    rw [List.map_cons] at ih
    rw [List.map_cons, List.map_cons, List.intercalate_cons_cons, segments_space ht.wellFormed, ih]
    rfl

theorem filterMap_token?_intersperse (c : Char) : ∀ gs : List Segment,
    (gs.intersperse (.blank c)).filterMap Segment.token? = gs.filterMap Segment.token?
  | [] => rfl
  | [_] => rfl
  | g :: h :: gs => by
    have ih := filterMap_token?_intersperse c (h :: gs)
    rw [List.filterMap_cons, ← ih]
    rfl

theorem isError_intersperse (c : Char) : ∀ {gs : List Segment}, (∀ g ∈ gs, g.isError = false) →
    ∀ g ∈ gs.intersperse (.blank c), g.isError = false
  | [], _ => nofun
  | [_], h => h
  | _ :: _ :: _, h => by
    obtain ⟨hg, hgs⟩ := List.forall_mem_cons.1 h
    have ih := isError_intersperse c hgs
    exact List.forall_mem_cons.2 ⟨hg, List.forall_mem_cons.2 ⟨rfl, ih⟩⟩

/-- Lexemes with spaces between them are scanned as the tokens they are taken from. -/
theorem scan_intercalate {ts : List Token} (h : ∀ t ∈ ts, t.Lexical) :
    (scan (" ".intercalate (ts.map Token.lexeme))).errors = [] ∧
      (scan (" ".intercalate (ts.map Token.lexeme))).tokens.map Token.eraseLine =
        ts.map Token.eraseLine ++ [Token.endOfFile 0] := by
  have hsegments : segments (" ".intercalate (ts.map Token.lexeme)).toList =
      (ts.map fun t => Segment.lexeme t.kind t.lexeme.toList).intersperse (.blank ' ') := by
    rw [String.toList_intercalate, List.map_map]
    exact segments_intercalate h
  rw [errors_eq_nil_iff, map_eraseLine_tokens, hsegments, filterMap_token?_intersperse]
  constructor
  · refine isError_intersperse ' ' fun g hg => ?_
    obtain ⟨t, -, rfl⟩ := List.mem_map.1 hg
    rfl
  · have herase : ts.map Token.eraseLine =
        ts.map fun t => Token.ofLexeme t.kind t.lexeme.toList 0 :=
      List.map_congr_left fun t ht => (h t ht).eraseLine
    rw [List.filterMap_map, herase]
    exact congrArg (· ++ [Token.endOfFile 0]) (congrFun List.filterMap_eq_map' ts)

/-! ## Sources written with spaces -/

/-- The lexemes of a source, but for the end mark, with spaces between them. -/
def respaced (source : String) : String :=
  " ".intercalate ((scan source).tokens.dropLast.map Token.lexeme)

theorem lexical_of_mem_scan {source : String} {t : Token} (h : t ∈ (scan source).tokens)
    (heof : t.isEndOfFile = false) : t.Lexical := by
  rcases List.mem_append.1 h with h | h
  · exact lexical_of_mem_tokens h
  · obtain rfl := List.mem_singleton.1 h
    cases heof

/-- A source written with spaces has no errors, and the tokens of the source but for
their lines. -/
theorem scan_respaced (source : String) :
    (scan (respaced source)).errors = [] ∧
      (scan (respaced source)).tokens.map Token.eraseLine =
        (scan source).tokens.map Token.eraseLine := by
  have htokens : (scan source).tokens.dropLast = (scan source).items.filterMap Item.token? :=
    List.dropLast_concat
  have hlexical : ∀ t ∈ (scan source).tokens.dropLast, t.Lexical :=
    fun t ht => lexical_of_mem_tokens (htokens ▸ ht)
  obtain ⟨herrors, hscan⟩ := scan_intercalate hlexical
  refine ⟨herrors, hscan.trans ?_⟩
  rw [htokens, Scan.tokens, List.map_append]
  rfl

/-- Only the tokens of a source count for how it is written with spaces. -/
theorem respaced_congr {a b : String}
    (h : (scan a).tokens.map Token.eraseLine = (scan b).tokens.map Token.eraseLine) :
    respaced a = respaced b := by
  have hlexemes : ∀ ts : List Token,
      ts.dropLast.map Token.lexeme = (ts.map Token.eraseLine).dropLast.map Token.lexeme := by
    intro ts
    rw [← List.map_dropLast, List.map_map]
    rfl
  rw [respaced, respaced, hlexemes, h, ← hlexemes]

/-- The lexemes of any tokens that sources have, with spaces between them, are scanned as
these tokens and without errors.  So a source may be written with spaces, and there is
one way only to do so. -/
theorem scan_lexemes :
    (∀ ts : List Token,
      (∀ t ∈ ts, t.isEndOfFile = false ∧ ∃ source, t ∈ (scan source).tokens) →
      (scan (" ".intercalate (ts.map Token.lexeme))).errors = [] ∧
        (scan (" ".intercalate (ts.map Token.lexeme))).tokens.map Token.eraseLine =
          ts.map Token.eraseLine ++ [Token.endOfFile 0]) ∧
    ∀ source, (scan (respaced source)).errors = [] ∧
      (scan (respaced source)).tokens.map Token.eraseLine =
        (scan source).tokens.map Token.eraseLine ∧
      respaced (respaced source) = respaced source := by
  constructor
  · intro ts hts
    refine scan_intercalate fun t ht => ?_
    obtain ⟨heof, source, hsource⟩ := hts t ht
    exact lexical_of_mem_scan hsource heof
  · intro source
    obtain ⟨herrors, htokens⟩ := scan_respaced source
    exact ⟨herrors, htokens, respaced_congr htokens⟩

/-- A number, a dot, two slashes and a string, each of them from a source of its own. -/
def pieces : List Token :=
  [⟨.number, "1.5", some "1.5", 1⟩, ⟨.dot, ".", none, 2⟩, ⟨.slash, "/", none, 1⟩,
    ⟨.slash, "/", none, 1⟩, ⟨.string, "\"//\n\"", some "//\n", 1⟩]

theorem scan_lexemes_pieces :
    (∀ t ∈ pieces, t.isEndOfFile = false ∧ ∃ source, t ∈ (scan source).tokens) ∧
    ((scan (" ".intercalate (pieces.map Token.lexeme))).errors = [] ∧
      (scan (" ".intercalate (pieces.map Token.lexeme))).tokens.map Token.eraseLine =
        pieces.map Token.eraseLine ++ [Token.endOfFile 0]) ∧
    ((scan (respaced "a.b//\n#1..2")).errors = [] ∧
      (scan (respaced "a.b//\n#1..2")).tokens.map Token.eraseLine =
        (scan "a.b//\n#1..2").tokens.map Token.eraseLine ∧
      respaced (respaced "a.b//\n#1..2") = respaced "a.b//\n#1..2") := by
  have h : ∀ t ∈ pieces, t.isEndOfFile = false ∧ ∃ source, t ∈ (scan source).tokens := by
    simp only [pieces, List.forall_mem_cons]
    exact ⟨⟨rfl, "1.5.x", by decide⟩, ⟨rfl, "x\n.y", by decide⟩, ⟨rfl, "/ /", by decide⟩,
      ⟨rfl, "/ /", by decide⟩, ⟨rfl, "\"//\n\"#", by decide⟩, nofun⟩
  exact ⟨h, scan_lexemes.1 pieces h, scan_lexemes.2 "a.b//\n#1..2"⟩

end Lox
