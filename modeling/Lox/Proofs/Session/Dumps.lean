import Lox.Proofs.RoundTrip
import Lox.Proofs.Session.Runs
import Lox.Proofs.Text.Boundary
import Lox.Proofs.Text.Lines

/-!
# Dumps that can be read back

Sources that are dumped alike have the same tokens (`Session.dump_identifies`).  This is
so for sources without errors and without line breaks in their strings, since a string
with a line break can look like the rows of other tokens.

A row tells its fields one by one.  The line is what follows the padding, and the kind
ends at the next space.  What is shown of the token has no line break, so it ends where
the row does.  It is the lexeme, but for the quotes of a string, and the lexeme tells the
value.
-/

namespace Lox

open Alphabet

/-! ## Rows -/

/-- A token that its row tells. -/
structure Token.Tabular (t : Token) : Prop where
  literal : t.literal = t.kind.valueOf? t.lexeme.toList
  lexeme : t.lexeme = if t.kind = .string then "\"" ++ t.display ++ "\"" else t.display
  not_mem : lineBreak ∉ t.display.toList

namespace Token

variable {t u : Token} {rest rest' : List Char}

/-- A row without its line end. -/
def fields (t : Token) : List Char :=
  (toString t.line).toList.leftpad 4 ' ' ++ ' ' :: (t.kind.name.toList ++ ' ' :: t.display.toList)

theorem toList_row (t : Token) : t.row.toList = t.fields ++ [lineBreak] := by
  simp [row, fields, lineBreak]

namespace Tabular

/-- A row is one line. -/
theorem not_mem_fields (h : t.Tabular) : lineBreak ∉ t.fields := by
  have hpadded : lineBreak ∉ (toString t.line).toList.leftpad 4 ' ' := by
    rw [List.leftpad, List.mem_append]
    rintro (hmem | hmem)
    · exact absurd (List.eq_of_mem_replicate hmem) (by decide)
    · exact absurd (Text.isDigit_of_mem_toString hmem) (by decide)
  have hkind : lineBreak ∉ t.kind.name.toList := Kind.not_mem_name rfl t.kind
  have hspace : lineBreak ≠ ' ' := by decide
  rw [fields, List.mem_append, List.mem_cons, List.mem_append, List.mem_cons]
  rintro (hmem | hmem | hmem | hmem | hmem)
  · exact hpadded hmem
  · exact hspace hmem
  · exact hkind hmem
  · exact hspace hmem
  · exact h.not_mem hmem

theorem eq_of_display_eq (ht : t.Tabular) (hu : u.Tabular) (hline : t.line = u.line)
    (hkind : t.kind = u.kind) (hdisplay : t.display = u.display) : t = u := by
  have hlexeme : t.lexeme = u.lexeme := by rw [ht.lexeme, hu.lexeme, hkind, hdisplay]
  have hliteral : t.literal = u.literal := by rw [ht.literal, hu.literal, hkind, hlexeme]
  calc t = ⟨t.kind, t.lexeme, t.literal, t.line⟩ := rfl
    _ = ⟨u.kind, u.lexeme, u.literal, u.line⟩ := by rw [hkind, hlexeme, hliteral, hline]

/-- A row tells the token and where it ends. -/
theorem row_append_inj (ht : t.Tabular) (hu : u.Tabular)
    (h : t.row.toList ++ rest = u.row.toList ++ rest') : t = u ∧ rest = rest' := by
  simp only [toList_row, fields, List.append_assoc, List.cons_append, List.nil_append] at h
  obtain ⟨hline, h⟩ := Text.leftpad_append_inj rfl h
  obtain ⟨hname, h⟩ := Text.append_cons_inj (Kind.not_mem_name rfl _) (Kind.not_mem_name rfl _) h
  obtain ⟨hdisplay, h⟩ := Text.append_cons_inj ht.not_mem hu.not_mem h
  have hkind : t.kind = u.kind := Kind.name_injective (String.toList_inj.1 hname)
  exact ⟨ht.eq_of_display_eq hu hline hkind (String.toList_inj.1 hdisplay), h⟩

end Tabular

/-! ## Tokens of a source -/

/-- The end mark is no lexeme. -/
theorem Lexical.not_endOfFile (h : t.Lexical) : t.isEndOfFile = false := by
  rw [isEndOfFile, beq_eq_false_iff_ne]
  intro hk
  have hwell := h.wellFormed
  rw [hk] at hwell
  rcases hwell.string_or_number rfl (by decide) with ⟨hkind, -⟩ | ⟨hkind, -⟩
  · cases hkind
  · cases hkind

/-- What is shown of a token is its lexeme, but for a string. -/
theorem Lexical.display_eq (h : t.Lexical) (hk : t.kind ≠ .string) : t.display = t.lexeme := by
  have hvalue : t.value = t.lexeme := by
    rw [value, h.literal]
    unfold Kind.valueOf?
    split
    · next hs => exact absurd hs hk
    · exact String.ofList_toList
    · exact String.ofList_toList
    · rfl
  rw [display, hvalue, ite_self]

/-- A string stands without its quotes. -/
theorem Lexical.lexeme_eq_of_string (h : t.Lexical) (hk : t.kind = .string) :
    t.lexeme = "\"" ++ t.display ++ "\"" := by
  have hdisplay : t.display = t.value := by
    rw [display, hk]
    rfl
  rw [hdisplay]
  exact h.lexeme_of_string hk

theorem Lexical.tabular (h : t.Lexical) (hstring : t.kind = .string → lineBreak ∉ t.lexeme.toList) :
    t.Tabular := by
  by_cases hk : t.kind = .string
  · have hlexeme := h.lexeme_eq_of_string hk
    refine ⟨h.literal, hlexeme.trans (if_pos hk).symm, fun hmem => hstring hk ?_⟩
    rw [hlexeme, String.toList_append, String.toList_append]
    exact List.mem_append_left _ (List.mem_append_right _ hmem)
  · have hdisplay := h.display_eq hk
    refine ⟨h.literal, hdisplay.symm.trans (if_neg hk).symm, ?_⟩
    rw [hdisplay]
    exact h.wellFormed.not_mem hk rfl rfl

theorem tabular_endOfFile (line : Nat) : (endOfFile line).Tabular where
  literal := rfl
  lexeme := rfl
  not_mem := List.not_mem_nil

end Token

/-- A source without errors and without line breaks in its strings. -/
structure Dumpable (source : String) : Prop where
  errors_eq : (scan source).errors = []
  not_mem : ∀ t ∈ (scan source).tokens, t.kind = .string → lineBreak ∉ t.lexeme.toList

theorem Dumpable.tabular {source : String} (h : Dumpable source) :
    ∀ t ∈ (scan source).tokens, t.Tabular := by
  intro t ht
  rcases List.mem_append.1 ht with hitem | hend
  · exact (lexical_of_mem_tokens hitem).tabular (h.not_mem t ht)
  · obtain rfl := List.mem_singleton.1 hend
    exact Token.tabular_endOfFile _

/-! ## Dumps -/

theorem toList_tokenDump (ts : List Token) :
    (tokenDump ts).toList = ts.flatMap fun t => t.row.toList := by
  rw [tokenDump, String.toList_join, List.flatMap_map]

theorem isLines_tokenDump : ∀ {ts : List Token}, (∀ t ∈ ts, t.Tabular) →
    Text.IsLines lineBreak (tokenDump ts).toList (ts.map fun t => t.row.toList)
  | [], _ => .nil
  | t :: ts, h => by
    obtain ⟨ht, hts⟩ := List.forall_mem_cons.1 h
    have hrest := isLines_tokenDump hts
    rw [toList_tokenDump] at hrest ⊢
    rw [List.flatMap_cons, List.map_cons, Token.toList_row, List.append_assoc, List.singleton_append]
    exact .cons ht.not_mem_fields hrest

namespace Session

theorem out_run_dump {source : String} (h : (scan source).errors = []) :
    (Session.run { dumpTokens := true } source).1.out = tokenDump (scan source).tokens := by
  have hclean : (Session.mk true {}).Clean source := ⟨rfl, h⟩
  simp only [run, hclean.2, report_nil]
  rfl

/-- Sources without errors and without line breaks in their strings have the same tokens
if they are dumped alike.  The dump has one line for each token, and the last one is that
of the end mark. -/
theorem dump_identifies :
    (∀ source source', Dumpable source → Dumpable source' →
      (Session.run { dumpTokens := true } source).1.out =
        (Session.run { dumpTokens := true } source').1.out →
      (scan source).tokens = (scan source').tokens) ∧
    ∀ source, Dumpable source → ∃ ts line,
      (scan source).tokens = ts ++ [Token.endOfFile line] ∧
      (∀ t ∈ ts, t.isEndOfFile = false) ∧
      Text.IsLines lineBreak (Session.run { dumpTokens := true } source).1.out.toList
        (ts.map (fun t => t.row.toList) ++ [(Token.endOfFile line).row.toList]) := by
  constructor
  · intro source source' h h' hout
    rw [out_run_dump h.errors_eq, out_run_dump h'.errors_eq] at hout
    have htext := congrArg String.toList hout
    rw [toList_tokenDump, toList_tokenDump] at htext
    refine Text.flatMap_inj (fun t => ?_) Token.Tabular.row_append_inj h.tabular h'.tabular htext
    simp [Token.toList_row]
  · intro source h
    have hlines := isLines_tokenDump h.tabular
    rw [Scan.tokens, List.map_append] at hlines
    refine ⟨_, _, rfl, fun t ht => (lexical_of_mem_tokens ht).not_endOfFile, ?_⟩
    rw [out_run_dump h.errors_eq]
    exact hlines

/-- A string that looks like a field and a name, with a comment and without. -/
theorem dump_identifies_commented :
    Dumpable "a = \"1 Dot .\" // b" ∧ Dumpable "a=\"1 Dot .\"" ∧
    (Session.run { dumpTokens := true } "a = \"1 Dot .\" // b").1.out =
      (Session.run { dumpTokens := true } "a=\"1 Dot .\"").1.out ∧
    (scan "a = \"1 Dot .\" // b").tokens = (scan "a=\"1 Dot .\"").tokens ∧
    ∃ ts line,
      (scan "a=\"1 Dot .\"").tokens = ts ++ [Token.endOfFile line] ∧
      (∀ t ∈ ts, t.isEndOfFile = false) ∧
      Text.IsLines lineBreak (Session.run { dumpTokens := true } "a=\"1 Dot .\"").1.out.toList
        (ts.map (fun t => t.row.toList) ++ [(Token.endOfFile line).row.toList]) := by
  have h : Dumpable "a = \"1 Dot .\" // b" := ⟨by decide, by decide⟩
  have h' : Dumpable "a=\"1 Dot .\"" := ⟨by decide, by decide⟩
  have hout : (Session.run { dumpTokens := true } "a = \"1 Dot .\" // b").1.out =
      (Session.run { dumpTokens := true } "a=\"1 Dot .\"").1.out := by decide +kernel
  exact ⟨h, h', hout, dump_identifies.1 _ _ h h' hout, dump_identifies.2 _ h'⟩

/-- A string with a line break can look like two tokens. -/
example : (Session.run { dumpTokens := true } "\"x\n   1 Number 1\"").1 =
    (Session.run { dumpTokens := true } "\"x\" 1\n").1 := by decide +kernel

end Session

end Lox
