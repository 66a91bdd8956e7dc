import Lox.Session.Prompt

/-!
# The lines of a text and those of its bytes

`IsLines` says what the lines of a sequence are, without cutting it.  A sequence has one
list of lines, and that is what `linesOf` cuts it into (`isLines_iff`).

The byte of a line feed is part of no other character.  So the bytes of a text have the
bytes of its lines for lines (`isLines_toUtf8`), and it makes no difference whether lines
are read before they are decoded or after.
-/

namespace Lox.Text

/-! ## What lines are -/

/-- `IsLines separator as lines` says that `lines` are the lines of `as`. -/
inductive IsLines {α : Type} (separator : α) : List α → List (List α) → Prop
  | nil : IsLines separator [] []
  /-- The last line can do without a separator, unless it is empty. -/
  | last {line : List α} : line ≠ [] → separator ∉ line → IsLines separator line [line]
  | cons {front rest : List α} {lines : List (List α)} : separator ∉ front →
      IsLines separator rest lines →
      IsLines separator (front ++ separator :: rest) ((front ++ [separator]) :: lines)

section Lines

variable {α β : Type} {separator : α} {as : List α} {ls : List (List α)}

/-- A separator is at the end of a line, if anywhere. -/
theorem IsLines.exists_front (h : IsLines separator as ls) : ∀ line ∈ ls,
    ∃ front, separator ∉ front ∧ (line = front ++ [separator] ∨ line = front) := by
  induction h with
  | nil => nofun
  | last _ hline => simpa using ⟨_, hline, Or.inr rfl⟩
  | @cons front rest ls hfront _ ih =>
    intro line hline
    rcases List.mem_cons.1 hline with rfl | hline
    · exact ⟨front, hfront, Or.inl rfl⟩
    · exact ih line hline

/-- A line is one line. -/
theorem IsLines.of_mem (h : IsLines separator as ls) :
    ∀ line ∈ ls, IsLines separator line [line] := by
  induction h with
  | nil => nofun
  | last hne hline => simpa using .last hne hline
  | cons hfront _ ih =>
    intro line hline
    rcases List.mem_cons.1 hline with rfl | hline
    · exact .cons hfront .nil
    · exact ih line hline

/-- No line is empty. -/
theorem IsLines.ne_nil (h : IsLines separator as ls) : ∀ line ∈ ls, line ≠ [] := by
  induction h with
  | nil => nofun
  | last hne _ => simpa using hne
  | cons _ _ ih =>
    exact List.forall_mem_cons.2 ⟨List.append_ne_nil_of_right_ne_nil _ (List.cons_ne_nil _ _), ih⟩

/-- Lines are kept where the elements are encoded one by one, if the separator `s` of
what they are encoded by stands for that of the sequence. -/
theorem IsLines.flatMap {f : α → List β} {s : β} (hs : f separator = [s])
    (hf : ∀ a, a ≠ separator → f a ≠ [] ∧ s ∉ f a) (h : IsLines separator as ls) :
    IsLines s (as.flatMap f) (ls.map (List.flatMap f)) := by
  have hnot : ∀ {front : List α}, separator ∉ front → s ∉ front.flatMap f := by
    intro front hfront hmem
    obtain ⟨a, ha, hsa⟩ := List.mem_flatMap.1 hmem
    exact (hf a fun hsep => hfront (hsep ▸ ha)).2 hsa
  induction h with
  | nil => exact .nil
  | @last line hne hline =>
    refine .last (fun hnil => ?_) (hnot hline)
    obtain ⟨a, as, rfl⟩ := List.exists_cons_of_ne_nil hne
    exact (hf a (List.ne_of_not_mem_cons hline).symm).1 (List.append_eq_nil_iff.1 hnil).1
  | @cons front rest ls hfront _ ih =>
    rw [List.flatMap_append, List.flatMap_cons, hs, List.map_cons, List.flatMap_append,
      List.flatMap_singleton, hs]
    exact .cons (hnot hfront) ih

variable [DecidableEq α]

theorem linesOf_append_separator (hfront : separator ∉ as) (rest : List α) :
    linesOf separator (as ++ separator :: rest) = (as ++ [separator]) :: linesOf separator rest := by
  induction as with
  | nil => rw [List.nil_append, linesOf, if_pos rfl, List.nil_append]
  | cons a as ih =>
    rw [List.cons_append, linesOf, if_neg (List.ne_of_not_mem_cons hfront).symm,
      ih (List.not_mem_of_not_mem_cons hfront), List.cons_append]

theorem linesOf_of_not_mem (hne : as ≠ []) (h : separator ∉ as) : linesOf separator as = [as] := by
  induction as with
  | nil => exact absurd rfl hne
  | cons a as ih =>
    rw [linesOf, if_neg (List.ne_of_not_mem_cons h).symm]
    cases as with
    | nil => rfl
    | cons b bs => rw [ih (List.cons_ne_nil b bs) (List.not_mem_of_not_mem_cons h)]

theorem isLines_linesOf (separator : α) (as : List α) :
    IsLines separator as (linesOf separator as) := by
  induction as with
  | nil => exact .nil
  | cons a as ih =>
    rw [linesOf]
    split
    · next ha =>
      subst ha
      exact .cons List.not_mem_nil ih
    · next ha =>
      generalize linesOf separator as = ls at ih
      cases ih with
      | nil => exact .last (List.cons_ne_nil a []) (by simpa using Ne.symm ha)
      | last _ hline =>
        exact .last (List.cons_ne_nil a as)
          (List.not_mem_cons_of_ne_of_not_mem (Ne.symm ha) hline)
      | @cons front rest ls hfront hrest =>
        have hfront' : separator ∉ a :: front :=
          List.not_mem_cons_of_ne_of_not_mem (Ne.symm ha) hfront
        exact .cons hfront' hrest

/-- A sequence has one list of lines. -/
theorem isLines_iff : IsLines separator as ls ↔ linesOf separator as = ls := by
  constructor
  · intro h
    induction h with
    | nil => rfl
    | last hne hline => exact linesOf_of_not_mem hne hline
    | cons hfront _ ih => rw [linesOf_append_separator hfront, ih]
  · intro h
    rw [← h]
    exact isLines_linesOf separator as

end Lines

/-! ## What is dropped at the end -/

section DropEnd

variable {α : Type} {p : α → Bool}

theorem mem_of_mem_dropEndWhile {a : α} {as : List α} (h : a ∈ dropEndWhile p as) : a ∈ as :=
  List.mem_reverse.1 ((List.dropWhile_sublist p).mem (List.mem_reverse.1 h))

theorem dropEndWhile_concat {a : α} (ha : p a = true) (as : List α) :
    dropEndWhile p (as ++ [a]) = dropEndWhile p as := by
  simp [dropEndWhile, ha]

end DropEnd

/-! ## Bytes -/

theorem toUtf8_eq (s : String) : toUtf8 s = s.toList.flatMap String.utf8EncodeChar := by
  rw [toUtf8, String.toUTF8_eq_toByteArray, ← String.utf8Encode_toList]
  simp [List.utf8Encode]

theorem toUtf8_of_ofUtf8? {bytes : List UInt8} {text : String}
    (h : ofUtf8? bytes = some text) : toUtf8 text = bytes := by
  rw [ofUtf8?, String.fromUTF8?, Option.dite_none_right_eq_some] at h
  obtain ⟨hvalid, h⟩ := h
  obtain rfl := Option.some.inj h
  show bytes.toByteArray.data.toList = bytes
  simp

theorem lineFeed_ne_ofNat {n : Nat} (hn : 128 ≤ n) (hlt : n < 256) :
    lineFeed ≠ UInt8.ofNat n := by
  intro h
  have hnat := congrArg UInt8.toNat h
  rw [UInt8.toNat_ofNat', Nat.mod_eq_of_lt hlt] at hnat
  have hten : lineFeed.toNat = 10 := rfl
  omega

/-- The byte of a line feed is part of no other character. -/
theorem lineFeed_not_mem {c : Char} (hc : c ≠ '\n') : lineFeed ∉ String.utf8EncodeChar c := by
  intro h
  unfold String.utf8EncodeChar at h
  extract_lets v at h
  split at h
  · next hv =>
    have hbyte := congrArg UInt8.toNat (List.mem_singleton.1 h)
    rw [UInt8.toNat_ofNat', Nat.mod_eq_of_lt (by omega)] at hbyte
    exact hc (Char.ext (UInt32.toNat_inj.1 hbyte.symm))
  -- Where there are more bytes than one, all of them are past the ASCII codes.
  repeat' split at h
  all_goals
    simp (disch := omega) only [List.mem_cons, List.not_mem_nil, lineFeed_ne_ofNat, or_self] at h

/-- `IsTextLines text lines` says that `lines` are the lines of a text. -/
def IsTextLines (text : String) (lines : List String) : Prop :=
  IsLines '\n' text.toList (lines.map String.toList)

section TextLines

variable {text : String} {lines : List String}

theorem exists_isTextLines (text : String) : ∃ lines, IsTextLines text lines := by
  refine ⟨(linesOf '\n' text.toList).map String.ofList, ?_⟩
  rw [IsTextLines, List.map_map]
  have hid : String.toList ∘ String.ofList = id := funext fun _ => String.toList_ofList
  rw [hid, List.map_id]
  exact isLines_linesOf '\n' text.toList

/-- The lines of the bytes of a text are the bytes of its lines. -/
theorem isLines_toUtf8 (h : IsTextLines text lines) :
    IsLines lineFeed (toUtf8 text) (lines.map toUtf8) := by
  have hfeed : String.utf8EncodeChar '\n' = [lineFeed] := by decide
  have hbytes := IsLines.flatMap hfeed
    (fun c hc => ⟨String.utf8EncodeChar_ne_nil, lineFeed_not_mem hc⟩) h
  rw [List.map_map] at hbytes
  have hline : toUtf8 = List.flatMap String.utf8EncodeChar ∘ String.toList := funext toUtf8_eq
  rw [hline]
  exact hbytes

/-- Bytes that are a line encode a line. -/
theorem isTextLines_of_ofUtf8? {line : List UInt8} (h : IsLines lineFeed line [line])
    (htext : ofUtf8? line = some text) : IsTextLines text [text] := by
  obtain ⟨lines, hlines⟩ := exists_isTextLines text
  have hbytes := isLines_iff.1 (isLines_toUtf8 hlines)
  rw [toUtf8_of_ofUtf8? htext, isLines_iff.1 h] at hbytes
  obtain ⟨text', rfl, htext'⟩ := List.map_eq_singleton_iff.1 hbytes.symm
  have hsame : some text' = some text := by rw [← ofUtf8?_toUtf8 text', htext', htext]
  rw [← Option.some.inj hsame] at hlines ⊢
  exact hlines

end TextLines

end Lox.Text
