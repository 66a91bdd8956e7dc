import Lox.Proofs.Source.Places
import Mathlib.Data.List.ReduceOption

/-!
# Stepping

A scanner can be called item by item and left at any place to find all that is left at
once, which is the same as to step to the end (`finish_eq`).  A step cuts segments off
the front of the text until one gives an item (`exists_passes_next`).  What is left is
cut into the very segments that come next in the whole text, and this carries over to
any number of steps (`exists_passes_take`).

`exists_stepped` says that it does not matter where one stops.  The items in front of
that place and those behind it are all the items of the source, each of them at its
place, and at the end no more calls give any.
-/

namespace Lox

open Alphabet Segment

namespace Scanner

variable {s t u : Scanner} {gs hs : List Segment}

/-! ## Segments passed over -/

/-- The scanner `s` passes over the segments `gs` and comes to `t`. -/
structure Passes (s : Scanner) (gs : List Segment) (t : Scanner) : Prop where
  segments_eq : segments s.rest = gs ++ segments t.rest
  line_eq : t.line = lineAfter s.line gs

namespace Passes

theorem refl (s : Scanner) : s.Passes [] s := ⟨rfl, rfl⟩

theorem trans (h : s.Passes gs t) (h' : t.Passes hs u) : s.Passes (gs ++ hs) u := by
  constructor
  case segments_eq => rw [h.segments_eq, h'.segments_eq, List.append_assoc]
  case line_eq => rw [h'.line_eq, h.line_eq, lineAfter_append]

/-- The items of the segments passed over come before those that are left. -/
theorem items_finish (h : s.Passes gs t) :
    s.finish.items = items s.line gs ++ t.finish.items := by
  rw [finish, finish, h.segments_eq, items_append, h.line_eq]

theorem endLine_finish (h : s.Passes gs t) : t.finish.endLine = s.finish.endLine := by
  rw [finish, finish, h.segments_eq, lineAfter_append, h.line_eq]

/-- The text of the segments passed over is the text in front of the new place. -/
theorem rest_eq (h : s.Passes gs t) : s.rest = gs.flatMap text ++ t.rest := by
  rw [← flatMap_text_segments s.rest, h.segments_eq, List.flatMap_append, flatMap_text_segments]

end Passes

/-! ## Steps -/

theorem exists_passes_nextPast (line n : Nat) (cs : List Char) : ∃ gs,
    Passes ⟨cs.drop n, line⟩ gs (nextPast line n cs).2 ∧
      (nextPast line n cs).1.toList = items line gs ∧
      ((nextPast line n cs).1 = none → (nextPast line n cs).2.rest = []) := by
  induction cs generalizing line n with
  | nil =>
    rw [List.drop_nil]
    exact ⟨[], .refl _, rfl, fun _ => rfl⟩
  | cons c cs ih =>
    cases n with
    | succ n => exact ih line n
    | zero =>
      rw [nextPast]
      cases hitem : Located.item? ⟨line, front c cs⟩ with
      | some item =>
        refine ⟨[front c cs], ⟨segments_cons c cs, rfl⟩, ?_, nofun⟩
        rw [items_cons, hitem]
        rfl
      | none =>
        -- Nothing is found, so the step goes on behind the segment.
        obtain ⟨hs, hpasses, hitems, hend⟩ :=
          ih (line + (front c cs).lineBreaks) ((front c cs).text.length - 1)
        refine ⟨front c cs :: hs, ⟨?_, hpasses.line_eq⟩, ?_, hend⟩
        · rw [List.drop_zero, segments_cons, List.cons_append]
          exact congrArg _ hpasses.segments_eq
        · rw [items_cons, hitem]
          exact hitems

/-- A step passes over the segments up to the first one that gives an item.  If none
does, it passes over all of them. -/
theorem exists_passes_next (s : Scanner) : ∃ gs, s.Passes gs s.next.2 ∧
    s.next.1.toList = items s.line gs ∧ (s.next.1 = none → s.next.2.rest = []) :=
  exists_passes_nextPast s.line 0 s.rest

/-- To find all that is left is to step as long as there are items. -/
theorem finish_eq (s : Scanner) : s.finish =
    { items := s.next.1.toList ++ s.next.2.finish.items, endLine := s.next.2.finish.endLine } := by
  obtain ⟨gs, hpasses, hitems, -⟩ := exists_passes_next s
  rw [hitems, ← hpasses.items_finish, hpasses.endLine_finish]

theorem finish_of_rest_eq_nil (h : s.rest = []) : s.finish = { items := [], endLine := s.line } := by
  rw [finish, h]
  rfl

theorem next_of_rest_eq_nil (h : s.rest = []) : s.next = (none, s) := by
  obtain ⟨rest, line⟩ := s
  cases h
  rfl

/-- There is no next item exactly if no item is left. -/
theorem next_eq_none_iff : s.next.1 = none ↔ s.finish.items = [] := by
  obtain ⟨-, -, -, hend⟩ := exists_passes_next s
  rw [finish_eq]
  constructor
  · intro h
    rw [h, finish_of_rest_eq_nil (hend h)]
    rfl
  · intro h
    exact Option.toList_eq_nil_iff.1 (List.append_eq_nil_iff.1 h).1

/-! ## Many steps -/

/-- Steps pass over the segments that give their items, in order. -/
theorem exists_passes_take (n : Nat) (s : Scanner) : ∃ gs, s.Passes gs (take n s).2 ∧
    (take n s).1.reduceOption = items s.line gs ∧
    (none ∈ (take n s).1 → (take n s).2.rest = []) := by
  induction n generalizing s with
  | zero => exact ⟨[], .refl s, rfl, nofun⟩
  | succ n ih =>
    obtain ⟨gs, hnext, hitem, hend⟩ := exists_passes_next s
    obtain ⟨hs, htake, hitems, hends⟩ := ih s.next.2
    refine ⟨gs ++ hs, hnext.trans htake, ?_, fun h => ?_⟩
    · rw [items_append, ← hitem, ← hnext.line_eq, ← hitems, take_succ]
      cases s.next.1 with
      | none => rfl
      | some item => rfl
    · rcases List.mem_cons.1 h with hnone | hnone
      · have hrest : s.next.2.rest = [] := hend hnone.symm
        have hfalls := htake.rest_eq
        rw [hrest] at hfalls
        exact (List.append_eq_nil_iff.1 hfalls.symm).2
      · exact hends hnone

/-- At the end there is no item, however often one calls. -/
theorem take_of_rest_eq_nil (h : s.rest = []) (n : Nat) : take n s = (List.replicate n none, s) := by
  induction n with
  | zero => rfl
  | succ n ih => rw [take_succ, next_of_rest_eq_nil h, ih, List.replicate_succ]

/-- The items come one by one as long as there are any. -/
theorem take_eq (n : Nat) (s : Scanner) : (take n s).1 =
    (s.finish.items.take n).map some ++ List.replicate (n - s.finish.items.length) none := by
  induction n generalizing s with
  | zero => rw [Nat.zero_sub]; rfl
  | succ n ih =>
    obtain ⟨-, -, -, hend⟩ := exists_passes_next s
    cases hnext : s.next.1 with
    | none =>
      rw [take_succ, hnext, take_of_rest_eq_nil (hend hnext), next_eq_none_iff.1 hnext]
      rfl
    | some item =>
      have hitems : s.finish.items = item :: s.next.2.finish.items := by
        rw [finish_eq, hnext]
        rfl
      rw [take_succ, hnext, ih, hitems, List.take_succ_cons, List.map_cons, List.length_cons,
        Nat.add_sub_add_right, List.cons_append]

end Scanner

/-! ## Scans -/

/-- What a source gives if its scanner is called `k` times: first `taken`, and then what
the scanner `last` finds at once. -/
structure Stepped (source : String) (k : Nat) (taken : List (Option Item)) (last : Scanner) :
    Prop where
  /-- There are items at first, then none for ever. -/
  taken_eq : taken = ((scan source).items.take k).map some ++
    List.replicate (k - (scan source).items.length) none
  tokens : taken.reduceOption.filterMap Item.token? ++ last.finish.tokens = (scan source).tokens
  events : (taken.reduceOption.filterMap Item.error?).map Error.event ++
    last.finish.errors.map Error.event = (scan source).errors.map Error.event
  /-- The items taken are those of the places in front of the scanner, one by one and in
  order.  The others are those of the places behind it. -/
  places : ∃ before qs rs, source.toList = before ++ last.rest ∧ last.line = lineAt before ∧
    FallsInto [] source.toList (qs ++ rs) ∧ FallsInto before last.rest rs ∧
    (qs ++ rs).Pairwise (fun p q => p.before ++ p.segment.text <+: q.before) ∧
    List.Forall₂ (Place.Gives source.toList) (qs.filter Place.isFound) taken.reduceOption ∧
    List.Forall₂ (Place.Gives source.toList) (rs.filter Place.isFound) last.finish.items
  /-- After a call that gives none, there is the end mark only. -/
  ended : none ∈ taken → last.rest = [] ∧
    (∀ n, Scanner.take n last = (List.replicate n none, last)) ∧
    last.finish.tokens = [Token.endOfFile (scan source).endLine] ∧ last.finish.errors = []

/-- Where a scanner has passed over segments, its text falls into their places and those
of the text behind it. -/
theorem Scanner.Passes.exists_places {source : String} {gs : List Segment} {t : Scanner}
    (h : (Scanner.ofSource source).Passes gs t) : ∃ qs rs,
      FallsInto [] source.toList (qs ++ rs) ∧ FallsInto (gs.flatMap text) t.rest rs ∧
      qs.map Place.segment = gs ∧ rs.map Place.segment = segments t.rest := by
  obtain ⟨ps, hps, hsegments⟩ := (maximalMunch_segments source.toList).exists_fallsInto []
  obtain ⟨qs, rs, rfl, hqs, hrs⟩ := List.map_eq_append_iff.1 (hsegments.trans h.segments_eq)
  obtain ⟨after, hafter, hbehind⟩ := hps.exists_behind
  rw [hqs] at hafter hbehind
  obtain rfl := List.append_cancel_left (h.rest_eq.symm.trans hafter)
  exact ⟨qs, rs, hps, hbehind, hqs, hrs⟩

/-- A scanner may be called any number of times before all that is left is found at once.
The tokens and events are the same. -/
theorem exists_stepped (source : String) (k : Nat) :
    Stepped source k ((Scanner.ofSource source).take k).1 ((Scanner.ofSource source).take k).2 := by
  obtain ⟨gs, hpasses, hitems, hend⟩ := Scanner.exists_passes_take k (Scanner.ofSource source)
  have htaken := Scanner.take_eq k (Scanner.ofSource source)
  -- From here on, only what the steps have passed over matters.
  generalize (Scanner.ofSource source).take k = run at hpasses hitems hend htaken ⊢
  obtain ⟨taken, last⟩ := run
  have hall : (scan source).items = taken.reduceOption ++ last.finish.items := by
    rw [hitems]
    exact hpasses.items_finish
  have hline : last.finish.endLine = (scan source).endLine := hpasses.endLine_finish
  constructor
  case taken_eq => exact htaken
  case tokens =>
    rw [Scan.tokens, Scan.tokens, hall, hline, List.filterMap_append, List.append_assoc]
  case events => rw [Scan.errors, Scan.errors, hall, List.filterMap_append, List.map_append]
  case places =>
    obtain ⟨qs, rs, hplaces, hbehind, hqs, hrs⟩ := hpasses.exists_places
    have hsource : source.toList = gs.flatMap text ++ last.rest := hpasses.rest_eq
    have hlast : last.line = lineAt (gs.flatMap text) := hpasses.line_eq.trans (lineAfter_eq 1 gs)
    have hfront := hplaces.gives_of_append
    have hrest := hbehind.gives
    rw [hqs] at hfront
    rw [hrs, ← hlast, ← hsource] at hrest
    refine ⟨gs.flatMap text, qs, rs, hsource, hlast, hplaces, hbehind, hplaces.pairwise.2, ?_, hrest⟩
    rw [hitems]
    exact hfront
  case ended =>
    intro hnone
    have hrest := hend hnone
    have hfinish := Scanner.finish_of_rest_eq_nil hrest
    refine ⟨hrest, Scanner.take_of_rest_eq_nil hrest, ?_, ?_⟩
    · rw [Scan.tokens, hline, hfinish]
      rfl
    · rw [hfinish]
      rfl

/-- The third call passes over the line break and the comment at the end. -/
example : ((Scanner.ofSource "+ $\n// c\n").take 3).2.finish.tokens = [Token.endOfFile 3] := by
  decide

end Lox
