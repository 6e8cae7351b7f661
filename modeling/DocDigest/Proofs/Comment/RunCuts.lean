import DocDigest.Proofs.Comment.RunSearch
import DocDigest.Proofs.Comment.SourceCuts

/-!
# Searching for runs by cutting the source

The search for a run may be made line by line, by cutting the source where each line begins and
ends. It begins at the first line that starts at an offset or behind it, and goes on until a line
that is none of the run, or to the end of the source. No cut falls inside a character, and the
search finds what the one over characters finds (`LineRun.searchByCuts_eq`).

A round takes one line off the lines that are ahead (`LineRun.runByCuts_line`). The argument goes by
induction on these lines, first for a run that is being read (`LineRun.runByCuts_some`) and then for
one that is still to be found (`LineRun.runByCuts_none`).
-/

set_option autoImplicit false

namespace DocDigest

namespace LineRun

open Text (below joinWith)

/-- The offset of the first line that begins at an offset or behind it. If the source cannot be cut
at the offset, there is none. -/
def lineStart? (source : Text) (o : Nat) : Option Nat :=
  if o = 0 then some 0
  else
    (source.upTo? o).bind fun before =>
      if before.getLast? = some '\n' then some o
      else (source.from? o).bind fun ahead => (Text.offsetOf? ['\n'] ahead).map (o + · + 1)

/-- The run that was read so far with one more line, which stands at an offset. A line that is no
doc line adds nothing. -/
def extend (run : Option Span) (offset : Nat) (line : Text) : Option Span :=
  if isDocLine line then
    some ⟨run.elim (offset + indent line) Span.start, offset + line.byteLength⟩
  else run

theorem extend_of_docLine {line : Text} (h : isDocLine line = true) (run : Option Span)
    (offset : Nat) : extend run offset line
      = some ⟨run.elim (offset + indent line) Span.start, offset + line.byteLength⟩ := by
  rw [extend, if_pos h]

/-- Reads lines from an offset on, given the run that was read so far. It is taken for granted that
the source can be cut where a line begins and where it ends; if it cannot, the search fails with the
offset. -/
def runByCuts (source : Text) (offset : Nat) (run : Option Span) : Except Nat (Option Span) :=
  match _ : source.from? offset with
  | none => .error offset
  | some ahead =>
    let length := (Text.offsetOf? ['\n'] ahead).getD ahead.byteLength
    match _ : ahead.upTo? length with
    | none => .error (offset + length)
    | some line =>
      if !isDocLine line && run.isSome then .ok run
      else if offset + length = source.byteLength then .ok (extend run offset line)
      else runByCuts source (offset + length + 1) (extend run offset line)
termination_by source.byteLength - offset
decreasing_by
  have hsource := Text.byteLength_of_from? ‹source.from? offset = some ahead›
  have hlength := Text.le_of_upTo? ‹ahead.upTo? length = some line›
  omega

/-- The search for a run from a byte offset on, made by cutting the source. -/
def searchByCuts (source : Text) (o : Nat) : Except Nat (Option Span) :=
  match lineStart? source o with
  | none => .ok none
  | some start => runByCuts source start none

/-! ## One line -/

/-- How long the line is that a text begins with. -/
theorem offsetOf?_lineFeed {l : Text} (hfeed : '\n' ∉ l) (ls : List Text) :
    Text.offsetOf? ['\n'] (l ++ below ls) = if ls = [] then none else some l.byteLength := by
  by_cases hls : ls = []
  · rw [if_pos hls, hls, Text.below_nil, List.append_nil]
    exact (Text.absent_of_not_mem [] hfeed).offsetOf?_eq_none (List.cons_ne_nil _ _)
  · rw [if_neg hls, Text.below_eq_cons hls]
    exact (Text.absent_of_not_mem _ hfeed).offsetOf?_eq

/-- A text that begins with a line is cut where the line ends. -/
theorem length_first_line {l : Text} (hfeed : '\n' ∉ l) (ls : List Text) :
    (Text.offsetOf? ['\n'] (l ++ below ls)).getD (l ++ below ls).byteLength = l.byteLength := by
  rw [offsetOf?_lineFeed hfeed]
  by_cases hls : ls = []
  · rw [if_pos hls, hls, Text.below_nil, List.append_nil, Option.getD_none]
  · rw [if_neg hls, Option.getD_some]

/-- A line that ends where the source ends is the last one. -/
theorem ends_source_iff (before l : Text) (ls : List Text) :
    before.byteLength + l.byteLength = (before ++ (l ++ below ls)).byteLength ↔ ls = [] := by
  rw [Text.byteLength_append, Text.byteLength_append]
  constructor
  · intro h
    refine Classical.byContradiction fun hls => ?_
    have hpos : 0 < (below ls).byteLength :=
      Text.byteLength_pos (by rw [Text.below_eq_cons hls]; exact List.cons_ne_nil _ _)
    omega
  · rintro rfl
    rw [Text.below_nil, Text.byteLength, Nat.add_zero]

/-- What is done with a line: the search ends, or the line is taken and the next one is read. -/
theorem runByCuts_line (before : Text) {l : Text} (hfeed : '\n' ∉ l) (ls : List Text)
    (run : Option Span) :
    runByCuts (before ++ (l ++ below ls)) before.byteLength run =
      if !isDocLine l && run.isSome then .ok run
      else if ls = [] then .ok (extend run before.byteLength l)
      else runByCuts (before ++ (l ++ below ls)) (before.byteLength + l.byteLength + 1)
        (extend run before.byteLength l) := by
  rw [runByCuts]
  split
  · next hahead =>
    rw [Text.from?_append] at hahead
    cases hahead
  · next ahead hahead =>
    rw [Text.from?_append] at hahead
    cases hahead
    simp only [length_first_line hfeed, ends_source_iff]
    split
    · next hline =>
      rw [length_first_line hfeed, Text.upTo?_append] at hline
      cases hline
    · next line hline =>
      rw [length_first_line hfeed, Text.upTo?_append] at hline
      cases hline
      rfl

/-! ## All lines ahead -/

/-- The next line begins behind the line feed. -/
theorem append_below_cons (before l m : Text) (ls : List Text) :
    before ++ (l ++ below (m :: ls)) = before ++ l ++ ['\n'] ++ (m ++ below ls) := by
  simp [below]

theorem length_append_lineFeed (before l : Text) :
    before.byteLength + l.byteLength + 1 = (before ++ l ++ ['\n']).byteLength := by
  rw [Text.byteLength_append, Text.byteLength_append]
  rfl

/-- Behind a line of a run, the search goes on to the end of the run. -/
theorem runByCuts_some (before : Text) {ls : List Text} (hfeed : ∀ l ∈ ls, '\n' ∉ l) (start : Nat) :
    (if ls = [] then .ok (some ⟨start, before.byteLength⟩)
      else runByCuts (before ++ below ls) (before.byteLength + 1)
        (some ⟨start, before.byteLength⟩))
      = .ok (some ⟨start, stop before.byteLength (below ls)⟩) := by
  induction ls generalizing before with
  | nil =>
      rfl
  | cons l ls ih =>
      obtain ⟨hl, hls⟩ := List.forall_mem_cons.mp hfeed
      have hcons : below (l :: ls) = '\n' :: (l ++ below ls) := rfl
      have hlength : before.byteLength + 1 = (before ++ ['\n']).byteLength := by
        rw [Text.byteLength_append]
        rfl
      rw [if_neg (List.cons_ne_nil l ls), hcons, List.append_cons, hlength,
        runByCuts_line (before ++ ['\n']) hl]
      cases hdoc : isDocLine l with
      | false =>
          have hends : Ends ('\n' :: (l ++ below ls)) :=
            Or.inr ⟨_, rfl, by rw [isDocLine_append_below, hdoc]⟩
          rw [stop_of_ends hends]
          rfl
      | true =>
          have hrun : Unbroken ('\n' :: l) (below ls) :=
            unbroken_cons.mpr ⟨fun _ => isDocLine_append_right hdoc _, unbroken_of_not_mem hl _⟩
          have htaken : before ++ ['\n'] ++ l = before ++ '\n' :: l := (List.append_cons _ _ _).symm
          rw [extend_of_docLine hdoc, ← List.append_assoc, ← Text.byteLength_append, htaken,
            ← List.cons_append, stop_append hrun, ← Text.byteLength_append]
          exact ih (before ++ '\n' :: l) hls

/-- A doc line begins a run. -/
theorem runByCuts_docLine (before : Text) {l : Text} {ls : List Text}
    (hfeed : ∀ m ∈ l :: ls, '\n' ∉ m) (hdoc : isDocLine l = true) :
    runByCuts (before ++ (l ++ below ls)) before.byteLength none
      = .ok (first? before.byteLength true (l ++ below ls)) := by
  obtain ⟨hl, hls⟩ := List.forall_mem_cons.mp hfeed
  rw [runByCuts_line before hl, extend_of_docLine hdoc, ← List.append_assoc,
    ← Text.byteLength_append, first?_docLine (isDocLine_append_right hdoc _),
    indent_append_right hdoc, stop_append (unbroken_of_not_mem hl _), ← Text.byteLength_append]
  rw [hdoc]
  exact runByCuts_some (before ++ l) hls _

/-- A line that is no doc line is passed over. -/
theorem runByCuts_passed_line (before : Text) {l : Text} (hl : '\n' ∉ l)
    (hdoc : isDocLine l = false) (ls : List Text) :
    runByCuts (before ++ (l ++ below ls)) before.byteLength none =
      if ls = [] then .ok none
      else runByCuts (before ++ (l ++ below ls)) (before.byteLength + l.byteLength + 1) none := by
  have hextend : extend none before.byteLength l = none := by
    rw [extend, hdoc]
    rfl
  rw [runByCuts_line before hl, hextend]
  rw [Option.isSome_none, Bool.and_false, if_neg Bool.false_ne_true]

/-- From the beginning of a line, the search finds the first run. -/
theorem runByCuts_none (before : Text) {l : Text} {ls : List Text}
    (hfeed : ∀ m ∈ l :: ls, '\n' ∉ m) :
    runByCuts (before ++ (l ++ below ls)) before.byteLength none
      = .ok (first? before.byteLength true (l ++ below ls)) := by
  induction ls generalizing before l with
  | nil =>
      cases hdoc : isDocLine l with
      | true =>
          exact runByCuts_docLine before hfeed hdoc
      | false =>
          have hl := hfeed l List.mem_cons_self
          rw [runByCuts_passed_line before hl hdoc, first?_passed_line hl hdoc]
          rfl
  | cons m ls ih =>
      cases hdoc : isDocLine l with
      | true =>
          exact runByCuts_docLine before hfeed hdoc
      | false =>
          obtain ⟨hl, hls⟩ := List.forall_mem_cons.mp hfeed
          rw [runByCuts_passed_line before hl hdoc, if_neg (List.cons_ne_nil m ls),
            first?_passed_line hl hdoc, Text.joinWith_cons, append_below_cons,
            length_append_lineFeed]
          exact ih _ hls

/-! ## The search -/

theorem lineStart?_at_beginning {before : Text} (h : Cursor.lineBegins true before = true)
    (rest : Text) : lineStart? (before ++ rest) before.byteLength = some before.byteLength := by
  by_cases hzero : before.byteLength = 0
  · rw [lineStart?, if_pos hzero, hzero]
  · have hlast : before.getLast? = some '\n' := by
      rcases Cursor.lineBegins_iff.mp h with rfl | hlast
      · exact absurd rfl hzero
      · exact hlast
    rw [lineStart?, if_neg hzero, Text.upTo?_append, Option.bind_some, if_pos hlast]

/-- Inside a line, the next line begins behind the end of this one. -/
theorem lineStart?_inside {before l : Text} (h : Cursor.lineBegins true before = false)
    (hfeed : '\n' ∉ l) (ls : List Text) :
    lineStart? (before ++ (l ++ below ls)) before.byteLength
      = if ls = [] then none else some (before.byteLength + l.byteLength + 1) := by
  have hnot : ¬ (before = [] ∨ before.getLast? = some '\n') := by
    rw [← Cursor.lineBegins_iff, h]
    exact Bool.false_ne_true
  have hzero : ¬ before.byteLength = 0 := fun hzero =>
    hnot (Or.inl (Text.eq_nil_of_byteLength_eq_zero hzero))
  rw [lineStart?, if_neg hzero, Text.upTo?_append, Option.bind_some,
    if_neg fun hlast => hnot (Or.inr hlast), Text.from?_append, Option.bind_some,
    offsetOf?_lineFeed hfeed]
  split <;> rfl

theorem nextFrom_line_inside {before l : Text} (h : Cursor.lineBegins true before = false)
    (hfeed : '\n' ∉ l) (ls : List Text) :
    Shape.line.nextFrom (Cursor.between before (l ++ below ls))
      = first? (before.byteLength + l.byteLength + 1) true (joinWith ['\n'] ls) := by
  show first? before.byteLength (Cursor.lineBegins true before) (l ++ below ls) = _
  rw [h, first?_append (noDocLine_inside hfeed _), first?_below]

/-- No cut fails, and the search with cuts finds what the other one finds. -/
theorem searchByCuts_eq (source : Text) (o : Nat) :
    searchByCuts source o = .ok (Shape.line.nextAt source o) := by
  by_cases ho : source.IsBoundary o
  · obtain ⟨before, t, rfl, rfl⟩ := ho
    obtain ⟨l, ls, hsplit⟩ := List.exists_cons_of_ne_nil (Text.splitOn_ne_nil '\n' t)
    have hfeed : ∀ m ∈ l :: ls, '\n' ∉ m := by
      rw [← hsplit]
      exact fun m hm => Text.not_mem_of_mem_splitOn hm
    have ht : t = l ++ below ls := by
      rw [← Text.joinWith_cons, ← hsplit, Text.joinWith_splitOn]
    rw [Shape.nextAt_between, ht, searchByCuts]
    cases hbegin : Cursor.lineBegins true before with
    | true =>
        rw [lineStart?_at_beginning hbegin, Shape.nextFrom_line_of_lineBegins hbegin]
        exact runByCuts_none before hfeed
    | false =>
        obtain ⟨hl, hls⟩ := List.forall_mem_cons.mp hfeed
        rw [lineStart?_inside hbegin hl, nextFrom_line_inside hbegin hl]
        cases ls with
        | nil =>
            rfl
        | cons m ls =>
            rw [if_neg (List.cons_ne_nil m ls), append_below_cons, length_append_lineFeed,
              Text.joinWith_cons]
            exact runByCuts_none _ hls
  · have hzero : ¬ o = 0 := by
      rintro rfl
      exact ho (Text.isBoundary_append [] source)
    rw [Shape.nextAt_eq_none ho, searchByCuts, lineStart?, if_neg hzero, Text.upTo?_eq_none ho]
    rfl

end LineRun

end DocDigest
