import DocDigest.Proofs.Comment.Place
import DocDigest.Proofs.Text.Lines

/-!
# What the search for a run finds

The search gives the first doc line among the lines that begin where it looks, and the end of the
run from there (`first?_eq_some_iff`); it gives nothing exactly if none of these lines is a doc line
(`first?_eq_none_iff`). A run ends at the end of the text or at a line feed that no doc line follows
(`exists_run`).
-/

set_option autoImplicit false

namespace DocDigest

namespace LineRun

open Cursor (lineBegins)

/-! ## Doc lines -/

/-- Indentation does not matter for a doc line. -/
theorem isDocLine_append {ind : Text} (h : ∀ c ∈ ind, isInlineBlank c = true) (t : Text) :
    isDocLine (ind ++ t) = isDocLine t := by
  rw [isDocLine, isDocLine, List.dropWhile_append_of_pos h]

theorem isDocLine_nil : isDocLine [] = false := by decide

theorem isDocLine_lineFeed (t : Text) : isDocLine ('\n' :: t) = false := by
  have hdrop : ('\n' :: t).dropWhile isInlineBlank = '\n' :: t :=
    List.dropWhile_cons_of_neg (by decide)
  rw [isDocLine, hdrop]
  rfl

theorem isDocLine_mark {gap : Text} (h : ∀ c ∈ gap, isInlineBlank c = true) (t : Text) :
    isDocLine ('/' :: '/' :: (gap ++ '*' :: t)) = true := by
  have hslash : ('/' :: '/' :: (gap ++ '*' :: t)).dropWhile isInlineBlank
      = '/' :: '/' :: (gap ++ '*' :: t) := List.dropWhile_cons_of_neg (by decide)
  have hstar : ('*' :: t).dropWhile isInlineBlank = '*' :: t :=
    List.dropWhile_cons_of_neg (by decide)
  rw [isDocLine, hslash]
  simp [List.dropWhile_append_of_pos h, hstar]

/-- The form of a doc line. -/
theorem isDocLine_iff {t : Text} :
    isDocLine t = true ↔
      ∃ ind gap rest, t = ind ++ '/' :: '/' :: (gap ++ '*' :: rest) ∧
        (∀ c ∈ ind, isInlineBlank c = true) ∧ (∀ c ∈ gap, isInlineBlank c = true) := by
  constructor
  · intro h
    rw [isDocLine] at h
    split at h
    · next after hafter =>
      obtain ⟨rest, hrest⟩ : ∃ rest, after.dropWhile isInlineBlank = '*' :: rest := by
        rw [beq_iff_eq, List.head?_eq_some_iff] at h
        exact h
      -- The definition drops two stretches of white space: these are the two gaps.
      refine ⟨t.takeWhile isInlineBlank, after.takeWhile isInlineBlank, rest, ?_, ?_, ?_⟩
      · rw [← hrest, List.takeWhile_append_dropWhile, ← hafter, List.takeWhile_append_dropWhile]
      · exact List.all_eq_true.mp List.all_takeWhile
      · exact List.all_eq_true.mp List.all_takeWhile
    · exact absurd h Bool.false_ne_true
  · rintro ⟨ind, gap, rest, rfl, hind, hgap⟩
    rw [isDocLine_append hind, isDocLine_mark hgap]

theorem isDocLine_append_right {line : Text} (h : isDocLine line = true) (t : Text) :
    isDocLine (line ++ t) = true := by
  obtain ⟨ind, gap, rest, rfl, hind, hgap⟩ := isDocLine_iff.mp h
  exact isDocLine_iff.mpr ⟨ind, gap, rest ++ t, by simp, hind, hgap⟩

/-- What stands behind a line feed does not matter for a doc line. -/
theorem isDocLine_append_lineFeed (line t : Text) :
    isDocLine (line ++ '\n' :: t) = isDocLine line := by
  rw [Bool.eq_iff_iff]
  refine ⟨fun h => ?_, fun h => isDocLine_append_right h _⟩
  obtain ⟨ind, gap, rest, heq, hind, hgap⟩ := isDocLine_iff.mp h
  -- The mark of a doc line holds no line feed, so it stands in the line.
  have hfeed : '\n' ∉ ind ++ '/' :: '/' :: (gap ++ ['*']) := by
    have hno : ∀ {u : Text}, (∀ c ∈ u, isInlineBlank c = true) → '\n' ∉ u :=
      fun hu hmem => absurd (hu _ hmem) (by decide)
    simp [hno hind, hno hgap]
  have hcut : line ++ '\n' :: t = (ind ++ '/' :: '/' :: (gap ++ ['*'])) ++ rest := by
    simpa using heq
  rcases List.append_eq_append_iff.mp hcut with ⟨mid, hmark, hrest⟩ | ⟨mid, hline, -⟩
  · cases mid with
    | nil =>
        exact isDocLine_iff.mpr ⟨ind, gap, [], by simpa using hmark.symm, hind, hgap⟩
    | cons c cs =>
        obtain ⟨rfl, -⟩ := List.cons_eq_cons.mp hrest
        exact absurd (by simp [hmark]) hfeed
  · exact isDocLine_iff.mpr ⟨ind, gap, mid, by simpa using hline, hind, hgap⟩

theorem isDocLine_append_below (line : Text) (ls : List Text) :
    isDocLine (line ++ Text.below ls) = isDocLine line := by
  cases ls with
  | nil =>
      rw [Text.below_nil, List.append_nil]
  | cons l ls =>
      exact isDocLine_append_lineFeed line _

theorem indent_append {ind : Text} (h : ∀ c ∈ ind, isInlineBlank c = true) {c : Char}
    (hc : isInlineBlank c = false) (t : Text) : indent (ind ++ c :: t) = ind.byteLength := by
  have hstop : (c :: t).takeWhile isInlineBlank = [] :=
    List.takeWhile_cons_of_neg (by rw [hc]; exact Bool.false_ne_true)
  rw [indent, List.takeWhile_append_of_pos h, hstop, List.append_nil]

theorem indent_append_right {line : Text} (h : isDocLine line = true) (t : Text) :
    indent (line ++ t) = indent line := by
  obtain ⟨ind, gap, rest, rfl, hind, -⟩ := isDocLine_iff.mp h
  rw [List.append_assoc, List.cons_append, indent_append hind (by decide),
    indent_append hind (by decide)]

/-! ## The end of a run -/

/-- Every line feed in a text, which `rest` follows, has a doc line behind it. -/
def Unbroken (run rest : Text) : Prop :=
  ∀ a b, run = a ++ '\n' :: b → isDocLine (b ++ rest) = true

/-- A run ends before a text if the text is empty or begins with a line feed that no doc line
follows. -/
def Ends (rest : Text) : Prop :=
  rest = [] ∨ ∃ after, rest = '\n' :: after ∧ isDocLine after = false

theorem ends_below {ls : List Text} (h : ∀ l, ls.head? = some l → isDocLine l = false) :
    Ends (Text.below ls) := by
  cases ls with
  | nil =>
      exact Or.inl rfl
  | cons l ls =>
      refine Or.inr ⟨l ++ Text.below ls, rfl, ?_⟩
      rw [isDocLine_append_below]
      exact h l rfl

theorem unbroken_nil (rest : Text) : Unbroken [] rest := by
  intro a b h
  exact absurd h (by simp)

theorem unbroken_cons {c : Char} {run rest : Text} :
    Unbroken (c :: run) rest ↔ (c = '\n' → isDocLine (run ++ rest) = true) ∧ Unbroken run rest := by
  constructor
  · intro h
    refine ⟨?_, ?_⟩
    · rintro rfl
      exact h [] run rfl
    · intro a b hab
      exact h (c :: a) b (by rw [hab, List.cons_append])
  · rintro ⟨hc, h⟩ a b hab
    rcases List.cons_eq_append_iff.mp hab with ⟨rfl, heq⟩ | ⟨a, rfl, rfl⟩
    · obtain ⟨rfl, rfl⟩ := List.cons_eq_cons.mp heq
      exact hc rfl
    · exact h a b rfl

theorem unbroken_of_not_mem {run : Text} (h : '\n' ∉ run) (rest : Text) : Unbroken run rest := by
  rintro a b rfl
  exact absurd (by simp) h

theorem unbroken_append {a b rest : Text} :
    Unbroken (a ++ b) rest ↔ Unbroken a (b ++ rest) ∧ Unbroken b rest := by
  induction a with
  | nil =>
      simp [unbroken_nil]
  | cons c cs ih =>
      rw [List.cons_append, unbroken_cons, unbroken_cons, ih, and_assoc, List.append_assoc]

/-- Doc lines below a run go on with it. -/
theorem unbroken_below {ls : List Text} (hfeed : ∀ l ∈ ls, '\n' ∉ l)
    (hdoc : ∀ l ∈ ls, isDocLine l = true) (rest : Text) : Unbroken (Text.below ls) rest := by
  induction ls with
  | nil =>
      exact unbroken_nil rest
  | cons l ls ih =>
      rw [Text.below_cons]
      refine unbroken_cons.mpr ⟨fun _ => ?_, unbroken_append.mpr ⟨?_, ?_⟩⟩
      · rw [List.append_assoc]
        exact isDocLine_append_right (hdoc l List.mem_cons_self) _
      · exact unbroken_of_not_mem (hfeed l List.mem_cons_self) _
      · exact ih (fun m hm => hfeed m (List.mem_cons_of_mem l hm))
          fun m hm => hdoc m (List.mem_cons_of_mem l hm)

theorem stop_append {run rest : Text} (h : Unbroken run rest) (offset : Nat) :
    stop offset (run ++ rest) = stop (offset + run.byteLength) rest := by
  induction run generalizing offset with
  | nil =>
      rfl
  | cons c cs ih =>
      obtain ⟨hc, hcs⟩ := unbroken_cons.mp h
      -- A line feed in the run has a doc line behind it and does not end the run.
      have hgo : ¬ (c = '\n' && !isDocLine (cs ++ rest)) = true := by
        by_cases hlf : c = '\n'
        · simp [hc hlf]
        · simp [hlf]
      rw [List.cons_append, stop, if_neg hgo, ih hcs, Text.byteLength, Nat.add_assoc]

theorem stop_of_ends {rest : Text} (h : Ends rest) (offset : Nat) : stop offset rest = offset := by
  rcases h with rfl | ⟨after, rfl, hafter⟩
  · rfl
  · simp [stop, hafter]

/-- The stretch that a run covers from the middle of one of its lines. -/
theorem exists_unbroken (t : Text) :
    ∃ run rest, t = run ++ rest ∧ Unbroken run rest ∧ Ends rest := by
  induction t with
  | nil =>
      exact ⟨[], [], rfl, unbroken_nil [], Or.inl rfl⟩
  | cons c cs ih =>
      by_cases hend : c = '\n' ∧ isDocLine cs = false
      · obtain ⟨rfl, hcs⟩ := hend
        exact ⟨[], '\n' :: cs, rfl, unbroken_nil _, Or.inr ⟨cs, rfl, hcs⟩⟩
      · obtain ⟨run, rest, rfl, hrun, hrest⟩ := ih
        refine ⟨c :: run, rest, rfl, unbroken_cons.mpr ⟨?_, hrun⟩, hrest⟩
        intro hc
        simpa [hc] using hend

theorem unbroken_mark {ind run rest : Text} (hind : ∀ c ∈ ind, isInlineBlank c = true)
    (hrun : Unbroken run rest) : Unbroken (ind ++ '/' :: '/' :: run) rest := by
  refine unbroken_append.mpr ⟨unbroken_of_not_mem (fun hmem => ?_) _, ?_⟩
  · exact absurd (hind _ hmem) (by decide)
  · refine unbroken_cons.mpr ⟨fun hc => absurd hc (by decide), ?_⟩
    exact unbroken_cons.mpr ⟨fun hc => absurd hc (by decide), hrun⟩

theorem stop_mark {ind run rest : Text} (hind : ∀ c ∈ ind, isInlineBlank c = true)
    (hrun : Unbroken run rest) (hends : Ends rest) (offset : Nat) :
    stop offset (ind ++ ('/' :: '/' :: run ++ rest))
      = offset + (ind ++ '/' :: '/' :: run).byteLength := by
  rw [← List.append_assoc, stop_append (unbroken_mark hind hrun), stop_of_ends hends]

/-- The run that begins with a doc line: its indentation, the run from the slashes on, and what is
behind the run. -/
theorem exists_run {line : Text} (h : isDocLine line = true) :
    ∃ ind run rest, line = ind ++ ('/' :: '/' :: run ++ rest) ∧
      (∀ c ∈ ind, isInlineBlank c = true) ∧ Unbroken run rest ∧ Ends rest ∧
      indent line = ind.byteLength ∧
      ∀ offset, stop offset line = offset + (ind ++ '/' :: '/' :: run).byteLength := by
  obtain ⟨ind, gap, after, rfl, hind, -⟩ := isDocLine_iff.mp h
  obtain ⟨run, rest, hrun, hunbroken, hends⟩ := exists_unbroken (gap ++ '*' :: after)
  refine ⟨ind, run, rest, by rw [hrun]; rfl, hind, hunbroken, hends, ?_, fun offset => ?_⟩
  · exact indent_append hind (by decide) _
  · rw [hrun]
    exact stop_mark hind hunbroken hends offset

/-! ## The first run -/

/-- No doc line begins in `gap`, which `rest` follows, given whether a line begins before `gap`. -/
def NoDocLine (fresh : Bool) (gap rest : Text) : Prop :=
  ∀ g m, gap = g ++ m → m ≠ [] → lineBegins fresh g = true → isDocLine (m ++ rest) = false

theorem noDocLine_nil (fresh : Bool) (rest : Text) : NoDocLine fresh [] rest := by
  intro g m h hm
  exact absurd (List.append_eq_nil_iff.mp h.symm).2 hm

theorem noDocLine_cons {fresh : Bool} {c : Char} {gap rest : Text} :
    NoDocLine fresh (c :: gap) rest ↔
      (fresh = true → isDocLine (c :: (gap ++ rest)) = false) ∧
        NoDocLine (c == '\n') gap rest := by
  constructor
  · intro h
    refine ⟨h [] (c :: gap) rfl (List.cons_ne_nil c gap), ?_⟩
    intro g m hg hm hfresh
    refine h (c :: g) m (by rw [hg, List.cons_append]) hm ?_
    rw [Cursor.lineBegins_cons, hfresh]
  · rintro ⟨hc, h⟩ g m hg hm hfresh
    rcases List.cons_eq_append_iff.mp hg with ⟨rfl, rfl⟩ | ⟨g, rfl, rfl⟩
    · exact hc hfresh
    · exact h g m rfl hm (by rwa [Cursor.lineBegins_cons] at hfresh)

theorem noDocLine_lineFeed (fresh : Bool) (rest : Text) : NoDocLine fresh ['\n'] rest :=
  noDocLine_cons.mpr ⟨fun _ => isDocLine_lineFeed _, noDocLine_nil _ rest⟩

theorem noDocLine_of_blank {ind rest : Text} (hind : ∀ c ∈ ind, isInlineBlank c = true)
    (h : isDocLine rest = false) (fresh : Bool) : NoDocLine fresh ind rest := by
  rintro g m rfl - -
  rwa [isDocLine_append fun c hc => hind c (List.mem_append_right g hc)]

/-- No doc line begins in a line that is none itself. -/
theorem noDocLine_of_not_mem {line rest : Text} (hfeed : '\n' ∉ line)
    (h : isDocLine (line ++ rest) = false) : NoDocLine true line rest := by
  rintro g m rfl - hbegin
  -- A line begins at the front of a line and nowhere inside.
  rcases Cursor.eq_nil_or_eq_append_lineFeed hbegin with rfl | ⟨init, rfl⟩
  · exact h
  · exact absurd (by simp) hfeed

/-- No line begins inside a line. -/
theorem noDocLine_inside {line : Text} (hfeed : '\n' ∉ line) (rest : Text) :
    NoDocLine false line rest := by
  rintro g m rfl - hbegin
  rcases Cursor.eq_nil_or_eq_append_lineFeed hbegin with rfl | ⟨init, rfl⟩
  · exact absurd hbegin Bool.false_ne_true
  · exact absurd (by simp) hfeed

theorem first?_docLine {line : Text} (h : isDocLine line = true) (offset : Nat) :
    first? offset true line = some ⟨offset + indent line, stop offset line⟩ := by
  cases line with
  | nil =>
      exact absurd h (by rw [isDocLine_nil]; exact Bool.false_ne_true)
  | cons c cs =>
      rw [first?, h]
      rfl

/-- The search finds a run that begins with the next line. -/
theorem first?_run {ind run rest : Text} (hind : ∀ c ∈ ind, isInlineBlank c = true)
    (hdoc : isDocLine ('/' :: '/' :: run ++ rest) = true) (hrun : Unbroken run rest)
    (hends : Ends rest) (offset : Nat) :
    first? offset true (ind ++ ('/' :: '/' :: run ++ rest))
      = some ⟨offset + ind.byteLength, offset + (ind ++ '/' :: '/' :: run).byteLength⟩ := by
  rw [← isDocLine_append hind] at hdoc
  rw [first?_docLine hdoc, stop_mark hind hrun hends]
  exact congrArg (fun start => some (Span.mk (offset + start) _)) (indent_append hind (by decide) _)

theorem first?_append {fresh : Bool} {gap rest : Text} (h : NoDocLine fresh gap rest)
    (offset : Nat) :
    first? offset fresh (gap ++ rest)
      = first? (offset + gap.byteLength) (lineBegins fresh gap) rest := by
  induction gap generalizing offset fresh with
  | nil =>
      rfl
  | cons c cs ih =>
      obtain ⟨hc, hcs⟩ := noDocLine_cons.mp h
      have hgo : ¬ (fresh && isDocLine (c :: (cs ++ rest))) = true := by
        cases fresh with
        | false =>
            exact Bool.false_ne_true
        | true =>
            rw [hc rfl]
            exact Bool.false_ne_true
      rw [List.cons_append, first?, if_neg hgo, ih hcs, Text.byteLength, Nat.add_assoc,
        Cursor.lineBegins_cons]

/-- From the end of a line, the search goes on with the next line. -/
theorem first?_below (offset : Nat) (fresh : Bool) (ls : List Text) :
    first? offset fresh (Text.below ls) = first? (offset + 1) true (Text.joinWith ['\n'] ls) := by
  cases ls with
  | nil =>
      rfl
  | cons l ls =>
      rw [Text.below_eq_cons (List.cons_ne_nil l ls)]
      exact first?_append (noDocLine_lineFeed fresh _) offset

/-- A line that is no doc line is passed over. -/
theorem first?_passed_line {l : Text} (hfeed : '\n' ∉ l) (hdoc : isDocLine l = false)
    (offset : Nat) (ls : List Text) :
    first? offset true (l ++ Text.below ls)
      = first? (offset + l.byteLength + 1) true (Text.joinWith ['\n'] ls) := by
  have hno : NoDocLine true l (Text.below ls) :=
    noDocLine_of_not_mem hfeed (by rw [isDocLine_append_below, hdoc])
  rw [first?_append hno, first?_below]

/-- No line that begins in a text is a doc line, or there is a first one. -/
theorem noDocLine_or_first (fresh : Bool) (t : Text) :
    NoDocLine fresh t [] ∨
      ∃ gap line, t = gap ++ line ∧ NoDocLine fresh gap line ∧ lineBegins fresh gap = true ∧
        isDocLine line = true := by
  induction t generalizing fresh with
  | nil =>
      exact Or.inl (noDocLine_nil fresh [])
  | cons c cs ih =>
      by_cases hhere : fresh = true ∧ isDocLine (c :: cs) = true
      · exact Or.inr ⟨[], c :: cs, rfl, noDocLine_nil _ _, hhere.1, hhere.2⟩
      · have hc : fresh = true → isDocLine (c :: cs) = false := by
          intro hfresh
          simpa [hfresh] using hhere
        rcases ih (c == '\n') with h | ⟨gap, line, rfl, hgap, hfresh, hline⟩
        · exact Or.inl (noDocLine_cons.mpr ⟨by rwa [List.append_nil], h⟩)
        · refine Or.inr ⟨c :: gap, line, rfl, noDocLine_cons.mpr ⟨hc, hgap⟩, ?_, hline⟩
          rwa [Cursor.lineBegins_cons]

/-- The search gives the first doc line and the end of the run from there. -/
theorem first?_eq_some_iff {offset : Nat} {fresh : Bool} {t : Text} {s : Span} :
    first? offset fresh t = some s ↔
      ∃ gap line, t = gap ++ line ∧ NoDocLine fresh gap line ∧ lineBegins fresh gap = true ∧
        isDocLine line = true ∧
        s = ⟨offset + gap.byteLength + indent line, stop (offset + gap.byteLength) line⟩ := by
  have hfound : ∀ {gap line : Text}, NoDocLine fresh gap line → lineBegins fresh gap = true →
      isDocLine line = true → first? offset fresh (gap ++ line)
        = some ⟨offset + gap.byteLength + indent line, stop (offset + gap.byteLength) line⟩ :=
    fun hgap hfresh hline => by rw [first?_append hgap, hfresh, first?_docLine hline]
  constructor
  · intro hs
    rcases noDocLine_or_first fresh t with h | ⟨gap, line, rfl, hgap, hfresh, hline⟩
    · rw [← List.append_nil t, first?_append h] at hs
      exact absurd hs (by simp [first?])
    · rw [hfound hgap hfresh hline, Option.some.injEq] at hs
      exact ⟨gap, line, rfl, hgap, hfresh, hline, hs.symm⟩
  · rintro ⟨gap, line, rfl, hgap, hfresh, hline, rfl⟩
    exact hfound hgap hfresh hline

theorem first?_eq_none_iff {offset : Nat} {fresh : Bool} {t : Text} :
    first? offset fresh t = none ↔
      ∀ gap line, t = gap ++ line → lineBegins fresh gap = true → isDocLine line = false := by
  constructor
  · rintro hnone gap line rfl hfresh
    rcases noDocLine_or_first fresh (gap ++ line) with h | ⟨lead, first, heq, hlead, hbegin, hfirst⟩
    · cases line with
      | nil =>
          exact isDocLine_nil
      | cons c cs =>
          simpa using h gap (c :: cs) rfl (List.cons_ne_nil c cs) hfresh
    · rw [heq, first?_append hlead, hbegin, first?_docLine hfirst] at hnone
      exact absurd hnone (Option.some_ne_none _)
  · intro hno
    cases hs : first? offset fresh t with
    | none =>
        rfl
    | some s =>
        obtain ⟨gap, line, ht, -, hfresh, hline, -⟩ := first?_eq_some_iff.mp hs
        rw [hno gap line ht hfresh] at hline
        exact absurd hline Bool.false_ne_true

/-! ## Searching from a later place -/

theorem indent_append_lineFeed_le (init rest : Text) :
    indent (init ++ '\n' :: rest) ≤ init.byteLength := by
  induction init with
  | nil =>
      have hnone : ('\n' :: rest).takeWhile isInlineBlank = [] :=
        List.takeWhile_cons_of_neg (by decide)
      exact Nat.le_of_eq (by rw [indent, List.nil_append, hnone])
  | cons c cs ih =>
      by_cases hc : isInlineBlank c = true
      · rw [indent, List.cons_append, List.takeWhile_cons_of_pos hc, Text.byteLength,
          Text.byteLength]
        exact Nat.add_le_add_left ih _
      · rw [indent, List.cons_append, List.takeWhile_cons_of_neg hc]
        exact Nat.zero_le _

/-- The first run starts no later than the slashes of any doc line. -/
theorem exists_first?_le {fresh : Bool} {gap line : Text} (hfresh : lineBegins fresh gap = true)
    (hline : isDocLine line = true) (offset : Nat) :
    ∃ s, first? offset fresh (gap ++ line) = some s ∧
      s.start ≤ offset + gap.byteLength + indent line := by
  cases hs : first? offset fresh (gap ++ line) with
  | none =>
      rw [first?_eq_none_iff.mp hs gap line rfl hfresh] at hline
      exact absurd hline Bool.false_ne_true
  | some s =>
      refine ⟨s, rfl, ?_⟩
      obtain ⟨lead, first, heq, hlead, -, -, rfl⟩ := first?_eq_some_iff.mp hs
      rcases List.append_eq_append_iff.mp heq with ⟨mid, rfl, rfl⟩ | ⟨mid, rfl, rfl⟩
      · -- The doc line begins no later than the first one, so it is the first one.
        have hmid : mid = [] := Decidable.byContradiction fun hne => by
          rw [hlead gap mid rfl hne hfresh] at hline
          exact Bool.false_ne_true hline
        subst hmid
        exact Nat.le_of_eq (by rw [List.append_nil, List.nil_append])
      · -- The first doc line ends, with its indentation, before the other line begins.
        rw [Cursor.lineBegins_append] at hfresh
        rcases Cursor.eq_nil_or_eq_append_lineFeed hfresh with rfl | ⟨init, rfl⟩
        · exact Nat.le_of_eq (by rw [List.append_nil, List.nil_append])
        · have hind := indent_append_lineFeed_le init line
          rw [List.append_assoc, List.singleton_append]
          simp only [Text.byteLength_append]
          omega

/-- A run that starts behind a stretch is found from behind the stretch too, provided that the
stretch does not end inside the indentation of a doc line. -/
theorem first?_of_append {offset : Nat} {fresh : Bool} {mid rest : Text} {s : Span}
    (h : first? offset fresh (mid ++ rest) = some s) (hle : offset + mid.byteLength ≤ s.start)
    (hsettled : ∀ init c, mid = init ++ [c] → isInlineBlank c = true → isDocLine rest = false) :
    first? (offset + mid.byteLength) (lineBegins fresh mid) rest = some s := by
  obtain ⟨gap, line, heq, hgap, hfresh, hline, rfl⟩ := first?_eq_some_iff.mp h
  rcases List.append_eq_append_iff.mp heq with ⟨gap, rfl, rfl⟩ | ⟨ind, rfl, rfl⟩
  · -- The doc line begins behind the stretch, and so does all that the search passes over.
    refine first?_eq_some_iff.mpr ⟨gap, line, rfl, ?_, ?_, hline, ?_⟩
    · intro g m hg hm hbegin
      refine hgap (mid ++ g) m (by rw [hg, List.append_assoc]) hm ?_
      rwa [Cursor.lineBegins_append]
    · rwa [Cursor.lineBegins_append] at hfresh
    · simp only [Text.byteLength_append, Nat.add_assoc]
  · rcases List.eq_nil_or_concat ind with rfl | ⟨init, c, hind⟩
    · rw [List.nil_append] at hgap
      rw [List.append_nil] at h ⊢
      rwa [first?_append hgap] at h
    · -- The doc line begins inside the stretch: what the stretch takes of it is indentation.
      rw [List.concat_eq_append] at hind
      obtain ⟨lead, run, after, hrun, hlead, -, -, hindent, -⟩ := exists_run hline
      have hlen : Text.byteLength ind ≤ lead.byteLength := by
        rw [Text.byteLength_append] at hle
        simp only [hindent] at hle
        omega
      obtain ⟨lead, rfl, rfl⟩ := Text.exists_append_of_byteLength_le hrun hlen
      have hblank : ∀ d ∈ ind, isInlineBlank d = true :=
        fun d hd => hlead d (List.mem_append_left _ hd)
      have hno := hsettled (gap ++ init) c (by rw [hind, List.append_assoc])
        (hblank c (by simp [hind]))
      rw [isDocLine_append hblank, hno] at hline
      exact absurd hline Bool.false_ne_true

theorem first?_eq_none_of_append {offset : Nat} {fresh : Bool} {mid rest : Text}
    (h : first? offset fresh (mid ++ rest) = none) :
    first? (offset + mid.byteLength) (lineBegins fresh mid) rest = none := by
  refine first?_eq_none_iff.mpr ?_
  rintro gap line rfl hfresh
  refine first?_eq_none_iff.mp h (mid ++ gap) line (List.append_assoc _ _ _).symm ?_
  rwa [Cursor.lineBegins_append]

end LineRun

theorem Shape.nextFrom_line_of_lineBegins {before : Text}
    (h : Cursor.lineBegins true before = true) (rest : Text) :
    line.nextFrom (Cursor.between before rest) = LineRun.first? before.byteLength true rest := by
  show LineRun.first? before.byteLength (Cursor.lineBegins true before) rest = _
  rw [h]

end DocDigest
