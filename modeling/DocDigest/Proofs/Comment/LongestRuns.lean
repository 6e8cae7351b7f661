import DocDigest.Proofs.Comment.BlankLine
import DocDigest.Proofs.Comment.FirstComment
import DocDigest.Proofs.Comment.RunCuts
import Mathlib.Data.List.Basic

/-!
# The longest runs of doc lines

The search for runs is one over lines. In the lines that begin at an offset or behind it, it finds
the first doc line and the doc lines that follow it without a gap, and from an offset that is none
of the source's it finds nothing. It may be made by cutting the source, and no cut falls inside a
character (`LineRun.searchByCuts_eq`). Searched for from the end of the one before, the runs are the
longest sequences of doc lines, one span for each and in order
(`Shape.line_spans_are_longest_runs`).

The argument takes a text as the list of its lines. Lines without a mark are passed over
(`LineRun.first?_passed`), and marked lines in front of one that is not are one run
(`LineRun.first?_marked`). Behind the first run, the longest runs are those of the lines below it
(`Passage.isLongestRun_iff`), and the search goes on there.
-/

set_option autoImplicit false

namespace DocDigest

namespace Text

/-- A line begins behind whole lines. -/
theorem lineBegins_ended {before : Text} (h : Cursor.lineBegins true before = true)
    (ls : List Text) : Cursor.lineBegins true (before ++ ended ls) = true := by
  by_cases hls : ls = []
  · rwa [hls, ended_nil, List.append_nil]
  · rw [← joinWith_append_lineFeed hls, ← List.append_assoc]
    exact Cursor.lineBegins_append_singleton true _ '\n'

/-- A line that holds, after any white space, two slashes, any white space and a star. -/
def HasMark (l : Text) : Prop :=
  ∃ ind gap rest, l = ind ++ '/' :: '/' :: (gap ++ '*' :: rest) ∧
    (∀ c ∈ ind, isBlank c = true) ∧ ∀ c ∈ gap, isBlank c = true

end Text

/-! ## Searching through lines -/

namespace LineRun

open Text (HasMark ended below joinWith)

theorem isDocLine_iff_hasMark {l : Text} (hfeed : '\n' ∉ l) :
    isDocLine l = true ↔ HasMark l := by
  rw [isDocLine_iff]
  constructor
  · rintro ⟨ind, gap, rest, rfl, hind, hgap⟩
    exact ⟨ind, gap, rest, rfl, fun c hc => (Bool.and_eq_true_iff.mp (hind c hc)).1,
      fun c hc => (Bool.and_eq_true_iff.mp (hgap c hc)).1⟩
  · rintro ⟨ind, gap, rest, rfl, hind, hgap⟩
    have hinline : ∀ c, isBlank c = true → c ∈ ind ++ '/' :: '/' :: (gap ++ '*' :: rest) →
        isInlineBlank c = true := by
      intro c hc hmem
      have hne : c ≠ '\n' := fun heq => hfeed (heq ▸ hmem)
      simp [isInlineBlank, hc, hne]
    refine ⟨ind, gap, rest, rfl, fun c hc => hinline c (hind c hc) ?_,
      fun c hc => hinline c (hgap c hc) ?_⟩
    · simp [hc]
    · simp [hc]

theorem isDocLine_eq_false {l : Text} (hfeed : '\n' ∉ l) (h : ¬ HasMark l) :
    isDocLine l = false := by
  rw [← Bool.not_eq_true, isDocLine_iff_hasMark hfeed]
  exact h

/-- The indentation of a doc line is all white space at its front. -/
theorem indent_eq {l : Text} (hfeed : '\n' ∉ l) (h : HasMark l) :
    indent l = Text.byteLength (l.takeWhile isBlank) := by
  obtain ⟨ind, gap, rest, rfl, hind, -⟩ := isDocLine_iff.mp ((isDocLine_iff_hasMark hfeed).mpr h)
  have hblank : ∀ c ∈ ind, isBlank c = true := fun c hc => (Bool.and_eq_true_iff.mp (hind c hc)).1
  have hstop : ('/' :: '/' :: (gap ++ '*' :: rest)).takeWhile isBlank = [] :=
    List.takeWhile_cons_of_neg (by decide)
  rw [indent_append hind (by decide), List.takeWhile_append_of_pos hblank, hstop, List.append_nil]

/-- Lines without a mark are passed over. -/
theorem first?_passed {passed : List Text} (hfeed : ∀ l ∈ passed, '\n' ∉ l)
    (hmark : ∀ l ∈ passed, ¬ HasMark l) (offset : Nat) (ls : List Text) :
    first? offset true (joinWith ['\n'] (passed ++ ls))
      = first? (offset + (ended passed).byteLength) true (joinWith ['\n'] ls) := by
  induction passed generalizing offset with
  | nil =>
      rfl
  | cons l passed ih =>
      have hl := hfeed l List.mem_cons_self
      have hdoc := isDocLine_eq_false hl (hmark l List.mem_cons_self)
      rw [List.cons_append, Text.joinWith_cons, first?_passed_line hl hdoc,
        ih (fun m hm => hfeed m (List.mem_cons_of_mem l hm))
          fun m hm => hmark m (List.mem_cons_of_mem l hm), Text.byteLength_ended_cons]
      simp only [Nat.add_assoc]

theorem first?_eq_none_of_lines {ls : List Text} (hfeed : ∀ l ∈ ls, '\n' ∉ l)
    (hmark : ∀ l ∈ ls, ¬ HasMark l) (offset : Nat) :
    first? offset true (joinWith ['\n'] ls) = none := by
  have h := first?_passed hfeed hmark offset []
  rwa [List.append_nil] at h

/-- Marked lines in front of one that is not marked are a run. -/
theorem first?_marked {l : Text} {more rest : List Text} (hfeed : ∀ m ∈ l :: more, '\n' ∉ m)
    (hmark : ∀ m ∈ l :: more, HasMark m) (hfeed' : ∀ m ∈ rest, '\n' ∉ m)
    (hrest : ∀ m, rest.head? = some m → ¬ HasMark m) (offset : Nat) :
    first? offset true (joinWith ['\n'] (l :: more ++ rest))
      = some ⟨offset + Text.byteLength (l.takeWhile isBlank),
          offset + (joinWith ['\n'] (l :: more)).byteLength⟩ := by
  have hdoc : ∀ m ∈ l :: more, isDocLine m = true :=
    fun m hm => (isDocLine_iff_hasMark (hfeed m hm)).mpr (hmark m hm)
  have hl := hdoc l List.mem_cons_self
  have hends : Ends (below rest) :=
    ends_below fun m hm => isDocLine_eq_false (hfeed' m (List.mem_of_head? hm)) (hrest m hm)
  have hrun : Unbroken (joinWith ['\n'] (l :: more)) (below rest) := by
    rw [Text.joinWith_cons]
    refine unbroken_append.mpr ⟨unbroken_of_not_mem (hfeed l List.mem_cons_self) _, ?_⟩
    exact unbroken_below (fun m hm => hfeed m (List.mem_cons_of_mem l hm))
      (fun m hm => hdoc m (List.mem_cons_of_mem l hm)) _
  have hsplit : joinWith ['\n'] (l :: more ++ rest)
      = joinWith ['\n'] (l :: more) ++ below rest := by
    rw [List.cons_append, Text.joinWith_cons, Text.joinWith_cons, Text.below_append,
      List.append_assoc]
  have hfirst : isDocLine (joinWith ['\n'] (l :: more) ++ below rest) = true := by
    rw [Text.joinWith_cons, List.append_assoc]
    exact isDocLine_append_right hl _
  have hindent : indent (joinWith ['\n'] (l :: more) ++ below rest)
      = Text.byteLength (l.takeWhile isBlank) := by
    rw [Text.joinWith_cons, List.append_assoc, indent_append_right hl,
      indent_eq (hfeed l List.mem_cons_self) (hmark l List.mem_cons_self)]
  rw [hsplit, first?_docLine hfirst, hindent, stop_append hrun, stop_of_ends hends]

end LineRun

/-! ## Longest runs among lines -/

/-- Consecutive lines of a text, one at least, with the lines above and below them. -/
structure Passage where
  above : List Text
  first : Text
  more : List Text
  below : List Text

namespace Passage

open Text (HasMark ended joinWith)

def lines (p : Passage) : List Text := p.first :: p.more

theorem lines_ne_nil (p : Passage) : p.lines ≠ [] := List.cons_ne_nil _ _

/-- From the first character of the first line that is no white space to the end of the last. -/
def span (p : Passage) : Span :=
  ⟨(ended p.above).byteLength + Text.byteLength (p.first.takeWhile isBlank),
    (ended p.above).byteLength + (joinWith ['\n'] p.lines).byteLength⟩

/-- A longest sequence of marked lines among the lines of a text. -/
structure IsLongestRun (ls : List Text) (p : Passage) : Prop where
  eq : ls = p.above ++ (p.lines ++ p.below)
  marked : ∀ l ∈ p.lines, HasMark l
  above : ∀ l, p.above.getLast? = some l → ¬ HasMark l
  below : ∀ l, p.below.head? = some l → ¬ HasMark l

/-- The first of the longest runs: no line above it is marked. -/
structure IsFirstRun (ls : List Text) (p : Passage) : Prop extends p.IsLongestRun ls where
  passed : ∀ l ∈ p.above, ¬ HasMark l

/-- A passage of the lines below another one, as a passage of all lines. -/
def under (p q : Passage) : Passage := { q with above := p.above ++ (p.lines ++ q.above) }

/-- Whether a passage stands above another one, and no line is in both. -/
def Precedes (p q : Passage) : Prop := p.above ++ p.lines <+: q.above

variable {p q : Passage} {ls : List Text}

theorem not_isLongestRun_nil (p : Passage) : ¬ p.IsLongestRun [] := by
  intro hp
  exact absurd hp.eq (by simp [lines])

theorem IsFirstRun.cons {l : Text} (hl : ¬ HasMark l) (h : p.IsFirstRun ls) :
    IsFirstRun (l :: ls) { p with above := l :: p.above } where
  eq := by rw [h.eq]; rfl
  marked := h.marked
  above := by
    intro m hm
    rcases List.mem_cons.mp (List.mem_of_getLast? hm) with rfl | hm
    · exact hl
    · exact h.passed m hm
  below := h.below
  passed := List.forall_mem_cons.mpr ⟨hl, h.passed⟩

/-- A marked line goes on with the run that begins below it. -/
theorem isFirstRun_cons {l : Text} (hl : HasMark l) (more : List Text) {below : List Text}
    (hmore : ∀ m ∈ more, HasMark m) (hbelow : ∀ m, below.head? = some m → ¬ HasMark m) :
    IsFirstRun (l :: (more ++ below)) ⟨[], l, more, below⟩ where
  eq := rfl
  marked := List.forall_mem_cons.mpr ⟨hl, hmore⟩
  above := by
    intro m hm
    exact absurd hm (Option.some_ne_none m).symm
  below := hbelow
  passed := by simp

/-- No line is marked, or there is a first run. -/
theorem exists_isFirstRun (ls : List Text) :
    (∀ l ∈ ls, ¬ HasMark l) ∨ ∃ p : Passage, p.IsFirstRun ls := by
  induction ls with
  | nil =>
      exact Or.inl (by simp)
  | cons l ls ih =>
      by_cases hl : HasMark l
      · refine Or.inr ?_
        -- The run goes on if the next line is marked: it is then the one that begins there.
        by_cases hnext : ∃ m, ls.head? = some m ∧ HasMark m
        · obtain ⟨m, hm, hmark⟩ := hnext
          rcases ih with hnone | ⟨⟨above, first, more, below⟩, hp⟩
          · exact absurd hmark (hnone m (List.mem_of_head? hm))
          · cases above with
            | nil =>
                rw [hp.eq]
                exact ⟨_, isFirstRun_cons hl (first :: more) hp.marked hp.below⟩
            | cons a above =>
                obtain rfl : a = m := by simpa [hp.eq] using hm
                exact absurd hmark (hp.passed a List.mem_cons_self)
        · exact ⟨_, isFirstRun_cons hl [] (by simp) fun m hm hmark => hnext ⟨m, hm, hmark⟩⟩
      · rcases ih with hnone | ⟨p, hp⟩
        · exact Or.inl (List.forall_mem_cons.mpr ⟨hl, hnone⟩)
        · exact Or.inr ⟨_, hp.cons hl⟩

/-- Two ways to cut lines behind a run of marked ones are the same. -/
theorem eq_of_append_eq {run run' below below' : List Text} (h : run ++ below = run' ++ below')
    (hrun : ∀ l ∈ run, HasMark l) (hrun' : ∀ l ∈ run', HasMark l)
    (hbelow : ∀ l, below.head? = some l → ¬ HasMark l)
    (hbelow' : ∀ l, below'.head? = some l → ¬ HasMark l) : run = run' ∧ below = below' := by
  rcases List.append_eq_append_iff.mp h with ⟨mid, rfl, rfl⟩ | ⟨mid, rfl, rfl⟩
  · cases mid with
    | nil =>
        exact ⟨(List.append_nil run).symm, rfl⟩
    | cons m mid =>
        exact absurd (hrun' m (by simp)) (hbelow m rfl)
  · cases mid with
    | nil =>
        exact ⟨List.append_nil run', rfl⟩
    | cons m mid =>
        exact absurd (hrun m (by simp)) (hbelow' m rfl)

/-- A longest run does not begin above the first one. -/
theorem IsFirstRun.exists_above_eq (hp : p.IsFirstRun ls) (hq : q.IsLongestRun ls) :
    ∃ mid, q.above = p.above ++ mid ∧ p.lines ++ p.below = mid ++ (q.lines ++ q.below) := by
  rcases List.append_eq_append_iff.mp (hp.eq.symm.trans hq.eq) with ⟨mid, h, h'⟩ | ⟨mid, h, h'⟩
  · exact ⟨mid, h, h'⟩
  · cases mid with
    | nil =>
        exact ⟨[], by simpa using h.symm, by simpa using h'.symm⟩
    | cons m mid =>
        obtain ⟨rfl, -⟩ := List.cons_eq_cons.mp h'
        exact absurd (hq.marked q.first List.mem_cons_self) (hp.passed _ (by simp [h]))

/-- A longest run of the lines below the first one is a longest run of all lines. -/
theorem IsFirstRun.isLongestRun_under (hp : p.IsFirstRun ls) (hq : q.IsLongestRun p.below) :
    (p.under q).IsLongestRun ls where
  eq := by
    rw [hp.eq, hq.eq]
    simp only [under, lines, List.append_assoc]
  marked := hq.marked
  above := by
    intro l hl
    -- The line below the first run is not marked, so the other run is not at the top.
    have hne : q.above ≠ [] := by
      intro hnil
      have hhead : p.below.head? = some q.first := by rw [hq.eq, hnil]; rfl
      exact absurd (hq.marked q.first List.mem_cons_self) (hp.below _ hhead)
    refine hq.above l ?_
    rw [← hl, under, ← List.append_assoc, List.getLast?_append_of_ne_nil _ hne]
  below := hq.below

/-- The longest runs are the first one and those of the lines below it. -/
theorem isLongestRun_iff (hp : p.IsFirstRun ls) :
    q.IsLongestRun ls ↔ q = p ∨ ∃ r, r.IsLongestRun p.below ∧ q = p.under r := by
  constructor
  · intro hq
    obtain ⟨mid, habove, heq⟩ := hp.exists_above_eq hq
    rcases List.append_eq_append_iff.mp heq with ⟨mid', rfl, hbelow⟩ | ⟨k, hlines, hbelow⟩
    · -- The run begins below the first one.
      refine Or.inr ⟨{ q with above := mid' }, ⟨hbelow, hq.marked, ?_, hq.below⟩, ?_⟩
      · intro l hl
        refine hq.above l ?_
        have hne : mid' ≠ [] := by
          rintro rfl
          exact absurd hl (Option.some_ne_none l).symm
        rw [habove, ← List.append_assoc, List.getLast?_append_of_ne_nil _ hne]
        exact hl
      · rw [under, ← habove]
    · rcases List.eq_nil_or_concat mid with rfl | ⟨init, l, hmid⟩
      · -- It begins with the first one, so it ends there too.
        rw [List.nil_append] at heq
        obtain ⟨hsame, hsame'⟩ := eq_of_append_eq heq hp.marked hq.marked hp.below hq.below
        obtain ⟨hfirst, hmore⟩ := List.cons_eq_cons.mp hsame
        rw [List.append_nil] at habove
        refine Or.inl ?_
        cases p
        cases q
        simp_all
      · rw [List.concat_eq_append] at hmid
        have hl : HasMark l := hp.marked l (by simp [hlines, hmid])
        exact absurd hl (hq.above l (by simp [habove, hmid]))
  · rintro (rfl | ⟨r, hr, rfl⟩)
    · exact hp.toIsLongestRun
    · exact hp.isLongestRun_under hr

/-- The span of a passage below another one, from the beginning of all lines. -/
theorem span_under (p q : Passage) :
    (p.under q).span = q.span.shift (ended (p.above ++ p.lines)).byteLength := by
  simp only [span, under, lines, Span.shift, Text.ended_append, Text.byteLength_append,
    ← List.append_assoc]
  congr 1 <;> omega

theorem precedes_under (p q : Passage) : p.Precedes (p.under q) :=
  ⟨q.above, List.append_assoc _ _ _⟩

theorem Precedes.under {q r : Passage} (h : q.Precedes r) (p : Passage) :
    (p.under q).Precedes (p.under r) := by
  obtain ⟨rest, hrest⟩ := h
  refine ⟨rest, ?_⟩
  simp only [Passage.under, ← hrest, List.append_assoc, lines]

theorem IsLongestRun.joinWith_eq (hp : p.IsLongestRun ls) :
    joinWith ['\n'] ls
      = ended p.above ++ joinWith ['\n'] p.lines ++ Text.below p.below := by
  rw [hp.eq, Text.joinWith_append (by simp [lines]), lines, List.cons_append, Text.joinWith_cons,
    Text.joinWith_cons, Text.below_append]
  simp only [List.append_assoc]

theorem stop_span (p : Passage) :
    p.span.stop = (ended p.above ++ joinWith ['\n'] p.lines).byteLength := by
  rw [span, Text.byteLength_append]

/-! ## What the searches find -/

/-- Among lines, the search finds the first of the longest runs. -/
theorem IsFirstRun.first?_eq (hp : p.IsFirstRun ls) (hfeed : ∀ l ∈ ls, '\n' ∉ l) (offset : Nat) :
    LineRun.first? offset true (joinWith ['\n'] ls) = some (p.span.shift offset) := by
  have hfeed' : ∀ l ∈ p.above ++ (p.lines ++ p.below), '\n' ∉ l := by
    rw [← hp.eq]
    exact hfeed
  simp only [List.forall_mem_append] at hfeed'
  obtain ⟨habove, hlines, hbelow⟩ := hfeed'
  calc LineRun.first? offset true (joinWith ['\n'] ls)
      = LineRun.first? (offset + (ended p.above).byteLength) true
          (joinWith ['\n'] (p.lines ++ p.below)) := by
        rw [hp.eq, LineRun.first?_passed habove hp.passed]
    _ = some ⟨offset + (ended p.above).byteLength + Text.byteLength (p.first.takeWhile isBlank),
          offset + (ended p.above).byteLength + (joinWith ['\n'] p.lines).byteLength⟩ :=
        LineRun.first?_marked hlines hp.marked hbelow hp.below _
    _ = some (p.span.shift offset) := by
        simp only [span, Span.shift]
        congr 2 <;> omega

theorem exists_of_first? (hfeed : ∀ l ∈ ls, '\n' ∉ l) {offset : Nat} {s : Span}
    (h : LineRun.first? offset true (joinWith ['\n'] ls) = some s) :
    ∃ p : Passage, p.IsFirstRun ls ∧ s = p.span.shift offset := by
  rcases exists_isFirstRun ls with hnone | ⟨p, hp⟩
  · rw [LineRun.first?_eq_none_of_lines hfeed hnone] at h
    exact absurd h (Option.some_ne_none s).symm
  · rw [hp.first?_eq hfeed, Option.some.injEq] at h
    exact ⟨p, hp, h.symm⟩

/-- Where the search finds nothing there is no run. -/
theorem not_isLongestRun_of_first? (hfeed : ∀ l ∈ ls, '\n' ∉ l) {offset : Nat}
    (h : LineRun.first? offset true (joinWith ['\n'] ls) = none) : ¬ p.IsLongestRun ls := by
  intro hp
  rcases exists_isFirstRun ls with hnone | ⟨q, hq⟩
  · exact hnone p.first (by rw [hp.eq]; simp [lines]) (hp.marked p.first List.mem_cons_self)
  · rw [hq.first?_eq hfeed] at h
    exact absurd h (Option.some_ne_none _)

end Passage

open Text (HasMark ended joinWith)

namespace Scan

/-- Nothing is found at the end of a source. -/
theorem FreshScan.eq_nil_of_nil {shapes : List Shape} {before : Text} {spans : List Span}
    (h : FreshScan shapes before before.byteLength spans) : spans = [] := by
  have hnil : FreshScan shapes (before ++ []) before.byteLength [] :=
    FreshScan.nil_of_eq_none fun shape _ => by cases shape <;> rfl
  rw [List.append_nil] at hnil
  exact h.unique hnil

/-- From the end of a line, a scan goes on with the next line. -/
theorem FreshScan.behind_lineFeed {shapes : List Shape} {before rest : Text} {spans : List Span}
    (h : FreshScan shapes (before ++ '\n' :: rest) before.byteLength spans) :
    FreshScan shapes (before ++ ['\n'] ++ rest) (before ++ ['\n']).byteLength spans := by
  rw [List.append_cons] at h
  refine h.of_nextAt_eq fun shape => ?_
  rw [Shape.nextAt_between, List.append_assoc, Shape.nextAt_between]
  cases shape with
  | block =>
      exact (Shape.nextFrom_block_append (Text.absent_of_not_mem _ (by decide))).symm
  | line =>
      exact (Shape.nextFrom_line_append (LineRun.noDocLine_lineFeed _ _)).symm

/-- Behind a run, a scan goes on with the lines below it. -/
theorem FreshScan.below_run {shapes : List Shape} {before : Text} {ls : List Text} {p : Passage}
    {spans : List Span} (hp : p.IsLongestRun ls)
    (h : FreshScan shapes (before ++ joinWith ['\n'] ls) (p.span.shift before.byteLength).stop
      spans) :
    p.below = [] ∧ spans = [] ∨
      FreshScan shapes (before ++ ended (p.above ++ p.lines) ++ joinWith ['\n'] p.below)
        (before ++ ended (p.above ++ p.lines)).byteLength spans := by
  have hstop : (p.span.shift before.byteLength).stop
      = (before ++ (ended p.above ++ joinWith ['\n'] p.lines)).byteLength := by
    rw [Text.byteLength_append, ← p.stop_span, Nat.add_comm]
    rfl
  rw [hp.joinWith_eq, ← List.append_assoc, hstop] at h
  by_cases hbelow : p.below = []
  · rw [hbelow, Text.below_nil, List.append_nil] at h
    exact Or.inl ⟨hbelow, h.eq_nil_of_nil⟩
  · rw [Text.below_eq_cons hbelow] at h
    have hended : before ++ (ended p.above ++ joinWith ['\n'] p.lines) ++ ['\n']
        = before ++ ended (p.above ++ p.lines) := by
      rw [Text.ended_append, ← Text.joinWith_append_lineFeed p.lines_ne_nil]
      simp only [List.append_assoc]
    have hnext := h.behind_lineFeed
    rw [hended] at hnext
    exact Or.inr hnext

/-- A scan for runs finds the longest runs of the lines ahead, one span for each and in order. -/
theorem FreshScan.exists_runs {before : Text} {ls : List Text} {spans : List Span}
    (h : FreshScan [.line] (before ++ joinWith ['\n'] ls) before.byteLength spans)
    (hfeed : ∀ l ∈ ls, '\n' ∉ l) (hbegin : Cursor.lineBegins true before = true) :
    ∃ runs : List Passage, (∀ p : Passage, p ∈ runs ↔ p.IsLongestRun ls) ∧
      runs.Pairwise Passage.Precedes ∧
      spans = runs.map fun p => p.span.shift before.byteLength := by
  induction spans generalizing before ls with
  | nil =>
      have hnone := h.eq_none_of_nil List.mem_cons_self
      rw [Shape.nextFrom_line_of_lineBegins hbegin] at hnone
      refine ⟨[], fun p => ?_, List.Pairwise.nil, rfl⟩
      simp only [List.not_mem_nil, false_iff]
      exact Passage.not_isLongestRun_of_first? hfeed hnone
  | cons s spans ih =>
      cases h with
      | next hchosen hrest =>
          have hfound := chosen_singleton_iff.mp hchosen
          rw [Shape.nextAt_between, Shape.nextFrom_line_of_lineBegins hbegin] at hfound
          obtain ⟨p, hp, rfl⟩ := Passage.exists_of_first? hfeed hfound
          rcases hrest.below_run hp.toIsLongestRun with ⟨hbelow, rfl⟩ | hnext
          · -- Nothing stands below the first run, so there is no other one.
            refine ⟨[p], fun q => ?_, List.pairwise_singleton _ _, rfl⟩
            rw [List.mem_singleton, Passage.isLongestRun_iff hp]
            simp [hbelow, Passage.not_isLongestRun_nil]
          · -- The other runs are those of the lines below it.
            have hfeed' : ∀ l ∈ p.below, '\n' ∉ l := fun l hl => hfeed l (by simp [hp.eq, hl])
            obtain ⟨runs, hmem, hordered, rfl⟩ := ih hnext hfeed' (Text.lineBegins_ended hbegin _)
            refine ⟨p :: runs.map p.under, fun q => ?_, List.pairwise_cons.mpr ⟨?_, ?_⟩, ?_⟩
            · rw [List.mem_cons, List.mem_map, Passage.isLongestRun_iff hp]
              simp only [hmem, eq_comm]
            · intro q hq
              obtain ⟨r, -, rfl⟩ := List.mem_map.mp hq
              exact p.precedes_under r
            · exact List.pairwise_map.mpr (hordered.imp fun h => h.under p)
            · rw [List.map_cons, List.map_map]
              refine congrArg _ (List.map_congr_left fun r _ => ?_)
              rw [Function.comp, Passage.span_under, Text.byteLength_append]
              simp only [Span.shift]
              congr 1 <;> omega

end Scan

/-! ## Searching from an offset -/

/-- The lines of a source that begin at an offset or behind it, and those that begin before it. -/
structure LinesFrom (source : Text) (o : Nat) (passed ahead : List Text) : Prop where
  eq : Text.splitOn '\n' source = passed ++ ahead
  begins_before : ∀ above l, above ++ [l] <+: passed → (ended above).byteLength < o
  begins_behind : ahead ≠ [] → o ≤ (ended passed).byteLength

section

variable {passed : List Text} {tail t l : Text} {ls : List Text}

/-- Behind whole lines, all lines of the rest are ahead. -/
theorem linesFrom_at_beginning (hpassed : ∀ m ∈ passed, '\n' ∉ m) (t : Text) :
    LinesFrom (ended passed ++ t) (ended passed).byteLength passed (Text.splitOn '\n' t) where
  eq := Text.splitOn_ended_append hpassed t
  begins_before := fun _ _ => Text.byteLength_ended_lt
  begins_behind := fun _ => Nat.le_refl _

theorem nextFrom_line_at_beginning (passed : List Text) (t : Text) :
    Shape.line.nextFrom (Cursor.between (ended passed) t)
      = LineRun.first? (ended passed).byteLength true (joinWith ['\n'] (Text.splitOn '\n' t)) := by
  have hbegin : Cursor.lineBegins true ([] ++ ended passed) = true :=
    Text.lineBegins_ended rfl passed
  rw [List.nil_append] at hbegin
  rw [Shape.nextFrom_line_of_lineBegins hbegin, Text.joinWith_splitOn]

/-- How far the line goes that holds the end of `tail`. -/
theorem byteLength_ended_passed_line :
    (ended (passed ++ [tail ++ l])).byteLength
      = (ended passed ++ tail).byteLength + l.byteLength + 1 := by
  simp only [Text.ended_append, Text.byteLength_append, Text.byteLength_ended_cons,
    Text.ended_nil, Text.byteLength]
  omega

/-- Inside a line, the lines below that one are ahead. -/
theorem linesFrom_inside (hpassed : ∀ m ∈ passed, '\n' ∉ m) (htail : '\n' ∉ tail)
    (hne : tail ≠ []) (hsplit : Text.splitOn '\n' t = l :: ls) :
    LinesFrom (ended passed ++ tail ++ t) (ended passed ++ tail).byteLength
      (passed ++ [tail ++ l]) ls where
  eq := by
    rw [List.append_assoc, Text.splitOn_ended_append hpassed,
      Text.splitOn_append_of_not_mem htail hsplit, List.append_assoc]
    rfl
  begins_before := by
    intro above m hprefix
    rw [Text.byteLength_append]
    rcases List.prefix_concat_iff.mp hprefix with heq | hprefix
    · obtain ⟨rfl, -⟩ := List.append_inj' heq rfl
      have hpos := Text.byteLength_pos hne
      omega
    · have hlt := Text.byteLength_ended_lt hprefix
      omega
  begins_behind := by
    intro _
    rw [byteLength_ended_passed_line]
    omega

theorem nextFrom_line_inside (htail : '\n' ∉ tail) (hne : tail ≠ [])
    (hsplit : Text.splitOn '\n' t = l :: ls) :
    Shape.line.nextFrom (Cursor.between (ended passed ++ tail) t)
      = LineRun.first? (ended (passed ++ [tail ++ l])).byteLength true (joinWith ['\n'] ls) := by
  have ht : t = l ++ Text.below ls := by
    rw [← Text.joinWith_cons, ← hsplit, Text.joinWith_splitOn]
  have hl : '\n' ∉ l := Text.not_mem_of_mem_splitOn (t := t) (by rw [hsplit]; simp)
  have hinside : Cursor.lineBegins true (ended passed ++ tail) = false := by
    obtain ⟨init, c, rfl⟩ := (List.eq_nil_or_concat tail).resolve_left hne
    rw [List.concat_eq_append, ← List.append_assoc, Cursor.lineBegins_append_singleton,
      beq_eq_false_iff_ne]
    rintro rfl
    exact htail (by simp)
  rw [ht, LineRun.nextFrom_line_inside hinside hl, byteLength_ended_passed_line]

end

/-- A search for runs is one through the lines that begin at its place or behind it. -/
theorem exists_linesFrom (before t : Text) :
    ∃ passed ahead, LinesFrom (before ++ t) before.byteLength passed ahead ∧
      Shape.line.nextFrom (Cursor.between before t)
        = LineRun.first? (ended passed).byteLength true (joinWith ['\n'] ahead) := by
  obtain ⟨passed, tail, rfl, htail, hpassed⟩ := Text.exists_eq_ended_append before
  by_cases hne : tail = []
  · -- A line begins at the place.
    rw [hne, List.append_nil]
    exact ⟨passed, _, linesFrom_at_beginning hpassed t, nextFrom_line_at_beginning passed t⟩
  · -- The place is inside a line, and the search goes on with the next one.
    obtain ⟨l, ls, hsplit⟩ := List.exists_cons_of_ne_nil (Text.splitOn_ne_nil '\n' t)
    exact ⟨_, ls, linesFrom_inside hpassed htail hne hsplit, nextFrom_line_inside htail hne hsplit⟩

/-- The comments of line form are the longest runs of marked lines of a source, one span for each
and in order: from the slashes of the first line to the end of the last one. A search from an offset
finds the first of the longest runs among the lines that begin there or behind it, and none if there
is no such run. If the offset is past the end or inside a character, it finds none either. The ends
of what it finds lie between characters, and from no offset does it cut the source inside one. -/
theorem Shape.line_spans_are_longest_runs (source : Text) :
    (∃ runs : List Passage, (∀ p : Passage, p ∈ runs ↔ p.IsLongestRun (Text.splitOn '\n' source)) ∧
        runs.Pairwise Passage.Precedes ∧ line.spans source = runs.map Passage.span) ∧
      ∀ o, LineRun.searchByCuts source o = .ok (line.nextAt source o) ∧
        (¬ source.IsBoundary o → line.nextAt source o = none) ∧
        (source.IsBoundary o → ∃ passed ahead, LinesFrom source o passed ahead ∧
          ((∀ l ∈ ahead, ¬ HasMark l) ∧ line.nextAt source o = none ∨
            ∃ p : Passage, p.IsFirstRun ahead ∧
              line.nextAt source o = some (p.span.shift (ended passed).byteLength))) ∧
        ∀ s, line.nextAt source o = some s →
          source.IsBoundary s.start ∧ source.IsBoundary s.stop := by
  have hfeed : ∀ l ∈ Text.splitOn '\n' source, '\n' ∉ l :=
    fun l hl => Text.not_mem_of_mem_splitOn hl
  refine ⟨?_, fun o => ⟨LineRun.searchByCuts_eq source o, fun ho => nextAt_eq_none ho line, ?_, ?_⟩⟩
  · have hscan : Scan.FreshScan [line] ([] ++ joinWith ['\n'] (Text.splitOn '\n' source))
        (Text.byteLength []) (line.spans source) := by
      rw [Text.joinWith_splitOn]
      exact Scan.freshScan_spans line source
    obtain ⟨runs, hmem, hordered, hspans⟩ := hscan.exists_runs hfeed rfl
    exact ⟨runs, hmem, hordered, hspans⟩
  · rintro ⟨before, t, rfl, rfl⟩
    obtain ⟨passed, ahead, hahead, hsearch⟩ := exists_linesFrom before t
    have hfeed' : ∀ l ∈ ahead, '\n' ∉ l := fun l hl => hfeed l (by simp [hahead.eq, hl])
    refine ⟨passed, ahead, hahead, ?_⟩
    rw [nextAt_between, hsearch]
    rcases Passage.exists_isFirstRun ahead with hnone | ⟨p, hp⟩
    · exact Or.inl ⟨hnone, LineRun.first?_eq_none_of_lines hfeed' hnone _⟩
    · exact Or.inr ⟨p, hp, hp.first?_eq hfeed' _⟩
  · intro s hs
    by_cases ho : source.IsBoundary o
    · obtain ⟨before, t, rfl, rfl⟩ := ho
      rw [nextAt_between] at hs
      obtain ⟨before', text, rest, heq, -, rfl⟩ := (commentAt_of_nextFrom hs).1
      rw [heq]
      refine ⟨Text.isBoundary_append before' _, ?_⟩
      rw [← List.append_assoc]
      exact Text.isBoundary_append (before' ++ text) rest
    · rw [nextAt_eq_none ho] at hs
      exact absurd hs (Option.some_ne_none s).symm

end DocDigest
