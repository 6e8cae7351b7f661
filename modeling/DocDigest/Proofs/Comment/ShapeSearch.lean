import DocDigest.Proofs.Comment.BlockSearch
import DocDigest.Proofs.Comment.RunSearch

/-!
# What the search for a comment of either form finds

`Shape.IsComment before text rest` says what a comment of a form is, and a search finds only such
comments (`Shape.exists_of_nextFrom`).

A search is not stable when its start moves: from inside the indentation of a doc line, the line is
not found any more. `Settled before rest` says that a place does not lie there. The places behind
comments are settled, and from a settled place on, a comment that an earlier search found ahead is
found again (`Shape.nextFrom_of_append`).
-/

set_option autoImplicit false

namespace DocDigest

/-! ## Settled places -/

/-- If white space stands before the place, no doc line goes on behind it. -/
def Settled (before rest : Text) : Prop :=
  ∀ init c, before = init ++ [c] → isInlineBlank c = true → LineRun.isDocLine rest = false

theorem settled_nil (rest : Text) : Settled [] rest := by
  intro init c h
  exact absurd h (by simp)

theorem settled_append_singleton {c : Char} (hc : isInlineBlank c = false) (init rest : Text) :
    Settled (init ++ [c]) rest := by
  intro init' c' h hblank
  obtain ⟨-, hcc⟩ := List.append_inj' h rfl
  obtain rfl : c = c' := by simpa using hcc
  rw [hc] at hblank
  exact absurd hblank Bool.false_ne_true

theorem settled_of_ends {rest : Text} (h : LineRun.Ends rest) (before : Text) :
    Settled before rest := by
  intro init c _ _
  rcases h with rfl | ⟨after, rfl, -⟩
  · exact LineRun.isDocLine_nil
  · exact LineRun.isDocLine_lineFeed after

/-- At a settled place, white space before it is not the indentation of a doc line. -/
theorem Settled.isDocLine_eq_false {before ind rest : Text} (h : Settled (before ++ ind) rest)
    (hne : ind ≠ []) (hind : ∀ c ∈ ind, isInlineBlank c = true) :
    LineRun.isDocLine rest = false := by
  rcases List.eq_nil_or_concat ind with rfl | ⟨init, c, hc⟩
  · exact absurd rfl hne
  · rw [List.concat_eq_append] at hc
    exact h (before ++ init) c (by rw [hc, List.append_assoc]) (hind c (by simp [hc]))

namespace Shape

/-! ## Comments -/

/-- `text`, which stands between `before` and `rest`, is a comment. A block comment goes from an
opener to the first closer behind it. A run goes from the slashes of a doc line to the end of the
last one in an unbroken sequence of doc lines. -/
def IsComment (before text rest : Text) : Shape → Prop
  | .block => ∃ body, text = Block.opener ++ (body ++ Block.closer) ∧
      Text.Absent Block.closer body (Block.closer ++ rest)
  | .line => ∃ lead ind run, before = lead ++ ind ∧ Cursor.lineBegins true lead = true ∧
      (∀ c ∈ ind, isInlineBlank c = true) ∧ text = '/' :: '/' :: run ∧
      LineRun.isDocLine (text ++ rest) = true ∧ LineRun.Unbroken run rest ∧ LineRun.Ends rest

theorem IsComment.ne_nil {shape : Shape} {before text rest : Text}
    (h : IsComment before text rest shape) : text ≠ [] := by
  cases shape with
  | block =>
      obtain ⟨body, rfl, -⟩ := h
      exact List.cons_ne_nil _ _
  | line =>
      obtain ⟨-, -, run, -, -, -, rfl, -⟩ := h
      exact List.cons_ne_nil _ _

/-- The place behind a comment is settled. -/
theorem IsComment.settled {shape : Shape} {before text rest : Text}
    (h : IsComment before text rest shape) : Settled (before ++ text) rest := by
  cases shape with
  | block =>
      -- The slash of the closer stands before the place.
      obtain ⟨body, rfl, -⟩ := h
      have hlast : before ++ (Block.opener ++ (body ++ Block.closer))
          = (before ++ (Block.opener ++ (body ++ ['*']))) ++ ['/'] := by
        simp [Block.closer]
      rw [hlast]
      exact settled_append_singleton (by decide) _ _
  | line =>
      obtain ⟨-, -, -, -, -, -, -, -, -, hends⟩ := h
      exact settled_of_ends hends _

/-- A comment of a form stands in the source where the span is. -/
def CommentAt (source : Text) (s : Span) (shape : Shape) : Prop :=
  ∃ before text rest, source = before ++ (text ++ rest) ∧ IsComment before text rest shape ∧
    s = ⟨before.byteLength, (before ++ text).byteLength⟩

/-- The span of a comment covers its text. -/
theorem CommentAt.exists_slice {source : Text} {s : Span} {shape : Shape}
    (h : shape.CommentAt source s) :
    ∃ before rest, shape.IsComment before (s.slice source) rest := by
  obtain ⟨before, text, rest, rfl, hcomment, rfl⟩ := h
  refine ⟨before, rest, ?_⟩
  rw [← List.append_assoc, Span.slice_append]
  exact hcomment

/-- A search finds a comment of its form in the text ahead. -/
theorem exists_of_nextFrom {shape : Shape} {before t : Text} {s : Span}
    (h : shape.nextFrom (Cursor.between before t) = some s) :
    ∃ gap text rest, t = gap ++ (text ++ rest) ∧ IsComment (before ++ gap) text rest shape ∧
      s = ⟨(before ++ gap).byteLength, (before ++ gap ++ text).byteLength⟩ := by
  cases shape with
  | block =>
      obtain ⟨gap, body, rest, rfl, -, hbody, rfl⟩ := Block.first?_eq_some_iff.mp h
      refine ⟨gap, Block.opener ++ (body ++ Block.closer), rest, ?_, ⟨body, rfl, hbody⟩, ?_⟩
      · simp only [List.append_assoc]
      · simp only [Text.byteLength_append, Block.byteLength_opener, Block.byteLength_closer,
          Cursor.offset_between, Nat.add_assoc]
  | line =>
      obtain ⟨lead, line, rfl, -, hfresh, hline, rfl⟩ := LineRun.first?_eq_some_iff.mp h
      obtain ⟨ind, run, rest, rfl, hind, hrun, hends, hindent, hstop⟩ := LineRun.exists_run hline
      refine ⟨lead ++ ind, '/' :: '/' :: run, rest, (List.append_assoc _ _ _).symm, ?_, ?_⟩
      · refine ⟨before ++ lead, ind, run, (List.append_assoc _ _ _).symm, ?_, hind, rfl, ?_, hrun,
          hends⟩
        · rwa [Cursor.lineBegins_append]
        · rwa [LineRun.isDocLine_append hind] at hline
      · rw [hindent, hstop]
        simp only [Text.byteLength_append, Cursor.offset_between, Nat.add_assoc]

/-! ## Searching from a later place -/

/-- From a settled place on, a comment that an earlier search found ahead is found again. -/
theorem nextFrom_of_append {shape : Shape} {before mid rest : Text} {s : Span}
    (h : shape.nextFrom (Cursor.between before (mid ++ rest)) = some s)
    (hle : (before ++ mid).byteLength ≤ s.start) (hsettled : Settled (before ++ mid) rest) :
    shape.nextFrom (Cursor.between (before ++ mid) rest) = some s := by
  rw [Text.byteLength_append] at hle
  cases shape with
  | block =>
      show Block.first? (before ++ mid).byteLength rest = some s
      rw [Text.byteLength_append]
      exact Block.first?_of_append h hle
  | line =>
      show LineRun.first? (before ++ mid).byteLength (Cursor.lineBegins true (before ++ mid)) rest
        = some s
      rw [Text.byteLength_append, Cursor.lineBegins_append]
      refine LineRun.first?_of_append h hle ?_
      rintro init c rfl
      exact hsettled (before ++ init) c (List.append_assoc _ _ _).symm

/-- If a search finds nothing, nothing is found from a later place. -/
theorem nextFrom_eq_none_of_append {shape : Shape} {before mid rest : Text}
    (h : shape.nextFrom (Cursor.between before (mid ++ rest)) = none) :
    shape.nextFrom (Cursor.between (before ++ mid) rest) = none := by
  cases shape with
  | block =>
      show Block.first? (before ++ mid).byteLength rest = none
      rw [Text.byteLength_append]
      exact Block.first?_eq_none_of_append h
  | line =>
      show LineRun.first? (before ++ mid).byteLength (Cursor.lineBegins true (before ++ mid)) rest
        = none
      rw [Text.byteLength_append, Cursor.lineBegins_append]
      exact LineRun.first?_eq_none_of_append h

end Shape

end DocDigest
