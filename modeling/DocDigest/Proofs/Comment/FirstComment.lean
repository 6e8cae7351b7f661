import DocDigest.Proofs.Comment.Coverage
import DocDigest.Proofs.Comment.Finds

/-!
# The first comment from an offset on

A search from an offset is to give the comment that starts first among those that start at the
offset or behind it. For block comments it does, from every place of a source. The search for runs
looks at the lines that begin at the offset or behind it. From inside the indentation of a doc line,
and from its slashes if they are indented, it does not see the line (`Span.Indented`), and gives the
first of the runs that it sees. So it gives the first run from exactly the offsets that do not stand
there (`Shape.nextAt_isFirst`).
-/

set_option autoImplicit false

namespace DocDigest

namespace Span

/-- The span with a property that starts first, or nothing if no span has the property. -/
def IsFirst (p : Span → Prop) : Option Span → Prop
  | some s => p s ∧ ∀ t, p t → s.start ≤ t.start
  | none => ∀ t, ¬ p t

theorem isFirst_of_exists_le {p : Span → Prop} {result : Option Span}
    (hfound : ∀ s, result = some s → p s)
    (hle : ∀ t, p t → ∃ s, result = some s ∧ s.start ≤ t.start) : IsFirst p result := by
  cases result with
  | none =>
      intro t ht
      obtain ⟨s, hs, -⟩ := hle t ht
      exact absurd hs.symm (Option.some_ne_none s)
  | some s =>
      refine ⟨hfound s rfl, fun t ht => ?_⟩
      obtain ⟨u, hu, hut⟩ := hle t ht
      obtain rfl : s = u := Option.some.inj hu
      exact hut

theorem IsFirst.congr {p q : Span → Prop} {result : Option Span} (h : IsFirst p result)
    (hpq : ∀ s, p s ↔ q s) : IsFirst q result := by
  rwa [← funext fun s => propext (hpq s)]

/-- The offset stands in the indentation of a span or at the start of it: behind the beginning of a
line, and between the beginning of the line and the span there is only white space. -/
def Indented (source : Text) (o : Nat) (s : Span) : Prop :=
  ∃ lead ind rest, source = lead ++ (ind ++ rest) ∧ (lead = [] ∨ lead.getLast? = some '\n') ∧
    (∀ c ∈ ind, isInlineBlank c = true) ∧ lead.byteLength < o ∧ o ≤ s.start ∧
    s.start = (lead ++ ind).byteLength

end Span

/-- No line begins behind the first character of an indentation. -/
theorem Cursor.byteLength_le_of_lineBegins {lead ind rest front back : Text}
    (heq : lead ++ (ind ++ rest) = front ++ back) (hind : ∀ c ∈ ind, isInlineBlank c = true)
    (hbegin : lineBegins true front = true)
    (hle : front.byteLength ≤ (lead ++ ind).byteLength) : front.byteLength ≤ lead.byteLength := by
  refine Nat.not_lt.mp fun hlt => ?_
  obtain ⟨mid, rfl, hmid⟩ := Text.exists_append_of_byteLength_le heq (by omega)
  rw [Text.byteLength_append] at hlt
  have hlen : mid.byteLength ≤ ind.byteLength := by
    simp only [Text.byteLength_append] at hle
    omega
  obtain ⟨more, rfl, -⟩ := Text.exists_append_of_byteLength_le hmid.symm hlen
  rw [lineBegins_append] at hbegin
  rcases eq_nil_or_eq_append_lineFeed hbegin with rfl | ⟨init, rfl⟩
  · exact absurd hlt (Nat.lt_irrefl _)
  · -- The line feed before the line would be white space inside a line.
    exact absurd (hind '\n' (by simp)) (by decide)

namespace LineRun

/-- What stands behind the slashes of a doc line. -/
theorem exists_of_isDocLine_slashes {t : Text} (h : isDocLine ('/' :: '/' :: t) = true) :
    ∃ gap rest, t = gap ++ '*' :: rest ∧ ∀ c ∈ gap, isInlineBlank c = true := by
  obtain ⟨ind, gap, rest, heq, hind, hgap⟩ := isDocLine_iff.mp h
  cases ind with
  | nil =>
      simp only [List.nil_append, List.cons.injEq, true_and] at heq
      exact ⟨gap, rest, heq, hgap⟩
  | cons c cs =>
      obtain ⟨rfl, -⟩ := List.cons_eq_cons.mp heq
      exact absurd (hind '/' List.mem_cons_self) (by decide)

end LineRun

namespace Shape

variable {source before t : Text} {s u : Span} {o : Nat}

/-- Comments of a form start at the marks of the form and nowhere else. -/
theorem exists_commentAt_iff {shape : Shape} :
    (∃ s, shape.CommentAt source s ∧ s.start = o) ↔ shape.MarkAt source o := by
  cases shape with
  | block =>
      constructor
      · rintro ⟨s, ⟨before, text, rest, rfl, ⟨body, rfl, -⟩, rfl⟩, rfl⟩
        exact ⟨before, body, rest, by simp only [List.append_assoc], rfl⟩
      · rintro ⟨before, body, after, rfl, rfl⟩
        rcases Text.absent_or_first Block.closer (body ++ (Block.closer ++ after))
          with habsent | ⟨body', rest, heq, hbody⟩
        · rw [Text.absent_nil_iff Block.closer_ne_nil] at habsent
          exact absurd ⟨body, after, List.append_assoc _ _ _⟩ habsent
        · rw [heq]
          refine ⟨_, ⟨before, Block.opener ++ (body' ++ Block.closer), rest, ?_,
            ⟨body', rfl, hbody⟩, rfl⟩, rfl⟩
          simp only [List.append_assoc]
  | line =>
      constructor
      · rintro ⟨s, ⟨-, -, rest, rfl, ⟨lead, ind, run, rfl, hlead, hind, rfl, hdoc, -, -⟩, rfl⟩, rfl⟩
        obtain ⟨gap, after, hrun, hgap⟩ := LineRun.exists_of_isDocLine_slashes hdoc
        refine ⟨lead, ind, gap, after, ?_, ?_, hind, hgap, rfl⟩
        · rw [← hrun, List.append_assoc]
          rfl
        · exact Cursor.lineBegins_iff.mp hlead
      · rintro ⟨lead, ind, gap, after, rfl, hlead, hind, hgap, rfl⟩
        obtain ⟨run, rest, heq, hrun, hends⟩ := LineRun.exists_unbroken (gap ++ '*' :: after)
        have hdoc := LineRun.isDocLine_mark hgap after
        rw [heq] at hdoc ⊢
        refine ⟨_, ⟨lead ++ ind, '/' :: '/' :: run, rest, ?_, ⟨lead, ind, run, rfl,
          Cursor.lineBegins_iff.mpr hlead, hind, rfl, hdoc, hrun, hends⟩, rfl⟩, rfl⟩
        rw [List.append_assoc]
        rfl

/-- Where a comment stops depends on what begins with it: the first closer, or the end of the
unbroken sequence of doc lines. -/
theorem IsComment.byteLength_eq {shape : Shape} {text rest before' text' rest' : Text}
    (h : IsComment before text rest shape) (h' : IsComment before' text' rest' shape)
    (heq : text ++ rest = text' ++ rest') : text.byteLength = text'.byteLength := by
  cases shape with
  | block =>
      obtain ⟨body, rfl, hbody⟩ := h
      obtain ⟨body', rfl, hbody'⟩ := h'
      simp only [List.append_assoc, List.append_cancel_left_eq] at heq
      obtain ⟨mid, hmid, -⟩ := hbody.exists_append heq
      obtain ⟨mid', hmid', -⟩ := hbody'.exists_append heq.symm
      have hlen := congrArg Text.byteLength hmid
      have hlen' := congrArg Text.byteLength hmid'
      simp only [Text.byteLength_append] at hlen hlen' ⊢
      omega
  | line =>
      obtain ⟨-, -, run, -, -, -, rfl, -, hrun, hends⟩ := h
      obtain ⟨-, -, run', -, -, -, rfl, -, hrun', hends'⟩ := h'
      simp only [List.cons_append, List.cons.injEq, true_and] at heq
      have hstop := LineRun.stop_append hrun 0
      have hstop' := LineRun.stop_append hrun' 0
      rw [LineRun.stop_of_ends hends] at hstop
      rw [← heq, hstop, LineRun.stop_of_ends hends', Nat.zero_add, Nat.zero_add] at hstop'
      simp only [Text.byteLength, hstop']

/-- No two comments of a form start together. -/
theorem CommentAt.eq_of_start_eq {shape : Shape} (hs : shape.CommentAt source s)
    (hu : shape.CommentAt source u) (hstart : s.start = u.start) : s = u := by
  obtain ⟨before, text, rest, rfl, hcomment, rfl⟩ := hs
  obtain ⟨before', text', rest', heq, hcomment', rfl⟩ := hu
  have hlen : before.byteLength = before'.byteLength := hstart
  obtain ⟨mid, rfl, htext⟩ := Text.exists_append_of_byteLength_le heq (Nat.le_of_eq hlen)
  rw [Text.byteLength_append] at hlen
  obtain rfl : mid = [] := Text.eq_nil_of_byteLength_eq_zero (by omega)
  have hstop := hcomment.byteLength_eq hcomment' htext
  rw [List.append_nil, Text.byteLength_append, Text.byteLength_append, hstop]

/-- What a search finds is a comment that does not start before the place. -/
theorem commentAt_of_nextFrom {shape : Shape}
    (h : shape.nextFrom (Cursor.between before t) = some s) :
    shape.CommentAt (before ++ t) s ∧ before.byteLength ≤ s.start := by
  refine ⟨?_, byteLength_le_start h⟩
  obtain ⟨gap, text, rest, rfl, hcomment, rfl⟩ := exists_of_nextFrom h
  exact ⟨before ++ gap, text, rest, (List.append_assoc _ _ _).symm, hcomment, rfl⟩

/-! ## The search for runs -/

/-- The search for runs finds none whose line begins before the place. -/
theorem not_indented_of_nextFrom (h : line.nextFrom (Cursor.between before t) = some s) :
    ¬ s.Indented (before ++ t) before.byteLength := by
  rintro ⟨lead, ind, rest, heq, -, hind, hlt, -, hstart⟩
  obtain ⟨gap, first, rfl, -, hbegin, -, rfl⟩ := LineRun.first?_eq_some_iff.mp h
  have hfront : lead ++ (ind ++ rest) = (before ++ gap) ++ first := by
    rw [← heq]
    simp only [List.append_assoc]
  have hbegin' : Cursor.lineBegins true (before ++ gap) = true := by
    rwa [Cursor.lineBegins_append]
  have hle : (before ++ gap).byteLength ≤ (lead ++ ind).byteLength := by
    rw [← hstart, Text.byteLength_append]
    exact Nat.le_add_right _ _
  have hbound := Cursor.byteLength_le_of_lineBegins hfront hind hbegin' hle
  rw [Text.byteLength_append] at hbound
  omega

/-- The search for runs sees each one whose line begins at the place or behind it. -/
theorem exists_nextFrom_le_of_not_indented (h : line.CommentAt (before ++ t) s)
    (hle : before.byteLength ≤ s.start)
    (hseen : ¬ s.Indented (before ++ t) before.byteLength) :
    ∃ u, line.nextFrom (Cursor.between before t) = some u ∧ u.start ≤ s.start := by
  obtain ⟨-, -, rest, heq, ⟨lead, ind, run, rfl, hlead, hind, rfl, hdoc, -, -⟩, rfl⟩ := h
  rw [List.append_assoc lead] at heq
  have hahead : before.byteLength ≤ lead.byteLength := by
    refine Nat.not_lt.mp fun hlt => hseen ?_
    exact ⟨lead, ind, _, heq, Cursor.lineBegins_iff.mp hlead, hind, hlt, hle, rfl⟩
  exact exists_nextFrom_line_le heq hlead hind hdoc hahead

/-- An offset from which the search gives the first run of all stands in the indentation of none. -/
theorem not_indented_of_isFirst {source : Text} {o : Nat} {s : Span}
    (hseen : Span.IsFirst (fun u => line.CommentAt source u ∧ o ≤ u.start ∧ ¬ u.Indented source o)
      (line.nextAt source o))
    (hall : Span.IsFirst (fun u => line.CommentAt source u ∧ o ≤ u.start) (line.nextAt source o))
    (hs : line.CommentAt source s) : ¬ s.Indented source o := by
  rintro ⟨lead, ind, rest, rfl, -, hind, hlt, hle, hstart⟩
  cases hnext : line.nextAt (lead ++ (ind ++ rest)) o with
  | none =>
      rw [hnext] at hall
      exact hall s ⟨hs, hle⟩
  | some u =>
      rw [hnext] at hall hseen
      obtain ⟨⟨⟨-, -, rest', heq, ⟨lead', ind', run, rfl, hlead', hind', rfl, -, -, -⟩, rfl⟩, hle',
        hnot⟩, -⟩ := hseen
      have hfirst := hall.2 s ⟨hs, hle⟩
      -- The line of the run begins no later than the other one, so before the offset.
      rw [List.append_assoc lead'] at heq
      have hahead : lead'.byteLength ≤ (lead ++ ind).byteLength := by
        rw [← hstart]
        refine Nat.le_trans ?_ hfirst
        rw [Text.byteLength_append]
        exact Nat.le_add_right _ _
      have hbound := Cursor.byteLength_le_of_lineBegins heq hind hlead' hahead
      exact hnot ⟨lead', ind', _, heq, Cursor.lineBegins_iff.mp hlead', hind',
        Nat.lt_of_le_of_lt hbound hlt, hle', rfl⟩

/-- At each mark of a form, one comment of the form starts, and comments start nowhere else. From
any place of a source, the search for block comments gives the first one that starts there or behind
it, or nothing if there is none. The search for runs does so for the runs in whose indentation the
place does not stand. It gives the first run of all from exactly the places that do not stand in the
indentation of any. -/
theorem nextAt_isFirst {source : Text} {o : Nat} (ho : source.IsBoundary o) :
    (∀ (shape : Shape) (p : Nat),
        (∃ s, shape.CommentAt source s ∧ s.start = p) ↔ shape.MarkAt source p) ∧
      (∀ (shape : Shape) (s u : Span), shape.CommentAt source s → shape.CommentAt source u →
        s.start = u.start → s = u) ∧
      Span.IsFirst (fun s => block.CommentAt source s ∧ o ≤ s.start) (block.nextAt source o) ∧
      Span.IsFirst (fun s => line.CommentAt source s ∧ o ≤ s.start ∧ ¬ s.Indented source o)
        (line.nextAt source o) ∧
      (Span.IsFirst (fun s => line.CommentAt source s ∧ o ≤ s.start) (line.nextAt source o) ↔
        ∀ s, line.CommentAt source s → ¬ s.Indented source o) := by
  obtain ⟨before, t, rfl, rfl⟩ := ho
  have hblock : Span.IsFirst
      (fun s => block.CommentAt (before ++ t) s ∧ before.byteLength ≤ s.start)
      (block.nextAt (before ++ t) before.byteLength) := by
    rw [nextAt_between]
    refine Span.isFirst_of_exists_le (fun s hs => commentAt_of_nextFrom hs) ?_
    rintro s ⟨hs, hle⟩
    exact exists_nextFrom_block_le (exists_commentAt_iff.mp ⟨s, hs, rfl⟩) hle
  have hline : Span.IsFirst
      (fun s => line.CommentAt (before ++ t) s ∧ before.byteLength ≤ s.start ∧
        ¬ s.Indented (before ++ t) before.byteLength)
      (line.nextAt (before ++ t) before.byteLength) := by
    rw [nextAt_between]
    refine Span.isFirst_of_exists_le (fun s hs => ?_) ?_
    · obtain ⟨hcomment, hle⟩ := commentAt_of_nextFrom hs
      exact ⟨hcomment, hle, not_indented_of_nextFrom hs⟩
    · rintro s ⟨hs, hle, hseen⟩
      exact exists_nextFrom_le_of_not_indented hs hle hseen
  refine ⟨fun shape p => exists_commentAt_iff, fun shape s u => CommentAt.eq_of_start_eq, hblock,
    hline, ?_, ?_⟩
  · intro hall s hs
    exact not_indented_of_isFirst hline hall hs
  · intro hnone
    refine hline.congr fun s => ?_
    constructor
    · rintro ⟨hs, hle, -⟩
      exact ⟨hs, hle⟩
    · rintro ⟨hs, hle⟩
      exact ⟨hs, hle, hnone s hs⟩

/-- From inside a block comment and from the indentation of a doc line, the comments behind them are
found. -/
theorem nextAt_isFirst_behind_comments :
    let source : Text := "/** a */ /** b */\n  // * c\n// * d".toList
    source.IsBoundary 1 ∧ source.IsBoundary 19 ∧
      Span.IsFirst (fun s => block.CommentAt source s ∧ 1 ≤ s.start) (some ⟨9, 17⟩) ∧
      Span.IsFirst (fun s => line.CommentAt source s ∧ 19 ≤ s.start ∧ ¬ s.Indented source 19)
        (some ⟨27, 33⟩) := by
  intro source
  have hinside : source.IsBoundary 1 :=
    ⟨"/".toList, "** a */ /** b */\n  // * c\n// * d".toList, by decide, by decide⟩
  have hindent : source.IsBoundary 19 :=
    ⟨"/** a */ /** b */\n ".toList, " // * c\n// * d".toList, by decide, by decide⟩
  have hblock : block.nextAt source 1 = some ⟨9, 17⟩ := by decide
  have hline : line.nextAt source 19 = some ⟨27, 33⟩ := by decide
  refine ⟨hinside, hindent, ?_, ?_⟩
  · rw [← hblock]
    exact (nextAt_isFirst hinside).2.2.1
  · rw [← hline]
    exact (nextAt_isFirst hindent).2.2.2.1

/-- At the slashes of a doc line stands a run, but if they are indented, the search from there does
not find it. -/
theorem nextAt_misses_indented_run :
    ¬ ∀ (shape : Shape) (source : Text) (o : Nat), source.IsBoundary o →
      Span.IsFirst (fun s => shape.CommentAt source s ∧ o ≤ s.start) (shape.nextAt source o) := by
  intro hall
  have hfirst := hall line "  // * x".toList 2
    ⟨"  ".toList, "// * x".toList, by decide, by decide⟩
  have hnone : line.nextAt "  // * x".toList 2 = none := by decide
  rw [hnone] at hfirst
  have hblank : ∀ n, ∀ c ∈ List.replicate n ' ', isInlineBlank c = true := by
    intro n c hc
    rw [List.eq_of_mem_replicate hc]
    rfl
  have hmark : line.MarkAt "  // * x".toList 2 :=
    ⟨[], "  ".toList, " ".toList, " x".toList, by decide, Or.inl rfl, hblank 2, hblank 1,
      by decide⟩
  obtain ⟨s, hs, hstart⟩ := exists_commentAt_iff.mpr hmark
  exact hfirst s ⟨hs, Nat.le_of_eq hstart.symm⟩

end Shape

end DocDigest
