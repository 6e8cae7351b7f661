import DocDigest.Proofs.Comment.Outlook

/-!
# Well-formed spans

Whatever the source and the shapes, a scan comes to its end, and its spans are well formed
(`Scan.scan_wellFormed`): each is a stretch of whole characters, comes behind the one before, and
has the form of a block comment or of a run, and the stretches between them and their own make up
the source.

That a comment has its form is seen where it stands, between `before` and `rest`
(`Shape.IsComment.hasForm`). The rest is induction along the scan.
-/

set_option autoImplicit false

namespace DocDigest

namespace Span

/-! ## The form of a span -/

/-- A span covers at least one character of the source, and whole characters only. -/
structure IsIn (source : Text) (s : Span) : Prop where
  lt : s.start < s.stop
  le : s.stop ≤ source.byteLength
  start_boundary : source.IsBoundary s.start
  stop_boundary : source.IsBoundary s.stop

/-- A span goes from an opener to the end of the first closer behind it. -/
structure IsBlock (source : Text) (s : Span) : Prop where
  opener : Block.opener <+: s.slice source
  closer : Block.closer <:+ s.slice source
  five_le : 5 ≤ s.length
  no_sooner_closer : ∀ o, s.start + 3 ≤ o → o < s.stop - 2 → ¬ Text.OccursAt Block.closer source o

/-- A span goes from the slashes of a doc line to the end of that line or of a later one, and all
its lines are doc lines. -/
structure IsRun (source : Text) (s : Span) : Prop where
  slashes : ['/', '/'] <+: s.slice source
  indented : ∃ lead ind after, source = lead ++ (ind ++ after) ∧
    (lead = [] ∨ lead.getLast? = some '\n') ∧ (∀ c ∈ ind, isInlineBlank c = true) ∧
    s.start = (lead ++ ind).byteLength
  ends : s.stop = source.byteLength ∨ Text.OccursAt ['\n'] source s.stop
  docLines : ∀ l ∈ Text.splitOn '\n' (s.slice source), ∃ ind gap rest,
    l = ind ++ '/' :: '/' :: (gap ++ '*' :: rest) ∧ (∀ c ∈ ind, isInlineBlank c = true) ∧
    ∀ c ∈ gap, isInlineBlank c = true

/-- A span has the form of a comment of a shape. -/
def HasForm (source : Text) (s : Span) : Shape → Prop
  | .block => s.IsBlock source
  | .line => s.IsRun source

/-- The stretches of a source from an offset on: before each span the one that leads up to it, then
the span's own, and at last the one behind all spans. -/
def stretches (source : Text) (pos : Nat) : List Span → List Text
  | [] => [Span.slice ⟨pos, source.byteLength⟩ source]
  | s :: spans =>
    Span.slice ⟨pos, s.start⟩ source :: s.slice source :: stretches source s.stop spans

theorem isIn_append {text : Text} (hne : text ≠ []) (before rest : Text) :
    IsIn (before ++ text ++ rest) ⟨before.byteLength, (before ++ text).byteLength⟩ := by
  have hpos := Text.byteLength_pos hne
  refine ⟨?_, ?_, ?_, Text.isBoundary_append _ _⟩
  · rw [Text.byteLength_append]
    show before.byteLength < before.byteLength + text.byteLength
    omega
  · rw [Text.byteLength_append (before ++ text)]
    exact Nat.le_add_right _ _
  · rw [List.append_assoc]
    exact Text.isBoundary_append _ _

end Span

/-! ## Comments have their forms -/

namespace LineRun

/-- The lines of a run are doc lines: the first one, and each one behind a line feed of the run. -/
theorem isDocLine_of_unbroken {l : Text} {ls : List Text} {rest : Text}
    (hfirst : isDocLine (l ++ Text.below ls ++ rest) = true)
    (hrun : Unbroken (l ++ Text.below ls) rest) (hends : Ends rest) :
    ∀ m ∈ l :: ls, isDocLine m = true := by
  induction ls generalizing l with
  | nil =>
      rw [Text.below_nil, List.append_nil] at hfirst
      intro m hm
      rw [List.mem_singleton.mp hm]
      rcases hends with rfl | ⟨after, rfl, -⟩
      · rwa [List.append_nil] at hfirst
      · rwa [isDocLine_append_lineFeed] at hfirst
  | cons k ls ih =>
      rw [Text.below_cons] at hfirst hrun
      obtain ⟨-, hbelow⟩ := unbroken_append.mp hrun
      obtain ⟨hnext, hrest⟩ := unbroken_cons.mp hbelow
      intro m hm
      rcases List.mem_cons.mp hm with rfl | hm
      · rwa [List.append_assoc, List.cons_append, isDocLine_append_lineFeed] at hfirst
      · exact ih (hnext rfl) hrest m hm

end LineRun

namespace Shape

/-- A block comment has its form where it stands. -/
theorem isBlock_append {body rest : Text} (before : Text)
    (hbody : Text.Absent Block.closer body (Block.closer ++ rest)) :
    Span.IsBlock (before ++ (Block.opener ++ (body ++ Block.closer)) ++ rest)
      ⟨before.byteLength, (before ++ (Block.opener ++ (body ++ Block.closer))).byteLength⟩ := by
  have hslice := Span.slice_append before (Block.opener ++ (body ++ Block.closer)) rest
  have hlen : (before ++ (Block.opener ++ (body ++ Block.closer))).byteLength
      = before.byteLength + (3 + (body.byteLength + 2)) := by
    simp only [Text.byteLength_append, Block.byteLength_opener, Block.byteLength_closer]
  refine ⟨?_, ?_, ?_, ?_⟩
  · rw [hslice]
    exact List.prefix_append _ _
  · rw [hslice, ← List.append_assoc]
    exact List.suffix_append _ _
  · rw [Span.length, hlen]
    show 5 ≤ before.byteLength + (3 + (body.byteLength + 2)) - before.byteLength
    omega
  · intro o hstart hstop hocc
    -- Behind the opener, no closer begins before the end of the body.
    have hsource : before ++ (Block.opener ++ (body ++ Block.closer)) ++ rest
        = (before ++ Block.opener) ++ (body ++ (Block.closer ++ rest)) := by
      simp only [List.append_assoc]
    have hopener : (before ++ Block.opener).byteLength = before.byteLength + 3 := by
      rw [Text.byteLength_append, Block.byteLength_opener]
    rw [hsource] at hocc
    have hle := hbody.le_of_occursAt hocc (by rw [hopener]; exact hstart)
    rw [Text.byteLength_append, hopener] at hle
    rw [hlen] at hstop
    have hlt : o < before.byteLength + (3 + (body.byteLength + 2)) - 2 := hstop
    omega

/-- A run has its form where it stands. -/
theorem isRun_append {lead ind run rest : Text} (hlead : Cursor.lineBegins true lead = true)
    (hind : ∀ c ∈ ind, isInlineBlank c = true)
    (hdoc : LineRun.isDocLine ('/' :: '/' :: run ++ rest) = true)
    (hrun : LineRun.Unbroken run rest) (hends : LineRun.Ends rest) :
    Span.IsRun (lead ++ ind ++ '/' :: '/' :: run ++ rest)
      ⟨(lead ++ ind).byteLength, (lead ++ ind ++ '/' :: '/' :: run).byteLength⟩ := by
  have hslice := Span.slice_append (lead ++ ind) ('/' :: '/' :: run) rest
  refine ⟨?_, ⟨lead, ind, '/' :: '/' :: run ++ rest, ?_, ?_, hind, rfl⟩, ?_, ?_⟩
  · rw [hslice]
    exact ⟨run, rfl⟩
  · simp only [List.append_assoc]
  · exact Cursor.lineBegins_iff.mp hlead
  · rcases hends with rfl | ⟨after, rfl, -⟩
    · exact Or.inl (by rw [List.append_nil])
    · exact Or.inr ⟨_, after, rfl, rfl⟩
  · rw [hslice]
    intro m hm
    -- The run is its first line and the lines below it.
    cases hlines : Text.splitOn '\n' ('/' :: '/' :: run) with
    | nil =>
        exact absurd hlines (Text.splitOn_ne_nil _ _)
    | cons l ls =>
        have hjoin := Text.joinWith_splitOn '\n' ('/' :: '/' :: run)
        rw [hlines, Text.joinWith_cons] at hjoin
        have hunbroken : LineRun.Unbroken ('/' :: '/' :: run) rest :=
          @LineRun.unbroken_mark [] run rest (by simp) hrun
        rw [hlines] at hm
        rw [← hjoin] at hdoc hunbroken
        exact LineRun.isDocLine_iff.mp (LineRun.isDocLine_of_unbroken hdoc hunbroken hends m hm)

/-- A comment has the form of its shape where it stands. -/
theorem IsComment.hasForm {shape : Shape} {before text rest : Text}
    (h : IsComment before text rest shape) :
    Span.HasForm (before ++ text ++ rest)
      ⟨before.byteLength, (before ++ text).byteLength⟩ shape := by
  cases shape with
  | block =>
      obtain ⟨body, rfl, hbody⟩ := h
      exact isBlock_append before hbody
  | line =>
      obtain ⟨lead, ind, run, rfl, hlead, hind, rfl, hdoc, hrun, hends⟩ := h
      exact isRun_append hlead hind hdoc hrun hends

end Shape

/-! ## The scan -/

namespace Scan

/-- Each span of a scan is a stretch of the source that has the form of one of the shapes. -/
theorem FreshScan.isIn_and_hasForm {shapes : List Shape} {before t : Text} {spans : List Span}
    (h : FreshScan shapes (before ++ t) before.byteLength spans) {s : Span} (hs : s ∈ spans) :
    s.IsIn (before ++ t) ∧ ∃ shape ∈ shapes, s.HasForm (before ++ t) shape := by
  induction spans generalizing before t with
  | nil =>
      exact absurd hs List.not_mem_nil
  | cons a spans ih =>
      obtain ⟨-, gap, text, rest, rfl, hne, ⟨shape, hmem, hcomment⟩, -, rfl, hrest⟩ :=
        h.exists_of_cons
      have hsource : before ++ (gap ++ (text ++ rest)) = before ++ gap ++ text ++ rest := by
        simp only [List.append_assoc]
      rw [hsource]
      rcases List.mem_cons.mp hs with rfl | hs
      · exact ⟨Span.isIn_append hne _ _, shape, hmem, hcomment.hasForm⟩
      · exact ih hrest hs

/-- The stretches between the spans of a scan and their own make up what is ahead of it. -/
theorem FreshScan.flatten_stretches {shapes : List Shape} {before t : Text} {spans : List Span}
    (h : FreshScan shapes (before ++ t) before.byteLength spans) :
    (Span.stretches (before ++ t) before.byteLength spans).flatten = t := by
  induction spans generalizing before t with
  | nil =>
      have hslice := Span.slice_append before t []
      rw [List.append_nil] at hslice
      rw [Span.stretches, List.flatten_singleton, hslice]
  | cons a spans ih =>
      obtain ⟨-, gap, text, rest, rfl, -, -, -, rfl, hrest⟩ := h.exists_of_cons
      have hgap := Span.slice_append before gap (text ++ rest)
      have htext := Span.slice_append (before ++ gap) text rest
      have hbehind := ih hrest
      simp only [List.append_assoc] at hgap htext hbehind ⊢
      rw [Span.stretches, List.flatten_cons, List.flatten_cons, hgap, htext, hbehind]

/-- A scan of any source for any shapes comes to its end. Each of its spans is a stretch of at least
one whole character and has the form of one of the shapes, no span starts before the end of an
earlier one, and the stretches between the spans together with their own are the source. -/
theorem scan_wellFormed (shapes : List Shape) (source : Text) :
    (State.start shapes source).Yields (scan shapes source) ∧
      (∀ s ∈ scan shapes source,
        s.IsIn source ∧ ∃ shape ∈ shapes, s.HasForm source shape) ∧
      (scan shapes source).Pairwise (fun s t => s.stop ≤ t.start) ∧
      (Span.stretches source 0 (scan shapes source)).flatten = source := by
  have hscan : FreshScan shapes ([] ++ source) (Text.byteLength []) (scan shapes source) :=
    freshScan_scan shapes source
  exact ⟨yields_scan shapes source, fun s hs => hscan.isIn_and_hasForm hs, hscan.ordered,
    hscan.flatten_stretches⟩

end Scan

end DocDigest
