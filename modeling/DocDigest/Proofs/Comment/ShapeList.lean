import DocDigest.Proofs.Comment.BlankLine

/-!
# How the shapes are listed

A scan takes the comment that starts first, and of two that start together the one whose shape is
listed first. Such a tie never decides anything: a block comment and a run do not start at the same
place (`Shape.eq_of_start_eq`). So the comment that is taken depends on which shapes are listed
(`Scan.chosen_iff_of_distinct`), and neither their order nor their repetition makes a difference for
a scan (`scan_eq_of_same_members`).
-/

set_option autoImplicit false

namespace DocDigest

namespace Shape

variable {before t : Text} {s u : Span}

theorem occursAt_opener (h : block.nextFrom (Cursor.between before t) = some s) :
    Text.OccursAt Block.opener (before ++ t) s.start := by
  obtain ⟨gap, text, rest, rfl, ⟨body, rfl, -⟩, rfl⟩ := exists_of_nextFrom h
  refine ⟨before ++ gap, body ++ (Block.closer ++ rest), ?_, rfl⟩
  simp only [List.append_assoc]

/-- Of what the searches from one place find, only comments of the same form start together. -/
theorem eq_of_start_eq {shape other : Shape}
    (hs : shape.nextFrom (Cursor.between before t) = some s)
    (hu : other.nextFrom (Cursor.between before t) = some u) (hstart : s.start = u.start) :
    shape = other := by
  cases shape with
  | block =>
      cases other with
      | block =>
          rfl
      | line =>
          have hopener := occursAt_opener hs
          rw [hstart] at hopener
          exact absurd hopener (not_occursAt_opener hu)
  | line =>
      cases other with
      | block =>
          have hopener := occursAt_opener hu
          rw [← hstart] at hopener
          exact absurd hopener (not_occursAt_opener hs)
      | line =>
          rfl

end Shape

namespace Scan

/-- Where no two shapes have comments that start together, the comment to take is the one that
starts first, whatever the order of the shapes. -/
theorem chosen_iff_of_distinct {search : Shape → Option Span}
    (hdistinct : ∀ a b s t, search a = some s → search b = some t → s.start = t.start → a = b)
    {shapes : List Shape} {s : Span} :
    Chosen search shapes s ↔
      (∃ shape ∈ shapes, search shape = some s) ∧
        ∀ other ∈ shapes, ∀ t, search other = some t → s.start ≤ t.start := by
  constructor
  · intro h
    exact h.exists_le
  · rintro ⟨⟨shape, hmem, hshape⟩, hle⟩
    -- The shape may be listed more than once: its first mention has other shapes before it only.
    obtain ⟨sooner, later, rfl, hfirst⟩ := List.eq_append_cons_of_mem hmem
    refine ⟨sooner, shape, later, rfl, hshape, ?_, ?_⟩
    · intro other hother t ht
      have hlet : s.start ≤ t.start := hle other (List.mem_append_left _ hother) t ht
      have hne : s.start ≠ t.start := by
        intro heq
        have hsame := hdistinct shape other s t hshape ht heq
        rw [← hsame] at hother
        exact hfirst hother
      omega
    · intro other hother t ht
      exact hle other (List.mem_append_right _ (List.mem_cons_of_mem _ hother)) t ht

/-- A scan for the same shapes, listed in any way, does the same. -/
theorem FreshScan.of_same_members {shapes shapes' : List Shape}
    (hsame : ∀ shape, shape ∈ shapes ↔ shape ∈ shapes') {before t : Text} {spans : List Span}
    (h : FreshScan shapes (before ++ t) before.byteLength spans) :
    FreshScan shapes' (before ++ t) before.byteLength spans := by
  induction spans generalizing before t with
  | nil =>
      apply FreshScan.nil_of_eq_none
      intro shape hmem
      exact h.eq_none_of_nil ((hsame shape).mpr hmem)
  | cons a spans ih =>
      obtain ⟨hchosen, gap, text, rest, rfl, -, -, -, rfl, hrest⟩ := h.exists_of_cons
      refine FreshScan.cons_of_chosen ?_ (ih hrest)
      rw [chosen_iff_of_distinct fun _ _ _ _ => Shape.eq_of_start_eq] at hchosen ⊢
      simpa only [hsame] using hchosen

end Scan

/-- A scan depends on which shapes it looks for and not on how they are listed, in which order and
how often. If there is only one of them, it finds what the search for this shape alone finds. -/
theorem scan_eq_of_same_members {shapes shapes' : List Shape}
    (hsame : ∀ shape, shape ∈ shapes ↔ shape ∈ shapes') (source : Text) :
    scan shapes source = scan shapes' source ∧
      ∀ shape, shapes' = [shape] → scan shapes source = shape.spans source := by
  have hscan : Scan.FreshScan shapes ([] ++ source) (Text.byteLength []) (scan shapes source) :=
    Scan.freshScan_scan shapes source
  have hscan' := hscan.of_same_members hsame
  constructor
  · exact hscan'.unique (Scan.freshScan_scan shapes' source)
  · rintro shape rfl
    exact hscan'.unique (Scan.freshScan_spans shape source)

/-- A run and a block comment that take in openers and doc lines of each other, with the shapes
listed the other way round and more than once, and with one shape listed twice. -/
theorem scan_eq_of_repeated_shapes :
    let source : Text := "//** * a\n/** // * b\n// * c */".toList
    scan [.line, .block, .line] source = scan [.block, .line] source ∧
      scan [.line, .line] source = Shape.line.spans source := by
  intro source
  have hboth : ∀ shape : Shape,
      shape ∈ [Shape.line, .block, .line] ↔ shape ∈ [Shape.block, .line] := by
    intro shape
    cases shape <;> decide
  have hone : ∀ shape : Shape, shape ∈ [Shape.line, .line] ↔ shape ∈ [Shape.line] := by
    intro shape
    cases shape <;> decide
  exact ⟨(scan_eq_of_same_members hboth source).1,
    (scan_eq_of_same_members hone source).2 .line rfl⟩

end DocDigest
