import DocDigest.Proofs.Comment.Coverage

/-!
# Empty plain comments

Four characters, an opener and a slash, are an empty plain comment by themselves: the closer shares
its star with the opener. But they open a block comment all the same if something closes it later,
and the text behind them up to there becomes part of it. `starts_at_empty_comment_iff` says exactly
when this happens.
-/

set_option autoImplicit false

namespace DocDigest

/-- A block comment that is no doc comment and holds nothing. -/
def Block.emptyComment : Text := ['/', '*', '*', '/']

/-! ## Comments of a scan -/

/-- Of two spans of a scan, the one that starts sooner ends before the other one starts. -/
theorem Scan.FreshScan.stop_le_of_start_lt {shapes : List Shape} {before t : Text}
    {spans : List Span} (h : FreshScan shapes (before ++ t) before.byteLength spans) {a b : Span}
    (ha : a ∈ spans) (hb : b ∈ spans) (hlt : a.start < b.start) : a.stop ≤ b.start := by
  obtain ⟨sooner, later, rfl⟩ := List.append_of_mem hb
  obtain ⟨-, hlater, hsooner⟩ := List.pairwise_append.mp h.ordered
  rcases List.mem_append.mp ha with ha | ha
  · exact hsooner a ha b List.mem_cons_self
  · rcases List.mem_cons.mp ha with rfl | ha
    · exact absurd hlt (Nat.lt_irrefl _)
    · have hle := (List.pairwise_cons.mp hlater).1 a ha
      have hb := (h.bounds hb).2
      omega

/-! ## At an empty plain comment -/

/-- A closer that stands behind an empty plain comment makes it the opener of a block comment. -/
theorem Block.markAt_of_emptyComment {source : Text} {o k : Nat}
    (hempty : Text.OccursAt emptyComment source o) (hle : o + 3 ≤ k)
    (hcloser : Text.OccursAt closer source k) : Shape.block.MarkAt source o := by
  obtain ⟨before, after, rfl, rfl⟩ := hempty
  exact Shape.markAt_block_iff.mpr ⟨⟨before, '/' :: after, rfl, rfl⟩, k, hle, hcloser⟩

/-- A comment that starts at an empty plain comment is a block that ends behind a later closer. -/
theorem Block.exists_closer_of_isComment {source lead text rest : Text} {shape : Shape}
    (hsource : source = lead ++ (text ++ rest)) (hcomment : shape.IsComment lead text rest)
    (hempty : Text.OccursAt emptyComment source lead.byteLength) :
    shape = .block ∧ ∃ k, lead.byteLength + 3 ≤ k ∧ Text.OccursAt closer source k := by
  subst hsource
  obtain ⟨after, hafter⟩ := Text.occursAt_append_iff.mp hempty
  cases shape with
  | line =>
      -- The second character of a run is a slash.
      obtain ⟨-, -, run, -, -, -, rfl, -⟩ := hcomment
      cases hafter
  | block =>
      obtain ⟨body, rfl, -⟩ := hcomment
      refine ⟨rfl, (lead ++ (opener ++ body)).byteLength, ?_, lead ++ (opener ++ body), rest, ?_,
        rfl⟩
      · rw [Text.byteLength_append, Text.byteLength_append, byteLength_opener]
        omega
      · simp only [List.append_assoc]

/-- A scan starts a span at an empty plain comment exactly if it looks for block comments, a closer
stands behind, and no earlier span goes on over it. -/
theorem Scan.FreshScan.starts_at_emptyComment_iff {shapes : List Shape} {source : Text}
    {spans : List Span} (h : FreshScan shapes source 0 spans) {o : Nat}
    (hempty : Text.OccursAt Block.emptyComment source o) :
    (∃ s ∈ spans, s.start = o) ↔
      .block ∈ shapes ∧ (∃ k, o + 3 ≤ k ∧ Text.OccursAt Block.closer source k) ∧
        ∀ s ∈ spans, s.start < o → s.stop ≤ o := by
  have hscan : FreshScan shapes ([] ++ source) (Text.byteLength []) spans := h
  constructor
  · rintro ⟨s, hs, rfl⟩
    obtain ⟨shape, hmem, lead, text, rest, hsource, hcomment, rfl⟩ := h.exists_commentAt hs
    obtain ⟨rfl, hcloser⟩ := Block.exists_closer_of_isComment hsource hcomment hempty
    exact ⟨hmem, hcloser, fun a ha hlt => hscan.stop_le_of_start_lt ha hs hlt⟩
  · rintro ⟨hmem, ⟨k, hle, hcloser⟩, hfree⟩
    have hmark := Block.markAt_of_emptyComment hempty hle hcloser
    -- Some span covers the place, and it does not start sooner.
    obtain ⟨s, hs, hcovers⟩ :=
      hscan.exists_covers (settled_nil source) hmem hmark (Nat.zero_le o)
    obtain ⟨hstart, hstop⟩ := Span.covers_iff.mp hcovers
    refine ⟨s, hs, Nat.le_antisymm hstart (Nat.not_lt.mp fun hlt => ?_)⟩
    exact absurd (hfree s hs hlt) (Nat.not_le.mpr hstop)

/-- Where an empty plain comment stands, a scan for any shapes starts a comment exactly if blocks
are among the shapes, a closer stands behind the three characters of the opener, and no comment that
starts sooner goes on over the place. The search for blocks alone does the same. -/
theorem starts_at_empty_comment_iff {source : Text} {o : Nat}
    (hempty : Text.OccursAt Block.emptyComment source o) :
    (∀ shapes, (∃ s ∈ scan shapes source, s.start = o) ↔
      .block ∈ shapes ∧ (∃ k, o + 3 ≤ k ∧ Text.OccursAt Block.closer source k) ∧
        ∀ s ∈ scan shapes source, s.start < o → s.stop ≤ o) ∧
      ((∃ s ∈ Shape.block.spans source, s.start = o) ↔
        (∃ k, o + 3 ≤ k ∧ Text.OccursAt Block.closer source k) ∧
          ∀ s ∈ Shape.block.spans source, s.start < o → s.stop ≤ o) := by
  refine ⟨fun shapes => (Scan.freshScan_scan shapes source).starts_at_emptyComment_iff hempty, ?_⟩
  rw [(Scan.freshScan_spans Shape.block source).starts_at_emptyComment_iff hempty]
  exact and_iff_right List.mem_cons_self

/-- Of two empty plain comments in a row, the first one starts a block comment, which goes on over
the second one up to a closer far behind. -/
theorem starts_at_empty_comment_in_row :
    let source : Text := "/**/ /**/ f(); */".toList
    (Text.OccursAt Block.emptyComment source 0 ∧ ∃ s ∈ scan Shape.all source, s.start = 0) ∧
      (Text.OccursAt Block.emptyComment source 5 ∧
        ¬ ∃ s ∈ scan Shape.all source, s.start = 5) := by
  intro source
  have hfirst : Text.OccursAt Block.emptyComment source 0 :=
    ⟨[], " /**/ f(); */".toList, by decide, by decide⟩
  have hsecond : Text.OccursAt Block.emptyComment source 5 :=
    ⟨"/**/ ".toList, " f(); */".toList, by decide, by decide⟩
  have hcloser : Text.OccursAt Block.closer source 7 :=
    ⟨"/**/ /*".toList, " f(); */".toList, by decide, by decide⟩
  refine ⟨⟨hfirst, ?_⟩, hsecond, ?_⟩
  · exact ((starts_at_empty_comment_iff hfirst).1 Shape.all).mpr
      ⟨by decide, ⟨7, by decide, hcloser⟩, fun s _ hlt => absurd hlt (Nat.not_lt_zero _)⟩
  · intro hstarts
    have hfree := (((starts_at_empty_comment_iff hsecond).1 Shape.all).mp hstarts).2.2
    exact absurd (hfree ⟨0, 9⟩ (by decide) (by decide)) (by decide)

/-- An empty plain comment can be taken for the opener of a doc comment: what follows it is taken in
up to the next closer. -/
theorem scan_takes_in_code_behind_empty_comment :
    let source : Text := "/**/ x */".toList
    Text.OccursAt Block.emptyComment source 0 ∧ scan Shape.all source = [⟨0, 9⟩] ∧
      Shape.block.spans source = [⟨0, 9⟩] :=
  ⟨⟨[], " x */".toList, by decide, by decide⟩, by decide, by decide⟩

end DocDigest
