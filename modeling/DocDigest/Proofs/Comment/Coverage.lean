import DocDigest.Proofs.Comment.Outlook

/-!
# Nothing is missed

Every mark of a doc comment in a source lies in exactly one span of the scan
(`scan_covers_every_mark`): every opener that something closes, and the slashes of every doc line.

The argument goes along the scan. At a settled place, a mark that is not behind the place makes the
search for its shape find something that starts no later than the mark
(`Shape.exists_nextFrom_le`). So the next span starts no later than the mark; the mark lies in it,
or it is still ahead at the end of it, which is a settled place again.
-/

set_option autoImplicit false

namespace DocDigest

/-- Whether a byte of the source lies in a span. -/
def Span.covers (o : Nat) (s : Span) : Bool := s.start ≤ o && o < s.stop

theorem Span.covers_iff {s : Span} {o : Nat} : s.covers o = true ↔ s.start ≤ o ∧ o < s.stop := by
  simp [covers]

/-- Of spans that come one behind the other, at most one covers a byte. -/
theorem Span.filter_covers_eq_singleton {spans : List Span} {s : Span} {o : Nat}
    (hordered : spans.Pairwise fun a b => a.stop ≤ b.start) (hs : s ∈ spans)
    (hcovers : s.covers o = true) : spans.filter (Span.covers o) = [s] := by
  have hin := covers_iff.mp hcovers
  induction spans with
  | nil =>
      exact absurd hs List.not_mem_nil
  | cons a spans ih =>
      obtain ⟨hfirst, hrest⟩ := List.pairwise_cons.mp hordered
      rcases List.mem_cons.mp hs with rfl | hs
      · have hnone : spans.filter (Span.covers o) = [] := by
          rw [List.filter_eq_nil_iff]
          intro b hb hcov
          have hb' := covers_iff.mp hcov
          have hle := hfirst b hb
          omega
        rw [List.filter_cons_of_pos hcovers, hnone]
      · have hout : ¬ a.covers o = true := by
          intro hcov
          have ha := covers_iff.mp hcov
          have hle := hfirst s hs
          omega
        rw [List.filter_cons_of_neg hout, ih hrest hs]

/-! ## Marks -/

/-- The mark of a doc comment of a form stands at a byte offset of the source: an opener with a
closer behind it, or the two slashes of a doc line. -/
def Shape.MarkAt (source : Text) (o : Nat) : Shape → Prop
  | .block => ∃ before body after,
      source = before ++ (Block.opener ++ (body ++ (Block.closer ++ after))) ∧
        o = before.byteLength
  | .line => ∃ before ind gap after,
      source = before ++ (ind ++ '/' :: '/' :: (gap ++ '*' :: after)) ∧
        (before = [] ∨ before.getLast? = some '\n') ∧ (∀ c ∈ ind, isInlineBlank c = true) ∧
        (∀ c ∈ gap, isInlineBlank c = true) ∧ o = (before ++ ind).byteLength

/-- A block comment is marked by an opener and a closer that shares no character with it. -/
theorem Shape.markAt_block_iff {source : Text} {o : Nat} :
    Shape.block.MarkAt source o ↔
      Text.OccursAt Block.opener source o ∧
        ∃ k, o + 3 ≤ k ∧ Text.OccursAt Block.closer source k := by
  constructor
  · rintro ⟨before, body, after, rfl, rfl⟩
    refine ⟨⟨before, _, rfl, rfl⟩, (before ++ (Block.opener ++ body)).byteLength, ?_,
      before ++ (Block.opener ++ body), after, ?_, rfl⟩
    · rw [Text.byteLength_append, Text.byteLength_append, Block.byteLength_opener]
      omega
    · simp only [List.append_assoc]
  · rintro ⟨⟨before, after, rfl, rfl⟩, -, hle, lead, rest, heq, rfl⟩
    rw [← List.append_assoc] at heq
    obtain ⟨body, rfl, rfl⟩ := Text.exists_append_of_byteLength_le heq (by
      rw [Text.byteLength_append, Block.byteLength_opener]
      exact hle)
    exact ⟨before, body, rest, rfl, rfl⟩

/-- The search for block comments finds something that starts no later than an opener ahead that
something closes. -/
theorem Shape.exists_nextFrom_block_le {before t : Text} {o : Nat}
    (hmark : Shape.block.MarkAt (before ++ t) o) (hle : before.byteLength ≤ o) :
    ∃ s, Shape.block.nextFrom (Cursor.between before t) = some s ∧ s.start ≤ o := by
  obtain ⟨lead, body, after, heq, rfl⟩ := hmark
  obtain ⟨gap, rfl, rfl⟩ := Text.exists_append_of_byteLength_le heq hle
  rw [Text.byteLength_append]
  exact Block.exists_first?_le _ gap body after

/-- The search for runs finds something that starts no later than the slashes of a doc line that
begins ahead. -/
theorem Shape.exists_nextFrom_line_le {before t lead ind line : Text}
    (heq : before ++ t = lead ++ (ind ++ '/' :: line)) (hlead : Cursor.lineBegins true lead = true)
    (hind : ∀ c ∈ ind, isInlineBlank c = true) (hdoc : LineRun.isDocLine ('/' :: line) = true)
    (hle : before.byteLength ≤ lead.byteLength) :
    ∃ s, Shape.line.nextFrom (Cursor.between before t) = some s ∧
      s.start ≤ (lead ++ ind).byteLength := by
  obtain ⟨mid, rfl, rfl⟩ := Text.exists_append_of_byteLength_le heq hle
  rw [Cursor.lineBegins_append] at hlead
  rw [← LineRun.isDocLine_append hind] at hdoc
  obtain ⟨s, hs, hstart⟩ := LineRun.exists_first?_le hlead hdoc before.byteLength
  rw [LineRun.indent_append hind (by decide)] at hstart
  refine ⟨s, hs, ?_⟩
  simp only [Text.byteLength_append] at hstart ⊢
  omega

/-- A search from a settled place finds something that starts no later than a mark of its shape that
is not behind the place. -/
theorem Shape.exists_nextFrom_le {shape : Shape} {before t : Text} {o : Nat}
    (hsettled : Settled before t) (hmark : shape.MarkAt (before ++ t) o)
    (hle : before.byteLength ≤ o) :
    ∃ s, shape.nextFrom (Cursor.between before t) = some s ∧ s.start ≤ o := by
  cases shape with
  | block =>
      exact exists_nextFrom_block_le hmark hle
  | line =>
      obtain ⟨lead, ind, gap, after, heq, hlead, hind, hgap, rfl⟩ := hmark
      have hline := LineRun.isDocLine_mark hgap after
      -- A place inside the indentation is not settled, so the line begins at the place or ahead.
      have hahead : before.byteLength ≤ lead.byteLength := by
        rcases Nat.le_total before.byteLength lead.byteLength with hbefore | hbehind
        · exact hbefore
        · obtain ⟨front, rfl, hfront⟩ := Text.exists_append_of_byteLength_le heq.symm hbehind
          rw [Text.byteLength_append, Text.byteLength_append] at hle
          obtain ⟨back, rfl, rfl⟩ :=
            Text.exists_append_of_byteLength_le hfront.symm (Nat.le_of_add_le_add_left hle)
          rw [← LineRun.isDocLine_append fun c hc => hind c (List.mem_append_right _ hc)] at hline
          by_cases hnil : front = []
          · exact Nat.le_of_eq (by rw [hnil, List.append_nil])
          · have hfalse := hsettled.isDocLine_eq_false hnil
              fun c hc => hind c (List.mem_append_left _ hc)
            rw [hfalse] at hline
            exact absurd hline Bool.false_ne_true
      exact exists_nextFrom_line_le heq (Cursor.lineBegins_iff.mpr hlead) hind hline hahead

/-! ## The scan -/

/-- A scan that looks for a shape covers every mark of the shape that is not behind it. -/
theorem Scan.FreshScan.exists_covers {shapes : List Shape} {before t : Text} {spans : List Span}
    (h : FreshScan shapes (before ++ t) before.byteLength spans) (hsettled : Settled before t)
    {shape : Shape} (hmem : shape ∈ shapes) {o : Nat} (hmark : shape.MarkAt (before ++ t) o)
    (hle : before.byteLength ≤ o) : ∃ s ∈ spans, s.covers o = true := by
  induction spans generalizing before t with
  | nil =>
      obtain ⟨s, hs, -⟩ := Shape.exists_nextFrom_le hsettled hmark hle
      exact absurd (hs.symm.trans (h.eq_none_of_nil hmem)) (Option.some_ne_none s)
  | cons a spans ih =>
      obtain ⟨hchosen, gap, text, rest, rfl, -, -, hsettled', rfl, hrest⟩ := h.exists_of_cons
      obtain ⟨s, hs, hstart⟩ := Shape.exists_nextFrom_le hsettled hmark hle
      have hfirst := hchosen.exists_le.2 shape hmem s hs
      -- The next span starts no later than the mark: it covers it or ends before it.
      by_cases hin : o < (before ++ gap ++ text).byteLength
      · exact ⟨_, List.mem_cons_self, Span.covers_iff.mpr ⟨Nat.le_trans hfirst hstart, hin⟩⟩
      · rw [show before ++ (gap ++ (text ++ rest)) = before ++ gap ++ text ++ rest by
          simp only [List.append_assoc]] at hmark
        obtain ⟨b, hb, hcovers⟩ := ih hrest hsettled' hmark (Nat.not_lt.mp hin)
        exact ⟨b, List.mem_cons_of_mem _ hb, hcovers⟩

/-- Every mark of a doc comment lies in exactly one span of the scan: whatever stands around it, an
opener that something closes and the slashes of a doc line end up in one comment. -/
theorem scan_covers_every_mark {source : Text} {shape : Shape} {o : Nat}
    (hmark : shape.MarkAt source o) :
    ∃ s, (scan Shape.all source).filter (Span.covers o) = [s] := by
  have hscan : Scan.FreshScan Shape.all ([] ++ source) (Text.byteLength [])
      (scan Shape.all source) := Scan.freshScan_scan Shape.all source
  have hmem : shape ∈ Shape.all := by
    cases shape <;> decide
  obtain ⟨s, hs, hcovers⟩ :=
    hscan.exists_covers (settled_nil source) hmem hmark (Nat.zero_le o)
  exact ⟨s, Span.filter_covers_eq_singleton hscan.ordered hs hcovers⟩

/-- An opener inside a run and a doc line inside a block comment are covered too. -/
theorem scan_covers_masked_marks :
    let source : Text := "// * see /** a\n*/ /** b\n  // * c */\n//* d".toList
    (Shape.block.MarkAt source 9 ∧ ∃ s, (scan Shape.all source).filter (Span.covers 9) = [s]) ∧
      (Shape.line.MarkAt source 26 ∧
        ∃ s, (scan Shape.all source).filter (Span.covers 26) = [s]) := by
  intro source
  have hopener : Shape.block.MarkAt source 9 :=
    ⟨"// * see ".toList, " a\n".toList, " /** b\n  // * c */\n//* d".toList, by decide, by decide⟩
  have hblank : ∀ c : Char, c = ' ' → isInlineBlank c = true := by
    rintro c rfl
    rfl
  have hline : Shape.line.MarkAt source 26 :=
    ⟨"// * see /** a\n*/ /** b\n".toList, "  ".toList, " ".toList, " c */\n//* d".toList,
      by decide, Or.inr (by decide), by simpa using hblank, by simpa using hblank, by decide⟩
  exact ⟨⟨hopener, scan_covers_every_mark hopener⟩, ⟨hline, scan_covers_every_mark hline⟩⟩

end DocDigest
