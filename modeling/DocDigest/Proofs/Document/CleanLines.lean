import DocDigest.Document.Clean
import DocDigest.Proofs.Text.Lines
import DocDigest.Proofs.Text.Trim

/-!
# The lines of a cleaned comment

Cleaning a line leaves a stretch of it (`Clean.line_isInfix`), which is trimmed (`Clean.trim_line`),
and a comment's lines of which nothing is left are dropped. So the lines of a cleaned comment are
what is left of the comment's lines (`Clean.lines_clean`), and a cleaned comment is empty or has no
empty line (`Clean.eq_nil_or_not_mem_splitOn_clean`).
-/

set_option autoImplicit false

namespace DocDigest

namespace Clean

theorem dropStar_isInfix (t : Text) : dropStar t <:+: t := by
  unfold dropStar
  split
  · next rest =>
    split
    · exact (Text.trim_isInfix rest).trans (List.suffix_cons '*' rest).isInfix
    · exact List.infix_rfl
  · exact List.infix_rfl

/-- Behind the opener and before the closer, cleaning a line leaves a stretch of it. -/
theorem line_isInfix_closed (raw : Text) :
    line raw <:+:
      Text.dropTrailing ['*', '/'] (Text.dropLeading ['/', '*', '*'] (Text.trim raw)) := by
  let opened := Text.dropLeading ['/', '*', '*'] (Text.trim raw)
  let closed := Text.dropTrailing ['*', '/'] opened
  let slashed := Text.dropLeading ['/', '/'] (Text.trimStart closed)
  have hslashed : slashed <:+: closed :=
    ((Text.dropLeading_isSuffix _ _).trans (Text.trimStart_isSuffix closed)).isInfix
  exact ((dropStar_isInfix _).trans (Text.trim_isInfix slashed)).trans hslashed

/-- Cleaning a line leaves a stretch of it. -/
theorem line_isInfix (raw : Text) : line raw <:+: raw := by
  let opened := Text.dropLeading ['/', '*', '*'] (Text.trim raw)
  have hopened : opened <:+: raw :=
    (Text.dropLeading_isSuffix _ _).isInfix.trans (Text.trim_isInfix raw)
  have hclosed : Text.dropTrailing ['*', '/'] opened <:+: raw :=
    (Text.dropTrailing_isPrefix _ opened).isInfix.trans hopened
  exact (line_isInfix_closed raw).trans hclosed

theorem trim_dropStar {t : Text} (h : Text.trim t = t) : Text.trim (dropStar t) = dropStar t := by
  unfold dropStar
  split
  · next rest =>
    split
    · exact Text.trim_trim rest
    · exact h
  · exact h

theorem trim_line (raw : Text) : Text.trim (line raw) = line raw :=
  trim_dropStar (Text.trim_trim _)

theorem trim_of_mem_bodyLines {l raw : Text} (h : l ∈ bodyLines raw) : Text.trim l = l := by
  obtain ⟨hline, -⟩ := List.mem_filter.mp h
  obtain ⟨m, -, rfl⟩ := List.mem_map.mp hline
  exact trim_line m

/-- A line that is left of a comment holds something, and no line feed. -/
theorem ne_nil_and_not_mem_of_mem_bodyLines {l raw : Text} (h : l ∈ bodyLines raw) :
    l ≠ [] ∧ '\n' ∉ l := by
  obtain ⟨hline, hne⟩ := List.mem_filter.mp h
  obtain ⟨m, hm, rfl⟩ := List.mem_map.mp hline
  refine ⟨fun hnil => ?_, fun hfeed => ?_⟩
  · rw [hnil] at hne
    exact absurd hne (by decide)
  · exact Text.not_mem_of_mem_lines hm ((line_isInfix m).subset hfeed)

/-- The lines of a cleaned comment are what is left of the comment's lines. -/
theorem splitOn_clean {raw : Text} (h : bodyLines raw ≠ []) :
    Text.splitOn '\n' (clean raw) = bodyLines raw := by
  obtain ⟨l, ls, hlines⟩ := List.exists_cons_of_ne_nil h
  have hfeed : ∀ m ∈ l :: ls, '\n' ∉ m := by
    intro m hm
    rw [← hlines] at hm
    exact (ne_nil_and_not_mem_of_mem_bodyLines hm).2
  rw [clean, hlines, Text.splitOn_joinWith hfeed]

/-- Read as lines, a cleaned comment is what is left of the comment's lines. -/
theorem lines_clean (raw : Text) : Text.lines (clean raw) = bodyLines raw := by
  have hfeed : ∀ l ∈ bodyLines raw, '\n' ∉ l :=
    fun l hl => (ne_nil_and_not_mem_of_mem_bodyLines hl).2
  have hne : ∀ l ∈ bodyLines raw, l ≠ [] :=
    fun l hl => (ne_nil_and_not_mem_of_mem_bodyLines hl).1
  have hreturn : ∀ l ∈ bodyLines raw, l.getLast? ≠ some '\r' := by
    intro l hl hlast
    have hblank := (Text.trim_eq_self_iff.mp (trim_of_mem_bodyLines hl)).2 '\r' hlast
    rw [isBlank_carriageReturn] at hblank
    exact absurd hblank.symm Bool.false_ne_true
  rw [clean]
  cases hlines : bodyLines raw with
  | nil =>
      rfl
  | cons l ls =>
      rw [hlines] at hfeed hne hreturn
      exact Text.lines_joinWith hfeed hne hreturn

/-- A cleaned comment is empty or has no empty line. -/
theorem eq_nil_or_not_mem_splitOn_clean (raw : Text) :
    clean raw = [] ∨ [] ∉ Text.splitOn '\n' (clean raw) := by
  by_cases h : bodyLines raw = []
  · refine Or.inl ?_
    rw [clean, h]
    rfl
  · refine Or.inr fun hmem => ?_
    rw [splitOn_clean h] at hmem
    exact (ne_nil_and_not_mem_of_mem_bodyLines hmem).1 rfl

end Clean

end DocDigest
