import DocDigest.Proofs.Comment.Outlook
import DocDigest.Proofs.Document.LineEndings

/-!
# What cleaning takes off a comment

Cleaning a comment takes white space, slashes and stars off its lines, and no other character
(`Clean.content_clean`). The lines of the cleaned comment are trimmed and not empty, and each of
them is a stretch of a line of its own of the comment, in the order of these
(`Clean.exists_lines_of_clean`).

A block comment loses its closer. In the comment, a closer stands at the end, and maybe one more
begins with the star that the opener ends in. Cleaning takes the opener off its first line before it
looks for a closer, so none is left (`Clean.not_isInfix_closer_clean`).
-/

set_option autoImplicit false

namespace DocDigest

/-! ## Content -/

/-- Whether a character is neither white space nor one that comment marks are made of. -/
def isContent (c : Char) : Bool := !isBlank c && c != '/' && c != '*'

namespace Text

/-- The characters of a text that are neither white space nor slashes nor stars. -/
def content (t : Text) : Text := t.filter isContent

theorem content_append (s t : Text) : content (s ++ t) = content s ++ content t :=
  List.filter_append s t

theorem content_reverse (t : Text) : content t.reverse = (content t).reverse :=
  List.filter_reverse

theorem content_of_blank {t : Text} (h : ∀ c ∈ t, isBlank c = true) : content t = [] := by
  refine List.filter_eq_nil_iff.mpr fun c hc => ?_
  simp [isContent, h c hc]

theorem content_trimStart (t : Text) : content (trimStart t) = content t := by
  have hblank : content (t.takeWhile isBlank) = [] :=
    content_of_blank (List.all_eq_true.mp List.all_takeWhile)
  calc content (trimStart t)
      = content (t.takeWhile isBlank) ++ content (t.dropWhile isBlank) := by
        rw [hblank, List.nil_append, trimStart]
    _ = content t := by
        rw [← content_append, List.takeWhile_append_dropWhile]

theorem content_trimEnd (t : Text) : content (trimEnd t) = content t := by
  rw [trimEnd, content_reverse, ← trimStart, content_trimStart, content_reverse,
    List.reverse_reverse]

theorem content_trim (t : Text) : content (trim t) = content t := by
  rw [trim, content_trimEnd, content_trimStart]

theorem content_dropLeading {front : Text} (h : content front = []) (t : Text) :
    content (dropLeading front t) = content t := by
  by_cases hfront : front <+: t
  · obtain ⟨rest, rfl⟩ := hfront
    rw [dropLeading_append, content_append, h, List.nil_append]
  · rw [dropLeading_of_not_isPrefix hfront]

theorem content_dropTrailing {back : Text} (h : content back = []) (t : Text) :
    content (dropTrailing back t) = content t := by
  by_cases hback : back <:+ t
  · obtain ⟨rest, rfl⟩ := hback
    rw [dropTrailing_append, content_append, h, List.append_nil]
  · rw [dropTrailing_of_not_isSuffix hback]

/-- Lines hold the content of the text that they are joined to. -/
theorem content_joinWith (ls : List Text) :
    content (joinWith ['\n'] ls) = ls.flatMap content := by
  induction ls with
  | nil =>
      rfl
  | cons l ls ih =>
      cases ls with
      | nil =>
          rw [joinWith, List.flatMap_singleton]
      | cons m ms =>
          have hfeed : content ['\n'] = [] := by decide
          rw [List.flatMap_cons, ← ih, joinWith_cons_of_ne_nil _ _ (List.cons_ne_nil m ms),
            content_append, content_append, hfeed, List.append_nil]

/-- Empty lines hold no content. -/
theorem flatMap_content_filter (ls : List Text) :
    (ls.filter (!·.isEmpty)).flatMap content = ls.flatMap content := by
  induction ls with
  | nil =>
      rfl
  | cons l ls ih =>
      cases l with
      | nil =>
          exact ih
      | cons c cs =>
          rw [List.filter_cons_of_pos (by rfl), List.flatMap_cons, List.flatMap_cons, ih]

end Text

namespace Clean

theorem content_dropStar (t : Text) : (dropStar t).content = Text.content t := by
  unfold dropStar
  split
  · next rest =>
    have hstar : Text.content ['*'] = [] := by decide
    have hrest : Text.content ('*' :: rest) = Text.content rest := by
      rw [← List.singleton_append, Text.content_append, hstar, List.nil_append]
    split
    · rw [Text.content_trim, hrest]
    · rfl
  · rfl

theorem content_line (raw : Text) : (line raw).content = Text.content raw := by
  rw [line, content_dropStar, Text.content_trim, Text.content_dropLeading (by decide),
    Text.content_trimStart, Text.content_dropTrailing (by decide),
    Text.content_dropLeading (by decide), Text.content_trim]

/-- Cleaning takes off white space, slashes and stars only. -/
theorem content_clean (raw : Text) : (clean raw).content = Text.content raw := by
  calc (clean raw).content
      = (bodyLines raw).flatMap Text.content := Text.content_joinWith _
    _ = ((Text.splitOn '\n' raw).map line).flatMap Text.content := by
        rw [bodyLines_eq, Text.flatMap_content_filter]
    _ = (Text.splitOn '\n' raw).flatMap Text.content := by
        rw [List.flatMap_map]
        exact List.flatMap_congr fun l _ => content_line l
    _ = Text.content (Text.joinWith ['\n'] (Text.splitOn '\n' raw)) :=
        (Text.content_joinWith _).symm
    _ = Text.content raw := by
        rw [Text.joinWith_splitOn]

/-! ## Lines -/

/-- A line that is left of a comment is trimmed and holds more than white space. -/
theorem trim_and_exists_not_blank {l raw : Text} (h : l ∈ Text.lines (clean raw)) :
    Text.trim l = l ∧ ∃ c ∈ l, isBlank c = false := by
  rw [lines_clean] at h
  have htrim := trim_of_mem_bodyLines h
  refine ⟨htrim, ?_⟩
  obtain ⟨c, cs, rfl⟩ := List.exists_cons_of_ne_nil (ne_nil_and_not_mem_of_mem_bodyLines h).1
  exact ⟨c, List.mem_cons_self, (Text.trim_eq_self_iff.mp htrim).1 c rfl⟩

/-- The lines of a cleaned comment are stretches of some of the comment's lines, in their order. -/
theorem exists_lines_of_clean (raw : Text) :
    ∃ kept, kept.Sublist (Text.lines raw) ∧
      List.Forall₂ (fun l m => l <:+: m) (Text.lines (clean raw)) kept := by
  refine ⟨(Text.lines raw).filter fun m => !(line m).isEmpty, List.filter_sublist, ?_⟩
  rw [lines_clean, bodyLines, List.filter_map, List.forall₂_map_left_iff]
  exact List.forall₂_same.mpr fun m _ => line_isInfix m

/-! ## Closers -/

open Block (opener closer)

/-- No closer stands in a text but maybe one at its end. -/
def ClosesLast (t : Text) : Prop := ∀ x y, t = x ++ (closer ++ y) → y = []

theorem ClosesLast.of_isInfix {s t : Text} (h : ClosesLast t) (hs : s <:+: t) : ClosesLast s := by
  obtain ⟨a, b, rfl⟩ := hs
  rintro x y rfl
  have hy := h (a ++ x) (y ++ b) (by simp only [List.append_assoc])
  exact (List.append_eq_nil_iff.mp hy).1

/-- Without a closer at its end, no closer is left. -/
theorem ClosesLast.not_isInfix_dropTrailing {t : Text} (h : ClosesLast t) :
    ¬ closer <:+: Text.dropTrailing closer t := by
  by_cases hend : closer <:+ t
  · obtain ⟨rest, rfl⟩ := hend
    rw [Text.dropTrailing_append]
    rintro ⟨x, y, rfl⟩
    have hy := h x (y ++ closer) (by simp only [List.append_assoc])
    exact absurd (List.append_eq_nil_iff.mp hy).2 Block.closer_ne_nil
  · rw [Text.dropTrailing_of_not_isSuffix hend]
    rintro ⟨x, y, rfl⟩
    obtain rfl := h x y (List.append_assoc _ _ _)
    exact hend ⟨x, by rw [List.append_nil]⟩

/-- What is left of a line holds no closer, if behind its opener there is at most one at its end. -/
theorem not_isInfix_closer_line {l : Text}
    (h : ClosesLast (Text.dropLeading opener (Text.trim l))) : ¬ closer <:+: line l := by
  intro hwithin
  exact h.not_isInfix_dropTrailing (hwithin.trans (line_isInfix_closed l))

/-- The first line of a block comment and the lines below it, of which the last one ends in the
closer, lose their marks. -/
theorem not_isInfix_closer_clean_opener {t : Text} (h : ClosesLast t) :
    ¬ closer <:+: clean (opener ++ t) := by
  obtain ⟨l, ls, hlines⟩ := List.exists_cons_of_ne_nil (Text.splitOn_ne_nil '\n' t)
  have hlast : ∀ m ∈ l :: ls, ClosesLast m := by
    intro m hm
    rw [← hlines] at hm
    exact h.of_isInfix (Text.isInfix_of_mem_splitOn hm)
  have hfirst : ¬ closer <:+: line (opener ++ l) := by
    have htrim : Text.trim (opener ++ l) = opener ++ Text.trimEnd l := by
      have hopener : Text.trimEnd opener = opener := by decide
      exact Text.trimEnd_append hopener l
    refine not_isInfix_closer_line ?_
    rw [htrim, Text.dropLeading_append]
    exact (hlast l List.mem_cons_self).of_isInfix (Text.trimEnd_isPrefix l).isInfix
  have hrest : ∀ m ∈ ls, ¬ closer <:+: line m := by
    intro m hm
    have hwithin : Text.dropLeading opener (Text.trim m) <:+: m :=
      (Text.dropLeading_isSuffix _ _).isInfix.trans (Text.trim_isInfix m)
    exact not_isInfix_closer_line ((hlast m (List.mem_cons_of_mem l hm)).of_isInfix hwithin)
  refine Text.not_isInfix_joinWith (by decide) Block.closer_ne_nil ?_
  rw [bodyLines_eq, Text.splitOn_append_of_not_mem (by decide) hlines]
  intro m hm
  obtain ⟨hm, -⟩ := List.mem_filter.mp hm
  rw [List.map_cons] at hm
  rcases List.mem_cons.mp hm with rfl | hm
  · exact hfirst
  · obtain ⟨m', hm', rfl⟩ := List.mem_map.mp hm
    exact hrest m' hm'

/-- Cleaned, a block comment holds no closer. -/
theorem not_isInfix_closer_clean {source : Text} {s : Span}
    (h : Shape.block.CommentAt source s) : ¬ closer <:+: clean (s.slice source) := by
  obtain ⟨before, rest, body, htext, hbody⟩ := h.exists_slice
  rw [htext]
  refine not_isInfix_closer_clean_opener ?_
  intro x y heq
  have hclose : body ++ (closer ++ []) = x ++ (closer ++ y) := by
    rw [List.append_nil, heq]
  obtain ⟨mid, -, hmid⟩ := (hbody.change_rest []).exists_append hclose
  -- Behind the body there is room for one closer only.
  have hlen := congrArg List.length hmid
  simp only [List.length_append, List.length_nil] at hlen
  exact List.eq_nil_of_length_eq_zero (by omega)

/-- Cleaning loses decoration only. A cleaned comment is made of lines that are trimmed and not
blank. They are stretches of different lines of the comment, in their order, and no character is
lost but white space, slashes and stars. A block comment that is found in a source loses its
closer. -/
theorem clean_loses_decoration_only :
    (∀ raw : Text,
      clean raw = Text.joinWith ['\n'] (Text.lines (clean raw)) ∧
      (∀ l ∈ Text.lines (clean raw), Text.trim l = l ∧ ∃ c ∈ l, isBlank c = false) ∧
      (∃ kept, kept.Sublist (Text.lines raw) ∧
        List.Forall₂ (fun l m => l <:+: m) (Text.lines (clean raw)) kept) ∧
      (clean raw).content = raw.content) ∧
    ∀ source : Text,
      (∀ s ∈ Shape.block.spans source, ¬ closer <:+: clean (s.slice source)) ∧
      ∀ shapes, ∀ s ∈ scan shapes source, opener <+: s.slice source →
        ¬ closer <:+: clean (s.slice source) := by
  refine ⟨fun raw => ⟨?_, fun l hl => trim_and_exists_not_blank hl, exists_lines_of_clean raw,
    content_clean raw⟩, fun source => ⟨fun s hs => ?_, fun shapes s hs hopener => ?_⟩⟩
  · rw [lines_clean, clean]
  · obtain ⟨shape, hmem, hcomment⟩ := (Scan.freshScan_spans .block source).exists_commentAt hs
    rw [List.mem_singleton.mp hmem] at hcomment
    exact not_isInfix_closer_clean hcomment
  · obtain ⟨shape, -, hcomment⟩ := (Scan.freshScan_scan shapes source).exists_commentAt hs
    cases shape with
    | block =>
        exact not_isInfix_closer_clean hcomment
    | line =>
        -- A run begins with two slashes.
        obtain ⟨-, -, -, -, run, -, -, -, htext, -⟩ := hcomment.exists_slice
        rw [htext] at hopener
        exact absurd hopener (by simp [opener])

/-- A block comment whose marks overlap and stand on several lines. -/
theorem clean_loses_overlapping_marks :
    let source : Text := "/**/ x\n  /** *y* // z\n**/".toList
    ⟨0, 25⟩ ∈ Shape.block.spans source ∧ ¬ closer <:+: clean (Span.slice ⟨0, 25⟩ source) ∧
      (clean source).content = "xyz".toList := by
  intro source
  have hspan : ⟨0, 25⟩ ∈ Shape.block.spans source := by decide
  have hcontent : source.content = "xyz".toList := by decide
  refine ⟨hspan, (clean_loses_decoration_only.2 source).1 _ hspan, ?_⟩
  rw [(clean_loses_decoration_only.1 source).2.2.2, hcontent]

end Clean

end DocDigest
