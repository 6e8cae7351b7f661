import DocDigest.Document.Clean
import DocDigest.Proofs.Comment.BlockSearch
import DocDigest.Proofs.Comment.RunSearch
import DocDigest.Proofs.Text.Lines
import DocDigest.Proofs.Text.Trim
import Mathlib.Data.List.Basic

/-!
# Documentation items

A documentation item is a doc comment that is to be written: its form, its indentation and the lines
of its body. `Item.lines` are the lines that it is written as and `Item.fragment` the part of them
that is the comment. Cleaning the comment gives the body back (`Item.clean_fragment`): on each line,
one decoration and no more is taken off, whatever the body looks like.
-/

set_option autoImplicit false

namespace DocDigest

/-! ## Body lines -/

/-- A line that can stand in the body of an item. -/
structure IsBodyLine (l : Text) : Prop where
  ne_nil : l ≠ []
  trim_eq : Text.trim l = l
  lineFeed_not_mem : '\n' ∉ l
  no_closer : ¬ Block.closer <:+: l

namespace IsBodyLine

variable {l : Text}

/-- A body line behind something that does not begin with white space is trimmed. -/
theorem trim_cons_append (h : IsBodyLine l) {first : Char} (hfirst : isBlank first = false)
    (front : Text) : Text.trim (first :: front ++ l) = first :: front ++ l := by
  refine Text.trim_eq_self_iff.mpr ⟨fun c hc => ?_, fun c hc => ?_⟩
  · obtain rfl : first = c := Option.some.inj hc
    exact hfirst
  · rw [List.getLast?_append_of_ne_nil _ h.ne_nil] at hc
    exact (Text.trim_eq_self_iff.mp h.trim_eq).2 c hc

/-- A body line behind a decoration is a line of its own that no carriage return ends. -/
theorem append_isLine (h : IsBodyLine l) {front : Text} (hfront : '\n' ∉ front) :
    front ++ l ≠ [] ∧ '\n' ∉ front ++ l ∧ (front ++ l).getLast? ≠ some '\r' := by
  refine ⟨by simp [h.ne_nil], by simp [hfront, h.lineFeed_not_mem], fun hlast => ?_⟩
  rw [List.getLast?_append_of_ne_nil _ h.ne_nil] at hlast
  exact absurd ((Text.trim_eq_self_iff.mp h.trim_eq).2 _ hlast) (by decide)

/-- A body line behind a space closes nothing that no closer stands in before. -/
theorem no_closer_append (h : IsBodyLine l) {front : Text}
    (hfront : ¬ Block.closer <:+: front) : ¬ Block.closer <:+: front ++ ' ' :: l := by
  rw [← Text.absent_nil_iff Block.closer_ne_nil]
  refine Text.absent_append.mpr ⟨Text.absent_of_not_within hfront ?_, ?_⟩
  · simp [Block.closer]
  · refine Text.absent_cons.mpr ⟨by simp [Block.closer], ?_⟩
    exact (Text.absent_nil_iff Block.closer_ne_nil).mpr h.no_closer

end IsBodyLine

/-! ## Cleaning a line -/

namespace Clean

theorem line_append_of_blank {front : Text} (h : ∀ c ∈ front, isBlank c = true) (t : Text) :
    line (front ++ t) = line t := by
  rw [line, Text.trim_append_of_blank h, line]

theorem line_opener : line Block.opener = [] := by decide

theorem line_closer : line (' ' :: Block.closer) = [] := by decide

theorem dropStar_append {l : Text} (h : IsBodyLine l) : dropStar ("* ".toList ++ l) = l := by
  show (if isBlank ' ' then Text.trim (' ' :: l) else '*' :: ' ' :: l) = l
  have hspace : isBlank ' ' = true := rfl
  rw [if_pos hspace, Text.trim_cons_of_blank hspace, h.trim_eq]

theorem trim_star_append {l : Text} (h : IsBodyLine l) :
    Text.trim ("* ".toList ++ l) = "* ".toList ++ l :=
  h.trim_cons_append rfl [' ']

/-- Cleaning takes the decoration of a line in a block off a body line, and nothing else. -/
theorem line_star_append {l : Text} (h : IsBodyLine l) : line (" * ".toList ++ l) = l := by
  have hstart : Text.trimStart ("* ".toList ++ l) = "* ".toList ++ l :=
    Text.trimStart_eq_self_iff.mpr (by simp; decide)
  have hopen : ¬ ['/', '*', '*'] <+: "* ".toList ++ l := by simp
  have hslash : ¬ ['/', '/'] <+: "* ".toList ++ l := by simp
  have hclose : ¬ ['*', '/'] <:+ "* ".toList ++ l := fun hsuffix =>
    h.no_closer_append (by decide : ¬ Block.closer <:+: ['*']) hsuffix.isInfix
  show line (' ' :: ("* ".toList ++ l)) = l
  rw [line, Text.trim_cons_of_blank rfl, trim_star_append h,
    Text.dropLeading_of_not_isPrefix hopen, Text.dropTrailing_of_not_isSuffix hclose, hstart,
    Text.dropLeading_of_not_isPrefix hslash, trim_star_append h, dropStar_append h]

/-- Cleaning takes the decoration of a doc line off a body line, and nothing else. -/
theorem line_slashes_append {l : Text} (h : IsBodyLine l) : line ("// * ".toList ++ l) = l := by
  have htrim : Text.trim ("// * ".toList ++ l) = "// * ".toList ++ l :=
    h.trim_cons_append rfl "/ * ".toList
  have hstart : Text.trimStart ("// * ".toList ++ l) = "// * ".toList ++ l :=
    Text.trimStart_eq_self_iff.mpr (by simp; decide)
  have hopen : ¬ ['/', '*', '*'] <+: "// * ".toList ++ l := by simp
  have hclose : ¬ ['*', '/'] <:+ "// * ".toList ++ l := fun hsuffix =>
    h.no_closer_append (by decide : ¬ Block.closer <:+: "// *".toList) hsuffix.isInfix
  have hslash : Text.dropLeading ['/', '/'] ("// * ".toList ++ l) = ' ' :: ("* ".toList ++ l) :=
    Text.dropLeading_append ['/', '/'] _
  rw [line, htrim, Text.dropLeading_of_not_isPrefix hopen,
    Text.dropTrailing_of_not_isSuffix hclose, hstart, hslash,
    Text.trim_cons_of_blank rfl, trim_star_append h, dropStar_append h]

end Clean

/-! ## Items -/

/-- A doc comment to be written. -/
structure Item where
  shape : Shape
  indent : Text
  body : List Text
  indent_blank : ∀ c ∈ indent, c = ' ' ∨ c = '\t'
  body_ne_nil : body ≠ []
  isBodyLine : ∀ l ∈ body, IsBodyLine l

namespace Item

/-- The first line of an item and the others, without the indentation. -/
def marks (i : Item) : List Text :=
  match i.shape with
  | .block => Block.opener :: (i.body.map (" * ".toList ++ ·) ++ [' ' :: Block.closer])
  | .line => i.body.map ("// * ".toList ++ ·)

def lines (i : Item) : List Text := i.marks.map (i.indent ++ ·)

/-- The comment in the lines of an item: all but the indentation before it. -/
def fragment (i : Item) : Text := i.marks.headD [] ++ Text.below (i.lines.drop 1)

theorem exists_marks_eq (i : Item) :
    ∃ m ms, i.marks = m :: ms ∧ i.lines = (i.indent ++ m) :: ms.map (i.indent ++ ·) ∧
      i.fragment = m ++ Text.below (ms.map (i.indent ++ ·)) := by
  cases hmarks : i.marks with
  | nil =>
      rw [marks] at hmarks
      split at hmarks
      · exact absurd hmarks (List.cons_ne_nil _ _)
      · exact absurd (List.map_eq_nil_iff.mp hmarks) i.body_ne_nil
  | cons m ms =>
      refine ⟨m, ms, rfl, ?_, ?_⟩
      · rw [lines, hmarks, List.map_cons]
      · rw [fragment, lines, hmarks]
        rfl

theorem joinWith_lines_append (i : Item) (ls : List Text) :
    Text.joinWith ['\n'] (i.lines ++ ls) = i.indent ++ (i.fragment ++ Text.below ls) := by
  obtain ⟨m, ms, -, hlines, hfragment⟩ := i.exists_marks_eq
  rw [hlines, hfragment, List.cons_append, Text.joinWith_cons, Text.below_append]
  simp only [List.append_assoc]

theorem isBlank_of_mem_indent (i : Item) {c : Char} (h : c ∈ i.indent) : isBlank c = true := by
  rcases i.indent_blank c h with rfl | rfl <;> decide

theorem isLine_of_mem_marks {i : Item} {m : Text} (h : m ∈ i.marks) :
    m ≠ [] ∧ '\n' ∉ m ∧ m.getLast? ≠ some '\r' := by
  rw [marks] at h
  split at h
  · rcases List.mem_cons.mp h with rfl | h
    · decide
    · rcases List.mem_append.mp h with h | h
      · obtain ⟨l, hl, rfl⟩ := List.mem_map.mp h
        exact (i.isBodyLine l hl).append_isLine (by decide)
      · rw [List.mem_singleton.mp h]
        decide
  · obtain ⟨l, hl, rfl⟩ := List.mem_map.mp h
    exact (i.isBodyLine l hl).append_isLine (by decide)

theorem isLine_indent_append (i : Item) {m : Text} (h : m ∈ i.marks) :
    i.indent ++ m ≠ [] ∧ '\n' ∉ i.indent ++ m ∧ (i.indent ++ m).getLast? ≠ some '\r' := by
  obtain ⟨hne, hfeed, hlast⟩ := isLine_of_mem_marks h
  have hindent : '\n' ∉ i.indent := fun hmem => absurd (i.indent_blank _ hmem) (by decide)
  refine ⟨by simp [hne], by simp [hindent, hfeed], ?_⟩
  rwa [List.getLast?_append_of_ne_nil _ hne]

/-! ## Cleaning an item -/

/-- The lines of an item, cleaned, are the lines of its body. -/
theorem filter_line_marks (i : Item) :
    (i.marks.map Clean.line).filter (!·.isEmpty) = i.body := by
  have hbody : ∀ front : Text, (∀ l, IsBodyLine l → Clean.line (front ++ l) = l) →
      (i.body.map (front ++ ·)).map Clean.line = i.body := by
    intro front hfront
    calc (i.body.map (front ++ ·)).map Clean.line
        = i.body.map id := by
          rw [List.map_map]
          refine List.map_congr_left fun l hl => ?_
          rw [Function.comp_apply, hfront l (i.isBodyLine l hl), id_eq]
      _ = i.body := List.map_id i.body
  have hkeep : i.body.filter (!·.isEmpty) = i.body :=
    List.filter_eq_self.mpr fun l hl => by simp [(i.isBodyLine l hl).ne_nil]
  rw [marks]
  split
  · -- The opener and the closer leave nothing, and the empty lines are dropped.
    rw [List.map_cons, List.map_append, hbody _ fun l => Clean.line_star_append, List.map_singleton,
      Clean.line_opener, Clean.line_closer, List.filter_cons_of_neg (by decide), List.filter_append,
      hkeep, List.filter_cons_of_neg (by decide), List.filter_nil, List.append_nil]
  · rw [hbody _ fun l => Clean.line_slashes_append, hkeep]

/-- Cleaning an item's comment gives what stands in the item. -/
theorem clean_fragment (i : Item) : clean i.fragment = Text.joinWith ['\n'] i.body := by
  obtain ⟨m, ms, hmarks, -, hfragment⟩ := i.exists_marks_eq
  have hline : ∀ l ∈ m :: ms.map (i.indent ++ ·), l ≠ [] ∧ '\n' ∉ l ∧ l.getLast? ≠ some '\r' := by
    intro l hl
    rcases List.mem_cons.mp hl with rfl | hl
    · exact isLine_of_mem_marks (i := i) (by rw [hmarks]; exact List.mem_cons_self)
    · obtain ⟨n, hn, rfl⟩ := List.mem_map.mp hl
      exact i.isLine_indent_append (by rw [hmarks]; exact List.mem_cons_of_mem m hn)
  -- Cleaning trims a line, so the indentation behind a line feed goes with the rest.
  have hclean : (m :: ms.map (i.indent ++ ·)).map Clean.line = i.marks.map Clean.line := by
    rw [hmarks, List.map_cons, List.map_cons, List.map_map]
    refine congrArg (Clean.line m :: ·) (List.map_congr_left fun n _ => ?_)
    rw [Function.comp_apply, Clean.line_append_of_blank fun _ => i.isBlank_of_mem_indent]
  have hlines : Text.lines i.fragment = m :: ms.map (i.indent ++ ·) := by
    rw [hfragment, ← Text.joinWith_cons]
    exact Text.lines_joinWith (fun l hl => (hline l hl).2.1) (fun l hl => (hline l hl).1)
      fun l hl => (hline l hl).2.2
  calc clean i.fragment
      = Text.joinWith ['\n'] (((Text.lines i.fragment).map Clean.line).filter (!·.isEmpty)) := rfl
    _ = Text.joinWith ['\n'] ((i.marks.map Clean.line).filter (!·.isEmpty)) := by
        rw [hlines, hclean]
    _ = Text.joinWith ['\n'] i.body := by
        rw [filter_line_marks]

/-! ## Extracting an item -/

theorem isInlineBlank_of_mem_indent (i : Item) {c : Char} (h : c ∈ i.indent) :
    isInlineBlank c = true := by
  rcases i.indent_blank c h with rfl | rfl <;> decide

/-- The comment of a block item is closed by its last line and not before. -/
theorem exists_fragment_block {i : Item} (h : i.shape = .block) :
    ∃ body, i.fragment = Block.opener ++ (body ++ Block.closer) ∧
      ∀ rest, Text.Absent Block.closer body (Block.closer ++ rest) := by
  let inside := (i.body.map (" * ".toList ++ ·)).map (i.indent ++ ·)
  have hfragment : i.fragment
      = Block.opener ++ (Text.below inside ++ '\n' :: (i.indent ++ [' ']) ++ Block.closer) := by
    rw [fragment, lines, marks, h]
    show Block.opener ++ Text.below ((_ ++ [' ' :: Block.closer]).map (i.indent ++ ·)) = _
    rw [List.map_append, Text.below_append]
    simp [inside]
  refine ⟨_, hfragment, fun rest => Text.absent_append.mpr ⟨?_, ?_⟩⟩
  · refine Text.absent_below (by decide) (by simp [Block.closer]) fun m hm => ?_
    obtain ⟨n, hn, rfl⟩ := List.mem_map.mp hm
    obtain ⟨l, hl, rfl⟩ := List.mem_map.mp hn
    -- Up to the space before the body line, there is no slash.
    have hfront : ¬ Block.closer <:+: i.indent ++ [' ', '*'] := by
      intro hin
      have hmem : '/' ∈ i.indent ++ [' ', '*'] := hin.subset (by decide)
      have hslash : '/' ∈ i.indent := by simpa using hmem
      exact absurd (i.indent_blank _ hslash) (by decide)
    rw [show i.indent ++ (" * ".toList ++ l) = (i.indent ++ [' ', '*']) ++ ' ' :: l by simp]
    exact (i.isBodyLine l hl).no_closer_append hfront
  · refine Text.absent_of_not_mem _ fun hmem => ?_
    have hstar : '*' ∈ i.indent := by simpa using hmem
    exact absurd (i.indent_blank _ hstar) (by decide)

/-- The comment of a line item is an unbroken run. -/
theorem exists_fragment_line {i : Item} (h : i.shape = .line) :
    ∃ run, i.fragment = '/' :: '/' :: run ∧ LineRun.isDocLine i.fragment = true ∧
      ∀ rest, LineRun.Unbroken run rest := by
  obtain ⟨l, ls, hbody⟩ := List.exists_cons_of_ne_nil i.body_ne_nil
  let after := (ls.map ("// * ".toList ++ ·)).map (i.indent ++ ·)
  have hfragment : i.fragment = '/' :: '/' :: (" * ".toList ++ l ++ Text.below after) := by
    rw [fragment, lines, marks, h, hbody]
    simp [after]
  have hmark : ∀ t : Text, LineRun.isDocLine ("// * ".toList ++ t) = true :=
    @LineRun.isDocLine_mark [' '] fun c hc => by rw [List.mem_singleton.mp hc]; rfl
  refine ⟨_, hfragment, ?_, fun rest => LineRun.unbroken_append.mpr ⟨?_, ?_⟩⟩
  · rw [hfragment]
    exact hmark _
  · refine LineRun.unbroken_of_not_mem ?_ _
    have hl := (i.isBodyLine l (by rw [hbody]; exact List.mem_cons_self)).lineFeed_not_mem
    simpa using hl
  · refine LineRun.unbroken_below (fun m hm => ?_) (fun m hm => ?_) rest
    · obtain ⟨n, hn, rfl⟩ := List.mem_map.mp hm
      refine (i.isLine_indent_append ?_).2.1
      rw [marks, h, hbody]
      exact List.mem_cons_of_mem _ hn
    · obtain ⟨n, hn, rfl⟩ := List.mem_map.mp hm
      obtain ⟨l', -, rfl⟩ := List.mem_map.mp hn
      rw [LineRun.isDocLine_append fun _ => i.isInlineBlank_of_mem_indent]
      exact hmark l'

end Item

end DocDigest
