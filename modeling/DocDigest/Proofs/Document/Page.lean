import DocDigest.Comment.Fragment
import DocDigest.Proofs.Comment.Finds
import DocDigest.Proofs.Document.Item

/-!
# Pages

A page is a source that documentation items are written in, with other lines around them. Extracting
the comments of a page and cleaning them gives the items back, in order
(`Page.clean_ofSource_text`).

The scan is followed line by line: `FindsLines ls texts` says that, wherever the lines `ls` stand, a
scan of them comes to the comments `texts`. Other lines are passed over (`FindsLines.other`), and an
item in front of lines that do not continue it gives its comment (`FindsLines.item`).
-/

set_option autoImplicit false

namespace DocDigest

/-- A line in which no comment begins. -/
structure IsOtherLine (l : Text) : Prop where
  lineFeed_not_mem : '\n' ∉ l
  no_opener : ¬ Block.opener <:+: l
  isDocLine_eq : LineRun.isDocLine l = false

/-- A scan finds the given comments in lines that begin at the start of a line. (Where no lines
follow, the place does not matter.) -/
def FindsLines (ls texts : List Text) : Prop :=
  ∀ before, ls = [] ∨ Cursor.lineBegins true before = true →
    Finds before (Text.joinWith ['\n'] ls) texts

namespace FindsLines

variable {ls texts : List Text}

theorem nil : FindsLines [] [] := fun before _ => Finds.nil before

/-- The lines may stand below something that was scanned before. -/
theorem below (h : FindsLines ls texts) (before : Text) : Finds before (Text.below ls) texts := by
  cases ls with
  | nil =>
      exact h before (Or.inl rfl)
  | cons l ls =>
      have hbegin := Cursor.lineBegins_append_singleton true before '\n'
      have hrest := h (before ++ ['\n']) (Or.inr hbegin)
      rw [Text.joinWith_cons] at hrest
      rw [Text.below_cons, ← List.singleton_append]
      exact hrest.skip (Text.absent_of_not_mem _ (by decide)) (LineRun.noDocLine_lineFeed _ _)

/-- A line in which no comment begins is passed over. -/
theorem other {l : Text} (hl : IsOtherLine l) (h : FindsLines ls texts) :
    FindsLines (l :: ls) texts := by
  rintro before (hnil | hbegin)
  · exact absurd hnil (List.cons_ne_nil l ls)
  · rw [Text.joinWith_cons]
    refine (h.below (before ++ l)).skip (Text.absent_of_not_within hl.no_opener ?_) ?_
    · intro c hc
      rw [Text.head?_below hc]
      decide
    · rw [hbegin]
      refine LineRun.noDocLine_of_not_mem hl.lineFeed_not_mem ?_
      rw [LineRun.isDocLine_append_below, hl.isDocLine_eq]

theorem others {gap : List Text} (hgap : ∀ l ∈ gap, IsOtherLine l) (h : FindsLines ls texts) :
    FindsLines (gap ++ ls) texts := by
  induction gap with
  | nil =>
      exact h
  | cons l gap ih =>
      exact other (hgap l List.mem_cons_self) (ih fun m hm => hgap m (List.mem_cons_of_mem l hm))

/-- An item gives its comment, if no line behind it goes on with it. -/
theorem item (i : Item) (hnext : ∀ l, ls.head? = some l → LineRun.isDocLine l = false)
    (h : FindsLines ls texts) : FindsLines (i.lines ++ ls) (i.fragment :: texts) := by
  rintro before hbefore
  have hbegin : Cursor.lineBegins true before = true := by
    refine hbefore.resolve_left fun hnil => ?_
    obtain ⟨m, ms, -, hlines, -⟩ := i.exists_marks_eq
    simp [hlines] at hnil
  have hind : ∀ c ∈ i.indent, isInlineBlank c = true := fun _ => i.isInlineBlank_of_mem_indent
  rw [i.joinWith_lines_append]
  cases hshape : i.shape with
  | block =>
      obtain ⟨body, hfragment, hbody⟩ := Item.exists_fragment_block hshape
      have hindent : '/' ∉ i.indent := fun hmem => absurd (hind _ hmem) (by decide)
      rw [hfragment]
      refine Finds.skip (Text.absent_of_not_mem _ hindent)
        (LineRun.noDocLine_of_blank hind rfl _) ?_
      exact Finds.block (hbody _) (h.below _)
  | line =>
      obtain ⟨run, hfragment, hdoc, hrun⟩ := Item.exists_fragment_line hshape
      rw [hfragment] at hdoc ⊢
      exact Finds.run hbegin hind (LineRun.isDocLine_append_right hdoc _) (hrun _)
        (LineRun.ends_below hnext) (h.below _)

/-- Items, each with other lines behind it, give their comments if there is at least one line
between each two of them. -/
theorem items {parts : List (Item × List Text)}
    (hother : ∀ part ∈ parts, ∀ l ∈ part.2, IsOtherLine l)
    (hapart : ∀ part ∈ parts.dropLast, part.2 ≠ []) :
    FindsLines (parts.flatMap fun part => part.1.lines ++ part.2)
      (parts.map fun part => part.1.fragment) := by
  induction parts with
  | nil =>
      exact nil
  | cons part parts ih =>
      obtain ⟨i, gap⟩ := part
      have hgap : ∀ l ∈ gap, IsOtherLine l := hother (i, gap) List.mem_cons_self
      have hrest := ih (fun p hp => hother p (List.mem_cons_of_mem _ hp)) fun p hp => by
        cases parts with
        | nil =>
            exact absurd hp List.not_mem_nil
        | cons q qs =>
            exact hapart p (List.mem_cons_of_mem _ hp)
      rw [List.flatMap_cons, List.append_assoc, List.map_cons]
      refine item i (fun l hl => ?_) (others hgap hrest)
      cases gap with
      | nil =>
          -- Nothing stands behind the last item.
          cases parts with
          | nil =>
              exact absurd hl (Option.some_ne_none l).symm
          | cons q qs =>
              exact absurd rfl (hapart (i, []) List.mem_cons_self)
      | cons m ms =>
          obtain rfl : m = l := Option.some.inj hl
          exact (hgap m List.mem_cons_self).isDocLine_eq

end FindsLines

/-! ## Pages -/

/-- Documentation items with other lines before, between and behind them. -/
structure Page where
  lead : List Text
  parts : List (Item × List Text)
  lead_other : ∀ l ∈ lead, IsOtherLine l
  behind_other : ∀ part ∈ parts, ∀ l ∈ part.2, IsOtherLine l
  /-- There is at least one line between each two items. -/
  behind_ne_nil : ∀ part ∈ parts.dropLast, part.2 ≠ []

namespace Page

def items (p : Page) : List Item := p.parts.map Prod.fst

def lines (p : Page) : List Text := p.lead ++ p.parts.flatMap fun part => part.1.lines ++ part.2

def text (p : Page) : Text := Text.joinWith ['\n'] p.lines

theorem findsLines (p : Page) : FindsLines p.lines (p.items.map Item.fragment) := by
  rw [items, List.map_map]
  exact FindsLines.others p.lead_other (FindsLines.items p.behind_other p.behind_ne_nil)

/-- Extracting the comments of a page gives one for each item, in order. -/
theorem ofSource_text (file : Text) (p : Page) :
    Fragment.ofSource file p.text = p.items.map fun i => ⟨file, i.fragment⟩ := by
  have hfinds : Finds [] p.text (p.items.map Item.fragment) := p.findsLines [] (Or.inr rfl)
  rw [hfinds.ofSource_eq file, List.map_map]
  rfl

/-- Writing documentation items, extracting the comments and cleaning them gives back the bodies of
the items, one for each and in order, whatever the bodies and the lines around them look like. -/
theorem clean_ofSource_text (file : Text) (p : Page) :
    (Fragment.ofSource file p.text).map (fun f => (f.file, clean f.text))
      = p.items.map fun i => (file, Text.joinWith ['\n'] i.body) := by
  calc (Fragment.ofSource file p.text).map (fun f => (f.file, clean f.text))
      = (p.items.map fun i => Fragment.mk file i.fragment).map
          (fun f => (f.file, clean f.text)) := by
        rw [ofSource_text]
    _ = p.items.map fun i => (file, clean i.fragment) := List.map_map
    _ = p.items.map fun i => (file, Text.joinWith ['\n'] i.body) :=
        List.map_congr_left fun i _ => congrArg (Prod.mk file) i.clean_fragment

/-- Bodies may look like comments themselves. -/
theorem clean_ofSource_masked_bodies :
    ∃ p : Page,
      p.text = "use a;\n\t/**\n\t * // * x\n\t * /** y\n\t */\n\n// * * z\n// * /".toList ∧
      (Fragment.ofSource "a.rs".toList p.text).map (fun f => (f.file, clean f.text)) =
        [("a.rs".toList, "// * x\n/** y".toList), ("a.rs".toList, "* z\n/".toList)] := by
  have hrun : IsBodyLine "// * x".toList :=
    ⟨by decide, rfl, by decide, by simp [Block.closer, List.infix_cons_iff]⟩
  have hopener : IsBodyLine "/** y".toList :=
    ⟨by decide, rfl, by decide, by simp [Block.closer, List.infix_cons_iff]⟩
  have hstar : IsBodyLine "* z".toList :=
    ⟨by decide, rfl, by decide, by simp [Block.closer, List.infix_cons_iff]⟩
  have hslash : IsBodyLine "/".toList :=
    ⟨by decide, rfl, by decide, by simp [Block.closer, List.infix_cons_iff]⟩
  have huse : IsOtherLine "use a;".toList :=
    ⟨by decide, by simp [Block.opener, List.infix_cons_iff], rfl⟩
  have hempty : IsOtherLine [] := ⟨by decide, by decide, by decide⟩
  let first : Item :=
    { shape := .block
      indent := ['\t']
      body := ["// * x".toList, "/** y".toList]
      indent_blank := by simp
      body_ne_nil := List.cons_ne_nil _ _
      isBodyLine := List.forall_mem_cons.mpr ⟨hrun, List.forall_mem_singleton.mpr hopener⟩ }
  let second : Item :=
    { shape := .line
      indent := []
      body := ["* z".toList, "/".toList]
      indent_blank := by simp
      body_ne_nil := List.cons_ne_nil _ _
      isBodyLine := List.forall_mem_cons.mpr ⟨hstar, List.forall_mem_singleton.mpr hslash⟩ }
  let p : Page :=
    { lead := ["use a;".toList]
      parts := [(first, [[]]), (second, [])]
      lead_other := List.forall_mem_singleton.mpr huse
      behind_other := by simp [hempty]
      behind_ne_nil := by simp }
  refine ⟨p, by rfl, ?_⟩
  rw [clean_ofSource_text]
  rfl

end Page

end DocDigest
