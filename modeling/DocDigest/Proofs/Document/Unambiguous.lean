import DocDigest.Proofs.Document.Outline
import Mathlib.Data.List.Basic

/-!
# Reading a document back

If no file's name holds a line feed, a document tells which files it was made from and what the
cleaned comments of each of them are (`Markdown.contents_eq_of_document_eq`): the texts of a
document may look like headings and fences themselves, but none of them that holds something has a
blank line, and so a fence closes a text if a blank line follows.

First a document gives the elements that it is made of (`Markdown.outline_eq_of_document_eq`), from
the front, as each of them can be told from whatever follows it (`Element.eq_of_lines_append_eq`).
Then the elements give the sections (`Markdown.partition_flatMap_elements`).
-/

set_option autoImplicit false

namespace DocDigest

namespace Markdown

/-! ## From lines to elements -/

/-- Lines are told from what follows them, if a blank line comes first there and none is theirs. -/
theorem eq_of_append_blank_eq {ls ls' rest rest' : List Text} (h : [] ∉ ls) (h' : [] ∉ ls')
    (heq : ls ++ [] :: rest = ls' ++ [] :: rest') : ls = ls' ∧ rest = rest' := by
  have hfirst : ∀ {ms : List Text} (behind : List Text), [] ∉ ms →
      (ms ++ [] :: behind).idxOf [] = ms.length := by
    intro ms behind hms
    rw [List.idxOf_append_of_notMem hms, List.idxOf_cons_self, Nat.add_zero]
  have hlength : ls.length = ls'.length := by
    rw [← hfirst rest h, heq, hfirst rest' h']
  obtain ⟨hlines, hbehind⟩ := List.append_inj heq hlength
  exact ⟨hlines, (List.cons.inj hbehind).2⟩

namespace Element

/-- A text that holds something does not begin with the blank line that stands for an empty text. -/
theorem splitOn_append_ne {body : Text} (h : [] ∉ Text.splitOn '\n' body) (rest rest' : List Text) :
    Text.splitOn '\n' body ++ rest ≠ [] :: rest' := by
  intro heq
  obtain ⟨l, ls, hlines⟩ := List.exists_cons_of_ne_nil (Text.splitOn_ne_nil '\n' body)
  rw [hlines, List.cons_append, List.cons.injEq] at heq
  rw [hlines, heq.1] at h
  exact h List.mem_cons_self

/-- Where the blank line behind two texts and their closing fences is the first one, the texts are
the same. -/
theorem eq_of_splitOn_append_eq {body body' : Text} (h : body = [] ∨ [] ∉ Text.splitOn '\n' body)
    (h' : body' = [] ∨ [] ∉ Text.splitOn '\n' body') {rest rest' : List Text}
    (heq : Text.splitOn '\n' body ++ fence :: [] :: rest
      = Text.splitOn '\n' body' ++ fence :: [] :: rest') : body = body' ∧ rest = rest' := by
  rcases h with rfl | h
  · rcases h' with rfl | h'
    · have hrest : fence :: [] :: rest = fence :: [] :: rest' := List.append_cancel_left heq
      exact ⟨rfl, (List.cons.inj (List.cons.inj hrest).2).2⟩
    · exact absurd heq.symm (splitOn_append_ne h' _ _)
  · rcases h' with rfl | h'
    · exact absurd heq (splitOn_append_ne h _ _)
    · -- Neither text has a blank line: the first one stands behind the fence that closes it.
      have hfence : ∀ {ls : List Text}, [] ∉ ls → [] ∉ ls ++ [fence] := by
        intro ls hls hmem
        rcases List.mem_append.mp hmem with hmem | hmem
        · exact hls hmem
        · exact absurd hmem (by decide)
      rw [List.append_cons _ fence, List.append_cons _ fence ([] :: rest')] at heq
      obtain ⟨hlines, hrest⟩ := eq_of_append_blank_eq (hfence h) (hfence h') heq
      exact ⟨Text.splitOn_injective (List.append_cancel_right hlines), hrest⟩

/-- An element can be told from whatever follows it. -/
theorem eq_of_lines_append_eq {e e' : Element} (h : e.IsPlain) (h' : e'.IsPlain)
    {rest rest' : List Text} (heq : e.lines ++ rest = e'.lines ++ rest') :
    e = e' ∧ rest = rest' := by
  cases e with
  | heading file =>
      cases e' with
      | heading file' =>
          obtain ⟨hline, hrest⟩ := List.cons.inj heq
          have hfile : file = file' := List.append_cancel_left hline
          exact ⟨congrArg heading hfile, (List.cons.inj hrest).2⟩
      | code body' =>
          exact absurd (List.cons.inj heq).1 (headline_ne_fence file)
  | code body =>
      cases e' with
      | heading file' =>
          exact absurd (List.cons.inj heq).1.symm (headline_ne_fence file')
      | code body' =>
          rw [lines, lines, List.cons_append, List.cons_append, List.append_assoc,
            List.append_assoc] at heq
          have hbehind := (List.cons.inj heq).2
          obtain ⟨hbody, hrest⟩ := eq_of_splitOn_append_eq h h' hbehind
          exact ⟨congrArg code hbody, hrest⟩

theorem lines_ne_nil (e : Element) : e.lines ≠ [] := by
  cases e with
  | heading file =>
      exact List.cons_ne_nil _ _
  | code body =>
      exact List.cons_ne_nil _ _

end Element

/-- The lines of elements give the elements. -/
theorem eq_of_flatMap_lines_eq {es es' : List Element} (h : ∀ e ∈ es, e.IsPlain)
    (h' : ∀ e ∈ es', e.IsPlain) (heq : es.flatMap Element.lines = es'.flatMap Element.lines) :
    es = es' := by
  induction es generalizing es' with
  | nil =>
      cases es' with
      | nil =>
          rfl
      | cons e' es' =>
          rw [List.flatMap_nil, List.flatMap_cons] at heq
          exact absurd (List.append_eq_nil_iff.mp heq.symm).1 e'.lines_ne_nil
  | cons e es ih =>
      cases es' with
      | nil =>
          rw [List.flatMap_nil, List.flatMap_cons] at heq
          exact absurd (List.append_eq_nil_iff.mp heq).1 e.lines_ne_nil
      | cons e' es' =>
          rw [List.forall_mem_cons] at h h'
          rw [List.flatMap_cons, List.flatMap_cons] at heq
          obtain ⟨rfl, hrest⟩ := Element.eq_of_lines_append_eq h.1 h'.1 heq
          rw [ih h.2 h'.2 hrest]

/-- A document gives the elements that it is made of. -/
theorem outline_eq_of_document_eq {fs gs : List Fragment} (hfs : ∀ f ∈ fs, '\n' ∉ f.file)
    (hgs : ∀ g ∈ gs, '\n' ∉ g.file) (h : document fs = document gs) : outline fs = outline gs := by
  have hlines := congrArg (Text.splitOn '\n') h
  rw [splitOn_document hfs, splitOn_document hgs] at hlines
  have helements := List.append_cancel_right (List.cons.inj (List.cons.inj hlines).2).2
  exact eq_of_flatMap_lines_eq (fun _ => isPlain_of_mem_outline hfs)
    (fun _ => isPlain_of_mem_outline hgs) helements

/-! ## From elements to sections -/

/-- The texts in front of the first heading, and each heading's file with the texts below it. -/
def partition : List Element → List Text × List (Text × List Text)
  | [] => ([], [])
  | .code body :: es => (body :: (partition es).1, (partition es).2)
  | .heading file :: es => ([], (file, (partition es).1) :: (partition es).2)

theorem partition_append (bodies : List Text) (es : List Element) :
    partition (bodies.map .code ++ es) = (bodies ++ (partition es).1, (partition es).2) := by
  induction bodies with
  | nil =>
      rfl
  | cons body bodies ih =>
      rw [List.map_cons, List.cons_append, partition, ih, List.cons_append]

/-- A file and its cleaned comments. -/
def contents (s : Section) : Text × List Text := (s.file, s.comments.map clean)

theorem partition_flatMap_elements (sections : List Section) :
    partition (sections.flatMap elements) = ([], sections.map contents) := by
  induction sections with
  | nil =>
      rfl
  | cons s sections ih =>
      have helements : elements s = .heading s.file :: (s.comments.map clean).map .code := by
        rw [elements, List.map_map]
        rfl
      rw [List.flatMap_cons, helements, List.cons_append, partition, partition_append, ih,
        List.append_nil, List.map_cons, contents]

/-- A document tells which files it was made from, in which order, and what the cleaned comments of
each of them are. -/
theorem contents_eq_of_document_eq {fs gs : List Fragment} (hfs : ∀ f ∈ fs, '\n' ∉ f.file)
    (hgs : ∀ g ∈ gs, '\n' ∉ g.file) (h : document fs = document gs) :
    (Section.ofFragments fs).map contents = (Section.ofFragments gs).map contents := by
  have hpartition := congrArg partition (outline_eq_of_document_eq hfs hgs h)
  rw [outline, outline, partition_flatMap_elements, partition_flatMap_elements] at hpartition
  exact (Prod.mk.inj hpartition).2

/-- Comments of other files may stand in between, a file may be named like a fence, and a text may
be empty or look like a heading or a fence. -/
theorem contents_eq_of_masked_elements :
    ∃ fs gs : List Fragment, fs ≠ gs ∧ document fs = document gs ∧
      (Section.ofFragments fs).map contents = (Section.ofFragments gs).map contents ∧
      (Section.ofFragments gs).map contents =
        [("a.ts".toList, ["## b.ts".toList, []]), ("```".toList, ["```\nx".toList])] := by
  let fs : List Fragment :=
    [⟨"a.ts".toList, "/** ## b.ts */".toList⟩, ⟨"```".toList, "// * ```\n// * x".toList⟩,
      ⟨"a.ts".toList, "/** */".toList⟩]
  let gs : List Fragment :=
    [⟨"a.ts".toList, "// * ## b.ts".toList⟩, ⟨"a.ts".toList, "// *".toList⟩,
      ⟨"```".toList, "/**\n * ```\n * x\n */".toList⟩]
  have hfs : ∀ f ∈ fs, '\n' ∉ f.file := by decide
  have hgs : ∀ g ∈ gs, '\n' ∉ g.file := by decide
  exact ⟨fs, gs, by decide, by decide, contents_eq_of_document_eq hfs hgs (by decide), by decide⟩

end Markdown

end DocDigest
