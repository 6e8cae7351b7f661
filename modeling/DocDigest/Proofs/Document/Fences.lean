import DocDigest.Proofs.Document.Outline

/-!
# Reading the fences of a document

A reader goes through the lines of a document as Markdown does: a line that is exactly a fence opens
a fenced text, the next line that is exactly a fence closes it, and a line outside fenced texts that
begins with two number signs and a blank is a heading. It finds the sections of the document, with
their cleaned comments, if none of the comments has a line that is exactly a fence, and otherwise it
does not (`Markdown.read_document_iff`).
-/

set_option autoImplicit false

namespace DocDigest

namespace Markdown

/-- The headings and fenced texts that a reader finds in lines. Inside a fenced text the reader
carries the lines of it that it has read; a text that nothing closes goes on to the end. -/
def readFrom : Option (List Text) → List Text → List Element
  | none, [] => []
  | none, l :: ls =>
    if l = fence then readFrom (some []) ls
    else match after? "## ".toList l with
      | some file => .heading file :: readFrom none ls
      | none => readFrom none ls
  | some before, [] => [.code (Text.joinWith ['\n'] before)]
  | some before, l :: ls =>
    if l = fence then .code (Text.joinWith ['\n'] before) :: readFrom none ls
    else readFrom (some (before ++ [l])) ls

/-- The headings and fenced texts that a reader finds in a document. -/
def read (text : Text) : List Element := readFrom none (Text.splitOn '\n' text)

def headings (es : List Element) : List Text := es.filterMap Element.file?

def bodies (es : List Element) : List Text := es.filterMap Element.body?

/-! ## What is read back -/

/-- Lines of which none is a fence are read as lines of the text that they stand in. -/
theorem readFrom_some_append {ls : List Text} (h : fence ∉ ls) (before rest : List Text) :
    readFrom (some before) (ls ++ rest) = readFrom (some (before ++ ls)) rest := by
  induction ls generalizing before with
  | nil =>
      rw [List.nil_append, List.append_nil]
  | cons l ls ih =>
      obtain ⟨hl, hls⟩ := not_or.mp (mt List.mem_cons.mpr h)
      rw [List.cons_append, readFrom, if_neg (Ne.symm hl), ih hls, List.append_assoc,
        List.singleton_append]

theorem readFrom_blank (rest : List Text) : readFrom none ([] :: rest) = readFrom none rest := by
  have hfence : ([] : Text) ≠ fence := by decide
  have hheading : after? "## ".toList [] = none := rfl
  rw [readFrom, if_neg hfence, hheading]

theorem readFrom_heading (file : Text) (rest : List Text) :
    readFrom none (("## ".toList ++ file) :: rest) = .heading file :: readFrom none rest := by
  rw [readFrom, if_neg (headline_ne_fence file), after?_append]

theorem readFrom_fenced {body : Text} (h : fence ∉ Text.splitOn '\n' body) (rest : List Text) :
    readFrom none (fence :: (Text.splitOn '\n' body ++ fence :: rest))
      = .code body :: readFrom none rest := by
  rw [readFrom, if_pos rfl, readFrom_some_append h, List.nil_append, readFrom, if_pos rfl,
    Text.joinWith_splitOn]

/-- Elements are read back from their lines, if no fenced text has a fence of its own. -/
theorem readFrom_flatMap_lines {es : List Element}
    (h : ∀ body ∈ bodies es, fence ∉ Text.splitOn '\n' body) :
    readFrom none (es.flatMap Element.lines ++ [[]]) = es := by
  induction es with
  | nil =>
      exact readFrom_blank []
  | cons e es ih =>
      rw [List.flatMap_cons, List.append_assoc]
      cases e with
      | heading file =>
          rw [Element.lines, List.cons_append, readFrom_heading, List.singleton_append,
            readFrom_blank, ih h]
      | code body =>
          obtain ⟨hbody, hrest⟩ := List.forall_mem_cons.mp h
          rw [Element.lines, List.cons_append, List.append_assoc, List.cons_append,
            readFrom_fenced hbody, List.singleton_append, readFrom_blank, ih hrest]

/-- A reader that sees no fence in the comments finds the elements that the document is made of. -/
theorem read_document {fs : List Fragment} (hfs : ∀ f ∈ fs, '\n' ∉ f.file)
    (h : ∀ body ∈ bodies (outline fs), fence ∉ Text.splitOn '\n' body) :
    read (document fs) = outline fs := by
  have hfence : title ≠ fence := by decide
  have hheading : after? "## ".toList title = none := by decide
  rw [read, splitOn_document hfs, readFrom, if_neg hfence, hheading]
  exact (readFrom_blank _).trans (readFrom_flatMap_lines h)

/-! ## What is never read -/

theorem not_mem_splitOn_joinWith {ls : List Text} (h : ∀ l ∈ ls, l ≠ fence ∧ '\n' ∉ l) :
    fence ∉ Text.splitOn '\n' (Text.joinWith ['\n'] ls) := by
  cases ls with
  | nil =>
      decide
  | cons l ls =>
      rw [Text.splitOn_joinWith fun m hm => (h m hm).2]
      intro hmem
      exact (h fence hmem).1 rfl

/-- No text that a reader finds has a line that is exactly a fence. -/
theorem not_mem_of_mem_readFrom {ls : List Text} (hls : ∀ l ∈ ls, '\n' ∉ l)
    {inside : Option (List Text)} (hinside : ∀ l ∈ inside.getD [], l ≠ fence ∧ '\n' ∉ l)
    {body : Text} (h : .code body ∈ readFrom inside ls) : fence ∉ Text.splitOn '\n' body := by
  induction ls generalizing inside with
  | nil =>
      cases inside with
      | none =>
          exact absurd h List.not_mem_nil
      | some before =>
          rw [readFrom, List.mem_singleton] at h
          rw [Element.code.inj h]
          exact not_mem_splitOn_joinWith hinside
  | cons l ls ih =>
      obtain ⟨hl, hrest⟩ := List.forall_mem_cons.mp hls
      cases inside with
      | none =>
          rw [readFrom] at h
          split at h
          · have hopen : ∀ m ∈ (some ([] : List Text)).getD [], m ≠ fence ∧ '\n' ∉ m :=
              List.forall_mem_nil _
            exact ih hrest hopen h
          · split at h
            · have hbehind := (List.mem_cons.mp h).resolve_left (by intro heq; cases heq)
              exact ih hrest hinside hbehind
            · exact ih hrest hinside h
      | some before =>
          rw [readFrom] at h
          split at h
          · rcases List.mem_cons.mp h with h | h
            · rw [Element.code.inj h]
              exact not_mem_splitOn_joinWith hinside
            · have hclosed : ∀ m ∈ (none : Option (List Text)).getD [], m ≠ fence ∧ '\n' ∉ m :=
                List.forall_mem_nil _
              exact ih hrest hclosed h
          · -- The line goes into the text because it is no fence.
            next hfence =>
            refine ih hrest (List.forall_mem_append.mpr ⟨hinside, ?_⟩) h
            exact List.forall_mem_singleton.mpr ⟨hfence, hl⟩

theorem not_mem_of_mem_bodies_read {text body : Text} (h : body ∈ bodies (read text)) :
    fence ∉ Text.splitOn '\n' body := by
  obtain ⟨e, he, hbody⟩ := List.mem_filterMap.mp h
  cases e with
  | heading file =>
      exact absurd hbody.symm (Option.some_ne_none body)
  | code body' =>
      rw [Option.some.inj hbody] at he
      have hls : ∀ l ∈ Text.splitOn '\n' text, '\n' ∉ l := fun _ => Text.not_mem_of_mem_splitOn
      exact not_mem_of_mem_readFrom hls (List.forall_mem_nil _) he

/-! ## The fences of a document -/

theorem bodies_elements (s : Section) : bodies (elements s) = s.comments.map clean := by
  rw [bodies, elements, List.filterMap_cons, List.filterMap_map]
  exact congrFun List.filterMap_eq_map s.comments

theorem headings_elements (s : Section) : headings (elements s) = [s.file] := by
  have hcomments : s.comments.filterMap (Element.file? ∘ fun raw => .code (clean raw)) = [] :=
    List.filterMap_eq_nil_iff.mpr fun _ _ => rfl
  rw [headings, elements, List.filterMap_cons, List.filterMap_map, hcomments]
  rfl

theorem bodies_outline (fs : List Fragment) :
    bodies (outline fs) = (Section.ofFragments fs).flatMap fun s => s.comments.map clean := by
  rw [bodies, outline, List.filterMap_flatMap]
  exact congrArg (Section.ofFragments fs).flatMap (funext bodies_elements)

theorem headings_outline (fs : List Fragment) :
    headings (outline fs) = (Section.ofFragments fs).map Section.file := by
  rw [headings, outline, List.filterMap_flatMap, List.map_eq_flatMap]
  exact congrArg (Section.ofFragments fs).flatMap (funext headings_elements)

theorem mem_bodies_outline_iff {fs : List Fragment} {body : Text} :
    body ∈ bodies (outline fs) ↔ ∃ f ∈ fs, clean f.text = body := by
  rw [bodies_outline, List.mem_flatMap]
  constructor
  · rintro ⟨s, hs, hbody⟩
    obtain ⟨raw, hraw, rfl⟩ := List.mem_map.mp hbody
    exact ⟨⟨s.file, raw⟩, Section.mem_comments_iff.mp ⟨s, hs, rfl, hraw⟩, rfl⟩
  · rintro ⟨f, hf, rfl⟩
    obtain ⟨s, hs, -, hraw⟩ := Section.mem_comments_iff.mpr hf
    exact ⟨s, hs, List.mem_map_of_mem hraw⟩

/-- A reader finds one fenced text for each comment, in the order of the sections and cleaned, and
the files as the headings, if and only if no comment has a line that is exactly a fence. -/
theorem read_document_iff {fs : List Fragment} (hfs : ∀ f ∈ fs, '\n' ∉ f.file) :
    (bodies (read (document fs))
          = (Section.ofFragments fs).flatMap (fun s => s.comments.map clean) ∧
        headings (read (document fs)) = (Section.ofFragments fs).map Section.file) ↔
      ∀ f ∈ fs, fence ∉ Text.splitOn '\n' (clean f.text) := by
  rw [← bodies_outline, ← headings_outline]
  constructor
  · rintro ⟨hbodies, -⟩ f hf
    have hmem : clean f.text ∈ bodies (outline fs) := mem_bodies_outline_iff.mpr ⟨f, hf, rfl⟩
    rw [← hbodies] at hmem
    exact not_mem_of_mem_bodies_read hmem
  · intro h
    have hread : read (document fs) = outline fs := by
      refine read_document hfs fun body hbody => ?_
      obtain ⟨f, hf, rfl⟩ := mem_bodies_outline_iff.mp hbody
      exact h f hf
    rw [hread]
    exact ⟨rfl, rfl⟩

/-- A comment may look like a heading, hold nothing, or have a fence with a language behind it, and
a file may be named like a fence. -/
theorem read_document_of_masked_elements :
    ∃ fs : List Fragment,
      bodies (read (document fs)) = ["## b.ts".toList, [], "```ts\nf()".toList] ∧
      headings (read (document fs)) = ["a.ts".toList, "```".toList] := by
  let fs : List Fragment :=
    [⟨"a.ts".toList, "/** ## b.ts */".toList⟩, ⟨"```".toList, "// * ```ts\n// * f()".toList⟩,
      ⟨"a.ts".toList, "/** */".toList⟩]
  have hfs : ∀ f ∈ fs, '\n' ∉ f.file := by decide
  have hclean : ∀ f ∈ fs, fence ∉ Text.splitOn '\n' (clean f.text) := by decide
  obtain ⟨hbodies, hheadings⟩ := (read_document_iff hfs).mpr hclean
  exact ⟨fs, hbodies.trans (by decide), hheadings.trans (by decide)⟩

/-- A comment with a fence of its own comes apart: a reader finds two empty texts, with the
comment's text outside of them. -/
theorem read_document_splits_code_example :
    ¬ ∀ fs : List Fragment, (∀ f ∈ fs, '\n' ∉ f.file) →
      bodies (read (document fs))
          = (Section.ofFragments fs).flatMap (fun s => s.comments.map clean) ∧
        headings (read (document fs)) = (Section.ofFragments fs).map Section.file := by
  intro h
  let fs : List Fragment := [⟨"a.ts".toList, "/**\n * ```\n * x\n * ```\n */".toList⟩]
  have hfs : ∀ f ∈ fs, '\n' ∉ f.file := by decide
  have hread : bodies (read (document fs)) = [[], []] := by decide
  have hcomments : (Section.ofFragments fs).flatMap (fun s => s.comments.map clean)
      = ["```\nx\n```".toList] := by decide
  have heq := (h fs hfs).1
  rw [hread, hcomments] at heq
  exact absurd heq (by decide)

end Markdown

end DocDigest
