import DocDigest.Document.Markdown
import DocDigest.Proofs.Document.CleanLines
import DocDigest.Proofs.Document.Grouping
import DocDigest.Proofs.Text.Lines

/-!
# The outline of a document

Below its title a document is made of headings and of fenced texts. Its outline is the list of them
(`Markdown.outline`), and the lines of the document are the title's and the lines of each of them
(`Markdown.splitOn_document`), if no file's name holds a line feed.
-/

set_option autoImplicit false

namespace DocDigest

namespace Markdown

/-- The line of a heading is no fence: it begins with a number sign. -/
theorem headline_ne_fence (file : Text) : "## ".toList ++ file ≠ fence := by
  intro heq
  exact absurd (List.cons.inj heq).1 (by decide)

/-- A part of a document that stands by itself: a file's heading or a fenced text. -/
inductive Element where
  | heading (file : Text)
  | code (body : Text)
deriving DecidableEq

namespace Element

def text : Element → Text
  | heading file => Markdown.heading file
  | code body => fenced body

/-- The lines that an element takes up, the blank one behind it included. -/
def lines : Element → List Text
  | heading file => ["## ".toList ++ file, []]
  | code body => fence :: (Text.splitOn '\n' body ++ [fence, []])

def file? : Element → Option Text
  | heading file => some file
  | code _ => none

def body? : Element → Option Text
  | heading _ => none
  | code body => some body

/-- What a heading and a fenced text of a document are like: a heading is one line, and a text that
holds something has no blank line. -/
def IsPlain : Element → Prop
  | heading file => '\n' ∉ file
  | code body => body = [] ∨ [] ∉ Text.splitOn '\n' body

theorem splitOn_text_append {e : Element} (h : e.IsPlain) (t : Text) :
    Text.splitOn '\n' (e.text ++ t) = e.lines ++ Text.splitOn '\n' t := by
  have hblank : Text.splitOn '\n' ('\n' :: t) = [] :: Text.splitOn '\n' t :=
    Text.splitOn_append_cons '\n' [] t
  cases e with
  | heading file =>
      have hline : '\n' ∉ "## ".toList ++ file := by
        rw [List.mem_append, not_or]
        exact ⟨by decide, h⟩
      have htext : (heading file).text ++ t = "## ".toList ++ file ++ '\n' :: '\n' :: t := by
        rw [text, Markdown.heading, List.append_assoc _ _ t, List.cons_append, List.cons_append,
          List.nil_append]
      rw [htext, Text.splitOn_append_cons, Text.splitOn_of_not_mem hline, hblank]
      rfl
  | code body =>
      have hfence : Text.splitOn '\n' fence = [fence] := by decide
      have htext : (code body).text ++ t
          = fence ++ '\n' :: (body ++ '\n' :: (fence ++ '\n' :: '\n' :: t)) := by
        rw [text, fenced]
        simp only [List.append_assoc, List.cons_append, List.nil_append]
      rw [htext, Text.splitOn_append_cons, Text.splitOn_append_cons, Text.splitOn_append_cons,
        hfence, hblank]
      exact congrArg (fence :: ·)
        (List.append_assoc (Text.splitOn '\n' body) [fence, []] (Text.splitOn '\n' t)).symm

end Element

/-! ## Outlines -/

/-- The heading of a section and its comments, cleaned. -/
def elements (s : Section) : List Element :=
  .heading s.file :: s.comments.map fun raw => .code (clean raw)

/-- The headings and fenced texts of the document that fragments make up. -/
def outline (fs : List Fragment) : List Element := (Section.ofFragments fs).flatMap elements

theorem flatMap_text_elements (s : Section) : (elements s).flatMap Element.text = part s := by
  rw [elements, List.flatMap_cons, List.flatMap_map]
  rfl

theorem document_eq (fs : List Fragment) :
    document fs = title ++ ['\n', '\n'] ++ (outline fs).flatMap Element.text := by
  rw [document, outline, List.flatMap_assoc]
  simp only [flatMap_text_elements]

theorem isPlain_of_mem_outline {fs : List Fragment} (hfs : ∀ f ∈ fs, '\n' ∉ f.file) {e : Element}
    (he : e ∈ outline fs) : e.IsPlain := by
  obtain ⟨s, hs, he⟩ := List.mem_flatMap.mp he
  rcases List.mem_cons.mp he with rfl | he
  · obtain ⟨f, hf, hfile⟩ := Section.exists_mem_of_mem_ofFragments hs
    exact hfile ▸ hfs f hf
  · obtain ⟨raw, -, rfl⟩ := List.mem_map.mp he
    exact Clean.eq_nil_or_not_mem_splitOn_clean raw

/-- The lines of a document are the title's and those of its elements. (The text behind the last
line feed is empty.) -/
theorem splitOn_document {fs : List Fragment} (hfs : ∀ f ∈ fs, '\n' ∉ f.file) :
    Text.splitOn '\n' (document fs)
      = title :: [] :: ((outline fs).flatMap Element.lines ++ [[]]) := by
  have helements : ∀ es : List Element, (∀ e ∈ es, e.IsPlain) →
      Text.splitOn '\n' (es.flatMap Element.text) = es.flatMap Element.lines ++ [[]] := by
    intro es hes
    induction es with
    | nil =>
        rfl
    | cons e es ih =>
        obtain ⟨he, hrest⟩ := List.forall_mem_cons.mp hes
        rw [List.flatMap_cons, Element.splitOn_text_append he, ih hrest, List.flatMap_cons,
          List.append_assoc]
  have htitle : Text.splitOn '\n' title = [title] := by decide
  have htext :
      document fs = title ++ '\n' :: ([] ++ '\n' :: (outline fs).flatMap Element.text) := by
    rw [document_eq, List.append_assoc]
    rfl
  rw [htext, Text.splitOn_append_cons, Text.splitOn_append_cons, htitle,
    helements _ fun _ => isPlain_of_mem_outline hfs]
  rfl

end Markdown

end DocDigest
