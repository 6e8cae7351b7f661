import DocDigest.Proofs.Comment.BlankLine

/-!
# Comments out of their surroundings

What a scan takes for a comment is a comment by itself. A comment may hold openers, closers and doc
lines of the other form, which its surroundings had no part in masking: put at the beginning of any
line, before nothing or a blank line, it is a comment again (`Shape.IsComment.moved`), and a scan
finds all of it (`Finds.comment`). So the comments of a source, written one below the other with
blank lines between them, are what a scan of that text finds (`Fragment.ofSource_joined_texts`).
-/

set_option autoImplicit false

namespace DocDigest

/-! ## Comments in another place -/

/-- An unbroken run stays unbroken before another text that no run goes on in. -/
theorem LineRun.Unbroken.change_rest {run rest rest' : Text} (h : Unbroken run rest)
    (hends : Ends rest) (hends' : Ends rest') : Unbroken run rest' := by
  intro a b hrun
  have hdoc := h a b hrun
  rw [hends.isDocLine_append] at hdoc
  rw [hends'.isDocLine_append, hdoc]

/-- A comment is a comment at the beginning of any line, if no run goes on behind it. -/
theorem Shape.IsComment.moved {shape : Shape} {before text rest before' rest' : Text}
    (h : IsComment before text rest shape) (hbegin : Cursor.lineBegins true before' = true)
    (hends : LineRun.Ends rest') : IsComment before' text rest' shape := by
  cases shape with
  | block =>
      obtain ⟨body, htext, hbody⟩ := h
      exact ⟨body, htext, hbody.change_rest rest'⟩
  | line =>
      obtain ⟨-, -, run, -, -, -, htext, hdoc, hrun, hendsHere⟩ := h
      refine ⟨before', [], run, (List.append_nil before').symm, hbegin, by simp, htext, ?_,
        hrun.change_rest hendsHere hends, hends⟩
      rw [hendsHere.isDocLine_append] at hdoc
      rw [hends.isDocLine_append, hdoc]

/-- A text that is a comment in some surroundings. -/
def IsCommentText (text : Text) : Prop :=
  ∃ shape before rest, Shape.IsComment before text rest shape

namespace Finds

variable {before : Text} {texts : List Text}

/-- A comment at the beginning of a line is found. -/
theorem comment {shape : Shape} {text rest : Text}
    (hbegin : Cursor.lineBegins true before = true) (h : shape.IsComment before text rest)
    (hrest : Finds (before ++ text) rest texts) : Finds before (text ++ rest) (text :: texts) := by
  cases shape with
  | block =>
      obtain ⟨body, rfl, hbody⟩ := h
      exact Finds.block hbody hrest
  | line =>
      obtain ⟨-, -, run, -, -, -, rfl, hdoc, hrun, hends⟩ := h
      have hrest' : Finds (before ++ [] ++ '/' :: '/' :: run) rest texts := by
        rwa [List.append_nil]
      exact Finds.run hbegin (by simp) hdoc hrun hends hrest'

/-- A blank line is passed over. -/
theorem blankLine {rest : Text} (hrest : Finds (before ++ ['\n', '\n']) rest texts) :
    Finds before (['\n', '\n'] ++ rest) texts :=
  skip (Text.absent_of_not_mem _ (by decide)) (noDocLine_blankLine _ rest) hrest

/-- Comments that are written with blank lines between them are found, whatever their surroundings
were. -/
theorem joined (hcomments : ∀ text ∈ texts, IsCommentText text)
    (hbegin : Cursor.lineBegins true before = true) :
    Finds before (Text.joinWith ['\n', '\n'] texts) texts := by
  induction texts generalizing before with
  | nil =>
      exact Finds.nil before
  | cons text texts ih =>
      obtain ⟨shape, lead, after, h⟩ := hcomments text List.mem_cons_self
      cases texts with
      | nil =>
          have halone := comment hbegin (h.moved hbegin (Or.inl rfl)) (Finds.nil _)
          rwa [List.append_nil] at halone
      | cons next texts =>
          have hafter : Cursor.lineBegins true (before ++ text ++ ['\n', '\n']) = true :=
            Cursor.lineBegins_append true (before ++ text) ['\n', '\n']
          have hbehind := ih (fun t ht => hcomments t (List.mem_cons_of_mem text ht)) hafter
          show Finds before (text ++ ['\n', '\n'] ++ Text.joinWith ['\n', '\n'] (next :: texts)) _
          rw [List.append_assoc]
          exact comment hbegin (h.moved hbegin (ends_blankLine _)) hbehind.blankLine

end Finds

/-! ## Extracting what was extracted -/

namespace Fragment

/-- What is extracted is a comment where it stands. -/
theorem isCommentText {file source : Text} {f : Fragment} (h : f ∈ ofSource file source) :
    IsCommentText f.text := by
  obtain ⟨s, hs, rfl⟩ := List.mem_map.mp h
  obtain ⟨shape, -, hcomment⟩ := (Scan.freshScan_scan Shape.all source).exists_commentAt hs
  obtain ⟨before, rest, htext⟩ := hcomment.exists_slice
  exact ⟨shape, before, rest, htext⟩

/-- Extracting the comments of a source, writing them with blank lines between them and extracting
them again gives the same comments, in the same order. Each of them by itself gives itself. -/
theorem ofSource_joined_texts (file file' source : Text) :
    ofSource file' (Text.joinWith ['\n', '\n'] ((ofSource file source).map Fragment.text))
        = (ofSource file source).map (fun f => ⟨file', f.text⟩) ∧
      (ofSource file source).map (fun f => ofSource file' f.text)
        = (ofSource file source).map fun f => [⟨file', f.text⟩] := by
  constructor
  · have hfinds : Finds [] (Text.joinWith ['\n', '\n'] ((ofSource file source).map Fragment.text))
        ((ofSource file source).map Fragment.text) := by
      refine Finds.joined ?_ rfl
      intro text hmem
      obtain ⟨f, hf, rfl⟩ := List.mem_map.mp hmem
      exact isCommentText hf
    rw [hfinds.ofSource_eq file', List.map_map]
    rfl
  · apply List.map_congr_left
    intro f hf
    have hfinds : Finds [] (Text.joinWith ['\n', '\n'] [f.text]) [f.text] :=
      Finds.joined (List.forall_mem_singleton.mpr (isCommentText hf)) rfl
    exact hfinds.ofSource_eq file'

end Fragment

end DocDigest
