import DocDigest.Proofs.Comment.LineEndings
import DocDigest.Proofs.Document.CleanLines
import DocDigest.Proofs.Document.Outline

/-!
# Line endings make no difference

A source and the same source with a carriage return before each line feed have as many comments, the
same cleaned comments, and the same document (`Fragment.ofSource_withReturns`). The comments
themselves differ by carriage returns only, and cleaning a comment drops those: they stand at the
ends of lines, and cleaning a line trims it (`Clean.clean_eq_of_isReturned`).
-/

set_option autoImplicit false

namespace DocDigest

open Text (withReturns)

/-! ## Cleaning -/

namespace Clean

theorem line_eq_of_trim_eq {l m : Text} (h : Text.trim l = Text.trim m) : line l = line m := by
  rw [line, h, line]

/-- Closing the pieces between line feeds makes no difference for their cleaned lines. -/
theorem filter_map_line_closeLines (ls : List Text) :
    ((Text.closeLines ls).map line).filter (!·.isEmpty)
      = (ls.map line).filter (!·.isEmpty) := by
  rw [← List.filterMap_eq_filter, List.filterMap_map, List.filterMap_map]
  refine Text.filterMap_closeLines rfl (fun l => ?_) ls
  rw [Function.comp_apply, Function.comp_apply, line_eq_of_trim_eq (Text.trim_dropReturn l)]

/-- How the lines of a comment end does not matter for cleaning it: it cleans the pieces between the
line feeds. -/
theorem bodyLines_eq (raw : Text) :
    bodyLines raw = ((Text.splitOn '\n' raw).map line).filter (!·.isEmpty) := by
  rw [bodyLines, Text.lines, filter_map_line_closeLines]

theorem map_line_returnEach (ls : List Text) :
    (Text.returnEach ls).map line = ls.map line :=
  Text.map_returnEach
    (fun l => line_eq_of_trim_eq (Text.trim_append_singleton isBlank_carriageReturn l)) ls

/-- Carriage returns before its line feeds make no difference for a cleaned comment. -/
theorem clean_withReturns (raw : Text) : clean (withReturns raw) = clean raw := by
  rw [clean, bodyLines_eq, Text.splitOn_withReturns, map_line_returnEach, ← bodyLines_eq, ← clean]

/-- A line feed at its end makes no difference for a cleaned comment. -/
theorem clean_append_lineFeed (raw : Text) : clean (raw ++ ['\n']) = clean raw := by
  have hlines : bodyLines (raw ++ ['\n']) = bodyLines raw := by
    rw [bodyLines_eq, Text.splitOn_append_cons, List.map_append, List.filter_append,
      ← bodyLines_eq]
    exact List.append_nil _
  rw [clean, hlines, clean]

/-- A comment and the same comment with carriage returns put in are the same when cleaned. -/
theorem clean_eq_of_isReturned {text text' : Text} (h : IsReturned text text') :
    clean text' = clean text := by
  obtain ⟨tail, rfl, rfl | rfl⟩ := h
  · rw [List.append_nil, clean_withReturns]
  · have hfeed : withReturns (text ++ ['\n']) = withReturns text ++ ['\r'] ++ ['\n'] := by
      rw [Text.withReturns_append, List.append_assoc]
      rfl
    calc clean (withReturns text ++ ['\r'])
        = clean (withReturns text ++ ['\r'] ++ ['\n']) := (clean_append_lineFeed _).symm
      _ = clean (withReturns (text ++ ['\n'])) := by rw [hfeed]
      _ = clean (text ++ ['\n']) := clean_withReturns _
      _ = clean text := clean_append_lineFeed text

end Clean

/-! ## Documents -/

/-- A document holds the comments cleaned, so nothing else of them matters for it. -/
theorem Markdown.document_eq_of_map_clean_eq {fs gs : List Fragment}
    (h : fs.map (Fragment.mapText clean) = gs.map (Fragment.mapText clean)) :
    document fs = document gs := by
  have hparts : ∀ fs : List Fragment, (Section.ofFragments fs).flatMap part
      = (Section.ofFragments (fs.map (Fragment.mapText clean))).flatMap
          fun s => heading s.file ++ s.comments.flatMap fenced := by
    intro fs
    rw [Section.ofFragments_mapText, List.flatMap_map]
    refine List.flatMap_congr fun s _ => ?_
    rw [part, Section.mapText, List.flatMap_map]
  rw [document, hparts, h, ← hparts, document]

namespace Fragment

/-- Line endings make no difference for what is extracted from a source. With a carriage return
before each line feed, it has as many comments, the cleaned comments are the same one by one, and so
is the document, in whatever format it is written. -/
theorem ofSource_withReturns (file source : Text) :
    (ofSource file (withReturns source)).length = (ofSource file source).length ∧
      (ofSource file (withReturns source)).map (clean ·.text)
        = (ofSource file source).map (clean ·.text) ∧
      ∀ format, render format (ofSource file (withReturns source))
        = render format (ofSource file source) := by
  have hclean : (ofSource file (withReturns source)).map (mapText clean)
      = (ofSource file source).map (mapText clean) := by
    have hscan := scan_withReturns source
    have htexts : ((scan Shape.all (withReturns source)).map
          (·.slice (withReturns source))).map clean
        = ((scan Shape.all source).map (·.slice source)).map clean := by
      refine List.forall₂_eq_eq_eq ▸ ?_
      rw [List.forall₂_map_left_iff, List.forall₂_map_right_iff]
      exact hscan.flip.imp fun _ _ => Clean.clean_eq_of_isReturned
    have hmap : ∀ s : Text, (ofSource file s).map (mapText clean)
        = (((scan Shape.all s).map (·.slice s)).map clean).map (Fragment.mk file) := by
      intro s
      rw [ofSource, List.map_map, List.map_map, List.map_map]
      rfl
    rw [hmap, htexts, ← hmap]
  refine ⟨?_, ?_, fun format => ?_⟩
  · have hlength := congrArg List.length hclean
    rwa [List.length_map, List.length_map] at hlength
  · have htexts := congrArg (List.map Fragment.text) hclean
    rwa [List.map_map, List.map_map] at htexts
  · cases format with
    | markdown =>
        exact Markdown.document_eq_of_map_clean_eq hclean

end Fragment

end DocDigest
