import DocDigest.Document.Section
import Mathlib.Data.List.Dedup
import Mathlib.Data.List.Induction

/-!
# Grouping fragments into sections

The sections of fragments hold every fragment once (`Section.flatMap_fragments_ofFragments`), and
none of them is without a comment (`Section.comments_ne_nil`). Each file of a fragment has one
section (`Section.mem_files_iff`, `Section.nodup_files`). Grouping looks at the files only: it
commutes with a change of the texts (`Section.ofFragments_mapText`).
-/

set_option autoImplicit false

namespace DocDigest

namespace Section

/-! ## Putting in one fragment -/

theorem flatMap_fragments_insert (f : Fragment) (sections : List Section) :
    ((insert f sections).flatMap fragments).Perm (f :: sections.flatMap fragments) := by
  induction sections with
  | nil =>
      exact List.Perm.refl [f]
  | cons s rest ih =>
      rw [insert]
      split
      · next hfile =>
        have hadd :
            fragments { s with comments := s.comments ++ [f.text] } = s.fragments ++ [f] := by
          rw [fragments, List.map_append, fragments, List.map_singleton, hfile]
        rw [List.flatMap_cons, hadd, List.append_assoc, List.singleton_append, List.flatMap_cons]
        exact List.perm_middle
      · rw [List.flatMap_cons, List.flatMap_cons]
        exact (ih.append_left s.fragments).trans List.perm_middle

theorem comments_ne_nil_insert {f : Fragment} {sections : List Section}
    (h : ∀ s ∈ sections, s.comments ≠ []) : ∀ s ∈ insert f sections, s.comments ≠ [] := by
  induction sections with
  | nil =>
      exact List.forall_mem_singleton.mpr (List.cons_ne_nil f.text [])
  | cons s rest ih =>
      obtain ⟨hs, hrest⟩ := List.forall_mem_cons.mp h
      rw [insert]
      split
      · have hadd : s.comments ++ [f.text] ≠ [] := List.append_ne_nil_of_left_ne_nil hs [f.text]
        exact List.forall_mem_cons.mpr ⟨hadd, hrest⟩
      · exact List.forall_mem_cons.mpr ⟨hs, ih hrest⟩

/-! ## Grouping all of them -/

theorem ofFragments_append_singleton (fs : List Fragment) (f : Fragment) :
    ofFragments (fs ++ [f]) = insert f (ofFragments fs) := by
  rw [ofFragments, List.foldl_append, List.foldl_cons, List.foldl_nil, ofFragments]

/-- No fragment is lost or taken twice. -/
theorem flatMap_fragments_ofFragments (fs : List Fragment) :
    ((ofFragments fs).flatMap fragments).Perm fs := by
  induction fs using List.reverseRecOn with
  | nil =>
      exact List.Perm.refl []
  | append_singleton fs f ih =>
      rw [ofFragments_append_singleton]
      have hlast := flatMap_fragments_insert f (ofFragments fs)
      exact (hlast.trans (ih.cons f)).trans (List.perm_append_singleton f fs).symm

theorem comments_ne_nil {s : Section} {fs : List Fragment} (h : s ∈ ofFragments fs) :
    s.comments ≠ [] := by
  induction fs using List.reverseRecOn generalizing s with
  | nil =>
      exact absurd h List.not_mem_nil
  | append_singleton fs f ih =>
      rw [ofFragments_append_singleton] at h
      exact comments_ne_nil_insert (fun _ => ih) s h

/-- The comments of the sections are the texts of the fragments. -/
theorem mem_comments_iff {fs : List Fragment} {file raw : Text} :
    (∃ s ∈ ofFragments fs, s.file = file ∧ raw ∈ s.comments) ↔ ⟨file, raw⟩ ∈ fs := by
  rw [← (flatMap_fragments_ofFragments fs).mem_iff, List.mem_flatMap]
  refine exists_congr fun s => and_congr_right fun _ => ?_
  rw [fragments, List.mem_map]
  constructor
  · rintro ⟨rfl, hraw⟩
    exact ⟨raw, hraw, rfl⟩
  · rintro ⟨raw', hraw, heq⟩
    cases heq
    exact ⟨rfl, hraw⟩

theorem exists_mem_of_mem_ofFragments {s : Section} {fs : List Fragment}
    (h : s ∈ ofFragments fs) : ∃ f ∈ fs, f.file = s.file := by
  obtain ⟨raw, hraw⟩ := List.exists_mem_of_ne_nil s.comments (comments_ne_nil h)
  exact ⟨⟨s.file, raw⟩, mem_comments_iff.mp ⟨s, h, rfl, hraw⟩, rfl⟩

/-! ## The files of the sections -/

theorem map_file_insert (f : Fragment) (sections : List Section) :
    (insert f sections).map file =
      if f.file ∈ sections.map file then sections.map file
      else sections.map file ++ [f.file] := by
  induction sections with
  | nil =>
      rfl
  | cons s rest ih =>
      rw [insert, List.map_cons]
      by_cases hfile : s.file = f.file
      · rw [if_pos hfile, if_pos (List.mem_cons.mpr (Or.inl hfile.symm))]
        rfl
      · have hmem : f.file ∈ s.file :: rest.map file ↔ f.file ∈ rest.map file := by
          rw [List.mem_cons, or_iff_right (Ne.symm hfile)]
        rw [if_neg hfile, List.map_cons, ih]
        by_cases hrest : f.file ∈ rest.map file
        · rw [if_pos hrest, if_pos (hmem.mpr hrest)]
        · rw [if_neg hrest, if_neg (mt hmem.mp hrest)]
          rfl

/-- The files of the sections are those of the fragments. -/
theorem mem_files_iff {fs : List Fragment} {name : Text} :
    name ∈ (ofFragments fs).map file ↔ name ∈ fs.map (·.file) := by
  induction fs using List.reverseRecOn with
  | nil =>
      rfl
  | append_singleton fs f ih =>
      rw [ofFragments_append_singleton, map_file_insert, List.map_append, List.mem_append,
        List.map_singleton, List.mem_singleton, ← ih]
      split
      · next hfile =>
        constructor
        · exact Or.inl
        · rintro (h | rfl)
          · exact h
          · exact hfile
      · rw [List.mem_append, List.mem_singleton]

/-- No file has two sections. -/
theorem nodup_files (fs : List Fragment) : ((ofFragments fs).map file).Nodup := by
  induction fs using List.reverseRecOn with
  | nil =>
      exact List.nodup_nil
  | append_singleton fs f ih =>
      rw [ofFragments_append_singleton, map_file_insert]
      split
      · exact ih
      · next hfile =>
        refine List.nodup_append.mpr ⟨ih, List.pairwise_singleton _ _, ?_⟩
        intro name hname other hother heq
        apply hfile
        rwa [← List.mem_singleton.mp hother, ← heq]

theorem length_ofFragments (fs : List Fragment) :
    (ofFragments fs).length = (fs.map (·.file)).dedup.length := by
  rw [← List.length_map file]
  apply List.Perm.length_eq
  apply (List.perm_ext_iff_of_nodup (nodup_files fs) (List.nodup_dedup _)).mpr
  intro name
  rw [mem_files_iff, List.mem_dedup]

end Section

/-! ## Changing the texts -/

/-- The fragment with a function applied to its text. -/
def Fragment.mapText (g : Text → Text) (f : Fragment) : Fragment := ⟨f.file, g f.text⟩

namespace Section

/-- The section with a function applied to each of its comments. -/
def mapText (g : Text → Text) (s : Section) : Section := ⟨s.file, s.comments.map g⟩

theorem insert_mapText (g : Text → Text) (f : Fragment) (sections : List Section) :
    insert (f.mapText g) (sections.map (mapText g)) = (insert f sections).map (mapText g) := by
  induction sections with
  | nil =>
      rfl
  | cons s rest ih =>
      rw [List.map_cons, insert, insert]
      show (if s.file = f.file then _ else _) = _
      split
      · rw [List.map_cons, mapText, mapText, List.map_append]
        rfl
      · rw [List.map_cons, ih]

/-- Grouping commutes with a change of the texts. -/
theorem ofFragments_mapText (g : Text → Text) (fs : List Fragment) :
    ofFragments (fs.map (Fragment.mapText g)) = (ofFragments fs).map (mapText g) := by
  induction fs using List.reverseRecOn with
  | nil =>
      rfl
  | append_singleton fs f ih =>
      rw [List.map_append, List.map_singleton, ofFragments_append_singleton, ih, insert_mapText,
        ofFragments_append_singleton]

end Section

end DocDigest
