import DocDigest.Document.Markdown
import DocDigest.Proofs.Document.Grouping

/-!
# Grouping is a stable partition

The sections of fragments are told by two things (`Section.ofFragments_eq`): in which order the
files are first seen, and what the texts of each file are, in their order. How the fragments of
several files are interleaved does not matter otherwise, neither for the sections nor for the
document (`Section.ofFragments_partitions`).
-/

set_option autoImplicit false

namespace DocDigest

namespace Section

/-! ## The texts of one file -/

/-- The texts of a file's fragments, in their order. -/
def textsOf (fs : List Fragment) (name : Text) : List Text :=
  (fs.filter (·.file = name)).map (·.text)

/-- The comments that sections hold for a file. -/
def commentsFor (sections : List Section) (name : Text) : List Text :=
  match sections.find? (·.file = name) with
  | some s => s.comments
  | none => []

theorem commentsFor_cons (s : Section) (sections : List Section) (name : Text) :
    commentsFor (s :: sections) name
      = if s.file = name then s.comments else commentsFor sections name := by
  rw [commentsFor, List.find?_cons]
  by_cases hfile : s.file = name <;> simp [hfile, commentsFor]

theorem textsOf_append_singleton (fs : List Fragment) (f : Fragment) (name : Text) :
    textsOf (fs ++ [f]) name = textsOf fs name ++ if f.file = name then [f.text] else [] := by
  rw [textsOf, List.filter_append, List.map_append, ← textsOf]
  by_cases hfile : f.file = name <;> simp [hfile]

/-- A fragment adds its text to the comments of its file and changes no other file's. -/
theorem commentsFor_insert (f : Fragment) (sections : List Section) (name : Text) :
    commentsFor (insert f sections) name
      = commentsFor sections name ++ if f.file = name then [f.text] else [] := by
  induction sections with
  | nil =>
      rw [insert, commentsFor_cons]
      by_cases hfile : f.file = name <;> simp [hfile, commentsFor]
  | cons s rest ih =>
      rw [insert, commentsFor_cons]
      by_cases hown : s.file = f.file
      · rw [if_pos hown, commentsFor_cons]
        by_cases hfile : f.file = name <;> simp [hown, hfile]
      · rw [if_neg hown, commentsFor_cons, ih]
        by_cases hname : s.file = name
        · have hfile : ¬ f.file = name := fun h => hown (hname.trans h.symm)
          simp [hname, hfile]
        · simp [hname]

theorem commentsFor_ofFragments (fs : List Fragment) (name : Text) :
    commentsFor (ofFragments fs) name = textsOf fs name := by
  induction fs using List.reverseRecOn with
  | nil =>
      rfl
  | append_singleton fs f ih =>
      rw [ofFragments_append_singleton, commentsFor_insert, ih, textsOf_append_singleton]

/-- Where no file has two sections, the comments for a section's file are those of the section. -/
theorem commentsFor_of_mem {sections : List Section} (hnodup : (sections.map file).Nodup)
    {s : Section} (h : s ∈ sections) : commentsFor sections s.file = s.comments := by
  induction sections with
  | nil =>
      exact absurd h List.not_mem_nil
  | cons r rest ih =>
      obtain ⟨hr, hrest⟩ := List.nodup_cons.mp hnodup
      rw [commentsFor_cons]
      rcases List.mem_cons.mp h with rfl | h
      · rw [if_pos rfl]
      · have hfile : ¬ r.file = s.file := fun heq => hr (heq ▸ List.mem_map_of_mem h)
        rw [if_neg hfile, ih hrest h]

theorem comments_eq {fs : List Fragment} {s : Section} (h : s ∈ ofFragments fs) :
    s.comments = textsOf fs s.file := by
  rw [← commentsFor_ofFragments, commentsFor_of_mem (nodup_files fs) h]

/-! ## The order of the files -/

/-- A name more is a new one at the end, unless it was there. -/
theorem eraseDups_append_singleton (names : List Text) (name : Text) :
    (names ++ [name]).eraseDups =
      if name ∈ names then names.eraseDups else names.eraseDups ++ [name] := by
  rw [List.eraseDups_append]
  by_cases h : name ∈ names
  · simp [List.removeAll, h]
  · simp [List.removeAll, h, List.eraseDups_cons]

/-- The files of the sections are those of the fragments, in the order in which they are first
seen. -/
theorem map_file_ofFragments (fs : List Fragment) :
    (ofFragments fs).map file = (fs.map (·.file)).eraseDups := by
  induction fs using List.reverseRecOn with
  | nil =>
      rfl
  | append_singleton fs f ih =>
      rw [ofFragments_append_singleton, map_file_insert, ih, List.map_append, List.map_singleton,
        eraseDups_append_singleton]
      simp only [List.mem_eraseDups]

/-- The sections are told by the order of the files and the texts of each of them. -/
theorem ofFragments_eq (fs : List Fragment) :
    ofFragments fs = (fs.map (·.file)).eraseDups.map fun name => ⟨name, textsOf fs name⟩ := by
  rw [← map_file_ofFragments, List.map_map]
  symm
  refine (List.map_congr_left fun s hs => ?_).trans (List.map_id _)
  rw [Function.comp_apply, ← comments_eq hs]
  rfl

theorem ofFragments_congr {fs gs : List Fragment}
    (hfiles : (fs.map (·.file)).eraseDups = (gs.map (·.file)).eraseDups)
    (htexts : ∀ name ∈ fs.map (·.file), textsOf fs name = textsOf gs name) :
    ofFragments fs = ofFragments gs := by
  rw [ofFragments_eq, ofFragments_eq, ← hfiles]
  refine List.map_congr_left fun name hname => ?_
  rw [htexts name (List.mem_eraseDups.mp hname)]

/-! ## Sections that are taken apart -/

theorem insert_append {f : Fragment} {sections : List Section} (h : f.file ∉ sections.map file)
    (rest : List Section) : insert f (sections ++ rest) = sections ++ insert f rest := by
  induction sections with
  | nil =>
      rfl
  | cons s sections ih =>
      rw [List.map_cons, List.mem_cons, not_or] at h
      rw [List.cons_append, insert, if_neg (Ne.symm h.1), ih h.2, List.cons_append]

/-- The fragments of a section with a new file make up that section again, behind the others. -/
theorem foldl_insert_fragments {s : Section} {sections : List Section}
    (hfile : s.file ∉ sections.map file) (hne : s.comments ≠ []) :
    s.fragments.foldl (fun sections f => insert f sections) sections = sections ++ [s] := by
  obtain ⟨name, comments⟩ := s
  induction comments using List.reverseRecOn with
  | nil =>
      exact absurd rfl hne
  | append_singleton raws raw ih =>
      have hlast : fragments ⟨name, raws ++ [raw]⟩ = fragments ⟨name, raws⟩ ++ [⟨name, raw⟩] := by
        rw [fragments, List.map_append, fragments, List.map_singleton]
      rw [hlast, List.foldl_append, List.foldl_cons, List.foldl_nil]
      by_cases hraws : raws = []
      · -- The first of the fragments begins the section.
        subst hraws
        have hfirst := insert_append (f := ⟨name, raw⟩) hfile []
        rwa [List.append_nil] at hfirst
      · rw [ih hfile hraws, insert_append hfile, insert, if_pos rfl]

/-- Sections of distinct files, each with a comment, are made up of their own fragments. -/
theorem ofFragments_flatMap_fragments {sections : List Section}
    (hnodup : (sections.map file).Nodup) (hne : ∀ s ∈ sections, s.comments ≠ []) :
    ofFragments (sections.flatMap fragments) = sections := by
  induction sections using List.reverseRecOn with
  | nil =>
      rfl
  | append_singleton sections s ih =>
      rw [List.map_append, List.map_singleton, List.nodup_append] at hnodup
      obtain ⟨hsections, -, hdistinct⟩ := hnodup
      have hfile : s.file ∉ sections.map file :=
        fun hmem => hdistinct _ hmem _ (List.mem_singleton_self _) rfl
      have hown := ih hsections fun r hr => hne r (List.mem_append_left _ hr)
      rw [ofFragments] at hown
      rw [List.flatMap_append, List.flatMap_singleton, ofFragments, List.foldl_append, hown]
      exact foldl_insert_fragments hfile
        (hne s (List.mem_append_right _ (List.mem_singleton_self s)))

/-- Grouping is a stable partition. There is one section for each file, in the order in which the
files are first seen; it has the texts of the file's fragments in their order and is never empty. No
fragment is lost or taken twice, and the fragments of the sections make up the same sections. So
however fragments are interleaved, they render to the same document if their files are first seen in
the same order and each file has the same texts. -/
theorem ofFragments_partitions :
    (∀ fs : List Fragment,
        (ofFragments fs).map file = (fs.map (·.file)).eraseDups ∧
        ((ofFragments fs).map file).Nodup ∧
        (∀ s ∈ ofFragments fs, s.comments = textsOf fs s.file ∧ s.comments ≠ []) ∧
        ((ofFragments fs).flatMap fragments).Perm fs ∧
        ofFragments ((ofFragments fs).flatMap fragments) = ofFragments fs) ∧
      ∀ fs gs : List Fragment,
        (fs.map (·.file)).eraseDups = (gs.map (·.file)).eraseDups →
        (∀ name ∈ fs.map (·.file), textsOf fs name = textsOf gs name) →
          ∀ format, render format fs = render format gs := by
  refine ⟨fun fs => ⟨map_file_ofFragments fs, nodup_files fs, ?_, ?_, ?_⟩, ?_⟩
  · exact fun s hs => ⟨comments_eq hs, comments_ne_nil hs⟩
  · exact flatMap_fragments_ofFragments fs
  · exact ofFragments_flatMap_fragments (nodup_files fs) fun _ => comments_ne_nil
  · intro fs gs hfiles htexts format
    cases format with
    | markdown =>
        show Markdown.document fs = Markdown.document gs
        rw [Markdown.document, ofFragments_congr hfiles htexts, Markdown.document]

/-- The fragments of three files, interleaved and then one file after the other. -/
theorem ofFragments_partitions_interleaved :
    let fragment (name text : String) : Fragment := ⟨name.toList, text.toList⟩
    let fs := [fragment "b.ts" "/** 1 */", fragment "a.ts" "/** 2 */", fragment "b.ts" "// * 3",
      fragment "c.ts" "/***/", fragment "a.ts" "/** 1 */", fragment "b.ts" "/** 1 */"]
    let gs := [fragment "b.ts" "/** 1 */", fragment "b.ts" "// * 3", fragment "b.ts" "/** 1 */",
      fragment "a.ts" "/** 2 */", fragment "a.ts" "/** 1 */", fragment "c.ts" "/***/"]
    fs ≠ gs ∧ (fs.map (·.file)).eraseDups = (gs.map (·.file)).eraseDups ∧
      (∀ name ∈ fs.map (·.file), textsOf fs name = textsOf gs name) ∧
      render .markdown fs = render .markdown gs := by
  intro fragment fs gs
  have hfiles : (fs.map (·.file)).eraseDups = (gs.map (·.file)).eraseDups := by decide
  have htexts : ∀ name ∈ fs.map (·.file), textsOf fs name = textsOf gs name := by decide
  exact ⟨by decide, hfiles, htexts, ofFragments_partitions.2 fs gs hfiles htexts .markdown⟩

end Section

end DocDigest
