import DocDigest.Project.Collect
import Mathlib.Data.List.Basic

/-!
# What a collection holds

A collection keeps its lists and counts in step (`Project.Collection.Consistent`), and the files
that it has seen are those of the candidates that have comments (`Project.seen_of_gather`).
-/

set_option autoImplicit false

namespace DocDigest

namespace Project

variable {t : FileTree} {base : Location}

/-! ## One file -/

/-- Whether a file can be read and has comments. -/
def hasComments (t : FileTree) (base : Location) (p : Path) : Bool :=
  match fragmentsOf t base p with
  | .ok found => !found.isEmpty
  | .error _ => false

theorem hasComments_of_ok {p : Path} {found : List Fragment}
    (h : fragmentsOf t base p = .ok found) : hasComments t base p = !found.isEmpty := by
  rw [hasComments, h]

/-- The comments of a file stand under its path. -/
theorem file_of_mem_fragmentsOf {p : Path} {found : List Fragment}
    (h : fragmentsOf t base p = .ok found) {f : Fragment} (hf : f ∈ found) : f.file = p.text := by
  rw [fragmentsOf] at h
  split at h
  · next contents _ =>
    cases h
    rw [Fragment.ofContents] at hf
    split at hf
    · obtain ⟨span, -, rfl⟩ := List.mem_map.mp hf
      exact p.shown_eq
    · exact absurd hf List.not_mem_nil
  · cases h

namespace Collection

/-- The counts and lists of a collection say the same: each file that was seen counts once, and the
fragments are those of the files that were seen, one file after the other. -/
structure Consistent (c : Collection) : Prop where
  count : c.filesWithComments = c.seen.length
  files : c.fragments.map (·.file) = c.seen.flatMap fun r => List.replicate r.2 r.1.text
  some : ∀ r ∈ c.seen, r.2 ≠ 0

theorem consistent_empty : empty.Consistent where
  count := rfl
  files := rfl
  some := fun _ h => absurd h List.not_mem_nil

theorem add_of_isEmpty {c : Collection} {p : Path} {found : List Fragment}
    (h : found.isEmpty = true) : c.add p found = { c with filesRead := c.filesRead + 1 } := by
  rw [add, if_pos h]

theorem add_of_not_isEmpty {c : Collection} {p : Path} {found : List Fragment}
    (h : found.isEmpty = false) :
    c.add p found =
      { fragments := c.fragments ++ found
        filesRead := c.filesRead + 1
        filesWithComments := c.filesWithComments + 1
        seen := c.seen ++ [(p, found.length)] } := by
  rw [add, h, if_neg Bool.false_ne_true]

theorem Consistent.add {c : Collection} (h : c.Consistent) {p : Path} {found : List Fragment}
    (hfile : ∀ f ∈ found, f.file = p.text) : (c.add p found).Consistent := by
  cases hempty : found.isEmpty with
  | true =>
      rw [add_of_isEmpty hempty]
      exact ⟨h.count, h.files, h.some⟩
  | false =>
      have hfound : found.map (·.file) = List.replicate found.length p.text := by
        apply List.eq_replicate_iff.mpr
        refine ⟨List.length_map _, ?_⟩
        intro name hname
        obtain ⟨f, hf, rfl⟩ := List.mem_map.mp hname
        exact hfile f hf
      rw [add_of_not_isEmpty hempty]
      constructor
      · simp only [h.count, List.length_append, List.length_singleton]
      · simp only [List.map_append, h.files, hfound, List.flatMap_append, List.flatMap_singleton]
      · intro r hr
        rcases List.mem_append.mp hr with hr | hr
        · exact h.some r hr
        · rw [List.mem_singleton.mp hr]
          intro hzero
          rw [List.isEmpty_eq_false_iff] at hempty
          exact hempty (List.length_eq_zero_iff.mp hzero)

end Collection

/-! ## A whole collection -/

theorem consistent_gather {c c' : Collection} {candidates : List (Except WalkError Candidate)}
    (h : gather t base c candidates = .ok c') (hc : c.Consistent) : c'.Consistent := by
  induction candidates generalizing c with
  | nil =>
      cases h
      exact hc
  | cons candidate rest ih =>
      cases candidate with
      | error e =>
          cases h
      | ok candidate =>
          rw [gather] at h
          split at h
          · cases h
          · next found hfound => exact ih h (hc.add fun f hf => file_of_mem_fragmentsOf hfound hf)

/-- The files that a collection has seen are those of the candidates that have comments, in the
order of the candidates. -/
theorem seen_of_gather {c c' : Collection} {candidates : List (Except WalkError Candidate)}
    (h : gather t base c candidates = .ok c') :
    c'.seen.map (·.1) = c.seen.map (·.1)
      ++ ((candidates.filterMap Except.toOption).map (·.path)).filter (hasComments t base) := by
  induction candidates generalizing c with
  | nil =>
      cases h
      exact (List.append_nil _).symm
  | cons candidate rest ih =>
      cases candidate with
      | error e =>
          cases h
      | ok candidate =>
          rw [gather] at h
          split at h
          · cases h
          · next found hfound =>
            have hcomments := hasComments_of_ok hfound
            have hcons : (Except.ok candidate :: rest).filterMap Except.toOption
                = candidate :: rest.filterMap Except.toOption := rfl
            rw [ih h, hcons, List.map_cons]
            cases hempty : found.isEmpty with
            | true =>
                rw [hempty] at hcomments
                rw [List.filter_cons_of_neg (by rw [hcomments]; decide),
                  Collection.add_of_isEmpty hempty]
            | false =>
                rw [hempty] at hcomments
                rw [List.filter_cons_of_pos (by rw [hcomments]; decide),
                  Collection.add_of_not_isEmpty hempty, List.map_append, List.append_assoc]
                rfl

/-- The selection that a collection reads. -/
theorem exists_selection_of_collect {root : Path} {options : Scope} {c : Collection}
    (h : collect t base root options = .ok c) :
    ∃ rules, gather t base Collection.empty
      (Selection.candidates ⟨t, base, ⟨root, rules, options.excludes⟩, options.followSymlinks⟩
        options.extensions) = .ok c := by
  rw [collect] at h
  split at h
  · cases h
  · next rules _ => exact ⟨rules, h⟩

theorem consistent_of_collect {root : Path} {options : Scope} {c : Collection}
    (h : collect t base root options = .ok c) : c.Consistent := by
  obtain ⟨rules, hgather⟩ := exists_selection_of_collect h
  exact consistent_gather hgather Collection.consistent_empty

end Project

end DocDigest
