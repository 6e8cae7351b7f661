import DocDigest.FileTree.Lookup
import DocDigest.Proofs.Path.Components
import Mathlib.Data.List.Basic
import Mathlib.Data.List.Induction

/-!
# The name at the end of a path

The last step of a path, if it is no dots, is the path's file name (`Path.fileName?_of_last_step`).
A path with another name at its end has this name as its last step and no slash after it
(`Path.last_step_withFileName`).
-/

set_option autoImplicit false

namespace DocDigest

open FileTree (isName isName_iff)

theorem Spot.isDots_eq_false_iff {step : Text} :
    isDots step = false ↔ step ≠ ['.'] ∧ step ≠ ['.', '.'] := by
  simp [isDots]

namespace Path

/-! ## Names among the components -/

theorem isName_of_inner {piece name : Text} (hslash : '/' ∉ piece)
    (h : inner piece = some (.name name)) : isName name = true := by
  rw [inner] at h
  split at h
  · cases h
  · next hnone =>
    split at h
    · cases h
    · next hdots =>
      cases h
      exact isName_iff.mpr ⟨fun h => hnone (Or.inl h), fun h => hnone (Or.inr h), hdots, hslash⟩

theorem isName_of_mem_components {p : Path} {name : Text} (h : .name name ∈ p.components) :
    isName name = true := by
  have hpieces : ∀ {t : Text} {pieces : List Text}, pieces ⊆ Text.splitOn '/' t →
      .name name ∈ pieces.filterMap inner → isName name = true := by
    intro t pieces hsub hmem
    obtain ⟨piece, hpiece, hinner⟩ := List.mem_filterMap.mp hmem
    exact isName_of_inner (Text.not_mem_of_mem_splitOn (hsub hpiece)) hinner
  rw [components] at h
  split at h
  · rcases List.mem_cons.mp h with h | h
    · cases h
    · exact hpieces (List.Subset.refl _) h
  · split at h
    · next pieces hsplit =>
      have hsub : pieces ⊆ Text.splitOn '/' p.text := by
        rw [hsplit]
        exact List.subset_cons_self _ _
      rcases List.mem_cons.mp h with h | h
      · cases h
      · exact hpieces hsub h
    · exact hpieces (List.Subset.refl _) h

theorem isName_of_fileName? {p : Path} {name : Text} (h : p.fileName? = some name) :
    isName name = true := by
  rw [fileName?] at h
  obtain ⟨c, hlast, hname⟩ := Option.bind_eq_some_iff.mp h
  cases c with
  | name n =>
      cases hname
      exact isName_of_mem_components (List.mem_of_getLast? hlast)
  | root => cases hname
  | here => cases hname
  | up => cases hname

/-! ## The last step -/

theorem getLast?_filterMap_inner {pieces : List Text} {name : Text}
    (h : (pieces.filter (!·.isEmpty)).getLast? = some name) (hdots : Spot.isDots name = false) :
    (pieces.filterMap inner).getLast? = some (.name name) := by
  induction pieces using List.reverseRecOn with
  | nil =>
      cases h
  | append_singleton pieces piece ih =>
      rw [List.filter_append] at h
      rw [List.filterMap_append]
      cases hempty : piece.isEmpty with
      | true =>
          rw [List.isEmpty_iff.mp hempty] at h ⊢
          have hfilter : ([([] : Text)].filter (!·.isEmpty)) = [] := rfl
          have hinner : [([] : Text)].filterMap inner = [] := rfl
          rw [hfilter, List.append_nil] at h
          rw [hinner, List.append_nil]
          exact ih h
      | false =>
          have hfilter : [piece].filter (!·.isEmpty) = [piece] := by
            rw [List.filter_cons_of_pos (by rw [hempty]; rfl), List.filter_nil]
          rw [hfilter, List.getLast?_concat] at h
          cases h
          obtain ⟨hdot, hup⟩ := Spot.isDots_eq_false_iff.mp hdots
          have hinner : inner name = some (.name name) := by
            rw [inner, if_neg, if_neg hup]
            rintro (rfl | h)
            · cases hempty
            · exact hdot h
          rw [List.filterMap_cons_some hinner, List.filterMap_nil, List.getLast?_concat]

/-- The last step of a path, unless it is dots, is the file name. -/
theorem fileName?_of_last_step {p : Path} {name : Text} (h : p.steps.getLast? = some name)
    (hdots : Spot.isDots name = false) : p.fileName? = some name := by
  have hcons : ∀ {c : Component} {cs : List Component}, cs.getLast? = some (.name name) →
      (c :: cs).getLast? = some (.name name) := by
    intro c cs hcs
    rw [List.getLast?_cons, hcs]
    rfl
  have hlast : p.components.getLast? = some (.name name) := by
    rw [steps] at h
    rw [components]
    split
    · next rest hrest =>
      rw [hrest] at h
      exact hcons (getLast?_filterMap_inner h hdots)
    · split
      · next pieces hsplit =>
        rw [hsplit] at h
        apply hcons
        apply getLast?_filterMap_inner _ hdots
        -- A dot at the front is not the last step.
        cases hpieces : (pieces.filter (!·.isEmpty)).getLast? with
        | some last =>
            rw [List.filter_cons_of_pos rfl, List.getLast?_cons, hpieces] at h
            exact h
        | none =>
            rw [List.filter_cons_of_pos rfl, List.getLast?_cons, hpieces] at h
            cases h
            cases hdots
      · exact getLast?_filterMap_inner h hdots
  rw [fileName?, hlast]
  rfl

theorem last_step_join {n : Text} (h : isName n = true) (p : Path) :
    (p.join ⟨n⟩).steps.getLast? = some n ∧ (p.join ⟨n⟩).endsInSlash = false := by
  obtain ⟨hne, -, -, hslash⟩ := isName_iff.mp h
  have hlast : ∀ s : Text, (s ++ n).getLast? ≠ some '/' := by
    intro s heq
    rw [List.getLast?_append_of_ne_nil _ hne] at heq
    exact hslash (List.mem_of_getLast? heq)
  have hsteps : ∀ pieces : List Text, ((pieces ++ [n]).filter (!·.isEmpty)).getLast? = some n := by
    intro pieces
    have hfilter : [n].filter (!·.isEmpty) = [n] := by
      rw [List.filter_cons_of_pos (by rw [List.isEmpty_eq_false_iff.mpr hne]; rfl), List.filter_nil]
    rw [List.filter_append, hfilter, List.getLast?_concat]
  have hback : ∀ s : Text, (Path.mk (s ++ '/' :: n)).steps.getLast? = some n ∧
      (Path.mk (s ++ '/' :: n)).endsInSlash = false := by
    intro s
    rw [steps, Text.splitOn_append_cons, Text.splitOn_of_not_mem hslash, endsInSlash]
    refine ⟨hsteps _, beq_eq_false_iff_ne.mpr ?_⟩
    have h := hlast (s ++ ['/'])
    rwa [List.append_assoc] at h
  rcases join_cases h p with ⟨-, hjoin⟩ | ⟨s, -, hjoin⟩ | ⟨-, hjoin⟩
  · rw [hjoin, steps, Text.splitOn_of_not_mem hslash, endsInSlash]
    exact ⟨hsteps [], beq_eq_false_iff_ne.mpr (hlast [])⟩
  · rw [hjoin]
    exact hback s
  · rw [hjoin]
    exact hback p.text

/-- A path with another name at its end leads to that name, with no slash after it. -/
theorem last_step_withFileName {n : Text} (h : isName n = true) (p : Path) :
    (p.withFileName n).steps.getLast? = some n ∧ (p.withFileName n).endsInSlash = false := by
  rw [withFileName]
  split
  · exact last_step_join h p.folder
  · exact last_step_join h p

end Path

end DocDigest
