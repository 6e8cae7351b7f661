import DocDigest.FileTree.Lookup
import DocDigest.Proofs.Path.LastName

/-!
# Steps of paths

The steps of a path are those of its components, apart from dots that lead nowhere
(`Path.realSteps_eq`). Joining a name adds one step (`Path.steps_join`). The paths above a path are
written with a front of its components (`Path.exists_of_mem_ancestors`), and with no more than its
characters.
-/

set_option autoImplicit false

namespace DocDigest

open FileTree (isName isName_iff)

namespace Path

/-- The step that a component takes, if it leads anywhere. -/
def Component.step? : Component → Option Text
  | .root | .here => none
  | .up => some ['.', '.']
  | .name n => some n

/-- The steps of a path without the dots that lead nowhere. -/
def realSteps (p : Path) : List Text := p.steps.filter (· != ['.'])

theorem filterMap_step?_inner (pieces : List Text) :
    (pieces.filterMap inner).filterMap Component.step?
      = (pieces.filter (!·.isEmpty)).filter (· != ['.']) := by
  induction pieces with
  | nil => rfl
  | cons piece pieces ih =>
      by_cases hnothing : piece = [] ∨ piece = ['.']
      · have hinner : inner piece = none := if_pos hnothing
        rw [List.filterMap_cons_none hinner, ih]
        rcases hnothing with rfl | rfl <;> rfl
      · have hne : (!piece.isEmpty) = true := by
          simpa using fun h => hnothing (.inl h)
        have hdot : (piece != ['.']) = true := by
          simpa using fun h => hnothing (.inr h)
        rw [List.filter_cons_of_pos (p := fun x => !List.isEmpty x) hne,
          List.filter_cons_of_pos (p := fun x => x != ['.']) hdot, ← ih]
        by_cases hup : piece = ['.', '.']
        · subst hup
          rfl
        · have hinner : inner piece = some (.name piece) := by
            rw [inner, if_neg hnothing, if_neg hup]
          rw [List.filterMap_cons_some hinner]
          rfl

/-- The steps of a path are those of its components. -/
theorem realSteps_eq (p : Path) : p.realSteps = p.components.filterMap Component.step? := by
  rw [realSteps, steps, ← filterMap_step?_inner, components]
  split
  · next rest hrest =>
    rw [hrest]
    rfl
  · split
    · next pieces hpieces =>
      rw [hpieces]
      rfl
    · rfl

theorem steps_append_slash (s : Text) : steps ⟨s ++ ['/']⟩ = steps ⟨s⟩ := by
  rw [steps, Text.splitOn_append_cons, List.filter_append, steps]
  exact List.append_nil _

theorem steps_join {n : Text} (h : isName n = true) (p : Path) :
    (p.join ⟨n⟩).steps = p.steps ++ [n] := by
  have hne : (!n.isEmpty) = true := by
    simpa using (isName_iff.mp h).1
  have hname : (Text.splitOn '/' n).filter (!·.isEmpty) = [n] := by
    rw [Text.splitOn_of_not_mem (isName_iff.mp h).2.2.2,
      List.filter_cons_of_pos (p := fun x => !List.isEmpty x) hne, List.filter_nil]
  have hback (s : Text) : steps ⟨s ++ '/' :: n⟩ = steps ⟨s⟩ ++ [n] := by
    rw [steps, Text.splitOn_append_cons, List.filter_append, hname, steps]
  obtain ⟨text⟩ := p
  rcases join_cases h ⟨text⟩ with ⟨rfl, hjoin⟩ | ⟨s, rfl, hjoin⟩ | ⟨-, hjoin⟩
  · rw [hjoin, steps, hname]
    rfl
  · rw [hjoin, hback, steps_append_slash]
  · rw [hjoin, hback]

theorem realSteps_join {n : Text} (hn : isName n = true) (p : Path) :
    (p.join ⟨n⟩).realSteps = p.realSteps ++ [n] := by
  have hdot : (n != ['.']) = true := by
    simpa using (isName_iff.mp hn).2.1
  rw [realSteps, realSteps, steps_join hn, List.filter_append,
    List.filter_cons_of_pos (p := fun x => x != ['.']) hdot, List.filter_nil]

theorem isAbsolute_join {n : Text} (h : isName n = true) (p : Path) :
    (p.join ⟨n⟩).isAbsolute = p.isAbsolute := by
  obtain ⟨text⟩ := p
  rcases join_cases h ⟨text⟩ with ⟨rfl, hjoin⟩ | ⟨s, rfl, hjoin⟩ | ⟨hne, hjoin⟩
  · rw [hjoin]
    exact isAbsolute_of_isName h
  · rw [hjoin]
    cases s with
    | nil => rfl
    | cons c cs => rfl
  · rw [hjoin]
    cases text with
    | nil => exact absurd rfl hne
    | cons c cs => rfl

/-! ## Components written out -/

/-- Whether a component can stand behind another one. -/
def Component.IsInner (c : Component) : Prop := c = .up ∨ ∃ n, isName n = true ∧ c = .name n

theorem Component.IsInner.inner_text {c : Component} (h : c.IsInner) :
    '/' ∉ c.text ∧ inner c.text = some c := by
  rcases h with rfl | ⟨n, hn, rfl⟩
  · exact ⟨by decide, rfl⟩
  · exact ⟨(isName_iff.mp hn).2.2.2, inner_of_isName hn⟩

theorem filterMap_inner_text {cs : List Component} (h : ∀ c ∈ cs, c.IsInner) :
    (cs.map Component.text).filterMap inner = cs := by
  induction cs with
  | nil => rfl
  | cons c cs ih =>
      rw [List.map_cons, List.filterMap_cons_some (h c List.mem_cons_self).inner_text.2,
        ih fun d hd => h d (List.mem_cons_of_mem _ hd)]

/-- What a component is that was read off a piece, and how it is written. -/
theorem isInner_of_inner {piece : Text} {c : Component} (hslash : '/' ∉ piece)
    (h : inner piece = some c) : c.IsInner ∧ c.text = piece := by
  rw [inner] at h
  split at h
  · cases h
  · next hnothing =>
    split at h
    · next hup =>
      cases h
      exact ⟨.inl rfl, hup.symm⟩
    · next hup =>
      cases h
      refine ⟨.inr ⟨piece, isName_iff.mpr ⟨?_, ?_, hup, hslash⟩, rfl⟩, rfl⟩
      · exact fun h => hnothing (.inl h)
      · exact fun h => hnothing (.inr h)

theorem isInner_of_mem_filterMap {t : Text} {pieces : List Text}
    (hsub : pieces ⊆ Text.splitOn '/' t) {c : Component} (h : c ∈ pieces.filterMap inner) :
    c.IsInner := by
  obtain ⟨piece, hpiece, hinner⟩ := List.mem_filterMap.mp h
  exact (isInner_of_inner (Text.not_mem_of_mem_splitOn (hsub hpiece)) hinner).1

theorem text_sublist_of_filterMap {t : Text} {pieces : List Text}
    (hsub : pieces ⊆ Text.splitOn '/' t) :
    ((pieces.filterMap inner).map Component.text).Sublist pieces := by
  induction pieces with
  | nil => exact .slnil
  | cons piece pieces ih =>
      obtain ⟨hpiece, hsub⟩ := List.cons_subset.mp hsub
      cases hinner : inner piece with
      | none =>
          rw [List.filterMap_cons_none hinner]
          exact .cons _ (ih hsub)
      | some c =>
          rw [List.filterMap_cons_some hinner, List.map_cons,
            (isInner_of_inner (Text.not_mem_of_mem_splitOn hpiece) hinner).2]
          exact .cons_cons _ (ih hsub)

/-- Components with at most the first of them at the front of a path only. -/
def Component.Written : List Component → Prop
  | [] => True
  | c :: cs => (c = .root ∨ c = .here ∨ c.IsInner) ∧ ∀ d ∈ cs, d.IsInner

/-- How the components of a path are read off its text. -/
theorem components_cases (p : Path) :
    (∃ rest, p.text = '/' :: rest ∧
        p.components = .root :: (Text.splitOn '/' rest).filterMap inner) ∨
      (∃ pieces, Text.splitOn '/' p.text = ['.'] :: pieces ∧
        p.components = .here :: pieces.filterMap inner) ∨
      p.components = (Text.splitOn '/' p.text).filterMap inner := by
  rw [components]
  split
  · next rest hrest => exact .inl ⟨rest, hrest, rfl⟩
  · split
    · next pieces hpieces => exact .inr (.inl ⟨pieces, hpieces, rfl⟩)
    · exact .inr (.inr rfl)

theorem written_components (p : Path) : Component.Written p.components := by
  rcases components_cases p with ⟨rest, -, hcs⟩ | ⟨pieces, hpieces, hcs⟩ | hcs
  · rw [hcs]
    exact ⟨.inl rfl, fun d hd => isInner_of_mem_filterMap (List.Subset.refl _) hd⟩
  · rw [hcs]
    refine ⟨.inr (.inl rfl), fun d hd => isInner_of_mem_filterMap (t := p.text) ?_ hd⟩
    rw [hpieces]
    exact List.subset_cons_self _ _
  · have hinner : ∀ d ∈ p.components, d.IsInner := by
      rw [hcs]
      exact fun d hd => isInner_of_mem_filterMap (List.Subset.refl _) hd
    cases h : p.components with
    | nil => trivial
    | cons c cs =>
        rw [h] at hinner
        exact ⟨.inr (.inr (hinner c List.mem_cons_self)),
          fun d hd => hinner d (List.mem_cons_of_mem c hd)⟩

theorem Component.Written.of_front {cs ds : List Component} (hd : Component.Written ds)
    (h : cs <+: ds) : Component.Written cs := by
  cases cs with
  | nil => trivial
  | cons c cs =>
      obtain ⟨rest, rfl⟩ := h
      exact ⟨hd.1, fun e he => hd.2 e (List.mem_append_left _ he)⟩

theorem ofComponents_of_ne_root {c : Component} (hc : c ≠ .root) (cs : List Component) :
    ofComponents (c :: cs) = ⟨Text.joinWith ['/'] ((c :: cs).map Component.text)⟩ := by
  cases c with
  | root => exact absurd rfl hc
  | here => rfl
  | up => rfl
  | name n => rfl

/-- Components from the front of a path are written with no more than its characters. -/
theorem ofComponents_text_sublist {p : Path} {cs : List Component} (h : cs <+: p.components) :
    (ofComponents cs).text.Sublist p.text := by
  cases cs with
  | nil => exact List.nil_sublist _
  | cons c cs =>
      have hfewer {pieces : List Text} (hsub : pieces ⊆ Text.splitOn '/' p.text)
          {ds : List Component} (hds : ds <+: pieces.filterMap inner) :
          (ds.map Component.text).Sublist pieces :=
        (hds.sublist.map _).trans (text_sublist_of_filterMap hsub)
      rcases components_cases p with ⟨rest, hrest, hcs⟩ | ⟨pieces, hpieces, hcs⟩ | hcs
      · rw [hcs, List.cons_prefix_cons] at h
        obtain ⟨rfl, h⟩ := h
        rw [hrest]
        refine .cons_cons _ ?_
        rw [← Text.joinWith_splitOn '/' rest]
        have hsub : Text.splitOn '/' rest ⊆ Text.splitOn '/' p.text := by
          rw [hrest, Text.splitOn, if_pos rfl]
          exact List.subset_cons_self _ _
        exact Text.joinWith_sublist _ (hfewer hsub h)
      · rw [hcs, List.cons_prefix_cons] at h
        obtain ⟨rfl, h⟩ := h
        rw [← Text.joinWith_splitOn '/' p.text, hpieces]
        refine Text.joinWith_sublist _ (.cons_cons _ (hfewer ?_ h))
        rw [hpieces]
        exact List.subset_cons_self _ _
      · have hc : c ≠ .root := by
          rintro rfl
          rw [hcs] at h
          rcases isInner_of_mem_filterMap (List.Subset.refl _) (h.subset List.mem_cons_self) with
            h | ⟨n, -, h⟩ <;> cases h
        rw [hcs] at h
        rw [ofComponents_of_ne_root hc, ← Text.joinWith_splitOn '/' p.text]
        exact Text.joinWith_sublist _ (hfewer (List.Subset.refl _) h)

theorem not_slash_prefix_joinWith {piece : Text} (hne : piece ≠ []) (hslash : '/' ∉ piece)
    (pieces : List Text) : ¬ ['/'] <+: Text.joinWith ['/'] (piece :: pieces) := by
  cases piece with
  | nil => exact absurd rfl hne
  | cons c cs =>
      intro h
      have hc : '/' = c := by
        cases pieces with
        | nil => exact (List.cons_prefix_cons.mp h).1
        | cons q qs => exact (List.cons_prefix_cons.mp h).1
      exact hslash (hc ▸ List.mem_cons_self)

/-- Components that were written out are read off again. -/
theorem components_ofComponents {cs : List Component} (h : Component.Written cs) :
    (ofComponents cs).components = cs := by
  cases cs with
  | nil => rfl
  | cons c cs =>
      obtain ⟨hc, hcs⟩ := h
      have hslash : ∀ t ∈ cs.map Component.text, '/' ∉ t := by
        intro t ht
        obtain ⟨d, hd, rfl⟩ := List.mem_map.mp ht
        exact (hcs d hd).inner_text.1
      rcases hc with rfl | rfl | hc
      · rw [ofComponents, components_slash]
        cases cs with
        | nil => rfl
        | cons d ds =>
            rw [List.map_cons] at hslash ⊢
            rw [Text.splitOn_joinWith hslash, ← List.map_cons, filterMap_inner_text hcs]
      · have hpieces : Text.splitOn '/' (Text.joinWith ['/'] (['.'] :: cs.map Component.text))
            = ['.'] :: cs.map Component.text :=
          Text.splitOn_joinWith (List.forall_mem_cons.mpr ⟨by decide, hslash⟩)
        exact (components_here (not_slash_prefix_joinWith (by decide) (by decide) _) hpieces).trans
          (congrArg _ (filterMap_inner_text hcs))
      · have hne : c.text ≠ [] ∧ c.text ≠ ['.'] := by
          rcases hc with rfl | ⟨n, hn, rfl⟩
          · decide
          · exact ⟨(isName_iff.mp hn).1, (isName_iff.mp hn).2.1⟩
        have hroot : c ≠ .root := by
          rintro rfl
          rcases hc with h | ⟨n, -, h⟩ <;> cases h
        have hpieces := Text.splitOn_joinWith
          (List.forall_mem_cons.mpr ⟨hc.inner_text.1, hslash⟩)
        rw [ofComponents_of_ne_root hroot, List.map_cons,
          components_piece (not_slash_prefix_joinWith hne.1 hc.inner_text.1 _) hpieces hne.2,
          ← List.map_cons, filterMap_inner_text (List.forall_mem_cons.mpr ⟨hc, hcs⟩)]

/-- A path is absolute if its components begin with the root. -/
theorem isAbsolute_iff (p : Path) : p.isAbsolute = true ↔ p.components.head? = some .root := by
  have hinner (pieces : List Text) : (pieces.filterMap inner).head? ≠ some .root := by
    intro h
    obtain ⟨piece, -, hpiece⟩ := List.mem_filterMap.mp (List.mem_of_mem_head? h)
    rw [inner] at hpiece
    split at hpiece
    · cases hpiece
    · split at hpiece <;> cases hpiece
  rw [isAbsolute, beq_iff_eq, components]
  split
  · next rest hrest =>
    rw [hrest]
    exact ⟨fun _ => rfl, fun _ => rfl⟩
  · next hnot =>
    have htext : p.text.head? ≠ some '/' := by
      intro h
      obtain ⟨rest, hrest⟩ := List.head?_eq_some_iff.mp h
      exact hnot rest hrest
    refine ⟨fun h => absurd h htext, fun h => ?_⟩
    split at h
    · cases h
    · exact absurd h (hinner _)

/-! ## Paths above a path -/

theorem text_ne_nil_of_components {p : Path} (h : p.components ≠ []) : p.text ≠ [] := by
  intro hnil
  apply h
  obtain ⟨text⟩ := p
  obtain rfl : text = [] := hnil
  rfl

/-- A path above another one, as it is written. -/
theorem written_above {p : Path} {cs : List Component} (hne : cs ≠ []) (h : cs <+: p.components) :
    (ofComponents cs).text.Sublist p.text ∧ (ofComponents cs).text ≠ [] ∧
      (ofComponents cs).isAbsolute = p.isAbsolute ∧ (ofComponents cs).components = cs := by
  have hcomponents := components_ofComponents ((written_components p).of_front h)
  refine ⟨ofComponents_text_sublist h, text_ne_nil_of_components (by rwa [hcomponents]), ?_,
    hcomponents⟩
  rw [Bool.eq_iff_iff, isAbsolute_iff, isAbsolute_iff, hcomponents]
  obtain ⟨rest, hrest⟩ := h
  rw [← hrest, List.head?_append_of_ne_nil _ hne]

/-- The last component of a path is a name, unless it goes up or is the only one. -/
theorem exists_name_of_components {p : Path} {cs : List Component} {c : Component}
    (hp : p.components = cs ++ [c]) (hne : cs ≠ []) (hup : c ≠ .up) :
    ∃ name, isName name = true ∧ c = .name name := by
  have hwritten := written_components p
  obtain ⟨first, rest, rfl⟩ := List.exists_cons_of_ne_nil hne
  rw [hp] at hwritten
  exact (hwritten.2 c (by simp)).resolve_left hup

/-- The paths above a path are written with a front of its components. -/
theorem exists_of_mem_ancestors {p q : Path} (h : q ∈ p.ancestors) :
    ∃ cs, cs ≠ [] ∧ cs <+: p.components ∧ q = ofComponents cs := by
  have hshortened : ∀ rs : List Component, q ∈ shortened rs →
      ∃ above, above ≠ [] ∧ above <:+ rs ∧ q = ofComponents above.reverse := by
    intro rs hq
    induction rs with
    | nil => cases hq
    | cons c above ih =>
        rw [shortened] at hq
        split at hq
        · cases hq
        · next hne =>
          rcases List.mem_cons.mp hq with rfl | hq
          · exact ⟨above, fun h => hne (List.isEmpty_iff.mpr h), List.suffix_cons c above, rfl⟩
          · obtain ⟨ds, hds, hsub, hq⟩ := ih hq
            exact ⟨ds, hds, hsub.trans (List.suffix_cons c above), hq⟩
  obtain ⟨above, hne, hsub, hq⟩ := hshortened _ h
  refine ⟨above.reverse, by simpa using hne, ?_, hq⟩
  rw [← List.reverse_reverse p.components]
  exact List.reverse_prefix.mpr hsub

end Path

end DocDigest
