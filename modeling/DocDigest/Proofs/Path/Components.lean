import DocDigest.FileTree.Basic
import DocDigest.Proofs.Text.Cut
import DocDigest.Proofs.Text.Lines

/-!
# Components of joined paths

Joining a name to a path adds one component, however the path is written (`components_join`). So the
names on the way from a root to a path below it are the names that were joined (`namesBelow_eq`).
-/

set_option autoImplicit false

namespace DocDigest

namespace FileTree

theorem isName_iff {n : Text} :
    isName n = true ↔ n ≠ [] ∧ n ≠ ['.'] ∧ n ≠ ['.', '.'] ∧ '/' ∉ n := by
  simp [isName, and_assoc]

end FileTree

namespace Path

open FileTree (isName isName_iff)

theorem inner_of_isName {n : Text} (h : isName n = true) : inner n = some (.name n) := by
  obtain ⟨hne, hdot, hdots, -⟩ := isName_iff.mp h
  rw [inner, if_neg (by simp [hne, hdot]), if_neg hdots]

/-- The one piece of a name is a component. -/
theorem filterMap_inner_of_isName {n : Text} (h : isName n = true) :
    (Text.splitOn '/' n).filterMap inner = [.name n] := by
  rw [Text.splitOn_of_not_mem (isName_iff.mp h).2.2.2,
    List.filterMap_cons_some (inner_of_isName h), List.filterMap_nil]

theorem components_slash (u : Text) :
    components ⟨'/' :: u⟩ = .root :: (Text.splitOn '/' u).filterMap inner := rfl

theorem components_here {t : Text} {pieces : List Text} (ht : ¬ ['/'] <+: t)
    (hpieces : Text.splitOn '/' t = ['.'] :: pieces) :
    components ⟨t⟩ = .here :: pieces.filterMap inner := by
  rw [components]
  split
  · next rest hrest =>
    exact absurd ⟨rest, hrest.symm⟩ ht
  · simp [hpieces]

theorem components_piece {t piece : Text} {pieces : List Text} (ht : ¬ ['/'] <+: t)
    (hpieces : Text.splitOn '/' t = piece :: pieces) (hpiece : piece ≠ ['.']) :
    components ⟨t⟩ = (piece :: pieces).filterMap inner := by
  rw [components]
  split
  · next rest hrest =>
    exact absurd ⟨rest, hrest.symm⟩ ht
  · simp [hpieces, hpiece]

/-- A slash in a path parts its components, unless it is the first character. -/
theorem components_append_slash {s : Text} (hs : s ≠ []) (u : Text) :
    components ⟨s ++ '/' :: u⟩ = components ⟨s⟩ ++ (Text.splitOn '/' u).filterMap inner := by
  have hsplit := Text.splitOn_append_cons '/' s u
  by_cases hroot : ['/'] <+: s
  · obtain ⟨rest, rfl⟩ := hroot
    rw [List.singleton_append, List.cons_append, components_slash, components_slash,
      Text.splitOn_append_cons, List.filterMap_append, List.cons_append]
  · have hroot' : ¬ ['/'] <+: s ++ '/' :: u := by
      cases s with
      | nil =>
          exact absurd rfl hs
      | cons c cs =>
          simpa using hroot
    -- The first piece is the same with and without what follows the slash.
    cases hpieces : Text.splitOn '/' s with
    | nil =>
        exact absurd hpieces (Text.splitOn_ne_nil '/' s)
    | cons piece pieces =>
        rw [hpieces, List.cons_append] at hsplit
        by_cases hpiece : piece = ['.']
        · subst hpiece
          rw [components_here hroot' hsplit, components_here hroot hpieces,
            List.filterMap_append, List.cons_append]
        · rw [components_piece hroot' hsplit hpiece, components_piece hroot hpieces hpiece,
            ← List.cons_append, List.filterMap_append]

theorem not_slash_prefix_of_isName {n : Text} (h : isName n = true) : ¬ ['/'] <+: n := by
  rintro ⟨rest, rfl⟩
  exact (isName_iff.mp h).2.2.2 List.mem_cons_self

theorem components_of_isName {n : Text} (h : isName n = true) :
    components ⟨n⟩ = [.name n] := by
  have hpieces := Text.splitOn_of_not_mem (isName_iff.mp h).2.2.2
  rw [components_piece (not_slash_prefix_of_isName h) hpieces (isName_iff.mp h).2.1, ← hpieces,
    filterMap_inner_of_isName h]

/-- A path that is not absolute is written behind another one with one slash between them. -/
theorem join_cases_of_relative {q : Path} (hrel : q.isAbsolute = false) (p : Path) :
    (p.text = [] ∧ p.join q = q) ∨
      (∃ s, p.text = s ++ ['/'] ∧ p.join q = ⟨s ++ '/' :: q.text⟩) ∨
      (p.text ≠ [] ∧ p.join q = ⟨p.text ++ '/' :: q.text⟩) := by
  rw [join, hrel, if_neg Bool.false_ne_true]
  rcases List.eq_nil_or_concat p.text with hnil | ⟨s, c, hs⟩
  · refine Or.inl ⟨hnil, ?_⟩
    rw [hnil]
    rfl
  · rw [List.concat_eq_append] at hs
    have hne : p.text ≠ [] := by simp [hs]
    by_cases hc : c = '/'
    · subst hc
      refine Or.inr (Or.inl ⟨s, hs, ?_⟩)
      simp [endsInSlash, hs]
    · refine Or.inr (Or.inr ⟨hne, ?_⟩)
      simp [endsInSlash, hs, hc]

theorem isAbsolute_of_isName {n : Text} (h : isName n = true) : isAbsolute ⟨n⟩ = false := by
  have hslash := not_slash_prefix_of_isName h
  cases n with
  | nil =>
      rfl
  | cons c cs =>
      have hc : c ≠ '/' := fun heq => hslash ⟨cs, by rw [heq]; rfl⟩
      simp [isAbsolute, hc]

/-- A name is written behind a path with one slash between them. -/
theorem join_cases {n : Text} (h : isName n = true) (p : Path) :
    (p.text = [] ∧ p.join ⟨n⟩ = ⟨n⟩) ∨
      (∃ s, p.text = s ++ ['/'] ∧ p.join ⟨n⟩ = ⟨s ++ '/' :: n⟩) ∨
      (p.text ≠ [] ∧ p.join ⟨n⟩ = ⟨p.text ++ '/' :: n⟩) :=
  join_cases_of_relative (isAbsolute_of_isName h) p

/-- Joining a name to a path adds the name to its components. -/
theorem components_join {n : Text} (h : isName n = true) (p : Path) :
    (p.join ⟨n⟩).components = p.components ++ [.name n] := by
  obtain ⟨text⟩ := p
  have hpiece := filterMap_inner_of_isName h
  -- The path is empty, ends in a slash, or gets one.
  rcases join_cases h ⟨text⟩ with ⟨rfl, hjoin⟩ | ⟨s, rfl, hjoin⟩ | ⟨hne, hjoin⟩
  · rw [hjoin, components_of_isName h]
    rfl
  · rw [hjoin]
    cases s with
    | nil =>
        rw [List.nil_append, List.nil_append, components_slash, components_slash, hpiece]
        rfl
    | cons c cs =>
        have hne : c :: cs ≠ [] := List.cons_ne_nil c cs
        rw [components_append_slash hne, components_append_slash hne, hpiece, List.append_assoc]
        rfl
  · rw [hjoin, components_append_slash hne, hpiece]

theorem byteLength_lt_join {n : Text} (h : isName n = true) (p : Path) :
    p.text.byteLength < (p.join ⟨n⟩).text.byteLength := by
  have hpos : 0 < n.byteLength := Text.byteLength_pos (isName_iff.mp h).1
  rcases join_cases h p with ⟨hp, hjoin⟩ | ⟨s, hp, hjoin⟩ | ⟨-, hjoin⟩
  · rw [hp, hjoin]
    exact hpos
  · rw [hp, hjoin, Text.byteLength_append, Text.byteLength_append, Text.byteLength, Text.byteLength,
      Text.byteLength]
    omega
  · rw [hjoin, Text.byteLength_append, Text.byteLength]
    omega

/-- The names on the way from a root to a path whose components go on with names. -/
theorem namesBelow_eq {root p : Path} {names : List Text}
    (h : p.components = root.components ++ names.map .name) : namesBelow root p = names := by
  rw [namesBelow, h, after?_append, Option.getD_some, List.filterMap_map]
  exact List.filterMap_some

/-! ## Paths below a root -/

/-- The path of what has the given names below a root. -/
def joinNames (root : Path) (names : List Text) : Path := names.foldl (fun p n => p.join ⟨n⟩) root

theorem joinNames_concat (root : Path) (names : List Text) (n : Text) :
    root.joinNames (names ++ [n]) = (root.joinNames names).join ⟨n⟩ := by
  rw [joinNames, List.foldl_append]
  rfl

theorem components_joinNames {names : List Text} (h : ∀ n ∈ names, isName n = true) (root : Path) :
    (root.joinNames names).components = root.components ++ names.map .name := by
  induction names generalizing root with
  | nil =>
      exact (List.append_nil _).symm
  | cons n names ih =>
      rw [joinNames, List.foldl_cons, ← joinNames, ih fun m hm => h m (List.mem_cons_of_mem n hm),
        components_join (h n List.mem_cons_self), List.append_assoc]
      rfl

/-- The names of a path that is not absolute are those between its slashes. -/
theorem names_of_relative {q : Path} (h : q.isAbsolute = false) :
    q.names = ((Text.splitOn '/' q.text).filterMap inner).filterMap Component.name? := by
  rw [names, components]
  split
  · next rest hrest =>
    rw [isAbsolute, hrest] at h
    cases h
  · split
    · next pieces hpieces =>
      rw [hpieces]
      rfl
    · rfl

/-- Behind a root, a path that is not absolute has its own names below the root, however the root is
written. -/
theorem namesBelow_join {q : Path} (h : q.isAbsolute = false) (root : Path) :
    namesBelow root (root.join q) = q.names := by
  obtain ⟨text⟩ := root
  have hbelow {p : Path} {pieces : List Text}
      (hp : p.components = components ⟨text⟩ ++ pieces.filterMap inner) :
      namesBelow ⟨text⟩ p = (pieces.filterMap inner).filterMap Component.name? := by
    rw [namesBelow, hp, after?_append, Option.getD_some]
  rcases join_cases_of_relative h ⟨text⟩ with ⟨rfl, hjoin⟩ | ⟨s, rfl, hjoin⟩ | ⟨hne, hjoin⟩
  · rw [hjoin]
    rfl
  · rw [hjoin, names_of_relative h]
    refine hbelow ?_
    cases s with
    | nil =>
        rfl
    | cons c cs =>
        have hne : c :: cs ≠ [] := List.cons_ne_nil c cs
        rw [components_append_slash hne, components_append_slash hne, List.append_assoc]
        rfl
  · rw [hjoin, names_of_relative h]
    exact hbelow (components_append_slash hne q.text)

end Path

end DocDigest
