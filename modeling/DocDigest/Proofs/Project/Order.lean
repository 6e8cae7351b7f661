import DocDigest.Project.Select
import DocDigest.Proofs.FileTree.Lookup
import DocDigest.Proofs.Project.Pruning

/-!
# The order of a selection

A walk visits paths in increasing order, where paths are compared component by component and
components byte by byte (`Walk.pairwise_visits`). So within one extension the selected paths
increase, and none is selected twice. What is selected does not depend on the order in which the
file system lists a directory (`Selection.candidates_in_order`).

The order is not the one of the written paths: a slash is greater than some characters of names, so
`a-b` comes before `a/b` as a text, but behind it component by component.
-/

set_option autoImplicit false

namespace DocDigest

namespace Path

/-- The bytes of each component of a path. -/
def componentBytes (p : Path) : List Bytes := p.components.map fun c => Utf8.encode c.text

/-- Whether a path comes before another one, component by component and byte by byte. -/
def Before (p q : Path) : Prop := p.componentBytes < q.componentBytes

theorem Before.irrefl (p : Path) : ¬ p.Before p := List.lt_irrefl p.componentBytes

theorem componentBytes_eq {p q : Path} {names : List Text}
    (h : q.components = p.components ++ names.map .name) :
    q.componentBytes = p.componentBytes ++ names.map Utf8.encode := by
  rw [componentBytes, h, List.map_append, List.map_map]
  rfl

/-- A path comes before those that go on from it. -/
theorem before_of_components_eq {p q : Path} {name : Text} {names : List Text}
    (h : q.components = p.components ++ (name :: names).map .name) : p.Before q := by
  have hless : p.componentBytes ++ [] < p.componentBytes ++ (name :: names).map Utf8.encode :=
    List.append_left_lt (List.nil_lt_cons _ _)
  rwa [List.append_nil, ← componentBytes_eq h] at hless

/-- Paths that go on from one path with different names are in the order of these names. -/
theorem before_of_encode_lt {p q r : Path} {m n : Text} {ms ns : List Text}
    (hq : q.components = p.components ++ (m :: ms).map .name)
    (hr : r.components = p.components ++ (n :: ns).map .name)
    (hless : Utf8.encode m < Utf8.encode n) : q.Before r := by
  rw [Before, componentBytes_eq hq, componentBytes_eq hr]
  exact List.append_left_lt (List.cons_lt_cons_iff.mpr (Or.inl hless))

end Path

namespace Walk

/-! ## The order of a walk -/

/-- Whether two visits of a walk are in order. What could not be visited has no place in it. -/
def InOrder (a b : Except WalkError Visit) : Prop :=
  ∀ v v', a = .ok v → b = .ok v' → v.path.Before v'.path

variable {w : Walk} {opened : List (Location × Path)} {folder : Location} {path : Path}

/-- What is visited at an entry of a directory has the directory's path with the entry's name and
other names joined to it. -/
theorem exists_names_of_mem_child (hw : w.tree.WellFormed) {fuel : Nat} {name : Text} {e : Entry}
    {v : Visit} (hchild : (name, e) ∈ w.tree.children folder)
    (hv : .ok v ∈ w.visitChild (w.below fuel) opened folder path (name, e)) :
    ∃ names : List Text, v.path.components = path.components ++ (name :: names).map .name :=
  exists_names_of_mem_visitChild (hw.isName_of_mem_children hchild)
    (fun _ _ hmem => exists_names_of_mem_below hw hmem) hv

/-- A directory comes before all that it holds. -/
theorem before_of_mem_below (hw : w.tree.WellFormed) {fuel : Nat} {v : Visit}
    (h : .ok v ∈ w.below fuel opened folder path) : path.Before v.path := by
  cases fuel with
  | zero =>
      exact absurd h List.not_mem_nil
  | succ fuel =>
      rw [below, List.mem_flatMap] at h
      obtain ⟨⟨name, e⟩, hchild, hv⟩ := h
      obtain ⟨names, hnames⟩ := exists_names_of_mem_child hw hchild hv
      exact Path.before_of_components_eq hnames

theorem pairwise_cons_inOrder {kind : Kind} {found : List (Except WalkError Visit)}
    (hbefore : ∀ v, .ok v ∈ found → path.Before v.path) (hfound : found.Pairwise InOrder) :
    (.ok ⟨path, kind⟩ :: found).Pairwise InOrder := by
  refine List.pairwise_cons.mpr ⟨?_, hfound⟩
  intro b hb v v' hv hv'
  rw [← Except.ok.inj hv]
  subst hv'
  exact hbefore v' hb

theorem pairwise_visitChild (hw : w.tree.WellFormed) {fuel : Nat} {name : Text} {e : Entry}
    (hbelow : ∀ opened' l, (w.below fuel opened' l (path.join ⟨name⟩)).Pairwise InOrder) :
    (w.visitChild (w.below fuel) opened folder path (name, e)).Pairwise InOrder := by
  cases hres : w.resolve opened (path.join ⟨name⟩) (folder ++ [name]) e with
  | error err =>
      rw [visitChild_of_error _ hres]
      exact List.pairwise_singleton _ _
  | ok found =>
      rw [visitChild_of_ok _ hres]
      split
      · split
        · exact List.Pairwise.nil
        · split
          · apply pairwise_cons_inOrder _ (List.pairwise_singleton _ _)
            intro v hv
            cases List.mem_singleton.mp hv
          · exact pairwise_cons_inOrder (fun v hv => before_of_mem_below hw hv) (hbelow _ _)
      · exact List.pairwise_singleton _ _

theorem pairwise_below (hw : w.tree.WellFormed) (fuel : Nat) :
    (w.below fuel opened folder path).Pairwise InOrder := by
  induction fuel generalizing opened folder path with
  | zero =>
      exact List.Pairwise.nil
  | succ fuel ih =>
      rw [below, List.pairwise_flatMap]
      constructor
      · intro child _
        exact pairwise_visitChild hw fun _ _ => ih
      · -- Entries are listed by name, and what is visited at each has its name in its path.
        apply (hw.pairwise_children folder).imp_of_mem
        intro a b ha hb hless x hx y hy v v' hv hv'
        subst hv hv'
        obtain ⟨ms, hms⟩ := exists_names_of_mem_child hw ha hx
        obtain ⟨ns, hns⟩ := exists_names_of_mem_child hw hb hy
        exact Path.before_of_encode_lt hms hns hless

/-- A walk visits paths in increasing order. -/
theorem pairwise_visits (hw : w.tree.WellFormed) (root : Path) :
    (w.visits root).Pairwise InOrder := by
  rcases w.visits_cases root with ⟨err, h⟩ | ⟨kind, follow, l, e, h⟩
  · have hvisits : w.visits root = [.error err] := h w.prune
    rw [hvisits]
    exact List.pairwise_singleton _ _
  · have hvisits := h w.prune
    change w.visits root = _ at hvisits
    rw [hvisits]
    split
    · exact pairwise_cons_inOrder (fun v hv => before_of_mem_below (w := { w with follow }) hw hv)
        (pairwise_below (w := { w with follow }) hw maxDepth)
    · exact List.pairwise_singleton _ _

/-! ## Walks of trees with the same entries -/

section

variable {t' : FileTree} (hget : t'.get? = w.tree.get?) (hchildren : t'.children = w.tree.children)

include hget

theorem resolve_congr : resolve { w with tree := t' } = w.resolve := by
  funext opened path l e
  rw [resolve, resolve, FileTree.status_congr hget]

theorem visitChild_tree_congr : visitChild { w with tree := t' } = w.visitChild := by
  funext deeper opened folder path child
  rw [visitChild, visitChild, resolve_congr hget]

include hchildren

theorem below_congr (fuel : Nat) : below { w with tree := t' } fuel = w.below fuel := by
  induction fuel with
  | zero =>
      rfl
  | succ fuel ih =>
      funext opened folder path
      rw [below, below, visitChild_tree_congr hget, ih]
      exact congrArg (List.flatMap _ ·) (congrFun hchildren folder)

theorem visits_congr : visits { w with tree := t' } = w.visits := by
  funext root
  rw [visits, visits, visitsTo, visitsTo]
  simp only [FileTree.isFile_congr hget, FileTree.linkStatus_congr hget,
    FileTree.status_congr hget]
  rw [below_congr (w := { w with follow := w.follow || w.tree.isFile w.base root }) hget hchildren]

end

end Walk

namespace Selection

variable {s : Selection}

theorem candidates_append (extensions more : List Text) :
    s.candidates (extensions ++ more) = s.candidates extensions ++ s.candidates more :=
  List.flatMap_append

/-- What the walk of a selection visits is in increasing order. -/
theorem pairwise_walkWith (htree : s.tree.WellFormed) (prune : Text → Bool) :
    (s.walkWith prune).Pairwise Walk.InOrder := by
  rw [walkWith]
  split
  · exact List.Pairwise.nil
  · exact Walk.pairwise_visits htree s.filter.root

theorem candidates_singleton {found : List Visit}
    (hfound : s.walkWith s.filter.prunes = found.map .ok) (extension : Text) :
    s.candidates [extension]
      = ((found.filter (s.selects extension)).map (·.path)).map fun p => .ok ⟨p, extension⟩ := by
  rw [candidates, List.flatMap_singleton, hfound, pick_map_ok, List.map_map]
  rfl

/-- The selected files are the same in trees with the same entries. -/
theorem candidates_congr {tree : FileTree} (hget : tree.get? = s.tree.get?)
    (hchildren : tree.children = s.tree.children) :
    candidates { s with tree } = s.candidates := by
  have hselects : selects { s with tree } = s.selects := by
    funext extension v
    rw [selects, selects, isSource, isSource, FileTree.isFile_congr hget]
  have hpick : pick { s with tree } = s.pick := by
    funext extension found
    rw [pick, pick, hselects]
  have hwalk : walkWith { s with tree } = s.walkWith := by
    funext prune
    rw [walkWith, walkWith,
      Walk.visits_congr (w := ⟨s.tree, s.base, s.follow, prune⟩) hget hchildren]
  funext extensions
  rw [candidates, candidates, hpick, hwalk]

/-- The order of a selection is canonical if the walk meets no error. The selections for the
extensions follow one another; within one extension the paths increase, so that none comes twice;
and the order in which the file system lists the entries of its directories makes no difference. -/
theorem candidates_in_order (htree : s.tree.WellFormed) {found : List Visit}
    (hfound : s.walkWith s.filter.prunes = found.map .ok) :
    (∀ extensions more,
        s.candidates (extensions ++ more) = s.candidates extensions ++ s.candidates more) ∧
      (∀ extension, ∃ paths : List Path,
        s.candidates [extension] = paths.map (fun p => .ok ⟨p, extension⟩) ∧
          paths.Pairwise Path.Before ∧ paths.Nodup) ∧
      ∀ tree : FileTree, tree.entries.Perm s.tree.entries →
        ∀ extensions, candidates { s with tree } extensions = s.candidates extensions := by
  refine ⟨candidates_append, fun extension => ?_, fun tree hperm extensions => ?_⟩
  · have hwalk := pairwise_walkWith htree s.filter.prunes
    rw [hfound, List.pairwise_map] at hwalk
    have hordered : ((found.filter (s.selects extension)).map (·.path)).Pairwise Path.Before := by
      rw [List.pairwise_map]
      exact (hwalk.filter _).imp fun h => h _ _ rfl rfl
    refine ⟨_, candidates_singleton hfound extension, hordered, hordered.imp fun h heq => ?_⟩
    subst heq
    exact Path.Before.irrefl _ h
  · have hget := htree.get?_eq_of_perm hperm
    have hchildren := htree.children_eq_of_perm hperm
    rw [candidates_congr hget hchildren]

/-- What a directory holds comes before a file beside it whose name is longer, in whatever order the
entries are listed. -/
theorem candidates_in_order_beside_longer_name :
    let entry (names : List String) (e : Entry) : Location × Entry := (names.map String.toList, e)
    let s : Selection :=
      { tree := ⟨[entry ["p"] .directory, entry ["p", "a-b.ts"] (.file []),
          entry ["p", "a"] .directory, entry ["p", "a", "z.ts"] (.file []),
          entry ["p", "a", "b.ts"] (.file [])]⟩
        base := []
        filter := ⟨⟨"/p".toList⟩, [], .default⟩
        follow := false }
    let visit (path : String) (kind : Kind) : Visit := ⟨⟨path.toList⟩, kind⟩
    let found : List Visit :=
      [visit "/p" .directory, visit "/p/a" .directory, visit "/p/a/b.ts" .file,
        visit "/p/a/z.ts" .file, visit "/p/a-b.ts" .file]
    let selected (extension : String) (paths : List String) : List (Except WalkError Candidate) :=
      paths.map fun path => .ok ⟨⟨path.toList⟩, extension.toList⟩
    s.tree.WellFormed ∧ s.walkWith s.filter.prunes = found.map .ok ∧
      s.candidates [".ts".toList, "z.ts".toList]
        = selected ".ts" ["/p/a/b.ts", "/p/a/z.ts", "/p/a-b.ts"] ++ selected "z.ts" ["/p/a/z.ts"] ∧
      candidates { s with tree := ⟨s.tree.entries.reverse⟩ } [".ts".toList]
        = selected ".ts" ["/p/a/b.ts", "/p/a/z.ts", "/p/a-b.ts"] := by
  intro entry s visit found selected
  have htree : s.tree.WellFormed := ⟨by decide, by decide, by decide⟩
  have hfound : s.walkWith s.filter.prunes = found.map .ok := by rfl
  obtain ⟨happend, -, hperm⟩ := candidates_in_order htree hfound
  refine ⟨htree, hfound, ?_, ?_⟩
  · rw [show [".ts".toList, "z.ts".toList] = [".ts".toList] ++ ["z.ts".toList] from rfl, happend]
    rfl
  · rw [hperm ⟨s.tree.entries.reverse⟩ (List.reverse_perm _)]
    rfl

end Selection

end DocDigest
