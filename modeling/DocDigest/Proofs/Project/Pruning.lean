import DocDigest.Project.Select
import DocDigest.Proofs.Project.Walk

/-!
# Leaving directories out hides no file

A directory is left out of a walk if its name decides that all below it is ignored. A walk that
leaves out such directories selects the same files, in the same order, as one that goes through the
whole tree (`Selection.candidates_eq_filter_whole_walk`).

The argument compares two walks entry by entry, one of which leaves out more
(`Selection.pick_below`). They differ only at a directory that this one leaves out, and every path
that the other one visits there holds the directory's name among its names below the root, so the
filter ignores it.
-/

set_option autoImplicit false

namespace DocDigest

namespace Selection

variable {s : Selection} {extension : Text}

/-! ## Picking from a walk -/

theorem pick_cons_ok (v : Visit) (found : List (Except WalkError Visit)) :
    s.pick extension (.ok v :: found) = s.pick extension [.ok v] ++ s.pick extension found := by
  rw [pick, pick, pick, ← List.filterMap_append, List.singleton_append]

theorem pick_flatMap {α : Type} (l : List α) (visit : α → List (Except WalkError Visit)) :
    s.pick extension (l.flatMap visit) = l.flatMap fun a => s.pick extension (visit a) :=
  List.filterMap_flatMap

theorem pick_map_ok (found : List Visit) :
    s.pick extension (found.map .ok)
      = (found.filter (s.selects extension)).map fun v => .ok ⟨v.path, extension⟩ := by
  induction found with
  | nil =>
      rfl
  | cons v found ih =>
      rw [List.map_cons, pick_cons_ok, ih, pick]
      cases hv : s.selects extension v with
      | true =>
          rw [List.filter_cons_of_pos hv]
          simp [hv]
      | false =>
          rw [List.filter_cons_of_neg (by rw [hv]; exact Bool.false_ne_true)]
          simp [hv]

theorem pick_eq_nil {found : List (Except WalkError Visit)}
    (hok : ∀ err, .error err ∉ found) (h : ∀ v, .ok v ∈ found → s.selects extension v = false) :
    s.pick extension found = [] := by
  rw [pick, List.filterMap_eq_nil_iff]
  rintro (err | v) hmem
  · exact absurd hmem (hok err)
  · simp [h v hmem]

/-- A visit is not selected if a name that prunes is among its names below the root. -/
theorem selects_eq_false_of_prunes {v : Visit} {names : List Text} {name : Text}
    (hpath : v.path.components = s.filter.root.components ++ names.map .name)
    (hmem : name ∈ names) (hprunes : s.filter.prunes name = true) :
    s.selects extension v = false := by
  have hignores : s.filter.ignores v.path = true := by
    rw [Filter.ignores, Path.namesBelow_eq hpath]
    exact Filter.ignoresNames_of_prunes hprunes hmem
  simp [selects, hignores]

/-! ## Comparing the two walks -/

section

variable {w : Walk} (htree : w.tree.WellFormed) {fuel : Nat} {opened : List (Location × Path)}
  {folder : Location} {path : Path} {names : List Text}
  (hpath : path.components = s.filter.root.components ++ names.map .name)

include htree hpath

/-- Nothing is picked at an entry whose name prunes, nor below it. -/
theorem pick_visitChild_of_prunes {name : Text} {e : Entry} (hname : FileTree.isName name = true)
    (hprunes : s.filter.prunes name = true)
    (hok : ∀ err, .error err ∉ w.visitChild (w.below fuel) opened folder path (name, e)) :
    s.pick extension (w.visitChild (w.below fuel) opened folder path (name, e)) = [] := by
  refine pick_eq_nil hok fun v hv => ?_
  obtain ⟨more, hmore⟩ := Walk.exists_names_of_mem_visitChild hname
    (fun _ _ hmem => Walk.exists_names_of_mem_below htree hmem) hv
  have hbelow : v.path.components
      = s.filter.root.components ++ (names ++ name :: more).map .name := by
    rw [hmore, hpath, List.append_assoc, ← List.map_append]
  exact selects_eq_false_of_prunes hbelow (List.mem_append_right names List.mem_cons_self) hprunes

/-- Below a directory that is the root or stands below it, a walk that leaves out more, but only
what the filter ignores, leads to the same selection. -/
theorem pick_below {less : Text → Bool} (hless : ∀ name, less name = true → w.prune name = true)
    (hprune : ∀ name, w.prune name = true → s.filter.prunes name = true)
    (hok : ∀ err, .error err ∉ (w.pruning less).below fuel opened folder path) :
    s.pick extension (w.below fuel opened folder path)
      = s.pick extension ((w.pruning less).below fuel opened folder path) := by
  induction fuel generalizing opened folder path names with
  | zero =>
      rfl
  | succ fuel ih =>
      rw [Walk.below, Walk.below, pick_flatMap, pick_flatMap]
      refine List.flatMap_congr fun child hchild => ?_
      obtain ⟨name, e⟩ := child
      have hname := htree.isName_of_mem_children hchild
      have hok' : ∀ err, .error err ∉ (w.pruning less).visitChild
          ((w.pruning less).below fuel) opened folder path (name, e) :=
        fun err herr => hok err (List.mem_flatMap.mpr ⟨(name, e), hchild, herr⟩)
      -- The walks part at a directory only, and only if its name prunes.
      rcases w.visitChild_cases opened folder path name e with ⟨found, hfound⟩ | ⟨l, hvisit⟩
      · have hcut : w.visitChild (w.below fuel) opened folder path (name, e) = found :=
          hfound w.prune _
        rw [hcut, hfound less]
      · have hcut := hvisit w.prune (w.below fuel)
        change w.visitChild _ _ _ _ _ = _ at hcut
        cases hp : w.prune name with
        | true =>
            -- One walk stays out, and what the other may find there is not picked.
            rw [pick_visitChild_of_prunes (w := w.pruning less) htree hpath hname
              (hprune name hp) hok', hcut, hp]
            rfl
        | false =>
            -- Both go in, and the induction hypothesis compares what is below.
            have hopen : less name = false :=
              Bool.eq_false_iff.mpr (mt (hless name) (Bool.eq_false_iff.mp hp))
            have hmore := hvisit less ((w.pruning less).below fuel)
            rw [hp, if_neg Bool.false_ne_true] at hcut
            rw [hopen, if_neg Bool.false_ne_true] at hmore
            rw [hmore] at hok'
            rw [hcut, hmore]
            cases hlong : FileTree.isTooLong (path.join ⟨name⟩) with
            | true =>
                rfl
            | false =>
                rw [hlong, if_neg Bool.false_ne_true] at hok'
                rw [if_neg Bool.false_ne_true, if_neg Bool.false_ne_true]
                have hjoin : (path.join ⟨name⟩).components
                    = s.filter.root.components ++ (names ++ [name]).map .name := by
                  rw [Path.components_join hname, hpath, List.append_assoc, List.map_append]
                  rfl
                have hrest := ih hjoin fun err herr => hok' err (List.mem_cons_of_mem _ herr)
                rw [pick_cons_ok _ (w.below _ _ _ _),
                  pick_cons_ok _ ((w.pruning less).below _ _ _ _), hrest]

end

theorem pick_visits {w : Walk} (htree : w.tree.WellFormed) {less : Text → Bool}
    (hless : ∀ name, less name = true → w.prune name = true)
    (hprune : ∀ name, w.prune name = true → s.filter.prunes name = true)
    (hok : ∀ err, .error err ∉ (w.pruning less).visits s.filter.root) :
    s.pick extension (w.visits s.filter.root)
      = s.pick extension ((w.pruning less).visits s.filter.root) := by
  have hroot : s.filter.root.components
      = s.filter.root.components ++ ([] : List Text).map .name := (List.append_nil _).symm
  rcases w.visits_cases s.filter.root with ⟨err, h⟩ | ⟨kind, follow, l, e, h⟩
  · -- The root cannot be looked at: both walks report this and nothing else.
    have hcut : w.visits s.filter.root = [.error err] := h w.prune
    have hmore : (w.pruning less).visits s.filter.root = [.error err] := h less
    rw [hcut, hmore]
  · have hcut := h w.prune
    have hmore := h less
    change w.visits s.filter.root = _ at hcut
    change (w.pruning less).visits s.filter.root = _ at hmore
    rw [hmore] at hok
    rw [hcut, hmore]
    cases hdir : e.isDirectory with
    | false =>
        rw [if_neg Bool.false_ne_true, if_neg Bool.false_ne_true]
    | true =>
        rw [hdir, if_pos rfl] at hok
        rw [if_pos rfl, if_pos rfl, pick_cons_ok _ (Walk.below ⟨_, _, _, w.prune⟩ _ _ _ _),
          pick_cons_ok _ (Walk.below ⟨_, _, _, less⟩ _ _ _ _)]
        exact congrArg (_ ++ ·) (pick_below (w := { w with follow }) htree hroot hless hprune
          fun err herr => hok err (List.mem_cons_of_mem _ herr))

/-- If a walk meets no error, leaving out more of the directories whose names decide that all below
them is ignored makes no difference for what is picked. -/
theorem pick_walkWith (htree : s.tree.WellFormed) {less more : Text → Bool}
    (hless : ∀ name, less name = true → more name = true)
    (hmore : ∀ name, more name = true → s.filter.prunes name = true)
    (hok : ∀ err, .error err ∉ s.walkWith less) :
    s.pick extension (s.walkWith more) = s.pick extension (s.walkWith less) := by
  rw [walkWith] at hok ⊢
  rw [walkWith]
  cases hinput : isStandardInput s.filter.root with
  | true =>
      rw [if_pos rfl, if_pos rfl]
  | false =>
      rw [hinput, if_neg Bool.false_ne_true] at hok
      rw [if_neg Bool.false_ne_true, if_neg Bool.false_ne_true]
      exact pick_visits (w := ⟨s.tree, s.base, s.follow, more⟩) htree hless hmore hok

/-- If a walk of the whole tree meets no error, leaving directories out makes no difference. -/
theorem candidates_eq_plainCandidates (htree : s.tree.WellFormed)
    (hok : ∀ err, .error err ∉ s.walkWith fun _ => false) (extensions : List Text) :
    s.candidates extensions = s.plainCandidates extensions :=
  List.flatMap_congr fun _ _ =>
    pick_walkWith htree (fun _ h => absurd h Bool.false_ne_true) (fun _ h => h) hok

/-- Leaving directories out hides no file. For each extension in turn, the selection is what is left
of all that a walk of the whole tree visits when only the files, and links to files, are kept whose
names end with the extension and that the filter does not ignore. The walk is one of the whole tree:
to a greater depth it visits nothing else. -/
theorem candidates_eq_filter_whole_walk (htree : s.tree.WellFormed) {found : List Visit}
    (hfound : s.walkWith (fun _ => false) = found.map .ok) (extensions : List Text) :
    (s.candidates extensions = extensions.flatMap fun extension =>
      (found.filter fun v => s.isSource v && hasExtension extension v.path
        && !s.filter.ignores v.path).map fun v => .ok ⟨v.path, extension⟩) ∧
      (isStandardInput s.filter.root = false → ∀ depth, Walk.maxDepth ≤ depth →
        Walk.visitsTo ⟨s.tree, s.base, s.follow, fun _ => false⟩ depth s.filter.root
          = found.map .ok) := by
  have hok : ∀ err, .error err ∉ s.walkWith fun _ => false := by
    intro err herr
    rw [hfound] at herr
    obtain ⟨v, -, hv⟩ := List.mem_map.mp herr
    cases hv
  constructor
  · calc s.candidates extensions
        = s.plainCandidates extensions := candidates_eq_plainCandidates htree hok extensions
      _ = extensions.flatMap fun extension => s.pick extension (found.map .ok) := by
          rw [plainCandidates, hfound]
      _ = _ := List.flatMap_congr fun extension _ => pick_map_ok found
  · intro hinput depth hdepth
    rw [walkWith, hinput, if_neg Bool.false_ne_true] at hfound
    rw [Walk.visitsTo_eq_visits htree hdepth, hfound]

/-- A file behind a hidden directory is selected, and so is a link to a file; the file in a
directory that a rule names is not. -/
theorem candidates_beside_pruned_folder :
    let entry (names : List String) (e : Entry) : Location × Entry := (names.map String.toList, e)
    let s : Selection :=
      { tree := ⟨[entry ["p"] .directory, entry ["p", "a.ts"] (.file []),
          entry ["p", "l.ts"] (.link ⟨"a.ts".toList⟩), entry ["p", ".h"] .directory,
          entry ["p", ".h", "out"] .directory, entry ["p", ".h", "out", "b.ts"] (.file []),
          entry ["p", ".h", "c.ts"] (.file [])]⟩
        base := []
        filter := ⟨⟨"/p".toList⟩, [⟨"out".toList, false⟩], .default⟩
        follow := false }
    let visit (path : String) (kind : Kind) : Visit := ⟨⟨path.toList⟩, kind⟩
    let found : List Visit :=
      [visit "/p" .directory, visit "/p/.h" .directory, visit "/p/.h/c.ts" .file,
        visit "/p/.h/out" .directory, visit "/p/.h/out/b.ts" .file, visit "/p/a.ts" .file,
        visit "/p/l.ts" .link]
    s.tree.WellFormed ∧ s.walkWith (fun _ => false) = found.map .ok ∧
      s.candidates [".ts".toList] =
        ["/p/.h/c.ts", "/p/a.ts", "/p/l.ts"].map fun path =>
          .ok ⟨⟨path.toList⟩, ".ts".toList⟩ := by
  intro entry s visit found
  have htree : s.tree.WellFormed := ⟨by decide, by decide, by decide⟩
  have hfound : s.walkWith (fun _ => false) = found.map .ok := by rfl
  refine ⟨htree, hfound, (candidates_eq_filter_whole_walk htree hfound [".ts".toList]).1.trans ?_⟩
  rfl

end Selection

end DocDigest
