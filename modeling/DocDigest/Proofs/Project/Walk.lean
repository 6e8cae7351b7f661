import DocDigest.Project.Walk
import DocDigest.Proofs.FileTree.Leads
import DocDigest.Proofs.FileTree.Listing
import DocDigest.Proofs.Path.Components
import Mathlib.Data.List.Flatten

/-!
# What a walk comes to

A walk of a well-formed tree comes, below a directory, only to paths that go on from the directory's
path with names (`Walk.exists_names_of_mem_below`). Each step makes the path longer, and a path that
is too long is not entered, so the bound on the depth of a walk cuts nothing off
(`Walk.visitsTo_eq_visits`).
-/

set_option autoImplicit false

namespace DocDigest

namespace Walk

variable {w : Walk}
  {deeper : List (Location × Path) → Location → Path → List (Except WalkError Visit)}
  {opened : List (Location × Path)} {folder : Location} {path : Path} {name : Text} {e : Entry}

/-! ## One entry -/

theorem visitChild_of_error (deeper) {err : WalkError}
    (h : w.resolve opened (path.join ⟨name⟩) (folder ++ [name]) e = .error err) :
    w.visitChild deeper opened folder path (name, e) = [.error err] := by
  simp only [visitChild, h]

theorem visitChild_of_ok (deeper) {l : Location} {e' : Entry}
    (h : w.resolve opened (path.join ⟨name⟩) (folder ++ [name]) e = .ok (l, e')) :
    w.visitChild deeper opened folder path (name, e) =
      if e'.isDirectory then
        if w.prune name then []
        else
          .ok ⟨path.join ⟨name⟩, .directory⟩ ::
            (if FileTree.isTooLong (path.join ⟨name⟩) then
              [.error (.unreadable (path.join ⟨name⟩) .nameTooLong)]
            else deeper ((l, path.join ⟨name⟩) :: opened) l (path.join ⟨name⟩))
      else [.ok ⟨path.join ⟨name⟩, e'.kind⟩] := by
  simp only [visitChild, h]

/-- What is visited at an entry is the entry, or stands below it. -/
theorem path_of_mem_visitChild {v : Visit}
    (h : .ok v ∈ w.visitChild deeper opened folder path (name, e)) :
    v.path = path.join ⟨name⟩ ∨
      ∃ opened' l, .ok v ∈ deeper opened' l (path.join ⟨name⟩) := by
  cases hres : w.resolve opened (path.join ⟨name⟩) (folder ++ [name]) e with
  | error err =>
      rw [visitChild_of_error _ hres] at h
      simp at h
  | ok found =>
      obtain ⟨l, e'⟩ := found
      rw [visitChild_of_ok _ hres] at h
      split at h
      · split at h
        · exact absurd h List.not_mem_nil
        · rcases List.mem_cons.mp h with h | h
          · left
            rw [Except.ok.inj h]
          · split at h
            · simp at h
            · exact Or.inr ⟨_, l, h⟩
      · left
        rw [Except.ok.inj (List.mem_singleton.mp h)]

/-- If what stands below an entry has the entry's path with names joined to it, all that is visited
at the entry does. -/
theorem exists_names_of_mem_visitChild (hname : FileTree.isName name = true) {v : Visit}
    (hdeeper : ∀ opened' l, .ok v ∈ deeper opened' l (path.join ⟨name⟩) →
      ∃ names : List Text, v.path.components = (path.join ⟨name⟩).components ++ names.map .name)
    (h : .ok v ∈ w.visitChild deeper opened folder path (name, e)) :
    ∃ names : List Text, v.path.components = path.components ++ (name :: names).map .name := by
  have hjoin := Path.components_join hname path
  rcases path_of_mem_visitChild h with hpath | ⟨opened', l, hmem⟩
  · exact ⟨[], by rw [hpath, hjoin]; rfl⟩
  · obtain ⟨names, hnames⟩ := hdeeper opened' l hmem
    exact ⟨names, by rw [hnames, hjoin, List.append_assoc]; rfl⟩

/-- The same walk with other directories left out. -/
def pruning (w : Walk) (prune : Text → Bool) : Walk := { w with prune }

/-- Which directories a walk leaves out, and what it does below one, matters at a directory only. -/
theorem visitChild_cases (w : Walk) (opened : List (Location × Path)) (folder : Location)
    (path : Path) (name : Text) (e : Entry) :
    (∃ found, ∀ prune deeper,
        (w.pruning prune).visitChild deeper opened folder path (name, e) = found) ∨
      ∃ l, ∀ prune deeper, (w.pruning prune).visitChild deeper opened folder path (name, e) =
        if prune name then []
        else
          .ok ⟨path.join ⟨name⟩, .directory⟩ ::
            (if FileTree.isTooLong (path.join ⟨name⟩) then
              [.error (.unreadable (path.join ⟨name⟩) .nameTooLong)]
            else deeper ((l, path.join ⟨name⟩) :: opened) l (path.join ⟨name⟩)) := by
  cases hres : w.resolve opened (path.join ⟨name⟩) (folder ++ [name]) e with
  | error err =>
      exact Or.inl ⟨_, fun prune deeper => visitChild_of_error (w := w.pruning prune) deeper hres⟩
  | ok found =>
      obtain ⟨l, e'⟩ := found
      have hvisit := fun prune deeper => visitChild_of_ok (w := w.pruning prune) deeper hres
      cases hdir : e'.isDirectory with
      | false =>
          refine Or.inl ⟨[.ok ⟨path.join ⟨name⟩, e'.kind⟩], fun prune deeper => ?_⟩
          rw [hvisit, hdir, if_neg Bool.false_ne_true]
      | true =>
          refine Or.inr ⟨l, fun prune deeper => ?_⟩
          rw [hvisit, hdir, if_pos rfl]
          rfl

/-- What is done below an entry only matters if the entry's path can be entered. -/
theorem visitChild_congr
    {deeper' : List (Location × Path) → Location → Path → List (Except WalkError Visit)}
    (h : FileTree.isTooLong (path.join ⟨name⟩) = false → ∀ opened' l,
      deeper opened' l (path.join ⟨name⟩) = deeper' opened' l (path.join ⟨name⟩)) :
    w.visitChild deeper opened folder path (name, e)
      = w.visitChild deeper' opened folder path (name, e) := by
  cases hres : w.resolve opened (path.join ⟨name⟩) (folder ++ [name]) e with
  | error err =>
      rw [visitChild_of_error _ hres, visitChild_of_error _ hres]
  | ok found =>
      obtain ⟨l, e'⟩ := found
      rw [visitChild_of_ok _ hres, visitChild_of_ok _ hres]
      cases hlong : FileTree.isTooLong (path.join ⟨name⟩) with
      | true =>
          rfl
      | false =>
          rw [h hlong]

/-! ## A whole walk -/

/-- What is visited below a directory has the directory's path with names joined to it. -/
theorem exists_names_of_mem_below (hw : w.tree.WellFormed) {fuel : Nat} {v : Visit}
    (h : .ok v ∈ w.below fuel opened folder path) :
    ∃ names : List Text, v.path.components = path.components ++ names.map .name := by
  induction fuel generalizing opened folder path with
  | zero =>
      exact absurd h List.not_mem_nil
  | succ fuel ih =>
      rw [below, List.mem_flatMap] at h
      obtain ⟨⟨name, e⟩, hchild, hv⟩ := h
      obtain ⟨names, hnames⟩ := exists_names_of_mem_visitChild (hw.isName_of_mem_children hchild)
        (fun _ _ hmem => ih hmem) hv
      exact ⟨name :: names, hnames⟩

/-- What a walk does at its root is the same whichever directories it leaves out. -/
theorem visits_cases (w : Walk) (root : Path) :
    (∃ err, ∀ prune, visits { w with prune } root = [.error err]) ∨
      ∃ kind follow l, ∃ e : Entry, ∀ prune, visits { w with prune } root =
        .ok ⟨root, kind⟩ ::
          (if e.isDirectory then below { w with follow, prune } maxDepth [(l, root)] l root
          else []) := by
  cases hown : w.tree.linkStatus w.base root with
  | error cause =>
      refine Or.inl ⟨.unreadable root cause, fun prune => ?_⟩
      simp only [visits, visitsTo, hown]
  | ok own =>
      cases hstatus : w.tree.status w.base root with
      | error cause =>
          refine Or.inl ⟨.unreadable root cause, fun prune => ?_⟩
          simp only [visits, visitsTo, hown, hstatus]
      | ok found =>
          refine Or.inr ⟨if w.follow || w.tree.isFile w.base root then found.2.kind else own.2.kind,
            w.follow || w.tree.isFile w.base root, found.1, found.2, fun prune => ?_⟩
          simp only [visits, visitsTo, hown, hstatus]

/-- Below a directory, a walk that leaves more out comes to nothing that it would not come to
otherwise. -/
theorem below_sublist {less : Text → Bool} (h : ∀ name, less name = true → w.prune name = true)
    (fuel : Nat) :
    (w.below fuel opened folder path).Sublist ((w.pruning less).below fuel opened folder path) := by
  induction fuel generalizing opened folder path with
  | zero =>
      exact List.Sublist.refl _
  | succ fuel ih =>
      rw [below, below]
      refine List.Sublist.flatMap_right _ fun child _ => ?_
      obtain ⟨name, e⟩ := child
      rcases w.visitChild_cases opened folder path name e with ⟨found, hfound⟩ | ⟨l, hvisit⟩
      · have hcut : w.visitChild (w.below fuel) opened folder path (name, e) = found :=
          hfound w.prune _
        rw [hcut, hfound less]
      · have hcut := hvisit w.prune (w.below fuel)
        change w.visitChild _ _ _ _ _ = _ at hcut
        rw [hcut, hvisit less]
        cases hprune : w.prune name with
        | true => exact List.nil_sublist _
        | false =>
            have hless : less name = false :=
              Bool.eq_false_iff.mpr (mt (h name) (Bool.eq_false_iff.mp hprune))
            rw [hless, if_neg Bool.false_ne_true, if_neg Bool.false_ne_true]
            refine List.Sublist.cons_cons _ ?_
            split
            · exact List.Sublist.refl _
            · exact ih

theorem visits_sublist {less : Text → Bool} (h : ∀ name, less name = true → w.prune name = true)
    (root : Path) : (w.visits root).Sublist ((w.pruning less).visits root) := by
  rcases w.visits_cases root with ⟨err, heq⟩ | ⟨kind, follow, l, e, heq⟩
  · have hcut : w.visits root = [.error err] := heq w.prune
    have hmore : (w.pruning less).visits root = [.error err] := heq less
    rw [hcut, hmore]
  · have hcut := heq w.prune
    have hmore := heq less
    change w.visits root = _ at hcut
    change (w.pruning less).visits root = _ at hmore
    rw [hcut, hmore]
    refine List.Sublist.cons_cons _ ?_
    split
    · exact below_sublist (w := { w with follow }) h maxDepth
    · exact List.Sublist.refl _

/-- A walk with more depth than is left up to the longest path visits the same. -/
theorem below_add (hw : w.tree.WellFormed) {fuel : Nat} (hshort : FileTree.isTooLong path = false)
    (hfuel : FileTree.maxPathBytes ≤ fuel + path.text.byteLength) (more : Nat) :
    w.below (fuel + more) opened folder path = w.below fuel opened folder path := by
  induction fuel generalizing opened folder path with
  | zero =>
      -- With no depth left, the path would be too long to be entered.
      rw [FileTree.isTooLong, decide_eq_false_iff_not] at hshort
      omega
  | succ fuel ih =>
      rw [Nat.add_right_comm, below, below]
      refine List.flatMap_congr fun child hchild => visitChild_congr fun hshort' opened' l => ?_
      have hlonger := Path.byteLength_lt_join (hw.isName_of_mem_children hchild) path
      exact ih hshort' (by omega)

/-- The bound on the depth of a walk cuts nothing off. -/
theorem below_maxDepth (hw : w.tree.WellFormed) (hshort : FileTree.isTooLong path = false)
    {fuel : Nat} (hfuel : maxDepth ≤ fuel) :
    w.below fuel opened folder path = w.below maxDepth opened folder path := by
  obtain ⟨more, rfl⟩ := Nat.exists_eq_add_of_le hfuel
  exact below_add hw hshort (Nat.le_add_right _ _) more

/-- A walk to a greater depth visits nothing else: a root that is visited has no path that is too
long. -/
theorem visitsTo_eq_visits (hw : w.tree.WellFormed) {depth : Nat} (hdepth : maxDepth ≤ depth)
    (root : Path) : w.visitsTo depth root = w.visits root := by
  rw [visits, visitsTo, visitsTo]
  cases hown : w.tree.linkStatus w.base root with
  | error cause =>
      rfl
  | ok own =>
      have hshort : FileTree.isTooLong root = false := by
        rw [FileTree.linkStatus] at hown
        obtain ⟨spot, hspot, -⟩ := FileTree.exists_of_bind_eq_ok hown
        exact (FileTree.locate_eq_ok_iff.mp hspot).1.short
      cases w.tree.status w.base root with
      | error cause =>
          rfl
      | ok found =>
          obtain ⟨l, e⟩ := found
          let w' : Walk := { w with follow := w.follow || w.tree.isFile w.base root }
          have hbelow : w'.below depth [(l, root)] l root = w'.below maxDepth [(l, root)] l root :=
            below_maxDepth (w := w') hw hshort hdepth
          simp only [hbelow, w']

end Walk

end DocDigest
