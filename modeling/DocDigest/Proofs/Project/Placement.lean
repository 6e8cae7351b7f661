import DocDigest.Proofs.FileTree.Make
import DocDigest.Proofs.Project.Pruning
import Mathlib.Data.List.Infix

/-!
# Where a project lives

A filter looks at the names of a path below the root only, so how the root is written and which
names are in it makes no difference (`Filter.ignores_join`). In a tree without links, what a walk
visits is told by the names below its root (`Walk.below_eq`), and so is what is selected: the same
directory gives the same selection behind each root
(`Selection.same_selection_behind_each_root`).

One thing about a root counts: its length. A directory whose path is too long behind the root is
reported instead of listed, and what it holds is not selected there
(`Selection.long_root_hides_file`).
-/

set_option autoImplicit false

namespace DocDigest

open FileTree (isName)

/-! ## Filtering behind a root -/

namespace Filter

/-- What a filter decides below its root does not depend on the root. -/
theorem ignores_join (root : Path) (rules : List Rule) (excludes : Excludes) {q : Path}
    (h : q.isAbsolute = false) :
    ignores ⟨root, rules, excludes⟩ (root.join q)
      = ignoresNames ⟨root, rules, excludes⟩ q.names := by
  rw [ignores, Path.namesBelow_join h]

/-- Whether a file with the given names below the root is selected for an extension. -/
def keeps (f : Filter) (extension : Text) (names : List Text) : Bool :=
  names.getLast?.any extension.isSuffixOf && !f.ignoresNames names

theorem prunes_eq_false_of_keeps {f : Filter} {extension : Text} {names : List Text}
    (h : f.keeps extension names = true) {n : Text} (hn : n ∈ names) : f.prunes n = false := by
  rw [keeps, Bool.and_eq_true, Bool.not_eq_true'] at h
  rw [← Bool.not_eq_true]
  intro hprunes
  rw [ignoresNames_of_prunes hprunes hn] at h
  exact Bool.noConfusion h.2

end Filter

/-! ## What stands below a root -/

/-- What is found at some names below a root. An error stands for a directory there whose path is
too long. -/
abbrev Found (α : Type) := Except (List Text) (List Text × α)

/-- What is found, with the paths that it has behind a root. -/
def Found.place {α β : Type} (make : Path → α → β) (root : Path) : Found α → Except WalkError β
  | .ok (names, a) => .ok (make (root.joinNames names) a)
  | .error names => .error (.unreadable (root.joinNames names) .nameTooLong)

namespace FileTree

variable {t : FileTree} {top : Location}

/-- Whether no link stands below a location. -/
def LinkFree (t : FileTree) (top : Location) : Prop :=
  ∀ names e, t.get? (top ++ names) = some e → e.isLink = false

theorem WellFormed.linkFree (h : t.WellFormed) (hall : ∀ e ∈ t.entries, e.2.isLink = false)
    (top : Location) : t.LinkFree top := by
  intro names e hget
  by_cases hnil : top ++ names = []
  · rw [hnil] at hget
    cases hget
    rfl
  · exact hall _ ((h.get?_eq_some_iff hnil).mp hget)

/-- Whether the path of what has the given names below a root is too long. -/
def isTooLongBelow (root : Path) (names : List Text) : Bool := isTooLong (root.joinNames names)

theorem WellFormed.mem_children_iff (h : t.WellFormed) {names : List Text} {n : Text} {e : Entry} :
    (n, e) ∈ t.children (top ++ names) ↔ t.get? (top ++ (names ++ [n])) = some e := by
  rw [mem_children, ← List.append_assoc, h.get?_eq_some_iff (by simp)]

/-- What stands at names below a location has proper names. -/
theorem WellFormed.isName_of_get? (h : t.WellFormed) {names : List Text} {e : Entry}
    (hget : t.get? (top ++ names) = some e) {n : Text} (hn : n ∈ names) : isName n = true := by
  have hne : top ++ names ≠ [] := List.append_ne_nil_of_right_ne_nil _ (List.ne_nil_of_mem hn)
  exact (h.named _ ((h.get?_eq_some_iff hne).mp hget)).2 n (List.mem_append_right top hn)

/-- Whatever stands below a location stands in a directory there. -/
theorem Housed.isDirectoryAt_append (h : t.Housed) {l : Location} {names : List Text}
    (hne : names ≠ []) (hget : t.get? (l ++ names) ≠ none) : t.isDirectoryAt l = true := by
  induction names using List.reverseRecOn with
  | nil => exact absurd rfl hne
  | append_singleton names n ih =>
      have hdir := h _ hget
      rw [← List.append_assoc, List.dropLast_concat] at hdir
      by_cases hnil : names = []
      · rwa [hnil, List.append_nil] at hdir
      · refine ih hnil ?_
        rw [isDirectoryAt_iff.mp hdir]
        exact Option.some_ne_none _

end FileTree

open FileTree (LinkFree isTooLongBelow isTooLong)

/-! ## Walking by names -/

namespace Walk

/-- What a walk finds below some names in a tree without links. `long` says which directories have
too long a path to be listed. -/
def relative (t : FileTree) (top : Location) (prune : Text → Bool) (long : List Text → Bool) :
    Nat → List Text → List (Found Kind)
  | 0, _ => []
  | fuel + 1, names =>
    (t.children (top ++ names)).flatMap fun (n, e) =>
      let here := names ++ [n]
      if e.isDirectory then
        if prune n then []
        else
          .ok (here, .directory) ::
            (if long here then [.error here] else relative t top prune long fuel here)
      else [.ok (here, e.kind)]

theorem resolve_of_not_link {w : Walk} {e : Entry} (h : e.isLink = false)
    (opened : List (Location × Path)) (path : Path) (l : Location) :
    w.resolve opened path l e = .ok (l, e) := by
  rw [resolve, h, Bool.and_false, if_neg Bool.false_ne_true]

/-- Below a root, a walk visits what is found there by the names. -/
theorem below_eq {w : Walk} {top : Location} (hw : w.tree.WellFormed)
    (hfree : w.tree.LinkFree top) (root : Path) (fuel : Nat) (opened : List (Location × Path))
    (names : List Text) :
    w.below fuel opened (top ++ names) (root.joinNames names)
      = (relative w.tree top w.prune (isTooLongBelow root) fuel names).map
          (Found.place Visit.mk root) := by
  induction fuel generalizing opened names with
  | zero => rfl
  | succ fuel ih =>
      rw [below, relative, List.map_flatMap]
      refine List.flatMap_congr fun child hchild => ?_
      obtain ⟨n, e⟩ := child
      have hlink := hfree _ e (hw.mem_children_iff.mp hchild)
      rw [visitChild_of_ok _ (resolve_of_not_link hlink _ _ _), ← Path.joinNames_concat,
        List.append_assoc, ih]
      dsimp only
      rw [isTooLongBelow]
      split_ifs <;> rfl

variable {t t' : FileTree} {top top' : Location} {prune : Text → Bool}
  {long long' : List Text → Bool} {fuel : Nat} {names more : List Text}

/-- What is found by the names depends on what stands below the root only. -/
theorem relative_congr (ht : t.WellFormed) (ht' : t'.WellFormed)
    (hget : ∀ names, t'.get? (top' ++ names) = t.get? (top ++ names))
    (hlong : ∀ names, t.isDirectoryAt (top ++ names) = true → long' names = long names) :
    relative t' top' prune long' fuel names = relative t top prune long fuel names := by
  induction fuel generalizing names with
  | zero => rfl
  | succ fuel ih =>
      have hchildren : t'.children (top' ++ names) = t.children (top ++ names) := by
        refine ht.children_eq_of_get? ht' fun n => ?_
        rw [List.append_assoc, List.append_assoc, hget]
      rw [relative, relative, hchildren]
      refine List.flatMap_congr fun child hchild => ?_
      obtain ⟨n, e⟩ := child
      cases hdir : e.isDirectory with
      | false => simp only [hdir, Bool.false_eq_true, if_false]
      | true =>
          have hhere : t.isDirectoryAt (top ++ (names ++ [n])) = true := by
            rw [FileTree.isDirectoryAt, ht.mem_children_iff.mp hchild]
            exact hdir
          simp only [ih, hlong _ hhere]

/-- What is found below some names: an entry right below them, or what is found below a directory
there that is not left out. -/
theorem mem_relative_succ_iff (ht : t.WellFormed) {a : Found Kind} :
    a ∈ relative t top prune long (fuel + 1) names ↔
      ∃ n e, t.get? (top ++ (names ++ [n])) = some e ∧
        (e.isDirectory = false ∧ a = .ok (names ++ [n], e.kind) ∨
          e = .directory ∧ prune n = false ∧
            (a = .ok (names ++ [n], .directory) ∨
              long (names ++ [n]) = true ∧ a = .error (names ++ [n]) ∨
              long (names ++ [n]) = false ∧
                a ∈ relative t top prune long fuel (names ++ [n]))) := by
  simp only [relative, List.mem_flatMap, Prod.exists, ht.mem_children_iff]
  refine exists_congr fun n => exists_congr fun e => and_congr_right fun _ => ?_
  cases e with
  | directory => cases prune n <;> cases long (names ++ [n]) <;> simp [Entry.isDirectory]
  | file contents => simp [Entry.isDirectory]
  | link target => simp [Entry.isDirectory]

/-- What is found stands in the tree, and no directory on the way to it has too long a path. -/
theorem get?_of_mem_relative (ht : t.WellFormed) {found : List Text} {kind : Kind}
    (h : .ok (found, kind) ∈ relative t top prune long fuel names) :
    ∃ more, found = names ++ more ∧ more ≠ [] ∧
      (∃ e, t.get? (top ++ found) = some e ∧ e.kind = kind) ∧
      ∀ front rest, more = front ++ rest → front ≠ [] → rest ≠ [] →
        long (names ++ front) = false := by
  induction fuel generalizing names with
  | zero => exact absurd h List.not_mem_nil
  | succ fuel ih =>
      obtain ⟨n, e, hget, hhere⟩ := (mem_relative_succ_iff ht).mp h
      have hone : ∀ front rest, [n] = front ++ rest → front ≠ [] → rest ≠ [] →
          long (names ++ front) = false := by
        intro front rest hsplit hfront hrest
        rcases List.singleton_eq_append_iff.mp hsplit with ⟨hnil, -⟩ | ⟨-, hnil⟩
        · exact absurd hnil hfront
        · exact absurd hnil hrest
      rcases hhere with ⟨-, heq⟩ | ⟨rfl, -, heq | ⟨-, heq⟩ | ⟨hlong, hmem⟩⟩
      · cases heq
        exact ⟨[n], rfl, by simp, ⟨e, hget, rfl⟩, hone⟩
      · cases heq
        exact ⟨[n], rfl, by simp, ⟨.directory, hget, rfl⟩, hone⟩
      · cases heq
      · obtain ⟨more, rfl, -, hfound, hways⟩ := ih hmem
        refine ⟨n :: more, by simp, by simp, hfound, ?_⟩
        intro front rest hsplit hfront hrest
        obtain ⟨m, front, rfl⟩ := List.exists_cons_of_ne_nil hfront
        obtain ⟨rfl, hmore⟩ := List.cons.inj hsplit
        by_cases hnil : front = []
        · rwa [hnil]
        · have hway := hways front rest hmore hnil hrest
          rwa [List.append_assoc] at hway

/-- A file is found if no directory on the way to it is left out or has too long a path. -/
theorem mem_relative {root : Path} {contents : Bytes} (ht : t.WellFormed)
    (hget : t.get? (top ++ (names ++ more)) = some (.file contents)) (hne : more ≠ [])
    (hprune : ∀ n ∈ more, prune n = false)
    (hways : ∀ front rest, more = front ++ rest → rest ≠ [] →
      isTooLongBelow root (names ++ front) = false)
    (hfuel : FileTree.maxPathBytes ≤ fuel + (root.joinNames names).text.byteLength) :
    .ok (names ++ more, .file) ∈ relative t top prune (isTooLongBelow root) fuel names := by
  induction fuel generalizing names more with
  | zero =>
      -- With no depth left, the path would be too long.
      have hlong := hways [] more rfl hne
      rw [List.append_nil, isTooLongBelow, isTooLong, decide_eq_false_iff_not] at hlong
      omega
  | succ fuel ih =>
      obtain ⟨n, more, rfl⟩ := List.exists_cons_of_ne_nil hne
      have hname : isName n = true := by
        rw [← List.append_assoc] at hget
        exact ht.isName_of_get? hget List.mem_cons_self
      rw [List.append_cons] at hget ⊢
      by_cases hmore : more = []
      · rw [hmore, List.append_nil] at hget ⊢
        exact (mem_relative_succ_iff ht).mpr ⟨n, _, hget, .inl ⟨rfl, rfl⟩⟩
      · have hdir : t.isDirectoryAt (top ++ (names ++ [n])) = true := by
          refine ht.isHoused.isDirectoryAt_append hmore ?_
          rw [List.append_assoc, hget]
          exact Option.some_ne_none _
        have hshort : isTooLongBelow root (names ++ [n]) = false := hways [n] more rfl hmore
        have hlonger := Path.byteLength_lt_join hname (root.joinNames names)
        rw [← Path.joinNames_concat] at hlonger
        have hways' : ∀ front rest, more = front ++ rest → rest ≠ [] →
            isTooLongBelow root (names ++ [n] ++ front) = false := by
          intro front rest hsplit hrest
          rw [← List.append_cons]
          exact hways (n :: front) rest (congrArg (n :: ·) hsplit) hrest
        have hdeeper := ih hget hmore (fun m hm => hprune m (List.mem_cons_of_mem n hm)) hways'
          (by omega)
        exact (mem_relative_succ_iff ht).mpr ⟨n, _, FileTree.isDirectoryAt_iff.mp hdir,
          .inr ⟨rfl, hprune n List.mem_cons_self, .inr (.inr ⟨hshort, hdeeper⟩)⟩⟩

end Walk

/-! ## Selecting behind a root -/

namespace Selection

variable {s s' : Selection} {top top' : Location} {extension : Text} {names : List Text}

/-- A selection opens a directory that holds no links as its root. -/
structure Opens (s : Selection) (top : Location) : Prop where
  wellFormed : s.tree.WellFormed
  linkFree : s.tree.LinkFree top
  notInput : isStandardInput s.filter.root = false
  status : s.tree.status s.base s.filter.root = .ok (top, .directory)

/-- What is selected for an extension from what is found by the names. -/
def pickRelative (f : Filter) (extension : Text) (found : List (Found Kind)) :
    List (Found Text) :=
  found.filterMap fun
    | .error names => some (.error names)
    | .ok (names, kind) =>
      if kind = .file ∧ f.keeps extension names then some (.ok (names, extension)) else none

theorem mem_pickRelative_iff {f : Filter} {extension' : Text} {found : List (Found Kind)} :
    .ok (names, extension') ∈ pickRelative f extension found ↔
      extension = extension' ∧ .ok (names, .file) ∈ found ∧ f.keeps extension names = true := by
  rw [pickRelative, List.mem_filterMap]
  constructor
  · rintro ⟨a, ha, hpick⟩
    cases a with
    | error names => cases hpick
    | ok sight =>
        obtain ⟨names', kind⟩ := sight
        dsimp only at hpick
        split at hpick
        · next hkeeps =>
          cases hpick
          obtain ⟨rfl, hkeeps⟩ := hkeeps
          exact ⟨rfl, ha, hkeeps⟩
        · cases hpick
  · rintro ⟨rfl, hmem, hkeeps⟩
    exact ⟨_, hmem, if_pos ⟨rfl, hkeeps⟩⟩

/-- What is selected below a directory, by the names. -/
def relative (s : Selection) (top : Location) (extensions : List Text) : List (Found Text) :=
  extensions.flatMap fun extension =>
    pickRelative s.filter extension
      (Walk.relative s.tree top s.filter.prunes (isTooLongBelow s.filter.root) Walk.maxDepth [])

/-- Behind its root, a file is selected for its names. -/
theorem selects_joinNames {kind : Kind} (hnames : ∀ n ∈ names, isName n = true)
    (hne : names ≠ []) (hkind : kind ≠ .link) :
    s.selects extension ⟨s.filter.root.joinNames names, kind⟩
      = decide (kind = .file ∧ s.filter.keeps extension names) := by
  have hcomponents := Path.components_joinNames hnames s.filter.root
  have hbelow := Path.namesBelow_eq hcomponents
  have hlast : (s.filter.root.joinNames names).fileName? = names.getLast? := by
    rw [Path.fileName?, hcomponents, List.getLast?_append_of_ne_nil _ (by simpa using hne),
      List.getLast?_map]
    cases names.getLast? <;> rfl
  rw [selects, hasExtension, hlast, Filter.ignores, hbelow]
  cases kind with
  | directory => rfl
  | link => exact absurd rfl hkind
  | file => simp [isSource, Filter.keeps]

/-- Picking from what stands behind a root is picking by the names. -/
theorem pick_place {found : List (Found Kind)}
    (h : ∀ names kind, .ok (names, kind) ∈ found →
      (∀ n ∈ names, isName n = true) ∧ names ≠ [] ∧ kind ≠ .link) :
    s.pick extension (found.map (Found.place Visit.mk s.filter.root))
      = (pickRelative s.filter extension found).map
          (Found.place Candidate.mk s.filter.root) := by
  rw [pick, pickRelative, List.filterMap_map, List.map_filterMap]
  refine List.filterMap_congr fun a ha => ?_
  cases a with
  | error names => rfl
  | ok sight =>
      obtain ⟨names, kind⟩ := sight
      obtain ⟨hnames, hne, hkind⟩ := h names kind ha
      simp only [Function.comp_apply, Found.place, selects_joinNames hnames hne hkind,
        decide_eq_true_eq]
      split_ifs <;> rfl

namespace Opens

/-- The root itself is not selected. -/
theorem walkWith_eq (h : s.Opens top) :
    ∃ v : Visit, (∀ extension, s.selects extension v = false) ∧
      s.walkWith s.filter.prunes = .ok v ::
        (Walk.relative s.tree top s.filter.prunes (isTooLongBelow s.filter.root) Walk.maxDepth
          []).map (Found.place Visit.mk s.filter.root) := by
  have hdir : s.tree.isDirectory s.base s.filter.root = true := by
    rw [FileTree.isDirectory, h.status]
    rfl
  have hfile : s.tree.isFile s.base s.filter.root = false := by
    rw [FileTree.isFile, h.status]
    rfl
  obtain ⟨l, own, hown, hkind⟩ := FileTree.exists_linkStatus_of_isDirectory hdir
  have hbelow := Walk.below_eq (w := ⟨s.tree, s.base, s.follow, s.filter.prunes⟩) h.wellFormed
    h.linkFree s.filter.root Walk.maxDepth [(top, s.filter.root)] []
  rw [List.append_nil] at hbelow
  refine ⟨⟨s.filter.root, if s.follow then .directory else own.kind⟩, fun extension => ?_, ?_⟩
  · have hsource :
        s.isSource ⟨s.filter.root, if s.follow then .directory else own.kind⟩ = false := by
      rw [isSource]
      cases s.follow with
      | true => rfl
      | false =>
          cases own with
          | directory => rfl
          | file contents => cases hkind
          | link target => exact hfile
    rw [selects, hsource, Bool.false_and, Bool.false_and]
  · rw [walkWith, h.notInput, if_neg Bool.false_ne_true, Walk.visits, Walk.visitsTo]
    simp only [hfile, Bool.or_false, hown, h.status]
    exact congrArg (_ :: ·) hbelow

theorem isName_of_mem_relative (h : s.Opens top) {fuel : Nat} {long : List Text → Bool}
    {kind : Kind}
    (hmem : .ok (names, kind) ∈ Walk.relative s.tree top s.filter.prunes long fuel []) :
    (∀ n ∈ names, isName n = true) ∧ names ≠ [] ∧ kind ≠ .link := by
  obtain ⟨more, hmore, hne, ⟨e, hget, rfl⟩, -⟩ := Walk.get?_of_mem_relative h.wellFormed hmem
  rw [List.nil_append] at hmore
  subst hmore
  refine ⟨fun n hn => h.wellFormed.isName_of_get? hget hn, hne, ?_⟩
  have hlink := h.linkFree names e hget
  cases e with
  | directory => exact Kind.noConfusion
  | file contents => exact Kind.noConfusion
  | link target => cases hlink

/-- What is selected is what is selected by the names, put behind the root. -/
theorem candidates_eq (h : s.Opens top) (extensions : List Text) :
    s.candidates extensions
      = (s.relative top extensions).map (Found.place Candidate.mk s.filter.root) := by
  obtain ⟨v, hv, hwalk⟩ := h.walkWith_eq
  rw [candidates, relative, List.map_flatMap, hwalk]
  refine List.flatMap_congr fun extension _ => ?_
  have hroot : s.pick extension [.ok v] = [] := by
    simp [pick, hv]
  rw [pick_cons_ok, hroot, List.nil_append]
  exact pick_place fun names kind hmem => h.isName_of_mem_relative hmem

/-- A file is selected if its name and the names on the way to it say so and no directory on the way
has too long a path. -/
theorem mem_relative_iff (h : s.Opens top) (extensions : List Text) :
    .ok (names, extension) ∈ s.relative top extensions ↔
      extension ∈ extensions ∧ (∃ contents, s.tree.get? (top ++ names) = some (.file contents)) ∧
        s.filter.keeps extension names = true ∧
        ∀ front rest, names = front ++ rest → rest ≠ [] →
          isTooLong (s.filter.root.joinNames front) = false := by
  obtain ⟨⟨hroot, -⟩, htop⟩ := FileTree.leadsTo_of_status h.status rfl
  simp only [relative, List.mem_flatMap, mem_pickRelative_iff]
  constructor
  · rintro ⟨_, hextension, rfl, hmem, hkeeps⟩
    obtain ⟨more, hmore, -, ⟨e, hget, hkind⟩, hways⟩ := Walk.get?_of_mem_relative h.wellFormed hmem
    rw [List.nil_append] at hmore
    subst hmore
    refine ⟨hextension, ?_, hkeeps, fun front rest hsplit hrest => ?_⟩
    · cases e with
      | directory => cases hkind
      | file contents => exact ⟨contents, hget⟩
      | link target => cases hkind
    · by_cases hfront : front = []
      · rw [hfront]
        exact hroot.short
      · exact hways front rest hsplit hfront hrest
  · rintro ⟨hextension, ⟨contents, hget⟩, hkeeps, hways⟩
    have hne : names ≠ [] := by
      rintro rfl
      rw [List.append_nil, htop] at hget
      cases hget
    have hmem : .ok ([] ++ names, .file) ∈ Walk.relative s.tree top s.filter.prunes
        (isTooLongBelow s.filter.root) Walk.maxDepth [] :=
      Walk.mem_relative h.wellFormed hget hne
        (fun n hn => Filter.prunes_eq_false_of_keeps hkeeps hn) hways (Nat.le_add_right _ _)
    exact ⟨extension, hextension, rfl, hmem, hkeeps⟩

end Opens

/-- What is selected by the names depends on what stands below the root only. -/
theorem relative_congr (h : s.Opens top) (h' : s'.Opens top')
    (hrules : s'.filter.rules = s.filter.rules) (hexcludes : s'.filter.excludes = s.filter.excludes)
    (hget : ∀ names, s'.tree.get? (top' ++ names) = s.tree.get? (top ++ names))
    (hlong : ∀ names, s.tree.isDirectoryAt (top ++ names) = true →
      isTooLong (s'.filter.root.joinNames names) = isTooLong (s.filter.root.joinNames names))
    (extensions : List Text) : s'.relative top' extensions = s.relative top extensions := by
  have hprunes : s'.filter.prunes = s.filter.prunes := by
    funext name
    rw [Filter.prunes, Filter.prunes, hrules, hexcludes]
  have hkeeps : s'.filter.keeps = s.filter.keeps := by
    funext extension names
    rw [Filter.keeps, Filter.keeps, Filter.ignoresNames, Filter.ignoresNames, hrules, hexcludes]
  have hpick : pickRelative s'.filter = pickRelative s.filter := by
    funext extension found
    rw [pickRelative, pickRelative, hkeeps]
  have hfound : Walk.relative s'.tree top' s.filter.prunes (isTooLongBelow s'.filter.root)
      Walk.maxDepth [] = Walk.relative s.tree top s.filter.prunes (isTooLongBelow s.filter.root)
        Walk.maxDepth [] := Walk.relative_congr h.wellFormed h'.wellFormed hget hlong
  rw [relative, relative, hprunes, hpick]
  exact congrArg (fun found => extensions.flatMap fun e => pickRelative s.filter e found) hfound

/-- Where a project lives does not matter. A filter decides the same on a path behind any root,
however the root is written. A directory without links that is opened behind two roots, with the
same rules and excluded names, gives the same selection behind both, as long as the same of its
directories have too long a path there: a file is selected for its names below the root, and if no
directory on the way to it has too long a path. -/
theorem same_selection_behind_each_root :
    (∀ (root root' : Path) (rules : List Rule) (excludes : Excludes) (q : Path),
        q.isAbsolute = false →
          Filter.ignores ⟨root, rules, excludes⟩ (root.join q)
            = Filter.ignores ⟨root', rules, excludes⟩ (root'.join q)) ∧
      ∀ (s s' : Selection) (top top' : Location), s.Opens top → s'.Opens top' →
        s'.filter.rules = s.filter.rules → s'.filter.excludes = s.filter.excludes →
        (∀ names, s'.tree.get? (top' ++ names) = s.tree.get? (top ++ names)) →
        (∀ names, s.tree.isDirectoryAt (top ++ names) = true →
          isTooLong (s'.filter.root.joinNames names)
            = isTooLong (s.filter.root.joinNames names)) →
        ∀ extensions, ∃ found : List (Found Text),
          s.candidates extensions = found.map (Found.place Candidate.mk s.filter.root) ∧
            s'.candidates extensions = found.map (Found.place Candidate.mk s'.filter.root) ∧
            ∀ names extension, .ok (names, extension) ∈ found ↔
              extension ∈ extensions ∧
                (∃ contents, s.tree.get? (top ++ names) = some (.file contents)) ∧
                s.filter.keeps extension names = true ∧
                ∀ front rest, names = front ++ rest → rest ≠ [] →
                  isTooLong (s.filter.root.joinNames front) = false := by
  constructor
  · intro root root' rules excludes q hq
    rw [Filter.ignores_join root rules excludes hq, Filter.ignores_join root' rules excludes hq]
    rfl
  · intro s s' top top' h h' hrules hexcludes hget hlong extensions
    refine ⟨s.relative top extensions, h.candidates_eq extensions, ?_,
      fun names extension => h.mem_relative_iff extensions⟩
    rw [h'.candidates_eq extensions, relative_congr h h' hrules hexcludes hget hlong]

/-- The directory is opened once at its location, and once by a path with dots from beside it, below
a directory whose name is excluded. -/
theorem same_selection_below_excluded_name :
    let entry (names : List String) (e : Entry) : Location × Entry := (names.map String.toList, e)
    let s : Selection :=
      { tree := ⟨[entry ["p"] .directory, entry ["p", "src"] .directory,
          entry ["p", "src", "a.ts"] (.file []), entry ["p", "dist"] .directory,
          entry ["p", "dist", "b.ts"] (.file [])]⟩
        base := []
        filter := ⟨⟨"/p".toList⟩, [], .default⟩
        follow := false }
    let s' : Selection :=
      { tree := ⟨[entry ["build"] .directory, entry ["build", "p"] .directory,
          entry ["build", "p", "src"] .directory, entry ["build", "p", "src", "a.ts"] (.file []),
          entry ["build", "p", "dist"] .directory, entry ["build", "p", "dist", "b.ts"] (.file []),
          entry ["q"] .directory]⟩
        base := ["q".toList]
        filter := ⟨⟨"../build/./p//".toList⟩, [], .default⟩
        follow := true }
    let q : Path := ⟨"src/../a.ts".toList⟩
    q.isAbsolute = false ∧
      s.filter.ignores (s.filter.root.join q) = s'.filter.ignores (s'.filter.root.join q) ∧
      s.Opens ["p".toList] ∧ s'.Opens ["build".toList, "p".toList] ∧
      .ok ⟨⟨"/p/src/a.ts".toList⟩, ".ts".toList⟩ ∈ s.candidates [".ts".toList] ∧
      .ok ⟨⟨"../build/./p//src/a.ts".toList⟩, ".ts".toList⟩ ∈ s'.candidates [".ts".toList] := by
  intro entry s s' q
  have htree : s.tree.WellFormed := ⟨by decide, by decide, by decide⟩
  have htree' : s'.tree.WellFormed := ⟨by decide, by decide, by decide⟩
  have hopens : s.Opens ["p".toList] :=
    ⟨htree, htree.linkFree (by decide) _, by decide, by rfl⟩
  have hopens' : s'.Opens ["build".toList, "p".toList] :=
    ⟨htree', htree'.linkFree (by decide) _, by decide, by rfl⟩
  obtain ⟨hfilter, hselection⟩ := same_selection_behind_each_root
  have hget : ∀ names, s'.tree.get? (["build".toList, "p".toList] ++ names)
      = s.tree.get? (["p".toList] ++ names) := by
    intro names
    simp [s, s', entry, FileTree.get?, List.lookup_cons]
  have hlong : ∀ names, s.tree.isDirectoryAt (["p".toList] ++ names) = true →
      isTooLong (s'.filter.root.joinNames names) = isTooLong (s.filter.root.joinNames names) := by
    intro names hdir
    have hmem := (htree.get?_eq_some_iff (by simp)).mp (FileTree.isDirectoryAt_iff.mp hdir)
    have hnames : names = [] ∨ names = ["src".toList] ∨ names = ["dist".toList] := by
      simpa [s, entry] using hmem
    rcases hnames with rfl | rfl | rfl <;> rfl
  obtain ⟨found, hfound, hfound', hmem⟩ :=
    hselection s s' _ _ hopens hopens' rfl rfl hget hlong [".ts".toList]
  have ha : .ok (["src".toList, "a.ts".toList], ".ts".toList) ∈ found := by
    refine (hmem _ _).mpr ⟨List.mem_singleton.mpr rfl, ⟨[], by rfl⟩, by decide, ?_⟩
    have hshort : ∀ front ∈ ["src".toList, "a.ts".toList].inits,
        isTooLong (s.filter.root.joinNames front) = false := by
      decide
    exact fun front rest hsplit _ => hshort front ((List.mem_inits _ _).mpr ⟨rest, hsplit.symm⟩)
  refine ⟨rfl, hfilter _ _ _ _ q rfl, hopens, hopens', ?_, ?_⟩
  · rw [hfound]
    exact List.mem_map.mpr ⟨_, ha, rfl⟩
  · rw [hfound']
    exact List.mem_map.mpr ⟨_, ha, rfl⟩

end Selection

/-! ## A long root -/

namespace Path

/-- The directory itself, with slashes behind the dot. -/
def slashed (n : Nat) : Path := ⟨'.' :: List.replicate n '/'⟩

theorem slashed_succ (n : Nat) : slashed (n + 1) = ⟨(slashed n).text ++ ['/']⟩ := by
  rw [slashed, slashed, List.replicate_succ', List.cons_append]

theorem steps_slashed (n : Nat) : (slashed n).steps = [['.']] := by
  induction n with
  | zero => rfl
  | succ n ih => rw [slashed_succ, steps_append_slash, ih]

theorem byteLength_slashed (n : Nat) : (slashed n).text.byteLength = n + 1 := by
  induction n with
  | zero => rfl
  | succ n ih =>
      rw [slashed_succ, Text.byteLength_append, ih]
      rfl

end Path

open DocDigest.Path (slashed)

/-- The path leads to the directory as long as it has no more bytes than the longest path. -/
theorem FileTree.leadsTo_slashed (t : FileTree) {n : Nat} (hn : n + 1 < maxPathBytes) :
    t.LeadsTo [] (slashed n) [] := by
  refine ⟨⟨?_, ?_, List.cons_ne_nil _ _⟩, 0, Nat.zero_le _, ?_⟩
  · intro hmem
    rcases List.mem_cons.mp hmem with heq | hmem
    · exact absurd heq (by decide)
    · exact absurd (List.eq_of_mem_replicate hmem) (by decide)
  · rw [isTooLong, Path.byteLength_slashed, decide_eq_false_iff_not]
    omega
  · rw [Path.steps_slashed]
    exact .dots (isDirectoryAt_iff.mpr rfl) rfl (.done [])

namespace Selection

theorem isStandardInput_slashed (n : Nat) : isStandardInput (slashed n) = false := by
  cases n with
  | zero => rfl
  | succ n =>
      have hcomponents := Path.components_append_slash (s := ['.']) (by simp) (List.replicate n '/')
      rw [isStandardInput, slashed, List.replicate_succ, ← List.singleton_append, hcomponents]
      rfl

/-- Behind a root that leaves no room for a name, a directory cannot be listed. The file in it that
is selected behind a short spelling of the same root is not selected there. -/
theorem long_root_hides_file :
    let t : FileTree := ⟨[(["d".toList], .directory), (["d".toList, "a.ts".toList], .file [])]⟩
    let s (root : Path) : Selection := ⟨t, [], ⟨root, [], .default⟩, false⟩
    (s (slashed 0)).Opens [] ∧ (s (slashed 4094)).Opens [] ∧
      (s (slashed 0)).candidates [".ts".toList]
        = [.ok ⟨⟨"./d/a.ts".toList⟩, ".ts".toList⟩] ∧
      (s (slashed 4094)).candidates [".ts".toList]
        = [.error (.unreadable ((slashed 4094).join ⟨"d".toList⟩) .nameTooLong)] ∧
      ¬ ∃ found : List (Found Text),
        (s (slashed 0)).candidates [".ts".toList]
            = found.map (Found.place Candidate.mk (slashed 0)) ∧
          (s (slashed 4094)).candidates [".ts".toList]
            = found.map (Found.place Candidate.mk (slashed 4094)) := by
  intro t s
  have htree : t.WellFormed := ⟨by decide, by decide, by decide⟩
  have hopens (n : Nat) (hn : n + 1 < FileTree.maxPathBytes) : (s (slashed n)).Opens [] :=
    ⟨htree, htree.linkFree (by decide) [], isStandardInput_slashed n,
      (t.leadsTo_slashed hn).status_eq rfl⟩
  -- The number of slashes is kept a variable, so that they are never written out.
  have hlong (n : Nat) (hn : n + 2 = FileTree.maxPathBytes) :
      (s (slashed n)).candidates [".ts".toList]
        = [.error (.unreadable ((slashed n).join ⟨"d".toList⟩) .nameTooLong)] := by
    have hd : isTooLongBelow (slashed n) ["d".toList] = true := by
      have hlonger := Path.byteLength_lt_join (n := "d".toList) (by decide) (slashed n)
      rw [Path.byteLength_slashed] at hlonger
      rw [isTooLongBelow, isTooLong, decide_eq_true_iff]
      exact hn ▸ hlonger
    have hfound : Walk.relative t [] (s (slashed n)).filter.prunes (isTooLongBelow (slashed n))
        Walk.maxDepth [] = [.ok (["d".toList], .directory), .error ["d".toList]] := by
      have hchildren : t.children ([] ++ []) = [("d".toList, .directory)] := by rfl
      have hprune : (s (slashed n)).filter.prunes "d".toList = false := by rfl
      rw [show Walk.maxDepth = 4095 + 1 from rfl, Walk.relative, hchildren, List.flatMap_singleton]
      simp only [List.nil_append, hprune, hd]
      rfl
    rw [(hopens n (by omega)).candidates_eq, relative, List.flatMap_singleton, hfound]
    rfl
  have hshort : (s (slashed 0)).candidates [".ts".toList]
      = [.ok ⟨⟨"./d/a.ts".toList⟩, ".ts".toList⟩] := by rfl
  refine ⟨hopens 0 (by decide), hopens 4094 (by decide), hshort, hlong 4094 rfl, ?_⟩
  rintro ⟨found, hok, herror⟩
  rw [hshort] at hok
  rw [hlong 4094 rfl] at herror
  obtain ⟨a, rfl, ha⟩ := List.map_eq_singleton_iff.mp hok.symm
  obtain ⟨b, hb, hb'⟩ := List.map_eq_singleton_iff.mp herror.symm
  cases List.singleton_inj.mp hb
  cases a with
  | ok sight => cases hb'
  | error names => cases ha

end Selection

end DocDigest
