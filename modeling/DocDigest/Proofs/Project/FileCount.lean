import DocDigest.Proofs.Document.Grouping
import DocDigest.Proofs.FileTree.RawNames
import DocDigest.Proofs.Project.Collect
import DocDigest.Proofs.Project.Order
import Mathlib.Algebra.BigOperators.Group.List.Lemmas
import Mathlib.Algebra.GroupWithZero.Nat
import Mathlib.Data.List.Count

/-!
# How many files a collection counts

A file is read once for each of the extensions that its name ends with, and counted each time
(`Project.filesWithComments_eq_sum`). So the count is the number of files only if the name of each
ends with one of the extensions and no other (`Project.filesWithComments_counts_reads`).

A file is named in a fragment by what is shown of its path. This tells files apart only if all names
are valid UTF-8, so the results are about trees of that kind.
-/

set_option autoImplicit false

namespace DocDigest

/-- For how many of the extensions a file is read. -/
def Scope.timesRead (options : Scope) (file : Text) : Nat :=
  options.extensions.countP (Selection.hasExtension · ⟨file⟩)

theorem eq_ok_of_toOption {ε α : Type} {r : Except ε α} {a : α} (h : r.toOption = some a) :
    r = .ok a := by
  cases r with
  | error e =>
      cases h
  | ok b =>
      cases h
      rfl

namespace Selection

variable {s : Selection}

/-! ## The files that are read for one extension -/

/-- What the walk visits, without what could not be visited. -/
def found (s : Selection) : List Visit :=
  (s.walkWith s.filter.prunes).filterMap Except.toOption

/-- The files with comments that are read for an extension. -/
def readFor (s : Selection) (extension : Text) : List Path :=
  ((s.found.filter (s.selects extension)).map (·.path)).filter (Project.hasComments s.tree s.base)

/-- Whether a path is one of a file with comments that is read if its name ends with an
extension. -/
def Offers (s : Selection) (p : Path) : Prop :=
  Project.hasComments s.tree s.base p = true ∧
    ∃ v ∈ s.found, v.path = p ∧ s.isSource v = true ∧ s.filter.ignores p = false

theorem mem_readFor_iff {extension : Text} {p : Path} :
    p ∈ s.readFor extension ↔ s.Offers p ∧ hasExtension extension p = true := by
  rw [readFor, List.mem_filter, List.mem_map, Offers]
  constructor
  · rintro ⟨⟨v, hv, rfl⟩, hcomments⟩
    obtain ⟨hfound, hselects⟩ := List.mem_filter.mp hv
    simp only [selects, Bool.and_eq_true, Bool.not_eq_true'] at hselects
    exact ⟨⟨hcomments, v, hfound, rfl, hselects.1.1, hselects.2⟩, hselects.1.2⟩
  · rintro ⟨⟨hcomments, v, hfound, rfl, hsource, hignores⟩, hextension⟩
    refine ⟨⟨v, List.mem_filter.mpr ⟨hfound, ?_⟩, rfl⟩, hcomments⟩
    rw [selects, hsource, hextension, hignores]
    rfl

/-- No file is read twice for one extension. -/
theorem nodup_readFor (htree : s.tree.WellFormed) (extension : Text) :
    (s.readFor extension).Nodup := by
  have hordered : s.found.Pairwise fun v v' => v.path.Before v'.path := by
    rw [found, List.pairwise_filterMap]
    refine (pairwise_walkWith htree s.filter.prunes).imp ?_
    intro a b hab v hv v' hv'
    exact hab v v' (eq_ok_of_toOption hv) (eq_ok_of_toOption hv')
  have hpaths : (s.found.map (·.path)).Pairwise Path.Before := List.pairwise_map.mpr hordered
  have hread : (s.readFor extension).Pairwise Path.Before :=
    hpaths.sublist ((List.filter_sublist).trans ((List.filter_sublist).map _))
  refine hread.imp ?_
  intro p q hpq heq
  subst heq
  exact Path.Before.irrefl p hpq

/-- A file is read as often as its name ends with one of the extensions. -/
theorem count_flatMap_readFor (htree : s.tree.WellFormed) {p : Path} (hp : s.Offers p)
    (extensions : List Text) :
    (extensions.flatMap s.readFor).count p = extensions.countP (hasExtension · p) := by
  induction extensions with
  | nil =>
      rfl
  | cons extension rest ih =>
      rw [List.flatMap_cons, List.count_append, ih, List.countP_cons, Nat.add_comm]
      apply congrArg
      cases hextension : hasExtension extension p with
      | true =>
          have hmem : p ∈ s.readFor extension := mem_readFor_iff.mpr ⟨hp, hextension⟩
          exact List.count_eq_one_of_mem (nodup_readFor htree extension) hmem
      | false =>
          apply List.count_eq_zero_of_not_mem
          intro hmem
          rw [(mem_readFor_iff.mp hmem).2] at hextension
          cases hextension

/-- The candidates with comments are the files that are read for the extensions, one extension after
the other. -/
theorem filter_candidates (extensions : List Text) :
    (((s.candidates extensions).filterMap Except.toOption).map (·.path)).filter
      (Project.hasComments s.tree s.base) = extensions.flatMap s.readFor := by
  have hpick : ∀ extension (walked : List (Except WalkError Visit)),
      ((s.pick extension walked).filterMap Except.toOption).map (·.path)
        = ((walked.filterMap Except.toOption).filter (s.selects extension)).map (·.path) := by
    intro extension walked
    induction walked with
    | nil =>
        rfl
    | cons a rest ih =>
        cases a with
        | error e =>
            exact ih
        | ok v =>
            rw [pick_cons_ok, List.filterMap_append, List.map_append, ih]
            have hcons : (Except.ok v :: rest).filterMap Except.toOption
                = v :: rest.filterMap Except.toOption := rfl
            rw [hcons, pick]
            cases hv : s.selects extension v with
            | true =>
                rw [List.filter_cons_of_pos hv]
                simp [hv, Except.toOption]
            | false =>
                rw [List.filter_cons_of_neg (by rw [hv]; exact Bool.false_ne_true)]
                simp [hv]
  rw [candidates, List.filterMap_flatMap, List.map_flatMap, List.filter_flatMap]
  refine List.flatMap_congr fun extension _ => ?_
  rw [hpick, readFor, found]

end Selection

namespace Project

variable {t : FileTree} {r : RawTree} {base : Location} {root : Path} {options : Scope}
  {c : Collection}

/-! ## The files of a collection -/

/-- The files that were seen, each as often as it was. -/
def Collection.seenFiles (c : Collection) : List Text := c.seen.map fun r => r.1.text

/-- The files of the fragments are the files that were seen. -/
theorem Collection.Consistent.mem_files_iff (h : c.Consistent) {file : Text} :
    file ∈ c.fragments.map (·.file) ↔ file ∈ c.seenFiles := by
  rw [h.files, Collection.seenFiles, List.mem_flatMap, List.mem_map]
  constructor
  · rintro ⟨r, hr, hfile⟩
    exact ⟨r, hr, (List.eq_of_mem_replicate hfile).symm⟩
  · rintro ⟨r, hr, rfl⟩
    exact ⟨r, hr, List.mem_replicate.mpr ⟨h.some r hr, rfl⟩⟩

/-- The fragments of a file that was seen once stand together. -/
theorem Collection.Consistent.exists_append (h : c.Consistent) {file : Text}
    (honce : c.seenFiles.count file = 1) :
    ∃ before own after, c.fragments = before ++ own ++ after ∧ (∀ f ∈ own, f.file = file) ∧
      ∀ f ∈ before ++ after, f.file ≠ file := by
  have hmem : file ∈ c.seenFiles := by
    apply List.count_pos_iff.mp
    omega
  rw [Collection.seenFiles] at honce hmem
  obtain ⟨r, hr, rfl⟩ := List.mem_map.mp hmem
  obtain ⟨front, back, hseen⟩ := List.append_of_mem hr
  have hnone : ∀ q ∈ front ++ back, q.1.text ≠ r.1.text := by
    rw [hseen, List.map_append, List.map_cons, List.count_append, List.count_cons_self] at honce
    intro q hq heq
    have hpos : 0 < ((front ++ back).map fun q => q.1.text).count r.1.text :=
      List.count_pos_iff.mpr (List.mem_map.mpr ⟨q, hq, heq⟩)
    rw [List.map_append, List.count_append] at hpos
    omega
  have hfiles := h.files
  rw [hseen, List.flatMap_append, List.flatMap_cons] at hfiles
  obtain ⟨before, rest, hfragments, hbefore, hrest⟩ := List.map_eq_append_iff.mp hfiles
  obtain ⟨own, after, rfl, hown, hafter⟩ := List.map_eq_append_iff.mp hrest
  refine ⟨before, own, after, by rw [hfragments, List.append_assoc], ?_, ?_⟩
  · intro f hf
    have hmem : f.file ∈ own.map (·.file) := List.mem_map_of_mem hf
    rw [hown] at hmem
    exact List.eq_of_mem_replicate hmem
  · intro f hf
    have hmem : f.file ∈ (before ++ after).map (·.file) := List.mem_map_of_mem hf
    rw [List.map_append, hbefore, hafter, ← List.flatMap_append] at hmem
    obtain ⟨q, hq, hfile⟩ := List.mem_flatMap.mp hmem
    rw [List.eq_of_mem_replicate hfile]
    exact hnone q hq

/-- A file is seen once for each of the extensions that its name ends with. -/
theorem count_seen (htree : t.WellFormed) (h : collect t base root options = .ok c) {file : Text}
    (hfile : file ∈ c.seenFiles) :
    c.seenFiles.count file = options.timesRead file := by
  obtain ⟨rules, hgather⟩ := exists_selection_of_collect h
  generalize hs : Selection.mk t base ⟨root, rules, options.excludes⟩ options.followSymlinks = s
    at hgather
  have hseen : c.seen.map (·.1) = options.extensions.flatMap s.readFor := by
    rw [seen_of_gather hgather, ← Selection.filter_candidates, ← hs]
    rfl
  have htext : Function.Injective Path.text := fun ⟨_⟩ ⟨_⟩ h => congrArg Path.mk h
  have hfiles : c.seenFiles = (c.seen.map (·.1)).map Path.text := (List.map_map).symm
  rw [hfiles] at hfile ⊢
  obtain ⟨p, hp, rfl⟩ := List.mem_map.mp hfile
  rw [List.count_map_of_injective _ _ htext]
  rw [hseen] at hp ⊢
  obtain ⟨extension, -, hread⟩ := List.mem_flatMap.mp hp
  have htree' : s.tree.WellFormed := by
    rw [← hs]
    exact htree
  exact Selection.count_flatMap_readFor htree' (Selection.mem_readFor_iff.mp hread).1
    options.extensions

/-! ## The count -/

/-- Numbers that are not zero add up to how many they are only if all are one. -/
theorem sum_map_eq_length_iff {α : Type} {l : List α} {k : α → Nat} (hk : ∀ a ∈ l, k a ≠ 0) :
    (l.map k).sum = l.length ↔ ∀ a ∈ l, k a = 1 := by
  induction l with
  | nil =>
      simp
  | cons a rest ih =>
      obtain ⟨ha, hrest⟩ := List.forall_mem_cons.mp hk
      have hle : (rest.map k).length ≤ (rest.map k).sum := by
        apply List.length_le_sum_of_one_le
        intro n hn
        obtain ⟨b, hb, rfl⟩ := List.mem_map.mp hn
        exact Nat.one_le_iff_ne_zero.mpr (hrest b hb)
      rw [List.length_map] at hle
      have ih := ih hrest
      rw [List.forall_mem_cons, ← ih, List.map_cons, List.sum_cons, List.length_cons]
      constructor
      · intro hsum
        omega
      · rintro ⟨hone, hsum⟩
        omega

/-- A file that has a fragment counts once for each of the extensions that its name ends with. -/
theorem filesWithComments_eq_sum (htree : t.WellFormed)
    (h : collect t base root options = .ok c) :
    c.filesWithComments = ((c.fragments.map (·.file)).dedup.map options.timesRead).sum := by
  have hconsistent := consistent_of_collect h
  have hperm : c.seenFiles.dedup.Perm (c.fragments.map (·.file)).dedup := by
    apply (List.perm_ext_iff_of_nodup (List.nodup_dedup _) (List.nodup_dedup _)).mpr
    intro file
    rw [List.mem_dedup, List.mem_dedup, hconsistent.mem_files_iff]
  calc c.filesWithComments
      = c.seenFiles.length := by
        rw [hconsistent.count, Collection.seenFiles, List.length_map]
    _ = (c.seenFiles.dedup.map (c.seenFiles.count ·)).sum := by
        have hbeq : (instBEqOfDecidableEq : BEq Text) = List.instBEq := lawful_beq_subsingleton _ _
        have hlength := List.sum_map_count_dedup_eq_length c.seenFiles
        rw [hbeq] at hlength
        exact hlength.symm
    _ = (c.seenFiles.dedup.map options.timesRead).sum := by
        refine congrArg List.sum (List.map_congr_left fun file hfile => ?_)
        exact count_seen htree h (List.mem_dedup.mp hfile)
    _ = ((c.fragments.map (·.file)).dedup.map options.timesRead).sum := (hperm.map _).sum_eq

/-- What the count of files with comments counts in a tree whose names are all valid UTF-8: each
file that has a fragment, once for each of the extensions that its name ends with, while a document
has one section for each file. So the count is the number of files only if none of their names ends
with two of the extensions. The fragments of a file stand together if its name ends with one of the
extensions only. -/
theorem filesWithComments_counts_reads (htree : r.WellFormed) (hnames : r.Unicode)
    (h : collect r.shown base root options = .ok c) :
    let files := (c.fragments.map (·.file)).dedup
    c.filesWithComments = (files.map options.timesRead).sum ∧
      (Section.ofFragments c.fragments).length = files.length ∧
      (c.filesWithComments = files.length ↔ ∀ file ∈ files, options.timesRead file = 1) ∧
      ∀ file ∈ files, options.timesRead file = 1 →
        ∃ before own after, c.fragments = before ++ own ++ after ∧ (∀ f ∈ own, f.file = file) ∧
          ∀ f ∈ before ++ after, f.file ≠ file := by
  intro files
  have hshown := RawTree.wellFormed_shown htree hnames
  have hconsistent := consistent_of_collect h
  have hsum := filesWithComments_eq_sum hshown h
  have hcount : ∀ file ∈ files,
      file ∈ c.seenFiles ∧ c.seenFiles.count file = options.timesRead file := by
    intro file hfile
    have hseen := hconsistent.mem_files_iff.mp (List.mem_dedup.mp hfile)
    exact ⟨hseen, count_seen hshown h hseen⟩
  refine ⟨hsum, Section.length_ofFragments c.fragments, ?_, ?_⟩
  · rw [hsum]
    apply sum_map_eq_length_iff
    intro file hfile
    obtain ⟨hseen, hcount⟩ := hcount file hfile
    rw [← hcount]
    exact Nat.pos_iff_ne_zero.mp (List.count_pos_iff.mpr hseen)
  · intro file hfile honce
    rw [← (hcount file hfile).2] at honce
    exact hconsistent.exists_append honce

/-- Of two files, one is read for two of the extensions, before the other and after it. -/
theorem filesWithComments_counts_reads_of_two :
    let entry (names : List String) (e : RawEntry) : List Bytes × RawEntry :=
      (names.map fun name => Utf8.encode name.toList, e)
    let text (source : String) : RawEntry := .file (Utf8.encode source.toList)
    let r : RawTree :=
      ⟨[entry ["p"] .directory, entry ["p", "b.ts"] (text "/** b */"),
        entry ["p", "é.jsx"] (text "/** a */")]⟩
    let options : Scope := ⟨[".jsx".toList, ".ts".toList, "x".toList], .default, false⟩
    ∃ c, r.WellFormed ∧ r.Unicode ∧ collect r.shown [] ⟨"/p".toList⟩ options = .ok c ∧
      c.fragments.map (·.file) = ["/p/é.jsx".toList, "/p/b.ts".toList, "/p/é.jsx".toList] ∧
      c.filesWithComments
        = ((c.fragments.map (·.file)).dedup.map options.timesRead).sum ∧
      ∃ before own after, c.fragments = before ++ own ++ after ∧
        (∀ f ∈ own, f.file = "/p/b.ts".toList) ∧
        ∀ f ∈ before ++ after, f.file ≠ "/p/b.ts".toList := by
  intro entry text r options
  have htree : r.WellFormed := ⟨by decide, by decide, by decide⟩
  have hnames : r.Unicode := ⟨by simp [r, entry, Utf8.IsText], by simp [r, entry, text]⟩
  have hcollect : (collect r.shown [] ⟨"/p".toList⟩ options).toOption.map
      (fun c => c.fragments.map (·.file))
      = some ["/p/é.jsx".toList, "/p/b.ts".toList, "/p/é.jsx".toList] := by
    decide +kernel
  obtain ⟨c, hoption, hfiles⟩ := Option.map_eq_some_iff.mp hcollect
  have hc := eq_ok_of_toOption hoption
  obtain ⟨hsum, -, -, htogether⟩ := filesWithComments_counts_reads htree hnames hc
  refine ⟨c, htree, hnames, hc, hfiles, hsum, htogether _ ?_ (by decide)⟩
  rw [List.mem_dedup, hfiles]
  exact List.mem_cons_of_mem _ List.mem_cons_self

/-- A file whose name ends with two of the extensions counts twice. -/
theorem filesWithComments_counts_file_twice :
    let t : FileTree :=
      ⟨[(["p".toList], .directory),
        (["p".toList, "a.jsx".toList], .file (Utf8.encode "/** Hi */".toList))]⟩
    let options : Scope := ⟨[".jsx".toList, "x".toList], .default, false⟩
    ∃ c, t.WellFormed ∧ collect t [] ⟨"/p".toList⟩ options = .ok c ∧
      (c.fragments.map (·.file)).dedup = ["/p/a.jsx".toList] ∧ c.filesWithComments = 2 := by
  refine ⟨_, ⟨by decide, by decide, by decide⟩, rfl, ?_, rfl⟩
  rfl

end Project

end DocDigest
