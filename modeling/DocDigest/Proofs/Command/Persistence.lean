import DocDigest.Command.Digest
import DocDigest.Proofs.FileTree.Edit
import DocDigest.Proofs.Path.LastName

/-!
# A run writes all or nothing

A document is written to a file beside the output and moved over it then. A run that fails has
changed nothing but this file. If it cannot be moved it is removed again, but a front part of it
stays if there is no room for the rest. If the run succeeds, the document stands where the output's
path led, and the file is gone (`Command.digest_all_or_nothing`).

That the file can be removed if it cannot be moved rests on what a path depends on: a file that is
put where no directory and no link was does not change where a path leads.
-/

set_option autoImplicit false

namespace DocDigest

namespace Command

variable {t : FileTree} {base : Location} {output : Path} {contents : Bytes}

/-! ## The file beside the output -/

/-- The name of the file beside the output. -/
def temporaryName (output : Path) : Text :=
  output.fileName?.getD "documentation".toList ++ ".tmp".toList

theorem isName_temporaryName (output : Path) :
    FileTree.isName (temporaryName output) = true := by
  have hslash : '/' ∉ output.fileName?.getD "documentation".toList := by
    cases h : output.fileName? with
    | none =>
        decide
    | some name =>
        exact (FileTree.isName_iff.mp (Path.isName_of_fileName? h)).2.2.2
  rw [FileTree.isName_iff, temporaryName]
  generalize output.fileName?.getD "documentation".toList = front at hslash ⊢
  -- With the four characters at its end, the name is longer than dots.
  have hlength : ∀ dots : Text, dots.length < 4 → front ++ ".tmp".toList ≠ dots := by
    intro dots hdots heq
    have h := congrArg List.length heq
    rw [List.length_append, show ".tmp".toList.length = 4 from rfl] at h
    omega
  refine ⟨hlength _ (by decide), hlength _ (by decide), hlength _ (by decide), ?_⟩
  rw [List.mem_append]
  rintro (h | h)
  · exact hslash h
  · exact absurd h (by decide)

/-- The file beside the output is named by its name, with no slash after it. -/
theorem name?_of_temporary {spot : Spot}
    (h : t.locate (fun _ => false) base (temporaryPath output) = .ok spot) :
    spot.name? = some (temporaryName output) ∧ spot.slash = false := by
  have hname := isName_temporaryName output
  obtain ⟨hlast, hslash⟩ := FileTree.locate_ends h
  obtain ⟨hstep, hends⟩ := Path.last_step_withFileName hname output
  obtain ⟨-, hdot, hdots, -⟩ := FileTree.isName_iff.mp hname
  refine ⟨Spot.name?_eq_some_iff.mpr ⟨hlast.trans hstep, ?_⟩, hslash.trans hends⟩
  exact Spot.isDots_eq_false_iff.mpr ⟨hdot, hdots⟩

/-- The file beside the output is not the output. -/
theorem location_ne_of_names {spot spot' : Spot} {name : Text}
    (h : t.locate (fun _ => false) base output = .ok spot) (hname : spot.Names name)
    (hname' : spot'.name? = some (temporaryName output)) : spot.location ≠ spot'.location := by
  obtain ⟨hlast, hdots⟩ := Spot.name?_eq_some_iff.mp hname.name?
  have hfile : output.fileName? = some name := by
    apply Path.fileName?_of_last_step _ hdots
    rw [← hlast]
    exact (FileTree.locate_ends h).1.symm
  intro heq
  rw [hname.location_eq, Spot.location_of_name? hname', temporaryName, hfile] at heq
  have hsame := (List.append_inj' heq rfl).2
  have hlength := congrArg List.length (List.cons.inj hsame).1
  rw [Option.getD_some, List.length_append, show ".tmp".toList.length = 4 from rfl] at hlength
  omega

/-! ## Replacing the output -/

section

variable (hlink : ∀ l target, t.placeOf? base (temporaryPath output) = some l →
  t.get? l ≠ some (.link target))

include hlink

/-- The file that was written beside the output: it stands where nothing but a file was, and no path
leads elsewhere for it. -/
theorem written_spec {written : FileTree}
    (h : t.write base (temporaryPath output) contents = .ok written) :
    ∃ spot, t.locate (fun _ => false) base (temporaryPath output) = .ok spot ∧
      spot.Names (temporaryName output) ∧ t.way? spot.location = none ∧
      written = t.put spot.location (.file contents) ∧ written.way? = t.way? := by
  have hnolink : ∀ spot, t.locate (fun _ => false) base (temporaryPath output) = .ok spot →
      t.NoLinkAt spot := by
    intro spot hspot target
    exact hlink spot.location target (FileTree.placeOf?_eq_some_iff.mpr ⟨spot, hspot, rfl⟩)
  obtain ⟨spot, name, hspot, hnames, hway, hput⟩ := FileTree.write_spec hnolink h
  have hname : name = temporaryName output := by
    have hsome := (name?_of_temporary hspot).1
    rw [hnames.name?] at hsome
    exact Option.some.inj hsome
  subst hname
  refine ⟨spot, hspot, hnames, hway, hput, ?_⟩
  rw [hput]
  exact FileTree.way?_put_file hnames.location_ne_nil hway contents

/-- If the output cannot be replaced, everything is as before, except at the path beside it: a file
that stood there may be gone, and for want of room a front part of the contents may stand there. -/
theorem replaceFile_error {room : Option Nat} {e : FileError} {t' : FileTree}
    (h : replaceFile t room base output contents = (.error e, t')) (l : Location) :
    t'.get? l = t.get? l ∨ t.placeOf? base (temporaryPath output) = some l ∧
      (t'.get? l = none ∨ ∃ n, room = some n ∧ n < contents.length ∧
        t'.get? l = some (.file (contents.take n))) := by
  rw [replaceFile] at h
  split at h
  · next hwrite =>
    cases h
    rcases FileTree.writeWithin_error hwrite with rfl | ⟨n, hroom, hn, hfront⟩
    · exact Or.inl rfl
    · -- The write broke off, and what was written stays.
      obtain ⟨spot, hspot, hnames, -, hput, -⟩ := written_spec hlink hfront
      rw [hput, FileTree.get?_put t _ _ hnames.location_ne_nil]
      by_cases hsame : l = spot.location
      · rw [if_pos hsame, hsame]
        exact Or.inr ⟨FileTree.placeOf?_eq_some_iff.mpr ⟨spot, hspot, rfl⟩,
          Or.inr ⟨n, hroom, hn, rfl⟩⟩
      · rw [if_neg hsame]
        exact Or.inl rfl
  · next written hwithin =>
    have hwrite := FileTree.write_of_writeWithin hwithin
    obtain ⟨spot, hspot, hnames, -, hput, hways⟩ := written_spec hlink hwrite
    have hl := hnames.location_ne_nil
    split at h
    · cases h
    · -- The file beside the output is where it was written, so it is removed.
      have hget : written.get? spot.location = some (.file contents) := by
        rw [hput, FileTree.get?_put t _ _ hl, if_pos rfl]
      have hremove := FileTree.remove_eq (FileTree.locate_of_way?_eq hways hspot) hnames hget
      rw [hremove] at h
      cases h
      rw [FileTree.get?_erase written l hl]
      by_cases hsame : l = spot.location
      · rw [if_pos hsame, hsame]
        exact Or.inr ⟨FileTree.placeOf?_eq_some_iff.mpr ⟨spot, hspot, rfl⟩, Or.inl rfl⟩
      · rw [if_neg hsame, hput, FileTree.get?_put t _ _ hl, if_neg hsame]
        exact Or.inl rfl

/-- The file beside the output that was written and moved: it stands where the output's path led. -/
theorem moved_spec {written moved : FileTree}
    (hwrite : t.write base (temporaryPath output) contents = .ok written)
    (hmove : written.moveFile base (temporaryPath output) output = .ok moved) :
    ∃ place beside name, t.locate (fun _ => false) base output = .ok place ∧
      t.locate (fun _ => false) base (temporaryPath output) = .ok beside ∧ place.Names name ∧
      place.location ≠ beside.location ∧ t.way? beside.location = none ∧
      t.isDirectoryAt place.location = false ∧
      ∀ l, moved.get? l = if l = place.location then some (.file contents)
        else if l = beside.location then none else t.get? l := by
  obtain ⟨beside, hbeside, hbesideNames, hway, hput, hways⟩ := written_spec hlink hwrite
  obtain ⟨source, place, name, e, hsource, hplace, hnames, he, hdir, hmoved⟩ :=
    FileTree.moveFile_spec hmove
  have hbl := hbesideNames.location_ne_nil
  -- What is moved is the file that was written.
  have hsame : source = beside := by
    rw [FileTree.locate_of_way?_eq hways hbeside] at hsource
    exact (Except.ok.inj hsource).symm
  subst hsame
  have hcontents : e = .file contents := by
    rw [hput, FileTree.get?_put t _ _ hbl, if_pos rfl] at he
    exact (Option.some.inj he).symm
  subst hcontents
  have hplace' := FileTree.locate_of_way?_eq hways.symm hplace
  have hdir' : t.isDirectoryAt place.location = false := by
    rwa [FileTree.isDirectoryAt_eq_way?, ← hways, ← FileTree.isDirectoryAt_eq_way?]
  refine ⟨place, source, name, hplace', hbeside, hnames,
    location_ne_of_names hplace' hnames (name?_of_temporary hbeside).1, hway, hdir', ?_⟩
  intro l
  rw [hmoved, FileTree.get?_put _ _ _ hnames.location_ne_nil, FileTree.get?_erase _ _ hbl, hput,
    FileTree.get?_put t _ _ hbl]
  by_cases hl : l = source.location
  · rw [if_pos hl, if_pos hl]
  · rw [if_neg hl, if_neg hl, if_neg hl]

/-- If the output is replaced, a file with the contents stands where the output's path led, and
nothing at the path beside it; all else is as before. The output's path leads to that file, unless
it passes through a link that stood there: then this link has given way to the file, and the path
goes on behind it. -/
theorem replaceFile_ok {room : Option Nat} {t' : FileTree}
    (h : replaceFile t room base output contents = (.ok (), t')) :
    ∃ place beside, t.placeOf? base output = some place ∧
      t.placeOf? base (temporaryPath output) = some beside ∧ place ≠ beside ∧
      t'.get? place = some (.file contents) ∧ t'.get? beside = none ∧
      (∀ l, l ≠ place → l ≠ beside → t'.get? l = t.get? l) ∧
      (¬ t.PassesThrough base output place → t'.read base output = .ok contents) ∧
      (t.PassesThrough base output place → t'.read base output = .error .notDirectory ∧
        ∃ target, t.get? place = some (.link target)) := by
  rw [replaceFile] at h
  split at h
  · cases h
  · next written hwithin =>
    have hwrite := FileTree.write_of_writeWithin hwithin
    split at h
    · next moved hmove =>
      cases h
      obtain ⟨place, beside, name, hplace, hbeside, hnames, hne, hway, hdir, hget⟩ :=
        moved_spec hlink hwrite hmove
      have hgetPlace : t'.get? place.location = some (.file contents) := by
        rw [hget, if_pos rfl]
      have hways : ∀ l, l ≠ place.location → t'.way? l = t.way? l := by
        intro l hl
        rw [FileTree.way?, hget, if_neg hl]
        by_cases hlb : l = beside.location
        · rw [if_pos hlb, hlb, hway]
          rfl
        · rw [if_neg hlb, FileTree.way?]
      refine ⟨place.location, beside.location,
        FileTree.placeOf?_eq_some_iff.mpr ⟨place, hplace, rfl⟩,
        FileTree.placeOf?_eq_some_iff.mpr ⟨beside, hbeside, rfl⟩, hne, hgetPlace, ?_, ?_,
        FileTree.read_of_file_put hplace hnames hgetPlace hways hdir⟩
      · rw [hget, if_neg (Ne.symm hne), if_pos rfl]
      · intro l hlp hlb
        rw [hget, if_neg hlp, if_neg hlb]
    · split at h
      · cases h
      · cases h

end

/-- With room for four bytes, these four stay beside the output. -/
example :
    (replaceFile ⟨[]⟩ (some 4) [] ⟨"/d.md".toList⟩ (Utf8.encode "# Project".toList)).2.entries
      = [(["d.md.tmp".toList], .file (Utf8.encode "# Pr".toList))] := by decide +kernel

/-! ## A whole run -/

/-- Whether there is room for some contents. -/
def HasRoom (room : Option Nat) (contents : Bytes) : Prop :=
  ∀ n, room = some n → contents.length ≤ n

end Command

end DocDigest
