import DocDigest.FileTree.Edit
import DocDigest.Proofs.FileTree.Ways

/-!
# What the changes of a file tree do

For each operation on a tree, what it takes for the operation to succeed and what the tree is then.
-/

set_option autoImplicit false

namespace DocDigest

/-- Whether a spot is that of a name: the last step is one that is not too long, and no slash stands
after it. -/
structure Spot.Names (s : Spot) (name : Text) : Prop where
  name? : s.name? = some name
  slash : s.slash = false
  short : Text.byteLength name ≤ FileTree.maxNameBytes

theorem Spot.Names.location_eq {s : Spot} {name : Text} (h : s.Names name) :
    s.location = s.folder ++ [name] := Spot.location_of_name? h.name?

theorem Spot.Names.location_ne_nil {s : Spot} {name : Text} (h : s.Names name) :
    s.location ≠ [] := by
  rw [h.location_eq]
  exact List.append_ne_nil_of_right_ne_nil _ (List.cons_ne_nil name [])

namespace FileTree

variable {t t' : FileTree} {base : Location} {p : Path} {spot : Spot} {name : Text}
  {contents : Bytes}

/-! ## Looking at a spot -/

theorem lookUpAt_of_names (h : spot.Names name) : t.lookUpAt spot = .ok (t.get? spot.location) := by
  rw [lookUpAt, h.name?, h.location_eq]
  exact if_neg (Nat.not_lt.mpr h.short)

/-- What can be looked up at a spot with a name stands at its location, and the name is not too
long. -/
theorem names_of_lookUpAt (hname : spot.name? = some name) (hslash : spot.slash = false)
    {found : Option Entry} (h : t.lookUpAt spot = .ok found) :
    spot.Names name ∧ t.get? spot.location = found := by
  have hshort : ¬ maxNameBytes < Text.byteLength name := by
    intro hlong
    rw [lookUpAt, hname] at h
    simp [lookUp, hlong] at h
  have hnames : spot.Names name := ⟨hname, hslash, Nat.le_of_not_lt hshort⟩
  rw [lookUpAt_of_names hnames] at h
  exact ⟨hnames, Except.ok.inj h⟩

/-- What a sequence of two steps gives is given by the second step on what the first one gives. -/
theorem exists_of_bind_eq_ok {ε α β : Type} {x : Except ε α} {f : α → Except ε β} {b : β}
    (h : x >>= f = .ok b) : ∃ a, x = .ok a ∧ f a = .ok b := by
  cases x with
  | error e =>
      cases h
  | ok a =>
      exact ⟨a, rfl, h⟩

/-! ## Reading -/

/-- A file that stands where a path leads is read. -/
theorem read_eq_of_names (hspot : t.locate (fun _ => false) base p = .ok spot)
    (hnames : spot.Names name) (hget : t.get? spot.location = some (.file contents)) :
    t.read base p = .ok contents := by
  have hlocate : t.locate (fun _ => true) base p = .ok spot := by
    rw [locate_eq_of_no_link, hspot]
    intro spot' hspot' target hlink
    rw [hspot] at hspot'
    cases hspot'
    rw [hget] at hlink
    cases hlink
  rw [read, status, hlocate, Except.bind, entryAt, lookUpAt_of_names hnames, hget, hnames.slash]
  rfl

theorem read_eq_error {e : FileError} (h : t.locate (fun _ => false) base p = .error e) :
    t.read base p = .error e := by
  have hlocate : t.locate (fun _ => true) base p = .error e := by
    rw [locate_eq_of_no_link, h]
    intro spot hspot
    rw [h] at hspot
    cases hspot
  rw [read, status, hlocate]
  rfl

/-- For paths, a file in the place of an entry is as good as nothing there. -/
theorem way?_erase_eq {l : Location} (hl : l ≠ []) (hget : t'.get? l = some (.file contents))
    (hways : ∀ m, m ≠ l → t'.way? m = t.way? m) : (t.erase l).way? = t'.way? := by
  funext m
  rw [way?, get?_erase t m hl]
  by_cases hm : m = l
  · rw [if_pos hm, hm, way?, hget]
    rfl
  · rw [if_neg hm, hways m hm, way?]

/-- A file that was put where a path leads is read under this path, unless the path passes through
what was there: this was a link, and the path goes on behind the file now. -/
theorem read_of_file_put (hspot : t.locate (fun _ => false) base p = .ok spot)
    (hnames : spot.Names name) (hget : t'.get? spot.location = some (.file contents))
    (hways : ∀ l, l ≠ spot.location → t'.way? l = t.way? l)
    (hdir : t.isDirectoryAt spot.location = false) :
    (¬ t.PassesThrough base p spot.location → t'.read base p = .ok contents) ∧
      (t.PassesThrough base p spot.location → t'.read base p = .error .notDirectory ∧
        ∃ target, t.get? spot.location = some (.link target)) := by
  have herase := way?_erase_eq hnames.location_ne_nil hget hways
  have hover : t.FilesOver t' := by
    intro l
    by_cases hl : l = spot.location
    · rw [hl]
      exact Or.inr ⟨contents, hget⟩
    · exact Or.inl (hways l hl)
  rcases locate_of_filesOver hover hspot with hleads | ⟨hends, l, hchanged⟩
  · have hpast : (t.erase spot.location).placeOf? base p = some spot.location :=
      placeOf?_eq_some_iff.mpr ⟨spot, locate_of_way?_eq herase hleads, rfl⟩
    exact ⟨fun _ => read_eq_of_names hleads hnames hget, fun hthrough => absurd hpast hthrough⟩
  · have hthrough : t.PassesThrough base p spot.location := by
      intro hpast
      obtain ⟨spot', hspot', -⟩ := placeOf?_eq_some_iff.mp hpast
      rw [locate_of_way?_eq herase.symm hspot'] at hends
      cases hends
    refine ⟨fun hpast => absurd hthrough hpast, fun _ => ⟨read_eq_error hends, ?_⟩⟩
    have hl : l = spot.location := by
      by_contra hl
      exact hchanged (hways l hl)
    -- What was there before was a way, and no directory.
    rw [hl, way?, hget] at hchanged
    rw [isDirectoryAt] at hdir
    rcases hbefore : t.get? spot.location with _ | (_ | old | target)
    · rw [way?, hbefore] at hchanged
      exact absurd rfl hchanged
    · rw [hbefore] at hdir
      cases hdir
    · rw [way?, hbefore] at hchanged
      exact absurd rfl hchanged
    · exact ⟨target, rfl⟩

/-! ## Writing -/

/-- A file that is put where no directory and no link stands makes no difference for paths. -/
theorem way?_put_file {l : Location} (hl : l ≠ []) (hway : t.way? l = none) (contents : Bytes) :
    (t.put l (.file contents)).way? = t.way? := by
  funext m
  rw [way?, get?_put t m _ hl]
  by_cases hm : m = l
  · rw [if_pos hm, hm, hway]
    rfl
  · rw [if_neg hm, way?]

/-- A file that is written is put at the spot that its path leads to, where no directory stands. -/
theorem exists_names_of_write (h : t.write base p contents = .ok t') :
    ∃ spot name, t.locate (!·) base p = .ok spot ∧ spot.Names name ∧
      t.get? spot.location ≠ some .directory ∧ t' = t.put spot.location (.file contents) := by
  obtain ⟨spot, hspot, h⟩ := exists_of_bind_eq_ok h
  split at h
  · cases h
  · next hnot =>
    simp only [Bool.or_eq_true, not_or, Bool.not_eq_true, Option.isNone_eq_false_iff] at hnot
    obtain ⟨name, hname⟩ := Option.isSome_iff_exists.mp hnot.2
    obtain ⟨found, hfound, h⟩ := exists_of_bind_eq_ok h
    obtain ⟨hnames, hget⟩ := names_of_lookUpAt hname hnot.1 hfound
    refine ⟨spot, name, hspot, hnames, ?_⟩
    rw [hget]
    rcases found with _ | (_ | old | target)
    case some.directory => cases h
    all_goals
      cases h
      exact ⟨by simp, rfl⟩

/-- Where neither a directory nor a link stands, nothing is on the way of a path. -/
theorem way?_eq_none {l : Location} (hdir : t.get? l ≠ some .directory)
    (hlink : ∀ target, t.get? l ≠ some (.link target)) : t.way? l = none := by
  rw [way?]
  rcases hget : t.get? l with _ | (_ | contents | target)
  · rfl
  · exact absurd hget hdir
  · rfl
  · exact absurd hget (hlink target)

/-- A file that is written where no link stands is put there. It takes the place of a file or of
nothing. -/
theorem write_spec (hlink : ∀ spot, t.locate (fun _ => false) base p = .ok spot → t.NoLinkAt spot)
    (h : t.write base p contents = .ok t') :
    ∃ spot name, t.locate (fun _ => false) base p = .ok spot ∧ spot.Names name ∧
      t.way? spot.location = none ∧ t' = t.put spot.location (.file contents) := by
  obtain ⟨spot, name, hspot, hnames, hdir, hput⟩ := exists_names_of_write h
  rw [locate_eq_of_no_link hlink] at hspot
  exact ⟨spot, name, hspot, hnames, way?_eq_none hdir (hlink spot hspot), hput⟩

/-- A write that does not break off is one of all the contents. -/
theorem write_of_writeWithin {room : Option Nat}
    (h : t.writeWithin room base p contents = (.ok (), t')) : t.write base p contents = .ok t' := by
  rw [writeWithin] at h
  split at h
  · cases h
  · next written hwrite =>
    split at h
    · cases h
    · next hall =>
      cases h
      cases room with
      | none =>
          exact hwrite
      | some n =>
          rw [Option.elim_some] at hall hwrite
          rw [List.length_take] at hall
          rwa [List.take_of_length_le (by omega)] at hwrite

/-- A write that fails changes nothing, or it breaks off for want of room and leaves a front part of
the contents. -/
theorem writeWithin_error {room : Option Nat} {e : FileError}
    (h : t.writeWithin room base p contents = (.error e, t')) :
    t' = t ∨ ∃ n, room = some n ∧ n < contents.length ∧
      t.write base p (contents.take n) = .ok t' := by
  rw [writeWithin] at h
  split at h
  · cases h
    exact Or.inl rfl
  · next written hwrite =>
    split at h
    · next hless =>
      cases h
      cases room with
      | none =>
          exact absurd hless (Nat.lt_irrefl _)
      | some n =>
          rw [Option.elim_some, List.length_take] at hless
          exact Or.inr ⟨n, rfl, by omega, hwrite⟩
    · cases h

/-! ## Removing -/

theorem remove_eq (hspot : t.locate (fun _ => false) base p = .ok spot) (hnames : spot.Names name)
    (hget : t.get? spot.location = some (.file contents)) :
    t.remove base p = .ok (t.erase spot.location) := by
  rw [remove, hspot, Except.bind, hnames.name?, lookUpAt_of_names hnames, hget, hnames.slash]
  rfl

/-! ## Moving -/

/-- A file or link that is moved leaves its location and is put at the new one, where no directory
stands. -/
theorem moveFile_spec {old new : Path} (h : t.moveFile base old new = .ok t') :
    ∃ source target name e, t.locate (fun _ => false) base old = .ok source ∧
      t.locate (fun _ => false) base new = .ok target ∧ target.Names name ∧
      t.get? source.location = some e ∧ t.isDirectoryAt target.location = false ∧
      t' = (t.erase source.location).put target.location e := by
  rw [moveFile] at h
  obtain ⟨source, hsource, h⟩ := exists_of_bind_eq_ok h
  obtain ⟨target, htarget, h⟩ := exists_of_bind_eq_ok h
  split at h
  · cases h
  · next hnames =>
    simp only [Bool.or_eq_true, not_or, Bool.not_eq_true, Option.isNone_eq_false_iff] at hnames
    obtain ⟨oldName, hold⟩ := Option.isSome_iff_exists.mp hnames.1
    obtain ⟨newName, hnew⟩ := Option.isSome_iff_exists.mp hnames.2
    obtain ⟨found, hfound, h⟩ := exists_of_bind_eq_ok h
    split at h
    · cases h
    · cases h
    · next e _ =>
      obtain ⟨there, hthere, h⟩ := exists_of_bind_eq_ok h
      split at h
      · cases h
      · next hslash =>
        simp only [Bool.or_eq_true, not_or, Bool.not_eq_true] at hslash
        split at h
        · cases h
        · next hdir =>
          obtain ⟨-, hget⟩ := names_of_lookUpAt hold hslash.1 hfound
          obtain ⟨hnew, hget'⟩ := names_of_lookUpAt hnew hslash.2 hthere
          refine ⟨source, target, newName, e, hsource, htarget, hnew, hget, ?_, ?_⟩
          · rw [isDirectoryAt, hget']
            exact Bool.eq_false_iff.mpr hdir
          · cases h
            rfl

end FileTree

end DocDigest
