import DocDigest.FileTree.Lookup
import Mathlib.Data.List.Basic

/-!
# Where a path leads in a changed tree

A path is followed through directories and links; the files of a tree do not matter for where it
leads. So it leads to the same spot in two trees with the same directories and links
(`FileTree.locate_of_way?_eq`), and if files stand in the place of some of these, it leads there or
ends at such a file (`FileTree.locate_of_filesOver`). If no link stands at the end of a path, it
makes no difference whether it would be followed (`FileTree.locate_eq_of_no_link`).
-/

set_option autoImplicit false

namespace DocDigest

namespace Spot

variable {s : Spot} {name : Text}

/-- A spot with a name: it is the last step, it is not dots, and the location ends with it. -/
theorem name?_eq_some_iff : s.name? = some name ↔ s.last = some name ∧ isDots name = false := by
  rw [name?, Option.filter_eq_some_iff, Bool.not_eq_true']

theorem location_mk {folder : Location} {slash : Bool} (h : isDots name = false) :
    location ⟨folder, some name, slash⟩ = folder ++ [name] := by
  simp only [isDots, Bool.or_eq_false_iff, beq_eq_false_iff_ne] at h
  unfold location
  split
  · next heq => cases heq
  · next heq => exact absurd (Option.some.inj heq) h.1
  · next heq => exact absurd (Option.some.inj heq) h.2
  · next heq => rw [Option.some.inj heq]

theorem location_of_name? (h : s.name? = some name) : s.location = s.folder ++ [name] := by
  obtain ⟨folder, last, slash⟩ := s
  obtain ⟨hlast, hdots⟩ := name?_eq_some_iff.mp h
  cases hlast
  exact location_mk hdots

end Spot

namespace FileTree

/-- The location that a path names, if the directories on the way are there. A link at the end of
the path is not followed. -/
def placeOf? (t : FileTree) (base : Location) (p : Path) : Option Location :=
  (t.locate (fun _ => false) base p).toOption.map Spot.location

/-- Whether a path leads to a location only by way of what stands there: without that, it leads
elsewhere or nowhere. -/
def PassesThrough (t : FileTree) (base : Location) (p : Path) (l : Location) : Prop :=
  (t.erase l).placeOf? base p ≠ some l

/-- What stands at a location, unless it is a file. -/
def way? (t : FileTree) (l : Location) : Option Entry := (t.get? l).filter (!·.isFile)

variable {t t' : FileTree} {follow : Bool → Bool} {slash : Bool} {folder : Location} {step : Text}
  {rest : List Text} {spot : Spot}

theorem placeOf?_eq_some_iff {base : Location} {p : Path} {l : Location} :
    t.placeOf? base p = some l ↔
      ∃ spot, t.locate (fun _ => false) base p = .ok spot ∧ spot.location = l := by
  rw [placeOf?]
  cases t.locate (fun _ => false) base p with
  | error e =>
      simp [Except.toOption]
  | ok spot =>
      simp [Except.toOption]

/-- A path that is written wrongly leads nowhere in any tree; any other is followed step by step. -/
theorem locate_cases (base : Location) (p : Path) :
    (∃ e, ∀ (t : FileTree) follow, t.locate follow base p = .error e) ∨
      ∀ (t : FileTree) follow, t.locate follow base p
        = t.route follow maxLinks (if p.isAbsolute then [] else base) p.steps p.endsInSlash := by
  by_cases hnul : p.text.contains '\x00' = true
  · exact Or.inl ⟨.nulInPath, fun t follow => by rw [locate, if_pos hnul]⟩
  by_cases hlong : isTooLong p = true
  · exact Or.inl ⟨.nameTooLong, fun t follow => by rw [locate, if_neg hnul, if_pos hlong]⟩
  by_cases hempty : p.text.isEmpty = true
  · exact Or.inl ⟨.notFound,
      fun t follow => by rw [locate, if_neg hnul, if_neg hlong, if_pos hempty]⟩
  · exact Or.inr fun t follow => by rw [locate, if_neg hnul, if_neg hlong, if_neg hempty]

/-! ## One step -/

section

variable (jump : Location → List Text → Bool → Except FileError Spot)

theorem descend_of_not_directory (h : t.isDirectoryAt folder = false) :
    t.descend follow jump slash folder (step :: rest) = .error .notDirectory := by
  rw [descend, h]
  rfl

theorem descend_last_step (h : t.isDirectoryAt folder = true) :
    t.descend (fun _ => false) jump slash folder [step] = .ok ⟨folder, some step, slash⟩ := by
  rw [descend, h]
  simp

/-- A step that is not the last one is taken in the same way whether or not a link at the last one
is followed. -/
theorem descend_step (h : t.isDirectoryAt folder = true) (hrest : rest ≠ []) :
    t.descend follow jump slash folder (step :: rest) =
      if Spot.isDots step then
        t.descend follow jump slash (Spot.location ⟨folder, some step, slash⟩) rest
      else
        match t.lookUp folder step with
        | .ok (some (.link target)) =>
          jump (if target.isAbsolute then [] else folder) (target.steps ++ rest) slash
        | .ok (some _) => t.descend follow jump slash (folder ++ [step]) rest
        | .ok none => .error .notFound
        | .error e => .error e := by
  have hempty : rest.isEmpty = false := List.isEmpty_eq_false_iff.mpr hrest
  rw [descend, h, hempty]
  simp only [Bool.not_true, Bool.false_and, Bool.or_false, Bool.false_eq_true, if_false]
  rcases t.lookUp folder step with e | (_ | (_ | contents | target)) <;> rfl

end

/-! ## The last step -/

/-- The last step of a path is left as it is, and so is a slash after it. -/
theorem descend_ends {jump : Location → List Text → Bool → Except FileError Spot}
    (hjump : ∀ folder steps, jump folder steps slash = .ok spot →
      spot.last = steps.getLast? ∧ spot.slash = slash)
    {steps : List Text} (h : t.descend (fun _ => false) jump slash folder steps = .ok spot) :
    spot.last = steps.getLast? ∧ spot.slash = slash := by
  induction steps generalizing folder with
  | nil =>
      cases h
      exact ⟨rfl, rfl⟩
  | cons step rest ih =>
      cases hdir : t.isDirectoryAt folder with
      | false =>
          rw [descend_of_not_directory jump hdir] at h
          cases h
      | true =>
          by_cases hrest : rest = []
          · subst hrest
            rw [descend_last_step jump hdir] at h
            cases h
            exact ⟨rfl, rfl⟩
          · have hlast : ∀ front : List Text, (front ++ rest).getLast? = rest.getLast? := by
              intro front
              rw [List.getLast?_append, List.getLast?_eq_some_getLast hrest]
              rfl
            rw [show step :: rest = [step] ++ rest from rfl, hlast]
            rw [descend_step jump hdir hrest] at h
            split at h
            · exact ih h
            · split at h
              · next target _ =>
                have hends := hjump _ _ h
                rwa [hlast] at hends
              · exact ih h
              · cases h
              · cases h

theorem route_ends {links : Nat} {steps : List Text}
    (h : t.route (fun _ => false) links folder steps slash = .ok spot) :
    spot.last = steps.getLast? ∧ spot.slash = slash := by
  induction links generalizing folder steps with
  | zero =>
      apply descend_ends _ h
      intro _ _ hjump
      cases hjump
  | succ links ih =>
      exact descend_ends (fun _ _ hjump => ih hjump) h

theorem locate_ends {base : Location} {p : Path}
    (h : t.locate (fun _ => false) base p = .ok spot) :
    spot.last = p.steps.getLast? ∧ spot.slash = p.endsInSlash := by
  rcases locate_cases base p with ⟨e, hwrong⟩ | hroute
  · rw [hwrong] at h
    cases h
  · rw [hroute] at h
    exact route_ends h

/-! ## No link at the end -/

/-- Whether no link stands at a spot. -/
def NoLinkAt (t : FileTree) (s : Spot) : Prop := ∀ target, t.get? s.location ≠ some (.link target)

theorem descend_eq_of_no_link {jump jump' : Location → List Text → Bool → Except FileError Spot}
    (hjump : ∀ folder steps, (∀ spot, jump' folder steps slash = .ok spot → t.NoLinkAt spot) →
      jump folder steps slash = jump' folder steps slash)
    {steps : List Text}
    (h : ∀ spot, t.descend (fun _ => false) jump' slash folder steps = .ok spot →
      t.NoLinkAt spot) :
    t.descend follow jump slash folder steps
      = t.descend (fun _ => false) jump' slash folder steps := by
  induction steps generalizing folder with
  | nil =>
      rfl
  | cons step rest ih =>
      cases hdir : t.isDirectoryAt folder with
      | false =>
          rw [descend_of_not_directory jump hdir, descend_of_not_directory jump' hdir]
      | true =>
          by_cases hrest : rest = []
          · subst hrest
            rw [descend_last_step jump' hdir] at h ⊢
            have hlink := h _ rfl
            rw [descend, hdir]
            simp only [Bool.not_true, Bool.false_eq_true, if_false, List.isEmpty_nil, Bool.true_and,
              if_true]
            split
            · rfl
            · next hnot =>
              simp only [Bool.or_eq_true, not_or, Bool.not_eq_true] at hnot
              rw [if_neg (by rw [hnot.1]; exact Bool.false_ne_true)]
              split
              · next target hfound =>
                -- A link would be followed, but there is none.
                rw [lookUp] at hfound
                split at hfound
                · cases hfound
                · rw [NoLinkAt, Spot.location_mk hnot.1] at hlink
                  exact absurd (Except.ok.inj hfound) (hlink target)
              · rfl
          · rw [descend_step jump' hdir hrest] at h ⊢
            rw [descend_step jump hdir hrest]
            split at h
            · next hdots =>
              rw [if_pos hdots, if_pos hdots]
              exact ih h
            · next hdots =>
              rw [if_neg hdots, if_neg hdots]
              split at h
              · exact hjump _ _ h
              · exact ih h
              · rfl
              · rfl

theorem route_eq_of_no_link {links : Nat} {steps : List Text}
    (h : ∀ spot, t.route (fun _ => false) links folder steps slash = .ok spot → t.NoLinkAt spot) :
    t.route follow links folder steps slash
      = t.route (fun _ => false) links folder steps slash := by
  induction links generalizing folder steps with
  | zero =>
      exact descend_eq_of_no_link (fun _ _ _ => rfl) h
  | succ links ih =>
      exact descend_eq_of_no_link (fun _ _ hjump => ih hjump) h

/-- If no link stands at the end of a path, it makes no difference whether it would be followed. -/
theorem locate_eq_of_no_link {base : Location} {p : Path}
    (h : ∀ spot, t.locate (fun _ => false) base p = .ok spot → t.NoLinkAt spot) :
    t.locate follow base p = t.locate (fun _ => false) base p := by
  rcases locate_cases base p with ⟨e, hwrong⟩ | hroute
  · rw [hwrong, hwrong]
  · rw [hroute] at h ⊢
    rw [hroute]
    exact route_eq_of_no_link h

/-! ## Changed trees -/

theorem isDirectoryAt_eq_way? (l : Location) :
    t.isDirectoryAt l = (t.way? l).any Entry.isDirectory := by
  rw [isDirectoryAt, way?]
  rcases t.get? l with _ | (_ | contents | target) <;> rfl

/-- Whether two trees have the same directories and links, except that files stand in the place of
some of them in the second tree. -/
def FilesOver (t t' : FileTree) : Prop :=
  ∀ l, t'.way? l = t.way? l ∨ ∃ contents, t'.get? l = some (.file contents)

/-- Where a path leads in a tree that files were put into: to the same spot, or it ends at a file
that stands where a directory or a link was. -/
def SameSpot (t t' : FileTree) (r : Except FileError Spot) (spot : Spot) : Prop :=
  r = .ok spot ∨ r = .error .notDirectory ∧ ∃ l, t'.way? l ≠ t.way? l

theorem get?_of_way? {l : Location} {e : Entry} (h : t.way? l = some e) : t.get? l = some e :=
  (Option.filter_eq_some_iff.mp h).1

/-- A step that leads on leads through a directory or a link. -/
theorem exists_way_of_step {jump : Location → List Text → Bool → Except FileError Spot}
    (hrest : rest ≠ [])
    (h : (match t.lookUp folder step with
      | .ok (some (.link target)) =>
        jump (if target.isAbsolute then [] else folder) (target.steps ++ rest) slash
      | .ok (some _) => t.descend follow jump slash (folder ++ [step]) rest
      | .ok none => .error .notFound
      | .error e => .error e) = .ok spot) :
    Text.byteLength step ≤ maxNameBytes ∧
      (t.way? (folder ++ [step]) = some .directory ∧
          t.descend follow jump slash (folder ++ [step]) rest = .ok spot ∨
        ∃ target, t.way? (folder ++ [step]) = some (.link target) ∧
          jump (if target.isAbsolute then [] else folder) (target.steps ++ rest) slash
            = .ok spot) := by
  by_cases hlong : maxNameBytes < Text.byteLength step
  · rw [lookUp, if_pos hlong] at h
    cases h
  · refine ⟨Nat.le_of_not_lt hlong, ?_⟩
    rw [lookUp, if_neg hlong] at h
    rw [way?]
    rcases hget : t.get? (folder ++ [step]) with _ | (_ | contents | target)
    · rw [hget] at h
      cases h
    · rw [hget] at h
      exact Or.inl ⟨rfl, h⟩
    · -- No step is taken from a file.
      rw [hget] at h
      obtain ⟨next, more, rfl⟩ := List.exists_cons_of_ne_nil hrest
      have hdir : t.isDirectoryAt (folder ++ [step]) = false := by
        rw [isDirectoryAt, hget]
        rfl
      have herror : t.descend follow jump slash (folder ++ [step]) (next :: more)
          = .error .notDirectory := descend_of_not_directory jump hdir
      rw [herror] at h
      cases h
    · rw [hget] at h
      exact Or.inr ⟨target, rfl, h⟩

theorem descend_of_filesOver (hover : t.FilesOver t')
    {jump jump' : Location → List Text → Bool → Except FileError Spot}
    (hjump : ∀ folder steps, jump folder steps slash = .ok spot →
      SameSpot t t' (jump' folder steps slash) spot)
    {steps : List Text} (h : t.descend (fun _ => false) jump slash folder steps = .ok spot) :
    SameSpot t t' (t'.descend (fun _ => false) jump' slash folder steps) spot := by
  induction steps generalizing folder with
  | nil =>
      exact Or.inl h
  | cons step rest ih =>
      cases hdir : t.isDirectoryAt folder with
      | false =>
          rw [descend_of_not_directory jump hdir] at h
          cases h
      | true =>
          cases hdir' : t'.isDirectoryAt folder with
          | false =>
              refine Or.inr ⟨descend_of_not_directory jump' hdir', folder, ?_⟩
              intro hway
              rw [isDirectoryAt_eq_way?] at hdir hdir'
              rw [hway, hdir] at hdir'
              cases hdir'
          | true =>
              by_cases hrest : rest = []
              · subst hrest
                rw [descend_last_step jump hdir] at h
                rw [descend_last_step jump' hdir']
                exact Or.inl h
              · rw [descend_step jump hdir hrest] at h
                rw [descend_step jump' hdir' hrest]
                split at h
                · next hdots =>
                  rw [if_pos hdots]
                  exact ih h
                · next hdots =>
                  rw [if_neg hdots]
                  obtain ⟨hshort, hway⟩ := exists_way_of_step hrest h
                  rw [lookUp, if_neg (Nat.not_lt.mpr hshort)]
                  rcases hover (folder ++ [step]) with hsame | ⟨contents, hget⟩
                  · rcases hway with ⟨hway, hnext⟩ | ⟨target, hway, hnext⟩
                    · rw [get?_of_way? (hsame.trans hway)]
                      exact ih hnext
                    · rw [get?_of_way? (hsame.trans hway)]
                      exact hjump _ _ hnext
                  · -- The path goes on behind a file, which stands in place of the way.
                    obtain ⟨next, more, rfl⟩ := List.exists_cons_of_ne_nil hrest
                    rw [hget]
                    refine Or.inr ⟨descend_of_not_directory jump' ?_, folder ++ [step], ?_⟩
                    · rw [isDirectoryAt, hget]
                      rfl
                    · intro hsame
                      have hnone : t'.way? (folder ++ [step]) = none := by
                        rw [way?, hget]
                        rfl
                      rw [← hsame, hnone] at hway
                      rcases hway with ⟨hway, -⟩ | ⟨target, hway, -⟩ <;> cases hway

theorem route_of_filesOver (hover : t.FilesOver t') {links : Nat} {steps : List Text}
    (h : t.route (fun _ => false) links folder steps slash = .ok spot) :
    SameSpot t t' (t'.route (fun _ => false) links folder steps slash) spot := by
  induction links generalizing folder steps with
  | zero =>
      apply descend_of_filesOver hover _ h
      intro _ _ hjump
      cases hjump
  | succ links ih =>
      exact descend_of_filesOver hover (fun _ _ hjump => ih hjump) h

theorem locate_of_filesOver (hover : t.FilesOver t') {base : Location} {p : Path}
    (h : t.locate (fun _ => false) base p = .ok spot) :
    SameSpot t t' (t'.locate (fun _ => false) base p) spot := by
  rcases locate_cases base p with ⟨e, hwrong⟩ | hroute
  · rw [hwrong] at h
    cases h
  · rw [hroute] at h ⊢
    exact route_of_filesOver hover h

/-- A path leads to the same spot in trees with the same directories and links. -/
theorem locate_of_way?_eq (hways : t'.way? = t.way?) {base : Location} {p : Path}
    (h : t.locate (fun _ => false) base p = .ok spot) :
    t'.locate (fun _ => false) base p = .ok spot := by
  have hover : t.FilesOver t' := fun l => Or.inl (congrFun hways l)
  rcases locate_of_filesOver hover h with hsame | ⟨-, l, hchanged⟩
  · exact hsame
  · exact absurd (congrFun hways l) hchanged

end FileTree

end DocDigest
