import DocDigest.Proofs.FileTree.Ways

/-!
# How steps are followed

`FileTree.RoutesTo` is the relation between steps and the spot that they are followed to, with one
rule for each kind of step (`FileTree.routesTo_iff`). Where no slash stands after the last step, the
spot is the same in a tree with the same directories and links (`FileTree.RoutesTo.of_ways`).
-/

set_option autoImplicit false

namespace DocDigest

theorem Entry.isLink_of_isFile {e : Entry} (h : e.isFile = true) : e.isLink = false := by
  cases e with
  | directory => rfl
  | file contents => rfl
  | link target => cases h

namespace FileTree

variable {t t' : FileTree} {follow follow' : Bool → Bool} {links : Nat} {slash : Bool}
  {folder l : Location} {step : Text} {rest steps : List Text} {spot : Spot}

theorem isDirectoryAt_iff : t.isDirectoryAt l = true ↔ t.get? l = some .directory := by
  rw [isDirectoryAt]
  rcases t.get? l with _ | (_ | contents | target) <;> simp [Entry.isDirectory]

/-- What was looked up and found is there, under a name that is not too long. -/
theorem get?_of_lookUp {found : Option Entry} (h : t.lookUp folder step = .ok found) :
    Text.byteLength step ≤ maxNameBytes ∧ t.get? (folder ++ [step]) = found := by
  rw [lookUp] at h
  split at h
  · cases h
  · next hshort => exact ⟨Nat.le_of_not_lt hshort, Except.ok.inj h⟩

theorem lookUp_of_get? {found : Option Entry} (hshort : Text.byteLength step ≤ maxNameBytes)
    (hget : t.get? (folder ++ [step]) = found) : t.lookUp folder step = .ok found := by
  rw [lookUp, if_neg (Nat.not_lt.mpr hshort), hget]

theorem lookUpAt_of_dots (hstep : Spot.isDots step = true) :
    t.lookUpAt ⟨folder, some step, slash⟩
      = .ok (t.get? (Spot.location ⟨folder, some step, slash⟩)) := by
  have hname : Spot.name? ⟨folder, some step, slash⟩ = none := by
    simp [Spot.name?, hstep]
  rw [lookUpAt, hname]

theorem lookUpAt_of_step (hstep : Spot.isDots step = false) :
    t.lookUpAt ⟨folder, some step, slash⟩ = t.lookUp folder step := by
  have hname : Spot.name? ⟨folder, some step, slash⟩ = some step :=
    Spot.name?_eq_some_iff.mpr ⟨rfl, hstep⟩
  rw [lookUpAt, hname]

/-! ## One step -/

theorem route_of_not_directory (h : t.isDirectoryAt folder = false) :
    t.route follow links folder (step :: rest) slash = .error .notDirectory := by
  cases links with
  | zero => exact descend_of_not_directory _ h
  | succ links => exact descend_of_not_directory _ h

/-- Goes on from a link, if another one may be followed. -/
def routeOn (t : FileTree) (follow : Bool → Bool) (links : Nat) (folder : Location)
    (steps : List Text) (slash : Bool) : Except FileError Spot :=
  match links with
  | 0 => .error .tooManyLinks
  | links + 1 => t.route follow links folder steps slash

theorem route_step (h : t.isDirectoryAt folder = true) (hrest : rest ≠ []) :
    t.route follow links folder (step :: rest) slash =
      if Spot.isDots step then
        t.route follow links (Spot.location ⟨folder, some step, slash⟩) rest slash
      else
        match t.lookUp folder step with
        | .ok (some (.link target)) => t.routeOn follow links
            (if target.isAbsolute then [] else folder) (target.steps ++ rest) slash
        | .ok (some _) => t.route follow links (folder ++ [step]) rest slash
        | .ok none => .error .notFound
        | .error e => .error e := by
  cases links with
  | zero => exact descend_step _ h hrest
  | succ links => exact descend_step _ h hrest

theorem descend_last (jump : Location → List Text → Bool → Except FileError Spot)
    (h : t.isDirectoryAt folder = true) :
    t.descend follow jump slash folder [step] =
      if Spot.isDots step || !follow slash then .ok ⟨folder, some step, slash⟩
      else
        match t.lookUp folder step with
        | .ok (some (.link target)) =>
          jump (if target.isAbsolute then [] else folder) target.steps (slash || target.endsInSlash)
        | _ => .ok ⟨folder, some step, slash⟩ := by
  rw [descend, h]
  simp only [Bool.not_true, Bool.false_eq_true, if_false, List.isEmpty_nil, Bool.true_and, if_true,
    List.append_nil]
  cases hdots : Spot.isDots step with
  | true => rfl
  | false => rfl

theorem route_last (h : t.isDirectoryAt folder = true) :
    t.route follow links folder [step] slash =
      if Spot.isDots step || !follow slash then .ok ⟨folder, some step, slash⟩
      else
        match t.lookUp folder step with
        | .ok (some (.link target)) => t.routeOn follow links
            (if target.isAbsolute then [] else folder) target.steps (slash || target.endsInSlash)
        | _ => .ok ⟨folder, some step, slash⟩ := by
  cases links with
  | zero => exact descend_last _ h
  | succ links => exact descend_last _ h

theorem route_nil : t.route follow links folder [] slash = .ok ⟨folder, none, slash⟩ := by
  cases links with
  | zero => rfl
  | succ links => rfl

/-! ## All steps -/

/-- How steps are followed to a spot: one constructor for each kind of step. -/
inductive RoutesTo (t : FileTree) (follow : Bool → Bool) :
    Nat → Location → List Text → Bool → Spot → Prop where
  | nil (links : Nat) (folder : Location) (slash : Bool) :
      RoutesTo t follow links folder [] slash ⟨folder, none, slash⟩
  | stop {links : Nat} {folder : Location} {step : Text} {slash : Bool}
      (hdir : t.isDirectoryAt folder = true)
      (hstop : (Spot.isDots step || !follow slash) = true ∨
        ∀ target, t.lookUp folder step ≠ .ok (some (.link target))) :
      RoutesTo t follow links folder [step] slash ⟨folder, some step, slash⟩
  | dots {links : Nat} {folder : Location} {step : Text} {rest : List Text} {slash : Bool}
      {spot : Spot} (hdir : t.isDirectoryAt folder = true) (hrest : rest ≠ [])
      (hstep : Spot.isDots step = true)
      (h : RoutesTo t follow links (Spot.location ⟨folder, some step, slash⟩) rest slash spot) :
      RoutesTo t follow links folder (step :: rest) slash spot
  | name {links : Nat} {folder : Location} {step : Text} {rest : List Text} {slash : Bool}
      {spot : Spot} {e : Entry} (hdir : t.isDirectoryAt folder = true) (hrest : rest ≠ [])
      (hstep : Spot.isDots step = false) (hfound : t.lookUp folder step = .ok (some e))
      (hlink : e.isLink = false)
      (h : RoutesTo t follow links (folder ++ [step]) rest slash spot) :
      RoutesTo t follow links folder (step :: rest) slash spot
  | link {links : Nat} {folder : Location} {step : Text} {rest : List Text} {slash : Bool}
      {spot : Spot} {target : Path} (hdir : t.isDirectoryAt folder = true)
      (hstep : Spot.isDots step = false) (hfollow : rest = [] → follow slash = true)
      (hfound : t.lookUp folder step = .ok (some (.link target)))
      (h : RoutesTo t follow links (if target.isAbsolute then [] else folder)
        (target.steps ++ rest) (slash || (rest.isEmpty && target.endsInSlash)) spot) :
      RoutesTo t follow (links + 1) folder (step :: rest) slash spot

section

-- A link is followed with one link less.
variable (hon : ∀ {folder' : Location} {steps' : List Text} {slash' : Bool},
  t.routeOn follow links folder' steps' slash' = .ok spot →
    ∃ k, links = k + 1 ∧ t.RoutesTo follow k folder' steps' slash' spot)

include hon

theorem RoutesTo.of_route_last (hdir : t.isDirectoryAt folder = true)
    (h : t.route follow links folder [step] slash = .ok spot) :
    t.RoutesTo follow links folder [step] slash spot := by
  rw [route_last hdir] at h
  split at h
  · next hstop =>
    cases h
    exact .stop hdir (.inl hstop)
  · next hstop =>
    simp only [Bool.or_eq_true, not_or, Bool.not_eq_true, Bool.not_eq_false'] at hstop
    split at h
    · next target hfound =>
      obtain ⟨k, rfl, hroute⟩ := hon h
      refine .link hdir hstop.1 (fun _ => hstop.2) hfound ?_
      rwa [List.append_nil]
    · next hfound =>
      cases h
      exact .stop hdir (.inr hfound)

theorem RoutesTo.of_route_step (hdir : t.isDirectoryAt folder = true) (hrest : rest ≠ [])
    (hdeeper : ∀ {folder' : Location}, t.route follow links folder' rest slash = .ok spot →
      t.RoutesTo follow links folder' rest slash spot)
    (h : t.route follow links folder (step :: rest) slash = .ok spot) :
    t.RoutesTo follow links folder (step :: rest) slash spot := by
  have hempty : rest.isEmpty = false := List.isEmpty_eq_false_iff.mpr hrest
  rw [route_step hdir hrest] at h
  split at h
  · next hstep => exact .dots hdir hrest hstep (hdeeper h)
  · next hstep =>
    rw [Bool.not_eq_true] at hstep
    split at h
    · next target hfound =>
      obtain ⟨k, rfl, hroute⟩ := hon h
      refine .link hdir hstep (fun hnil => absurd hnil hrest) hfound ?_
      rwa [hempty, Bool.false_and, Bool.or_false]
    · next e hnot hfound =>
      refine .name hdir hrest hstep hfound ?_ (hdeeper h)
      cases e with
      | directory => rfl
      | file contents => rfl
      | link target => exact absurd rfl (hnot target)
    · cases h
    · cases h

end

theorem RoutesTo.of_route {steps : List Text}
    (h : t.route follow links folder steps slash = .ok spot) :
    t.RoutesTo follow links folder steps slash spot := by
  induction links using Nat.strongRecOn generalizing folder steps slash with
  | ind links ihlinks =>
    have hon : ∀ {folder' : Location} {steps' : List Text} {slash' : Bool},
        t.routeOn follow links folder' steps' slash' = .ok spot →
        ∃ k, links = k + 1 ∧ t.RoutesTo follow k folder' steps' slash' spot := by
      intro folder' steps' slash' hon
      cases links with
      | zero => cases hon
      | succ k => exact ⟨k, rfl, ihlinks k (Nat.lt_succ_self k) hon⟩
    induction steps generalizing folder with
    | nil =>
        rw [route_nil] at h
        cases h
        exact .nil links folder slash
    | cons step rest ih =>
        cases hdir : t.isDirectoryAt folder with
        | false =>
            rw [route_of_not_directory hdir] at h
            cases h
        | true =>
            by_cases hrest : rest = []
            · subst hrest
              exact .of_route_last hon hdir h
            · exact .of_route_step hon hdir hrest ih h

theorem RoutesTo.route_eq {steps : List Text}
    (h : t.RoutesTo follow links folder steps slash spot) :
    t.route follow links folder steps slash = .ok spot := by
  induction h with
  | nil links folder slash => exact route_nil
  | stop hdir hstop =>
      rw [route_last hdir]
      split
      · rfl
      · next hnot =>
        split
        · next target hfound =>
          exact absurd hfound (hstop.resolve_left hnot target)
        · rfl
  | dots hdir hrest hstep _ ih =>
      rw [route_step hdir hrest, if_pos hstep, ih]
  | @name links folder step rest slash spot e hdir hrest hstep hfound hlink _ ih =>
      rw [route_step hdir hrest, hstep, if_neg Bool.false_ne_true, hfound]
      cases e with
      | directory => exact ih
      | file contents => exact ih
      | link target => cases hlink
  | @link links folder step rest slash spot target hdir hstep hfollow hfound _ ih =>
      by_cases hrest : rest = []
      · subst hrest
        rw [List.append_nil] at ih
        rw [route_last hdir, hstep, hfollow rfl, hfound]
        exact ih
      · have hempty : rest.isEmpty = false := List.isEmpty_eq_false_iff.mpr hrest
        rw [hempty, Bool.false_and, Bool.or_false] at ih
        rw [route_step hdir hrest, hstep, if_neg Bool.false_ne_true, hfound]
        exact ih

/-- Steps are followed to a spot if the rules say so. -/
theorem routesTo_iff : t.RoutesTo follow links folder steps slash spot ↔
    t.route follow links folder steps slash = .ok spot :=
  ⟨RoutesTo.route_eq, RoutesTo.of_route⟩

namespace RoutesTo

/-- A slash after the last step stays. -/
theorem slash_eq_false (h : t.RoutesTo follow links folder steps slash spot)
    (hspot : spot.slash = false) : slash = false := by
  induction h with
  | nil => exact hspot
  | stop => exact hspot
  | dots _ _ _ _ ih => exact ih hspot
  | name _ _ _ _ _ _ ih => exact ih hspot
  | link _ _ _ _ _ ih => exact (Bool.or_eq_false_iff.mp (ih hspot)).1

theorem isDirectoryAt_of_cons (h : t.RoutesTo follow links folder steps slash spot)
    (hsteps : steps ≠ []) : t.isDirectoryAt folder = true := by
  cases h with
  | nil => exact absurd rfl hsteps
  | stop hdir => exact hdir
  | dots hdir => exact hdir
  | name hdir => exact hdir
  | link hdir => exact hdir

/-- Where a link at the last step is followed, none stands there in the end. -/
theorem not_link {name : Text} (h : t.RoutesTo follow links folder steps slash spot)
    (hfollow : follow spot.slash = true) (hname : spot.name? = some name) (target : Path) :
    t.lookUp spot.folder name ≠ .ok (some (.link target)) := by
  induction h with
  | nil => cases hname
  | stop _ hstop =>
      obtain ⟨hlast, hdots⟩ := Spot.name?_eq_some_iff.mp hname
      cases hlast
      refine hstop.resolve_left ?_ target
      rw [hdots, hfollow]
      exact Bool.false_ne_true
  | dots _ _ _ _ ih => exact ih hfollow hname
  | name _ _ _ _ _ _ ih => exact ih hfollow hname
  | link _ _ _ _ _ ih => exact ih hfollow hname

/-- Steps that were taken end in a directory. -/
theorem isDirectoryAt_folder (h : t.RoutesTo follow links folder steps slash spot)
    (hstart : steps ≠ [] ∨ t.isDirectoryAt folder = true) :
    t.isDirectoryAt spot.folder = true := by
  induction h with
  | nil => exact hstart.resolve_left fun h => h rfl
  | stop hdir => exact hdir
  | dots _ hrest _ _ ih => exact ih (.inl hrest)
  | name _ hrest _ _ _ _ ih => exact ih (.inl hrest)
  | link hdir _ _ _ _ ih =>
      refine ih (.inr ?_)
      split
      · exact isDirectoryAt_iff.mpr (if_pos rfl)
      · exact hdir

/-- Behind a slash, only whether links are followed behind a slash matters. -/
theorem of_slash (hfollow : follow' true = follow true)
    (h : t.RoutesTo follow links folder steps slash spot) (hslash : slash = true) :
    t.RoutesTo follow' links folder steps slash spot := by
  induction h with
  | nil links folder slash => exact .nil links folder slash
  | stop hdir hstop =>
      subst hslash
      exact .stop hdir (hstop.imp_left fun hstop => by rwa [hfollow])
  | dots hdir hrest hstep _ ih => exact .dots hdir hrest hstep (ih hslash)
  | name hdir hrest hstep hfound hlink _ ih => exact .name hdir hrest hstep hfound hlink (ih hslash)
  | link hdir hstep hlast hfound _ ih =>
      subst hslash
      exact .link hdir hstep (fun hnil => hfollow.trans (hlast hnil)) hfound (ih rfl)

end RoutesTo

/-! ## Trees with the same ways -/

section

variable (hways : t'.way? = t.way?)

include hways

theorem isDirectoryAt_of_ways : t'.isDirectoryAt = t.isDirectoryAt := by
  funext l
  rw [isDirectoryAt_eq_way?, isDirectoryAt_eq_way?, hways]

theorem lookUp_of_ways {e : Entry} (h : t.lookUp folder step = .ok (some e))
    (he : e.isFile = false) : t'.lookUp folder step = .ok (some e) := by
  obtain ⟨hshort, hget⟩ := get?_of_lookUp h
  have hway : t.way? (folder ++ [step]) = some e := by
    rw [way?, hget, Option.filter_some, he]
    rfl
  exact lookUp_of_get? hshort (get?_of_way? ((congrFun hways _).trans hway))

/-- Steps are followed to the same spot in a tree with the same directories and links. -/
theorem RoutesTo.of_ways (hfollow : follow' false = follow false)
    (h : t.RoutesTo follow links folder steps slash spot) (hspot : spot.slash = false) :
    t'.RoutesTo follow' links folder steps slash spot := by
  induction h with
  | nil links folder slash => exact .nil links folder slash
  | stop hdir hstop =>
      obtain rfl := hspot
      rw [← isDirectoryAt_of_ways hways] at hdir
      refine .stop hdir (hstop.imp (fun hstop => ?_) fun hnone target hlink => ?_)
      · rwa [hfollow]
      · exact hnone target (lookUp_of_ways hways.symm hlink rfl)
  | dots hdir hrest hstep _ ih =>
      rw [← isDirectoryAt_of_ways hways] at hdir
      exact .dots hdir hrest hstep (ih hspot)
  | name hdir hrest hstep hfound hlink h ih =>
      rw [← isDirectoryAt_of_ways hways] at hdir
      -- Only a directory leads on.
      have hfolder := isDirectoryAt_iff.mp (h.isDirectoryAt_of_cons hrest)
      rw [(get?_of_lookUp hfound).2] at hfolder
      cases hfolder
      exact .name hdir hrest hstep (lookUp_of_ways hways hfound rfl) hlink (ih hspot)
  | link hdir hstep hlast hfound h ih =>
      have hslash := (Bool.or_eq_false_iff.mp (h.slash_eq_false hspot)).1
      subst hslash
      rw [← isDirectoryAt_of_ways hways] at hdir
      exact .link hdir hstep (fun hnil => hfollow.trans (hlast hnil))
        (lookUp_of_ways hways hfound rfl) (ih hspot)

end

end FileTree

end DocDigest
