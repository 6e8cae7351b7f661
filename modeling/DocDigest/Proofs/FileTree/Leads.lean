import DocDigest.Proofs.FileTree.Edit
import DocDigest.Proofs.FileTree.Routes

/-!
# The way that steps take

`FileTree.Leads` is the relation between a directory, steps and the location that they lead to when
every link on the way is followed, with the number of these links. It is what following a path comes
to: `FileTree.isDirectory_iff`. Ways can be put together and taken apart at every step, with or
without the dots that lead nowhere.
-/

set_option autoImplicit false

namespace DocDigest

namespace FileTree

/-- Steps lead from a directory to a location, through a number of links. -/
inductive Leads (t : FileTree) : Nat → Location → List Text → Location → Prop where
  | done (l : Location) : Leads t 0 l [] l
  | dots {n : Nat} {folder l : Location} {step : Text} {rest : List Text}
      (hdir : t.isDirectoryAt folder = true) (hstep : Spot.isDots step = true)
      (h : Leads t n (Spot.location ⟨folder, some step, false⟩) rest l) :
      Leads t n folder (step :: rest) l
  | name {n : Nat} {folder l : Location} {step : Text} {rest : List Text} {e : Entry}
      (hdir : t.isDirectoryAt folder = true) (hstep : Spot.isDots step = false)
      (hshort : Text.byteLength step ≤ maxNameBytes) (hget : t.get? (folder ++ [step]) = some e)
      (hlink : e.isLink = false) (h : Leads t n (folder ++ [step]) rest l) :
      Leads t n folder (step :: rest) l
  | link {n : Nat} {folder l : Location} {step : Text} {rest : List Text} {target : Path}
      (hdir : t.isDirectoryAt folder = true) (hstep : Spot.isDots step = false)
      (hshort : Text.byteLength step ≤ maxNameBytes)
      (hget : t.get? (folder ++ [step]) = some (.link target))
      (h : Leads t n (if target.isAbsolute then [] else folder) (target.steps ++ rest) l) :
      Leads t (n + 1) folder (step :: rest) l

/-- Whether everything that stands in a tree stands in another one, too. -/
def Extends (t t' : FileTree) : Prop := ∀ l e, t.get? l = some e → t'.get? l = some e

variable {t t' t'' : FileTree} {follow : Bool → Bool} {links n : Nat} {slash : Bool}
  {folder l m : Location} {step : Text} {rest xs ys : List Text} {spot : Spot}

theorem Extends.refl (t : FileTree) : t.Extends t := fun _ _ h => h

theorem Extends.trans (h : t.Extends t') (h' : t'.Extends t'') : t.Extends t'' := fun l e hget =>
  h' l e (h l e hget)

theorem Extends.isDirectoryAt (h : t.Extends t') (hdir : t.isDirectoryAt l = true) :
    t'.isDirectoryAt l = true :=
  isDirectoryAt_iff.mpr (h l _ (isDirectoryAt_iff.mp hdir))

/-! ## Ways -/

namespace Leads

theorem append {b : Nat} (h : t.Leads n folder xs m) (h' : t.Leads b m ys l) :
    t.Leads (n + b) folder (xs ++ ys) l := by
  induction h with
  | done =>
      rw [Nat.zero_add]
      exact h'
  | dots hdir hstep _ ih => exact .dots hdir hstep (ih h')
  | name hdir hstep hshort hget hlink _ ih => exact .name hdir hstep hshort hget hlink (ih h')
  | link hdir hstep hshort hget _ ih =>
      rw [Nat.add_right_comm]
      have hrest := ih h'
      rw [List.append_assoc] at hrest
      exact .link hdir hstep hshort hget hrest

theorem split (h : t.Leads n folder (xs ++ ys) l) :
    ∃ a b m, n = a + b ∧ t.Leads a folder xs m ∧ t.Leads b m ys l := by
  generalize hsteps : xs ++ ys = steps at h
  induction h generalizing xs with
  | done l =>
      obtain ⟨rfl, rfl⟩ := List.append_eq_nil_iff.mp hsteps
      exact ⟨0, 0, l, rfl, .done l, .done l⟩
  | dots hdir hstep h ih =>
      rcases List.append_eq_cons_iff.mp hsteps with ⟨rfl, rfl⟩ | ⟨xs, rfl, rfl⟩
      · exact ⟨0, _, _, (Nat.zero_add _).symm, .done _, .dots hdir hstep h⟩
      · obtain ⟨a, b, m, hn, hxs, hys⟩ := ih rfl
        exact ⟨a, b, m, hn, .dots hdir hstep hxs, hys⟩
  | name hdir hstep hshort hget hlink h ih =>
      rcases List.append_eq_cons_iff.mp hsteps with ⟨rfl, rfl⟩ | ⟨xs, rfl, rfl⟩
      · exact ⟨0, _, _, (Nat.zero_add _).symm, .done _, .name hdir hstep hshort hget hlink h⟩
      · obtain ⟨a, b, m, hn, hxs, hys⟩ := ih rfl
        exact ⟨a, b, m, hn, .name hdir hstep hshort hget hlink hxs, hys⟩
  | link hdir hstep hshort hget h ih =>
      rcases List.append_eq_cons_iff.mp hsteps with ⟨rfl, rfl⟩ | ⟨xs, rfl, rfl⟩
      · exact ⟨0, _, _, (Nat.zero_add _).symm, .done _, .link hdir hstep hshort hget h⟩
      · obtain ⟨a, b, m, hn, hxs, hys⟩ := ih (List.append_assoc _ _ _)
        exact ⟨a + 1, b, m, by omega, .link hdir hstep hshort hget hxs, hys⟩

/-- Steps lead to one location only. -/
theorem unique {b : Nat} {l' : Location} (h : t.Leads n folder xs l)
    (h' : t.Leads b folder xs l') : n = b ∧ l = l' := by
  induction h generalizing b with
  | done =>
      cases h'
      exact ⟨rfl, rfl⟩
  | dots _ hstep _ ih =>
      cases h' with
      | dots _ _ h' => exact ih h'
      | name _ hstep' => simp [hstep] at hstep'
      | link _ hstep' => simp [hstep] at hstep'
  | name _ hstep _ hget hlink _ ih =>
      cases h' with
      | dots _ hstep' => simp [hstep] at hstep'
      | name _ _ _ _ _ h' => exact ih h'
      | link _ _ _ hget' =>
          rw [hget] at hget'
          cases hget'
          cases hlink
  | link _ hstep _ hget _ ih =>
      cases h' with
      | dots _ hstep' => simp [hstep] at hstep'
      | name _ _ _ hget' hlink' =>
          rw [hget] at hget'
          cases hget'
          cases hlink'
      | link _ _ _ hget' h' =>
          rw [hget] at hget'
          cases hget'
          obtain ⟨rfl, rfl⟩ := ih h'
          exact ⟨rfl, rfl⟩

theorem isDirectoryAt_of_cons (h : t.Leads n folder (step :: rest) l) :
    t.isDirectoryAt folder = true := by
  cases h with
  | dots hdir => exact hdir
  | name hdir => exact hdir
  | link hdir => exact hdir

/-- A way to a directory begins in a directory. -/
theorem isDirectoryAt_start (h : t.Leads n folder xs l) (hl : t.isDirectoryAt l = true) :
    t.isDirectoryAt folder = true := by
  cases xs with
  | nil =>
      cases h
      exact hl
  | cons step rest => exact h.isDirectoryAt_of_cons

/-- Something stands under a name that leads somewhere. -/
theorem exists_lookUp (h : t.Leads n folder [step] l) (hstep : Spot.isDots step = false) :
    ∃ e, t.lookUp folder step = .ok (some e) := by
  cases h with
  | dots _ hdots => simp [hstep] at hdots
  | name _ _ hshort hget => exact ⟨_, lookUp_of_get? hshort hget⟩
  | link _ _ hshort hget => exact ⟨_, lookUp_of_get? hshort hget⟩

/-! ## Dots that lead nowhere -/

theorem cons_here_iff : t.Leads n folder (['.'] :: rest) l ↔
    t.isDirectoryAt folder = true ∧ t.Leads n folder rest l := by
  constructor
  · intro h
    cases h with
    | dots hdir _ h => exact ⟨hdir, h⟩
    | name _ hstep => cases hstep
    | link _ hstep => cases hstep
  · rintro ⟨hdir, h⟩
    exact .dots hdir rfl h

/-- The way is the same without the dots that lead nowhere. -/
theorem drop_here (h : t.Leads n folder xs l) : t.Leads n folder (xs.filter (· != ['.'])) l := by
  induction xs generalizing n folder with
  | nil => exact h
  | cons step rest ih =>
      by_cases hhere : step = ['.']
      · subst hhere
        exact ih (cons_here_iff.mp h).2
      · have h : t.Leads n folder ([step] ++ rest) l := h
        obtain ⟨a, b, m, rfl, hstep, hrest⟩ := h.split
        rw [List.filter_cons_of_pos (by simpa using hhere)]
        exact hstep.append (ih hrest)

/-- On the way to a directory, dots that lead nowhere may be put in. -/
theorem put_here (hl : t.isDirectoryAt l = true)
    (h : t.Leads n folder (xs.filter (· != ['.'])) l) : t.Leads n folder xs l := by
  induction xs generalizing n folder with
  | nil => exact h
  | cons step rest ih =>
      by_cases hhere : step = ['.']
      · subst hhere
        have hrest := ih h
        exact cons_here_iff.mpr ⟨hrest.isDirectoryAt_start hl, hrest⟩
      · rw [List.filter_cons_of_pos (by simpa using hhere)] at h
        have h : t.Leads n folder ([step] ++ rest.filter (· != ['.'])) l := h
        obtain ⟨a, b, m, rfl, hstep, hrest⟩ := h.split
        exact hstep.append (ih hrest)

end Leads

/-! ## Following steps -/

/-- Behind a way, the steps are followed from where it leads, with the links that are left. -/
theorem route_append (h : t.Leads n folder xs m) (hn : n ≤ links) (hys : ys ≠ []) :
    t.route follow links folder (xs ++ ys) slash
      = t.route follow (links - n) m ys slash := by
  induction h generalizing links with
  | done => rfl
  | @dots n folder l step rest hdir hstep _ ih =>
      rw [List.cons_append, route_step hdir (by simp [hys]), if_pos hstep]
      exact ih hn
  | @name n folder l step rest e hdir hstep hshort hget hlink _ ih =>
      rw [List.cons_append, route_step hdir (by simp [hys]), hstep, if_neg Bool.false_ne_true,
        lookUp_of_get? hshort hget]
      cases e with
      | directory => exact ih hn
      | file contents => exact ih hn
      | link target => cases hlink
  | @link n folder l step rest target hdir hstep hshort hget _ ih =>
      rw [List.cons_append, route_step hdir (by simp [hys]), hstep, if_neg Bool.false_ne_true,
        lookUp_of_get? hshort hget]
      obtain ⟨links, rfl⟩ : ∃ k, links = k + 1 := ⟨links - 1, by omega⟩
      have hrest := ih (show n ≤ links by omega)
      rw [List.append_assoc] at hrest
      rw [Nat.add_sub_add_right]
      exact hrest

/-- Steps that were followed to a spot go on from there, in every tree with what was there then. -/
theorem RoutesTo.leads {steps : List Text} (h : t.RoutesTo follow links folder steps slash spot) :
    (spot.last = none ∨ t.isDirectoryAt spot.folder = true) ∧
      ∃ n ≤ links, ∀ t' k l, t.Extends t' → t'.Leads k spot.folder spot.last.toList l →
        t'.Leads (n + k) folder steps l := by
  induction h with
  | nil links folder slash =>
      exact ⟨.inl rfl, 0, Nat.zero_le _, fun t' k l _ hk => by rwa [Nat.zero_add]⟩
  | stop hdir _ =>
      exact ⟨.inr hdir, 0, Nat.zero_le _, fun t' k l _ hk => by rwa [Nat.zero_add]⟩
  | dots hdir _ hstep _ ih =>
      obtain ⟨hspot, n, hn, hleads⟩ := ih
      exact ⟨hspot, n, hn, fun t' k l hext hk =>
        .dots (hext.isDirectoryAt hdir) hstep (hleads t' k l hext hk)⟩
  | name hdir _ hstep hfound hlink _ ih =>
      obtain ⟨hspot, n, hn, hleads⟩ := ih
      obtain ⟨hshort, hget⟩ := get?_of_lookUp hfound
      exact ⟨hspot, n, hn, fun t' k l hext hk =>
        .name (hext.isDirectoryAt hdir) hstep hshort (hext _ _ hget) hlink
          (hleads t' k l hext hk)⟩
  | link hdir hstep _ hfound _ ih =>
      obtain ⟨hspot, n, hn, hleads⟩ := ih
      obtain ⟨hshort, hget⟩ := get?_of_lookUp hfound
      refine ⟨hspot, n + 1, Nat.succ_le_succ hn, fun t' k l hext hk => ?_⟩
      rw [Nat.add_right_comm]
      exact .link (hext.isDirectoryAt hdir) hstep hshort (hext _ _ hget) (hleads t' k l hext hk)

/-- Steps that lead somewhere are followed to a spot there. -/
theorem Leads.routesTo {e : Entry} (h : t.Leads n folder xs l) (hn : n ≤ links)
    (hget : t.get? l = some e) (hlink : e.isLink = false) (slash : Bool) :
    ∃ spot, t.RoutesTo (fun _ => true) links folder xs slash spot ∧ spot.location = l ∧
      t.lookUpAt spot = .ok (some e) := by
  induction h generalizing links slash with
  | done l => exact ⟨⟨l, none, slash⟩, .nil links l slash, rfl, congrArg Except.ok hget⟩
  | @dots n folder l step rest hdir hstep h ih =>
      by_cases hrest : rest = []
      · subst hrest
        cases h
        refine ⟨⟨folder, some step, slash⟩, .stop hdir (.inl (by simp [hstep])), rfl, ?_⟩
        rw [lookUpAt_of_dots hstep]
        exact congrArg Except.ok hget
      · obtain ⟨spot, hroutes, hspot⟩ := ih hn hget slash
        exact ⟨spot, .dots hdir hrest hstep hroutes, hspot⟩
  | @name n folder l step rest e' hdir hstep hshort hget' hlink' h ih =>
      have hfound := lookUp_of_get? hshort hget'
      by_cases hrest : rest = []
      · subst hrest
        cases h
        rw [hget] at hget'
        cases hget'
        refine ⟨⟨folder, some step, slash⟩, .stop hdir (.inr fun target htarget => ?_),
          Spot.location_mk hstep, ?_⟩
        · rw [hfound] at htarget
          cases htarget
          cases hlink
        · rw [lookUpAt_of_step hstep, hfound]
      · obtain ⟨spot, hroutes, hspot⟩ := ih hn hget slash
        exact ⟨spot, .name hdir hrest hstep hfound hlink' hroutes, hspot⟩
  | @link n folder l step rest target hdir hstep hshort hget' h ih =>
      have hfound := lookUp_of_get? hshort hget'
      obtain ⟨links, rfl⟩ : ∃ k, links = k + 1 := ⟨links - 1, by omega⟩
      obtain ⟨spot, hroutes, hspot⟩ := ih (Nat.le_of_succ_le_succ hn) hget
        (slash || (rest.isEmpty && target.endsInSlash))
      exact ⟨spot, .link hdir hstep (fun _ => rfl) hfound hroutes, hspot⟩

/-- What can be looked up at a spot is where the last step leads, unless it is a link. -/
theorem leads_of_lookUpAt {e : Entry} (hdir : spot.last = none ∨ t.isDirectoryAt spot.folder = true)
    (h : t.lookUpAt spot = .ok (some e)) (hlink : e.isLink = false) :
    t.Leads 0 spot.folder spot.last.toList spot.location ∧ t.get? spot.location = some e := by
  obtain ⟨folder, last, slash⟩ := spot
  cases last with
  | none => exact ⟨.done folder, Except.ok.inj h⟩
  | some step =>
      have hdir : t.isDirectoryAt folder = true := hdir.resolve_left (Option.some_ne_none step)
      cases hstep : Spot.isDots step with
      | true =>
          rw [lookUpAt_of_dots hstep] at h
          exact ⟨.dots hdir hstep (.done _), Except.ok.inj h⟩
      | false =>
          rw [lookUpAt_of_step hstep] at h
          obtain ⟨hshort, hget⟩ := get?_of_lookUp h
          rw [Spot.location_mk hstep]
          exact ⟨.name hdir hstep hshort hget hlink (.done _), hget⟩

/-! ## Paths -/

/-- Whether the system follows a path at all. -/
structure Followable (p : Path) : Prop where
  clean : '\x00' ∉ p.text
  short : isTooLong p = false
  nonempty : p.text ≠ []

variable {base : Location} {p : Path}

/-- Where a path is followed from. -/
def startOf (base : Location) (p : Path) : Location := if p.isAbsolute then [] else base

theorem locate_eq_ok_iff : t.locate follow base p = .ok spot ↔
    Followable p ∧
      t.RoutesTo follow maxLinks (startOf base p) p.steps p.endsInSlash spot := by
  rw [routesTo_iff, locate]
  constructor
  · intro h
    split at h
    · cases h
    · next hnul =>
      split at h
      · cases h
      · next hlong =>
        split at h
        · cases h
        · next hempty =>
          refine ⟨⟨?_, Bool.eq_false_iff.mpr hlong, ?_⟩, h⟩
          · exact fun h => hnul (List.contains_iff_mem.mpr h)
          · exact fun h => hempty (List.isEmpty_iff.mpr h)
  · rintro ⟨hp, h⟩
    have hnul : ¬ p.text.contains '\x00' = true := fun h => hp.clean (List.contains_iff_mem.mp h)
    have hempty : ¬ p.text.isEmpty = true := fun h => hp.nonempty (List.isEmpty_iff.mp h)
    rw [if_neg hnul, hp.short, if_neg Bool.false_ne_true, if_neg hempty]
    exact h

/-- A path leads to a location if it is followed and its steps lead there. -/
def LeadsTo (t : FileTree) (base : Location) (p : Path) (l : Location) : Prop :=
  Followable p ∧ ∃ n ≤ maxLinks, t.Leads n (startOf base p) p.steps l

/-- What stands where a path leads is what its status tells. -/
theorem LeadsTo.exists_spot {e : Entry} (h : t.LeadsTo base p l) (hget : t.get? l = some e)
    (hlink : e.isLink = false) :
    ∃ spot, t.locate (fun _ => true) base p = .ok spot ∧ spot.location = l ∧
      t.lookUpAt spot = .ok (some e) := by
  obtain ⟨hp, n, hn, hleads⟩ := h
  obtain ⟨spot, hroutes, hspot⟩ := hleads.routesTo hn hget hlink p.endsInSlash
  exact ⟨spot, locate_eq_ok_iff.mpr ⟨hp, hroutes⟩, hspot⟩

theorem entryAt_eq_ok_iff {e : Entry} : t.entryAt spot = .ok (l, e) ↔
    t.lookUpAt spot = .ok (some e) ∧ spot.location = l ∧
      (spot.slash = true → e.isDirectory = true) := by
  constructor
  · intro h
    obtain ⟨found, hfound, h⟩ := exists_of_bind_eq_ok h
    cases found with
    | none => cases h
    | some e' =>
        dsimp only at h
        split at h
        · cases h
        · next hslash =>
          cases h
          exact ⟨hfound, rfl, by simpa using hslash⟩
  · rintro ⟨hfound, rfl, hslash⟩
    rw [entryAt, hfound]
    cases h : spot.slash <;> simp_all [Except.bind]

theorem leadsTo_of_status {e : Entry} (h : t.status base p = .ok (l, e))
    (hlink : e.isLink = false) : t.LeadsTo base p l ∧ t.get? l = some e := by
  obtain ⟨spot, hspot, hentry⟩ := exists_of_bind_eq_ok h
  obtain ⟨hfound, rfl, -⟩ := entryAt_eq_ok_iff.mp hentry
  obtain ⟨hp, hroutes⟩ := locate_eq_ok_iff.mp hspot
  obtain ⟨hdir, n, hn, hon⟩ := hroutes.leads
  obtain ⟨hleads, hget⟩ := leads_of_lookUpAt hdir hfound hlink
  exact ⟨⟨hp, n, hn, hon t 0 _ (.refl t) hleads⟩, hget⟩

theorem exists_leadsTo_of_isFile (h : t.isFile base p = true) : ∃ l, t.LeadsTo base p l := by
  rw [isFile] at h
  split at h
  · next l e hstatus =>
    exact ⟨l, (leadsTo_of_status hstatus (Entry.isLink_of_isFile h)).1⟩
  · cases h

theorem LeadsTo.status_eq (h : t.LeadsTo base p l) (hdir : t.isDirectoryAt l = true) :
    t.status base p = .ok (l, .directory) := by
  obtain ⟨spot, hspot, hl, hfound⟩ := h.exists_spot (isDirectoryAt_iff.mp hdir) rfl
  rw [status, hspot]
  exact entryAt_eq_ok_iff.mpr ⟨hfound, hl, fun _ => rfl⟩

/-- A path is that of a directory if it leads to one. -/
theorem isDirectory_iff :
    t.isDirectory base p = true ↔ ∃ l, t.LeadsTo base p l ∧ t.isDirectoryAt l = true := by
  rw [isDirectory]
  constructor
  · intro h
    split at h
    · next l e hstatus =>
      have he : e = .directory := by
        cases e with
        | directory => rfl
        | file contents => cases h
        | link target => cases h
      subst he
      obtain ⟨hleads, hget⟩ := leadsTo_of_status hstatus rfl
      exact ⟨l, hleads, isDirectoryAt_iff.mpr hget⟩
    · cases h
  · rintro ⟨l, hleads, hdir⟩
    rw [hleads.status_eq hdir]
    rfl

/-- At the last step to a directory stands this directory, or a link that leads there. -/
theorem Leads.exists_lookUpAt (h : t.Leads n folder [step] l) (hl : t.isDirectoryAt l = true)
    (slash : Bool) :
    ∃ e, t.lookUpAt ⟨folder, some step, slash⟩ = .ok (some e) ∧ e.isFile = false := by
  have hl := isDirectoryAt_iff.mp hl
  cases h with
  | dots _ hstep h =>
      cases h
      refine ⟨.directory, ?_, rfl⟩
      rw [lookUpAt_of_dots hstep]
      exact congrArg Except.ok hl
  | name _ hstep hshort hget _ h =>
      cases h
      refine ⟨.directory, ?_, rfl⟩
      rw [lookUpAt_of_step hstep, lookUp_of_get? hshort hl]
  | @link n _ _ _ _ target _ hstep hshort hget _ =>
      refine ⟨.link target, ?_, rfl⟩
      rw [lookUpAt_of_step hstep, lookUp_of_get? hshort hget]

/-- Where a link at the end is not followed, the path of a directory ends at this directory, or at a
link that leads there. -/
theorem exists_spot_of_isDirectory (follow : Bool → Bool) (h : t.isDirectory base p = true)
    (hfollow : follow p.endsInSlash = false) :
    ∃ spot e, t.locate follow base p = .ok spot ∧ spot.slash = p.endsInSlash ∧
      t.lookUpAt spot = .ok (some e) ∧ e.isFile = false := by
  obtain ⟨l, ⟨hp, k, hk, hleads⟩, hdir⟩ := isDirectory_iff.mp h
  rcases List.eq_nil_or_concat p.steps with hnil | ⟨front, step, hsteps⟩
  · rw [hnil] at hleads
    cases hleads
    refine ⟨⟨startOf base p, none, p.endsInSlash⟩, .directory,
      locate_eq_ok_iff.mpr ⟨hp, ?_⟩, rfl, congrArg Except.ok (isDirectoryAt_iff.mp hdir), rfl⟩
    rw [hnil]
    exact .nil _ _ _
  · rw [List.concat_eq_append] at hsteps
    rw [hsteps] at hleads
    obtain ⟨a, b, m, rfl, hfront, hlast⟩ := hleads.split
    obtain ⟨e, hfound, he⟩ := hlast.exists_lookUpAt hdir p.endsInSlash
    refine ⟨⟨m, some step, p.endsInSlash⟩, e,
      locate_eq_ok_iff.mpr ⟨hp, routesTo_iff.mpr ?_⟩, rfl, hfound, he⟩
    rw [hsteps, route_append hfront (by omega) (by simp), route_last hlast.isDirectoryAt_of_cons,
      hfollow]
    simp

/-- The path of a directory is that of this directory, or of a link that leads there. -/
theorem exists_linkStatus_of_isDirectory (h : t.isDirectory base p = true) :
    ∃ l e, t.linkStatus base p = .ok (l, e) ∧ e.isFile = false := by
  cases hslash : p.endsInSlash with
  | true =>
      -- A link at the end is followed.
      obtain ⟨l, hleadsTo, hdir⟩ := isDirectory_iff.mp h
      obtain ⟨spot, hspot, hl, hfound⟩ := hleadsTo.exists_spot (isDirectoryAt_iff.mp hdir) rfl
      obtain ⟨hp, hroutes⟩ := locate_eq_ok_iff.mp hspot
      have hfollow : id true = (fun _ : Bool => true) true := rfl
      have hlocate : t.locate id base p = .ok spot :=
        locate_eq_ok_iff.mpr ⟨hp, hroutes.of_slash hfollow hslash⟩
      refine ⟨l, .directory, ?_, rfl⟩
      rw [linkStatus, hlocate]
      exact entryAt_eq_ok_iff.mpr ⟨hfound, hl, fun _ => rfl⟩
  | false =>
      obtain ⟨spot, e, hspot, hspotSlash, hfound, he⟩ :=
        exists_spot_of_isDirectory id h hslash
      refine ⟨spot.location, e, ?_, he⟩
      rw [linkStatus, hspot]
      refine entryAt_eq_ok_iff.mpr ⟨hfound, rfl, fun h => ?_⟩
      rw [hspotSlash, hslash] at h
      cases h

end FileTree

end DocDigest
