import DocDigest.Proofs.FileTree.Leads
import DocDigest.Proofs.Path.Steps

/-!
# Making directories and files

`FileTree.Makes` says how directories are made along with those above them, one rule for each thing
that can happen. What is there stays (`FileTree.Makes.extends_housed`). A path whose directory was
made leads to it; if it is a new one, nothing stands in it (`FileTree.Makes.fresh`), unless the path
goes up on the way. A file that is written is read under its path, whether links were followed to it
or not (`FileTree.write_ok`).
-/

set_option autoImplicit false

namespace DocDigest

namespace FileTree

open DocDigest.Path (realSteps)

variable {t t' t₁ : FileTree} {base l : Location} {p q : Path} {n : Text} {spot : Spot}

/-! ## Paths above a path -/

theorem Followable.of_sublist (h : Followable p) (hsub : q.text.Sublist p.text)
    (hne : q.text ≠ []) : Followable q where
  clean := fun hnul => h.clean (hsub.subset hnul)
  short := by
    have hlong := h.short
    have hle := Text.byteLength_le_of_sublist hsub
    simp only [isTooLong, decide_eq_false_iff_not] at hlong ⊢
    omega
  nonempty := hne

theorem startOf_congr (h : q.isAbsolute = p.isAbsolute) : startOf base q = startOf base p := by
  rw [startOf, startOf, h]

/-- What a path passes through is a directory. -/
theorem LeadsTo.isDirectory_of_realSteps (h : t.LeadsTo base p l) (hq : Followable q)
    (habs : q.isAbsolute = p.isAbsolute) {rest : List Text} (hrest : rest ≠ [])
    (hsteps : p.realSteps = q.realSteps ++ rest) : t.isDirectory base q = true := by
  obtain ⟨-, k, hk, hleads⟩ := h
  have hreal := hleads.drop_here
  rw [← realSteps, hsteps] at hreal
  obtain ⟨a, b, m, rfl, hfront, hback⟩ := hreal.split
  obtain ⟨step, rest, rfl⟩ := List.exists_cons_of_ne_nil hrest
  have hm := hback.isDirectoryAt_of_cons
  refine isDirectory_iff.mpr ⟨m, ⟨hq, a, by omega, ?_⟩, hm⟩
  rw [startOf_congr habs]
  exact hfront.put_here hm

theorem Followable.of_join (h : Followable (p.join ⟨n⟩)) (hn : isName n = true)
    (hne : p.text ≠ []) : Followable p := by
  refine h.of_sublist ?_ hne
  rcases Path.join_cases hn p with ⟨hp, -⟩ | ⟨s, hp, hjoin⟩ | ⟨-, hjoin⟩
  · exact absurd hp hne
  · rw [hp, hjoin]
    exact (List.Sublist.refl s).append (.cons_cons _ (List.nil_sublist n))
  · rw [hjoin]
    exact List.sublist_append_left _ _

/-- Where something is found in a directory, this directory and those above it are there. -/
theorem LeadsTo.isDirectory_above (h : t.LeadsTo base (p.join ⟨n⟩) l) (hn : isName n = true)
    (hne : p.text ≠ []) : ∀ q ∈ p :: p.ancestors, t.isDirectory base q = true := by
  have hp := h.1.of_join hn hne
  intro q hq
  rcases List.mem_cons.mp hq with rfl | hq
  · exact h.isDirectory_of_realSteps hp (Path.isAbsolute_join hn q).symm (by simp)
      (Path.realSteps_join hn q)
  · obtain ⟨cs, hcs, hfront, rfl⟩ := Path.exists_of_mem_ancestors hq
    obtain ⟨hsub, htext, habs, hcomponents⟩ := Path.written_above hcs hfront
    obtain ⟨rest, hrest⟩ := hfront
    have hsteps : (p.join ⟨n⟩).realSteps = (Path.ofComponents cs).realSteps
        ++ (rest.filterMap Path.Component.step? ++ [n]) := by
      rw [Path.realSteps_join hn, Path.realSteps_eq, Path.realSteps_eq, hcomponents, ← hrest,
        List.filterMap_append, List.append_assoc]
    exact h.isDirectory_of_realSteps (hp.of_sublist hsub htext)
      (habs.trans (Path.isAbsolute_join hn p).symm) (by simp) hsteps

/-! ## Making one directory -/

/-- Whether every entry stands in a directory. -/
def Housed (t : FileTree) : Prop := ∀ l, t.get? l ≠ none → t.isDirectoryAt l.dropLast = true

theorem WellFormed.isHoused (h : t.WellFormed) : t.Housed := by
  intro l hl
  by_cases hnil : l = []
  · subst hnil
    exact isDirectoryAt_iff.mpr (if_pos rfl)
  · obtain ⟨e, he⟩ := Option.ne_none_iff_exists'.mp hl
    exact h.housed (l, e) ((h.get?_eq_some_iff hnil).mp he)

/-- Nothing stands below a location where nothing is. -/
theorem Housed.get?_eq_none (h : t.Housed) (hl : t.get? l = none) (name : Text) :
    t.get? (l ++ [name]) = none := by
  by_contra hchild
  have hparent := h _ hchild
  rw [List.dropLast_concat, isDirectoryAt_iff, hl] at hparent
  cases hparent

theorem Extends.put {e : Entry} (hl : t.get? l = none) : t.Extends (t.put l e) := by
  intro m e' hm
  have hne : l ≠ [] := by
    rintro rfl
    exact absurd hl (by simp [get?])
  rw [get?_put t m e hne, if_neg]
  · exact hm
  · rintro rfl
    rw [hl] at hm
    cases hm

theorem Housed.put {e : Entry} (h : t.Housed) (hl : t.get? l = none)
    (hdir : t.isDirectoryAt l.dropLast = true) : (t.put l e).Housed := by
  have hext : t.Extends (t.put l e) := .put hl
  have hne : l ≠ [] := by
    rintro rfl
    exact absurd hl (by simp [get?])
  intro m hm
  by_cases hsame : m = l
  · rw [hsame]
    exact hext.isDirectoryAt hdir
  · rw [get?_put t _ _ hne, if_neg hsame] at hm
    exact hext.isDirectoryAt (h m hm)

/-- A path leads to a directory that holds nothing. -/
def Fresh (t : FileTree) (base : Location) (p : Path) : Prop :=
  ∃ l, t.LeadsTo base p l ∧ t.isDirectoryAt l = true ∧ ∀ name, t.get? (l ++ [name]) = none

/-- No path leads on from an empty directory to a name. -/
theorem Fresh.not_leadsTo (h : t.Fresh base q) (hn : isName n = true)
    (habs : q.isAbsolute = p.isAbsolute) (hsteps : p.realSteps = q.realSteps ++ [n]) :
    ¬ t.LeadsTo base p l := by
  rintro ⟨-, k, -, hdown⟩
  obtain ⟨m, ⟨-, a, -, hleads⟩, -, hnothing⟩ := h
  have hdown := hdown.drop_here
  rw [← realSteps, hsteps, ← startOf_congr habs] at hdown
  obtain ⟨a', b, m', -, hfront, hlast⟩ := hdown.split
  obtain ⟨-, rfl⟩ := hfront.unique hleads.drop_here
  have hdots : Spot.isDots n = false :=
    Spot.isDots_eq_false_iff.mpr ⟨(isName_iff.mp hn).2.1, (isName_iff.mp hn).2.2.1⟩
  obtain ⟨e, he⟩ := hlast.exists_lookUp hdots
  exact absurd ((get?_of_lookUp he).2.symm.trans (hnothing n)) (Option.some_ne_none e)

/-- A directory that was made is a new one at the path. All else is as it was. -/
theorem create_spec (hhoused : t.Housed) (h : t.create base p .directory = .ok t') :
    t.Extends t' ∧ t'.Housed ∧ t'.Fresh base p := by
  obtain ⟨spot, hspot, h⟩ := exists_of_bind_eq_ok h
  split at h
  · cases h
  · next hname =>
    obtain ⟨name, hname⟩ := Option.ne_none_iff_exists'.mp (by simpa using hname)
    obtain ⟨found, hfound, h⟩ := exists_of_bind_eq_ok h
    cases found with
    | some e => cases h
    | none =>
        obtain rfl : t.put spot.location .directory = t' := by
          simpa [Entry.isDirectory] using h
        obtain ⟨hlast, hdots⟩ := Spot.name?_eq_some_iff.mp hname
        have hlocation := Spot.location_of_name? hname
        rw [lookUpAt, hname] at hfound
        obtain ⟨hshort, hget⟩ := get?_of_lookUp hfound
        rw [hlocation]
        have hext : t.Extends (t.put (spot.folder ++ [name]) .directory) := .put hget
        have hput : (t.put (spot.folder ++ [name]) .directory).get? (spot.folder ++ [name])
            = some .directory := by
          rw [get?_put t _ _ (by simp), if_pos rfl]
        obtain ⟨hp, hroutes⟩ := locate_eq_ok_iff.mp hspot
        obtain ⟨hdir, k, hk, hon⟩ := hroutes.leads
        have hdir : t.isDirectoryAt spot.folder = true :=
          hdir.resolve_left (by rw [hlast]; exact Option.some_ne_none name)
        refine ⟨hext, hhoused.put hget (by rwa [List.dropLast_concat]), spot.folder ++ [name],
          ⟨hp, k, hk, ?_⟩, isDirectoryAt_iff.mpr hput, ?_⟩
        · have hlead := hon _ 0 (spot.folder ++ [name]) hext
          rw [hlast] at hlead
          exact hlead (.name (hext.isDirectoryAt hdir) hdots hshort hput rfl (.done _))
        · intro child
          rw [get?_put t _ _ (by simp), if_neg (by simp)]
          exact hhoused.get?_eq_none hget child

/-- A directory cannot be made where one is. -/
theorem create_of_isDirectory {e : Entry} (h : t.isDirectory base p = true) :
    t.create base p e = .error .alreadyExists := by
  obtain ⟨spot, found, hspot, -, hfound, -⟩ :=
    exists_spot_of_isDirectory (fun _ => false) h rfl
  rw [create, hspot, Except.bind]
  cases hname : spot.name? with
  | none => rfl
  | some name =>
      rw [hfound]
      rfl

/-! ## Making a directory and those above it -/

/-- What making the first of some directories, after the others if need be, comes to: whether it
worked, and the tree then. -/
inductive Makes (base : Location) (t : FileTree) : List Path → Bool → FileTree → Prop where
  | nil : Makes base t [] true t
  | made {p : Path} {above : List Path} {t' : FileTree}
      (h : t.create base p .directory = .ok t') : Makes base t (p :: above) true t'
  | settled {p : Path} {above : List Path} {made : Bool} (h : t.isDirectory base p = made) :
      Makes base t (p :: above) made t
  | failedAbove {p : Path} {above : List Path} {t' : FileTree}
      (h : Makes base t above false t') : Makes base t (p :: above) false t'
  | madeAfter {p : Path} {above : List Path} {t₁ t' : FileTree}
      (habove : Makes base t above true t₁) (h : t₁.create base p .directory = .ok t') :
      Makes base t (p :: above) true t'
  | settledAfter {p : Path} {above : List Path} {t' : FileTree} {made : Bool}
      (habove : Makes base t above true t') (h : t'.isDirectory base p = made) :
      Makes base t (p :: above) made t'

theorem makes_createFirst (t : FileTree) (base : Location) (ps : List Path) :
    Makes base t ps (t.createFirst base ps).1.isOk (t.createFirst base ps).2 := by
  induction ps with
  | nil => exact .nil
  | cons p above ih =>
      have hsettle (t : FileTree) (e : FileError) :
          (if t.isDirectory base p then Except.ok () else Except.error e).isOk
            = t.isDirectory base p := by
        cases t.isDirectory base p <;> rfl
      rw [createFirst]
      split
      · next t' hmade => exact .made hmade
      · split
        · next e t' habove =>
          rw [habove] at ih
          exact .failedAbove ih
        · next t₁ habove =>
          rw [habove] at ih
          split
          · next t' hmade => exact .madeAfter ih hmade
          · next e _ =>
            exact .settledAfter ih (hsettle t₁ e).symm
      · next e _ _ =>
        exact .settled (hsettle t e).symm

namespace Makes

variable {ps : List Path} {made : Bool}

/-- What is there stays there, and every entry stands in a directory still. -/
theorem extends_housed (h : Makes base t ps made t') (hhoused : t.Housed) :
    t.Extends t' ∧ t'.Housed := by
  induction h with
  | nil => exact ⟨.refl t, hhoused⟩
  | made h => exact ⟨(create_spec hhoused h).1, (create_spec hhoused h).2.1⟩
  | settled => exact ⟨.refl t, hhoused⟩
  | failedAbove _ ih => exact ih
  | madeAfter _ h ih =>
      obtain ⟨hext, hhoused⟩ := ih
      obtain ⟨hext', hhoused, -⟩ := create_spec hhoused h
      exact ⟨hext.trans hext', hhoused⟩
  | settledAfter _ _ ih => exact ih

/-- If the first of the directories is not made, one of them is not there. -/
theorem exists_missing (h : Makes base t ps false t') :
    ∃ q ∈ ps, t'.isDirectory base q = false := by
  generalize hmade : false = made at h
  induction h with
  | nil => cases hmade
  | made => cases hmade
  | @settled p above made h => exact ⟨p, List.mem_cons_self, h⟩
  | failedAbove _ ih =>
      obtain ⟨q, hq, hmissing⟩ := ih hmade
      exact ⟨q, List.mem_cons_of_mem _ hq, hmissing⟩
  | madeAfter => cases hmade
  | @settledAfter p above t' made _ h => exact ⟨p, List.mem_cons_self, h⟩

/-- The first of the directories, if it is made, is created in a tree, or it is there from the
start, or it is there once those above it are made. -/
theorem cases_of_made {above : List Path} (h : Makes base t (p :: above) true t')
    (hhoused : t.Housed) :
    (∃ t₁ : FileTree, t₁.Housed ∧ t₁.create base p .directory = .ok t') ∨
      (t' = t ∧ t.isDirectory base p = true) ∨
      (Makes base t above true t' ∧ t'.isDirectory base p = true) := by
  cases h with
  | made h => exact .inl ⟨t, hhoused, h⟩
  | settled h => exact .inr (.inl ⟨rfl, h⟩)
  | @madeAfter _ _ t₁ _ habove h => exact .inl ⟨t₁, (habove.extends_housed hhoused).2, h⟩
  | settledAfter habove h => exact .inr (.inr ⟨habove, h⟩)

/-- The first of the directories is there if it is made. -/
theorem isDirectory {above : List Path} (h : Makes base t (p :: above) true t')
    (hhoused : t.Housed) : t'.isDirectory base p = true := by
  rcases h.cases_of_made hhoused with ⟨t₁, hhoused₁, hcreate⟩ | ⟨rfl, hthere⟩ | ⟨-, hthere⟩
  · obtain ⟨-, -, l, hleads, hdir, -⟩ := create_spec hhoused₁ hcreate
    exact isDirectory_iff.mpr ⟨l, hleads, hdir⟩
  · exact hthere
  · exact hthere

/-- A directory that is made is a new one with nothing in it, or all is as it was, unless its path
goes up on the way. -/
theorem fresh {rs : List Path.Component} (hp : p.components = rs.reverse)
    (hup : Path.Component.up ∉ rs) (h : Makes base t (p :: Path.shortened rs) true t')
    (hhoused : t.Housed) : t' = t ∨ t'.Fresh base p := by
  induction rs generalizing p t' with
  | nil =>
      rcases h.cases_of_made hhoused with ⟨t₁, hhoused₁, hcreate⟩ | ⟨rfl, -⟩ | ⟨habove, -⟩
      · exact .inr (create_spec hhoused₁ hcreate).2.2
      · exact .inl rfl
      · cases habove
        exact .inl rfl
  | cons c rs ih =>
      rcases h.cases_of_made hhoused with ⟨t₁, hhoused₁, hcreate⟩ | ⟨rfl, -⟩ | ⟨habove, hthere⟩
      · exact .inr (create_spec hhoused₁ hcreate).2.2
      · exact .inl rfl
      · rw [Path.shortened] at habove
        by_cases hrs : rs = []
        · subst hrs
          cases habove
          exact .inl rfl
        · have hne : rs.reverse ≠ [] := by simpa using hrs
          rw [if_neg (by simpa using hrs)] at habove
          have hfront : rs.reverse <+: p.components := by
            rw [hp, List.reverse_cons]
            exact List.prefix_append _ _
          obtain ⟨-, -, habs, hcomponents⟩ := Path.written_above hne hfront
          refine (ih hcomponents (fun h => hup (List.mem_cons_of_mem c h)) habove).imp_right ?_
          intro hfresh
          -- The last component is a name, which leads nowhere in the directory that is new.
          obtain ⟨name, hname, rfl⟩ := Path.exists_name_of_components
            (hp.trans List.reverse_cons) hne fun hc => hup (hc ▸ List.mem_cons_self)
          have hsteps : p.realSteps = (Path.ofComponents rs.reverse).realSteps ++ [name] := by
            rw [Path.realSteps_eq, Path.realSteps_eq, hcomponents, hp, List.reverse_cons,
              List.filterMap_append]
            rfl
          obtain ⟨l, hleads, -⟩ := isDirectory_iff.mp hthere
          exact absurd hleads (hfresh.not_leadsTo hname habs hsteps)

end Makes

/-- What making a directory with those above it comes to: whether it worked, and the tree then. -/
theorem createDirectories_spec (hhoused : t.Housed) {r : Except FileError Unit}
    (h : t.createDirectories base p = (r, t')) :
    t.Extends t' ∧ t'.Housed ∧ (t.isDirectory base p = true → t' = t) ∧
      match r with
      | .ok _ => Path.Component.up ∉ p.components → t' = t ∨ t'.Fresh base p
      | .error _ => p.text ≠ [] ∧ ∃ q ∈ p :: p.ancestors, t'.isDirectory base q = false := by
  rw [createDirectories] at h
  split at h
  · cases h
    exact ⟨.refl t, hhoused, fun _ => rfl, fun _ => .inl rfl⟩
  · next hne =>
    have hmakes := makes_createFirst t base (p :: p.ancestors)
    rw [h] at hmakes
    obtain ⟨hext, hhoused'⟩ := hmakes.extends_housed hhoused
    refine ⟨hext, hhoused', fun hdir => ?_, ?_⟩
    · rw [createFirst, create_of_isDirectory hdir] at h
      exact (congrArg Prod.snd h).symm
    · cases r with
      | ok _ =>
          intro hup
          exact hmakes.fresh (List.reverse_reverse _).symm (by simpa using hup) hhoused
      | error e => exact ⟨fun hnil => hne (List.isEmpty_iff.mpr hnil), hmakes.exists_missing⟩

/-! ## Writing a file -/

variable {contents : Bytes}

/-- What is written to where a path leads is read where the path leads: the path is followed to the
same spot in every tree with the same directories and links. -/
theorem status_of_routesTo {e : Entry} (hp : Followable p)
    (hroutes : t.RoutesTo (!·) maxLinks (startOf base p) p.steps p.endsInSlash spot)
    (hnames : spot.Names n) (hways : t₁.way? = t.way?) (he : t₁.get? spot.location = some e) :
    t₁.status base p = .ok (spot.location, e) := by
  have hread : t₁.locate (fun _ => true) base p = .ok spot :=
    locate_eq_ok_iff.mpr ⟨hp, hroutes.of_ways hways rfl hnames.slash⟩
  rw [status, hread]
  refine entryAt_eq_ok_iff.mpr ⟨?_, rfl, ?_⟩
  · rw [lookUpAt_of_names hnames, he]
  · rw [hnames.slash]
    exact fun h => absurd h Bool.false_ne_true

/-- A file that is written under a path is what the path leads to. It takes the place of a file that
the path led to before, or of nothing. -/
theorem write_ok (h : t.write base p contents = .ok t') :
    ∃ l, t' = t.put l (.file contents) ∧ l ≠ [] ∧ t'.status base p = .ok (l, .file contents) ∧
      ∀ e, t.get? l = some e → e.isFile = true ∧ t.status base p = .ok (l, e) := by
  obtain ⟨spot, name, hspot, hnames, hdir, rfl⟩ := exists_names_of_write h
  obtain ⟨hp, hroutes⟩ := locate_eq_ok_iff.mp hspot
  have hl := hnames.location_ne_nil
  have hway : t.way? spot.location = none := by
    refine way?_eq_none hdir fun target htarget => ?_
    -- The path would have been followed on from a link.
    have hlink := hroutes.not_link (by rw [hnames.slash]; rfl) hnames.name?
    have hfound := lookUpAt_of_names (t := t) hnames
    rw [lookUpAt, hnames.name?, htarget] at hfound
    exact hlink target hfound
  refine ⟨spot.location, rfl, hl, status_of_routesTo hp hroutes hnames
    (way?_put_file hl hway contents) ?_, fun e he => ⟨?_, ?_⟩⟩
  · rw [get?_put t _ _ hl, if_pos rfl]
  · rw [way?, he, Option.filter_eq_none_iff] at hway
    simpa using hway e rfl
  · exact status_of_routesTo hp hroutes hnames rfl he

/-- Dots lead to a directory. -/
theorem Housed.isDirectoryAt_of_no_name (h : t.Housed) (hdir : t.isDirectoryAt spot.folder = true)
    (hname : spot.name? = none) : t.isDirectoryAt spot.location = true := by
  have hup : t.isDirectoryAt spot.folder.dropLast = true := by
    refine h _ ?_
    rw [isDirectoryAt_iff.mp hdir]
    exact Option.some_ne_none _
  rw [Spot.location]
  split
  · exact hdir
  · exact hdir
  · exact hup
  · next name hdot hdots hlast =>
    have hstep : Spot.isDots name = false :=
      Spot.isDots_eq_false_iff.mpr ⟨hdot, hdots⟩
    rw [Spot.name?_eq_some_iff.mpr ⟨hlast, hstep⟩] at hname
    cases hname

/-- A file that is there can be written. -/
theorem exists_write_of_isFile (hhoused : t.Housed) (hsteps : p.steps ≠ [])
    (h : t.isFile base p = true) (contents : Bytes) :
    ∃ t', t.write base p contents = .ok t' := by
  rw [isFile] at h
  split at h
  · next l e hstatus =>
    obtain ⟨spot, hspot, hentry⟩ := exists_of_bind_eq_ok hstatus
    obtain ⟨hfound, rfl, hslash⟩ := entryAt_eq_ok_iff.mp hentry
    obtain ⟨old, rfl⟩ : ∃ old, e = .file old := by
      cases e with
      | directory => cases h
      | file old => exact ⟨old, rfl⟩
      | link target => cases h
    have hslash : spot.slash = false := by
      cases hs : spot.slash with
      | false => rfl
      | true => cases hslash hs
    obtain ⟨hp, hroutes⟩ := locate_eq_ok_iff.mp hspot
    have hdir := hroutes.isDirectoryAt_folder (.inl hsteps)
    have hname : spot.name? ≠ none := by
      intro hnone
      rw [lookUpAt, hnone] at hfound
      have hplace := hhoused.isDirectoryAt_of_no_name hdir hnone
      rw [isDirectoryAt_iff, Except.ok.inj hfound] at hplace
      cases hplace
    obtain ⟨name, hname⟩ := Option.ne_none_iff_exists'.mp hname
    have hfollow : (!false) = (fun _ : Bool => true) false := rfl
    have hwrite : t.locate (!·) base p = .ok spot :=
      locate_eq_ok_iff.mpr ⟨hp, hroutes.of_ways rfl hfollow hslash⟩
    refine ⟨t.put spot.location (.file contents), ?_⟩
    rw [write, hwrite, Except.bind, hslash, hname, hfound]
    rfl
  · cases h

end FileTree

end DocDigest
