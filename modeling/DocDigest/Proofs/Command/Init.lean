import DocDigest.Command.Init
import DocDigest.Proofs.FileTree.Make
import DocDigest.Proofs.Settings.ConfigForm

/-!
# What a config file that was written changes

`init` changes no settings of the project (`Command.init_changes_no_settings`): the config file that
it writes spells out the defaults. A file that is there gives way in one case only, where the root
leads up from a directory that is missing and that `init` makes on the way
(`Command.init_overwrites_behind_missing_folder`).
-/

set_option autoImplicit false

namespace DocDigest

namespace Command

open FileTree (isName)

variable {t t' : FileTree} {base l : Location} {root : Path} {choices : Choices}

/-! ## Settings -/

/-- Spelled-out defaults are those that hold where nothing is set. -/
theorem combine_defaults (root : Path) (choices : Choices) :
    Settings.combine root .defaults choices = Settings.combine root .empty choices := by
  obtain ⟨output, format, extensions, exclude, noDefaultExcludes, followSymlinks⟩ := choices
  cases output <;> cases format <;> cases extensions <;> rfl

theorem ofText?_initialConfig : Config.ofText? initialConfig = some .defaults :=
  Config.defaults.ofText?_print_append .indented fun x hx => by
    rw [List.mem_singleton.mp hx]
    rfl

/-- Without a config file, nothing is set. -/
theorem settings_of_no_file (h : t.isFile base (root.join ⟨configName⟩) = false) :
    Settings.ofProject t base root none choices = .ok (Settings.combine root .empty choices) := by
  rw [Settings.ofProject, Config.ofProject, h]
  rfl

/-- With the config file that is written, the settings are those without one. -/
theorem settings_of_initialConfig (h : t.status base (root.join ⟨configName⟩)
      = .ok (l, .file (Utf8.encode initialConfig))) :
    Settings.ofProject t base root none choices = .ok (Settings.combine root .empty choices) := by
  have hfile : t.isFile base (root.join ⟨configName⟩) = true := by
    rw [FileTree.isFile, h]
    rfl
  have htext : t.readText base (root.join ⟨configName⟩) = .ok initialConfig := by
    rw [FileTree.readText, FileTree.read, h]
    simp only [Except.bind, Utf8.ofBytes?_encode]
  rw [Settings.ofProject, Config.ofProject, hfile, if_pos rfl, Config.readAt, htext]
  simp only [ofText?_initialConfig, Except.map, combine_defaults]

/-! ## What `init` does -/

theorem isName_configName : isName configName = true := by
  decide

theorem isThere_of_status {p : Path} {e : Entry} (h : t.status base p = .ok (l, e)) :
    t.isThere base p = true := by
  rw [FileTree.isThere, h]

theorem isFile_of_not_isThere {p : Path} (h : t.isThere base p = false) :
    t.isFile base p = false := by
  rw [FileTree.isThere] at h
  rw [FileTree.isFile]
  split at h
  · cases h
  · next e herror => rw [herror]

/-- Where the config file is there already, nothing is done. -/
theorem init_of_isThere (h : t.isThere base (root.join ⟨configName⟩) = true) :
    init t base root = ⟨0, lineOf "✓ Already initialized".toList, [], t⟩ := by
  rw [init, h]
  rfl

/-- What `init` does where the config file is missing: it fails to make the directory, it fails to
write the file, or it writes it. -/
theorem init_cases (h : t.isThere base (root.join ⟨configName⟩) = false) :
    (∃ e, t.createDirectories base root = (.error e, (init t base root).tree) ∧
        (init t base root).exitCode = 1) ∨
      (∃ e, t.createDirectories base root = (.ok (), (init t base root).tree) ∧
        (init t base root).tree.write base (root.join ⟨configName⟩) (Utf8.encode initialConfig)
          = .error e ∧ (init t base root).exitCode = 1) ∨
      ∃ t₁, t.createDirectories base root = (.ok (), t₁) ∧
        t₁.write base (root.join ⟨configName⟩) (Utf8.encode initialConfig)
          = .ok (init t base root).tree ∧ (init t base root).exitCode = 0 := by
  rw [init, h]
  simp only [Bool.false_eq_true, if_false]
  rcases hmade : t.createDirectories base root with ⟨e | _, t₁⟩
  · exact .inl ⟨e, rfl, rfl⟩
  · dsimp only
    cases hwrite : t₁.write base (root.join ⟨configName⟩) (Utf8.encode initialConfig) with
    | error e => exact .inr (.inl ⟨e, rfl, hwrite, rfl⟩)
    | ok t₂ => exact .inr (.inr ⟨t₁, rfl, hwrite, rfl⟩)

/-- A config file that was not there is written, and everything else is as it was, apart from
directories that are made. What it replaces is a file that the path leads to only now. -/
theorem config_written_spec {t₁ t₂ : FileTree} (hwf : t.WellFormed)
    (hmissing : t.isThere base (root.join ⟨configName⟩) = false)
    (hmade : t.createDirectories base root = (.ok (), t₁))
    (hwrite : t₁.write base (root.join ⟨configName⟩) (Utf8.encode initialConfig) = .ok t₂) :
    ∃ l, t₂.status base (root.join ⟨configName⟩) = .ok (l, .file (Utf8.encode initialConfig)) ∧
      ∀ m e, t.get? m = some e → t₂.get? m = some e ∨
        m = l ∧ e.isFile = true ∧ t.isDirectory base root = false ∧ .up ∈ root.components := by
  obtain ⟨hext, -, hsame, hfresh⟩ := FileTree.createDirectories_spec hwf.isHoused hmade
  obtain ⟨l, rfl, hl, hstatus, hold⟩ := FileTree.write_ok hwrite
  refine ⟨l, hstatus, fun m e hm => ?_⟩
  by_cases hml : m = l
  · subst hml
    obtain ⟨hfile, hthere⟩ := hold e (hext m e hm)
    -- The path led nowhere before, so directories were made.
    have hchanged : t₁ ≠ t := by
      rintro rfl
      rw [isThere_of_status hthere] at hmissing
      cases hmissing
    refine .inr ⟨rfl, hfile, ?_, ?_⟩
    · cases hdir : t.isDirectory base root with
      | false => rfl
      | true => exact absurd (hsame hdir) hchanged
    · by_contra hup
      exact ((hfresh hup).resolve_left hchanged).not_leadsTo isName_configName
        (Path.isAbsolute_join isName_configName root).symm
        (Path.realSteps_join isName_configName root)
        (FileTree.leadsTo_of_status hthere (Entry.isLink_of_isFile hfile)).1
  · left
    rw [FileTree.get?_put _ _ _ hl, if_neg hml]
    exact hext m e hm

/-- Where `init` fails, what was there is there still, and there is no config file. -/
theorem config_failed_spec (hwf : t.WellFormed)
    (hmissing : t.isThere base (root.join ⟨configName⟩) = false)
    (hfailed : (init t base root).exitCode ≠ 0) :
    t.Extends (init t base root).tree ∧
      (init t base root).tree.isFile base (root.join ⟨configName⟩) = false := by
  rcases init_cases hmissing with ⟨e, hmade, -⟩ | ⟨e, hmade, hwrite, -⟩ | ⟨t₁, -, -, hdone⟩
  · obtain ⟨hext, -, -, hne, q, hq, habsent⟩ :=
      FileTree.createDirectories_spec hwf.isHoused hmade
    refine ⟨hext, Bool.eq_false_iff.mpr fun hfile => ?_⟩
    obtain ⟨l, hleads⟩ := FileTree.exists_leadsTo_of_isFile hfile
    rw [hleads.isDirectory_above isName_configName hne q hq] at habsent
    cases habsent
  · obtain ⟨hext, hhoused, -⟩ := FileTree.createDirectories_spec hwf.isHoused hmade
    refine ⟨hext, Bool.eq_false_iff.mpr fun hfile => ?_⟩
    have hsteps : (root.join ⟨configName⟩).steps ≠ [] := by
      rw [Path.steps_join isName_configName]
      simp
    obtain ⟨t', hok⟩ := FileTree.exists_write_of_isFile hhoused hsteps hfile _
    rw [hok] at hwrite
    cases hwrite
  · exact absurd hdone hfailed

/-- `init` changes no settings of the project, and once it succeeded, it changes nothing more. A
config file that is there stays as it is, and so does everything else, except for a file that the
path of the config file leads to only when `init` is done, for the root was missing and leads up
from what is made on the way. -/
theorem init_changes_no_settings (t : FileTree) (base : Location) (root : Path)
    (h : t.WellFormed) :
    let p := root.join ⟨configName⟩
    let after := (init t base root).tree
    (∀ choices, Settings.ofProject after base root none choices
        = Settings.ofProject t base root none choices) ∧
      ((init t base root).exitCode = 0 →
        init after base root = ⟨0, lineOf "✓ Already initialized".toList, [], after⟩) ∧
      (t.isThere base p = true → after = t) ∧
      ∀ l e, t.get? l = some e → after.get? l = some e ∨
        t.isDirectory base root = false ∧ .up ∈ root.components ∧ t.isThere base p = false ∧
          e.isFile = true ∧ after.status base p = .ok (l, .file (Utf8.encode initialConfig)) := by
  intro p after
  cases hthere : t.isThere base p with
  | true =>
      have hinit : init t base root = ⟨0, lineOf "✓ Already initialized".toList, [], t⟩ :=
        init_of_isThere hthere
      have hafter : after = t := congrArg Outcome.tree hinit
      rw [hafter]
      exact ⟨fun _ => rfl, fun _ => hinit, fun _ => rfl, fun l e hl => .inl hl⟩
  | false =>
      have hbefore (choices : Choices) : Settings.ofProject t base root none choices
          = .ok (Settings.combine root .empty choices) :=
        settings_of_no_file (isFile_of_not_isThere hthere)
      by_cases hdone : (init t base root).exitCode = 0
      · obtain ⟨e, -, hfailed⟩ | ⟨e, -, -, hfailed⟩ | ⟨t₁, hmade, hwrite, -⟩ := init_cases hthere
        · rw [hfailed] at hdone
          cases hdone
        · rw [hfailed] at hdone
          cases hdone
        · obtain ⟨l, hstatus, hold⟩ := config_written_spec h hthere hmade hwrite
          refine ⟨fun choices => ?_, fun _ => init_of_isThere (isThere_of_status hstatus), nofun,
            fun m e hm => (hold m e hm).imp_right ?_⟩
          · rw [hbefore, settings_of_initialConfig hstatus]
          · rintro ⟨rfl, hfile, hdir, hup⟩
            exact ⟨hdir, hup, rfl, hfile, hstatus⟩
      · obtain ⟨hext, hfile⟩ := config_failed_spec h hthere hdone
        refine ⟨fun choices => ?_, fun h => absurd h hdone, nofun, fun m e hm => .inl (hext m e hm)⟩
        rw [hbefore, settings_of_no_file hfile]

/-- A project whose folder and whose parent folder are both made. -/
theorem init_changes_no_settings_of_missing_folders :
    let t : FileTree := ⟨[(["a.ts".toList], .file (Utf8.encode "/** a */".toList))]⟩
    let root : Path := ⟨"new/app".toList⟩
    let after := (init t [] root).tree
    t.WellFormed ∧ (init t [] root).exitCode = 0 ∧
      after.get? ["new".toList, "app".toList, configName]
        = some (.file (Utf8.encode initialConfig)) ∧
      (∀ choices, Settings.ofProject after [] root none choices
        = Settings.ofProject t [] root none choices) ∧
      init after [] root = ⟨0, lineOf "✓ Already initialized".toList, [], after⟩ := by
  intro t root after
  have hwf : t.WellFormed := ⟨by decide, by decide, by decide⟩
  have hexit : (init t [] root).exitCode = 0 := by decide +kernel
  obtain ⟨hsettings, hagain, -⟩ := init_changes_no_settings t [] root hwf
  exact ⟨hwf, hexit, by decide +kernel, hsettings, hagain hexit⟩

/-- The root `x/..` is missing along with `x`, so no config file is found under it. With `x` made,
the root is the directory of the config file that was there all along, and this file is
overwritten. -/
theorem init_overwrites_behind_missing_folder :
    let text := Config.print .compact { Config.empty with output := some ⟨"o.md".toList⟩ }
    let t : FileTree := ⟨[([configName], .file (Utf8.encode text))]⟩
    let after := (init t [] ⟨"x/..".toList⟩).tree
    t.WellFormed ∧ t.get? [configName] = some (.file (Utf8.encode text)) ∧
      after.get? [configName] = some (.file (Utf8.encode initialConfig)) ∧
      after.get? [configName] ≠ t.get? [configName] := by
  intro text t after
  refine ⟨⟨by decide, by decide, by decide⟩, ?_, ?_, ?_⟩
  · decide +kernel
  · decide +kernel
  · decide +kernel

end Command

end DocDigest
