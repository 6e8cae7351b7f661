import Mathlib.Data.List.Basic
import DocDigest.Proofs.Json.Fields
import DocDigest.Proofs.Json.ReadBack
import DocDigest.Settings.Config

/-!
# The form of a config file

A config is read back from its text (`Config.ofText?_print_append`) and from every other way to
spell it. The form is strict: an object with a key that is no field, or with a key twice, is no
config (`Config.read_back_and_strict`).
-/

set_option autoImplicit false

namespace DocDigest

namespace Config

/-! ## The values of all fields -/

/-- What may stand for each field that is not set. -/
def unsetValues : List Json := [.null, .null, .null, .array [], .null, .null]

/-- A row for each field: its name, its value if it is set, and what may stand for it otherwise. -/
def rows (c : Config) : List (Text × Option Json × Json) :=
  fieldNames.zip (c.fieldValues.zip unsetValues)

/-- The members of the fields that are set. -/
def setMembers (c : Config) : List (Text × Json) := c.rows.filterMap fun r => r.2.1.map (r.1, ·)

/-- The members of all fields, with something for those that are not set. -/
def fullMembers (c : Config) : List (Text × Json) := c.rows.map fun r => (r.1, r.2.1.getD r.2.2)

/-- The values of all fields, with something for those that are not set. -/
def fullValues (c : Config) : List Json := c.rows.map fun r => r.2.1.getD r.2.2

/-- The members of an object that spells a config: those of all fields that are set and any others
of the full ones, in any order. -/
structure Spells (c : Config) (ms : List (Text × Json)) : Prop where
  nodup : (ms.map (·.1)).Nodup
  full : ∀ m ∈ ms, m ∈ c.fullMembers
  set : ∀ m ∈ c.setMembers, m ∈ ms

theorem toJson_eq (c : Config) : c.toJson = Json.ofMembers c.setMembers := rfl

theorem plain_of_mem_fullValues (c : Config) : ∀ v ∈ c.fullValues, v.Plain := by
  have hoption {α : Type} (o : Option α) {f : α → Json} (hf : ∀ x, (f x).Plain) :
      ((o.map f).getD .null).Plain := by
    cases o with
    | none => exact .null
    | some x => exact hf x
  have hexclude : ((if c.exclude.isEmpty then none else some (Json.ofTexts c.exclude)).getD
      (.array [])).Plain := by
    split
    · exact .texts []
    · exact .texts c.exclude
  intro v hv
  simp only [fullValues, rows, fieldNames, fieldValues, unsetValues, List.zip_cons_cons,
    List.zip_nil_left, List.map_cons, List.map_nil, List.mem_cons, List.not_mem_nil, or_false] at hv
  rcases hv with rfl | rfl | rfl | rfl | rfl | rfl
  · exact hoption _ fun p => .text p.text
  · exact hoption _ .text
  · exact hoption _ .texts
  · exact hexclude
  · exact hoption _ .bool
  · exact hoption _ .bool

/-! ## Reading the fields -/

theorem asTexts?_ofTexts (ts : List Text) : (Json.ofTexts ts).asTexts? = some ts := by
  rw [Json.ofTexts, Json.asTexts?, List.mapM_map]
  induction ts with
  | nil => rfl
  | cons t ts ih =>
      have ht : (Json.ofText t).asText? = some t := Json.textOf?_unitsOf t
      rw [List.mapM_cons, Function.comp_apply, ht, ih]
      rfl

theorem orNull_ofText (t : Text) : Json.orNull Json.asText? (Json.ofText t) = some (some t) :=
  congrArg (Option.map some) (Json.textOf?_unitsOf t)

theorem orNull_ofTexts (ts : List Text) :
    Json.orNull Json.asTexts? (Json.ofTexts ts) = some (some ts) :=
  congrArg (Option.map some) (asTexts?_ofTexts ts)

theorem optional?_map {α : Type} {read : Json → Option α} {f : α → Json}
    (hread : ∀ x, Json.orNull read (f x) = some (some x)) (o : Option α) :
    optional? read (o.map f) = some o := by
  cases o with
  | none => rfl
  | some x => exact hread x

/-- A field that is left out is read as what may stand for it. -/
theorem ofFields?_rows (c : Config) (field : Text × Option Json × Json → Option Json) :
    ofFields? (c.rows.map field) = ofFields? (c.rows.map fun r => some ((field r).getD r.2.2)) := by
  have hoptional {α : Type} (read : Json → Option α) (f : Option Json) :
      optional? read f = Json.orNull read (f.getD .null) := by
    cases f <;> rfl
  have hexclude (f : Option Json) : exclude? f = (f.getD (.array [])).asTexts? := by
    cases f <;> rfl
  simp only [rows, fieldNames, fieldValues, unsetValues, List.zip_cons_cons, List.zip_nil_left,
    List.map_cons, List.map_nil, ofFields?, hoptional, hexclude, Option.getD_some]

/-- The values of the fields that are set are read back as the config. -/
theorem ofFields?_fieldValues (c : Config) : ofFields? c.fieldValues = some c := by
  have houtput : optional? Json.asText? (c.output.map (Json.ofText ·.text))
      = some (c.output.map Path.text) := by
    rw [← optional?_map orNull_ofText (c.output.map Path.text), Option.map_map]
    rfl
  have hexclude : exclude? (if c.exclude.isEmpty then none else some (Json.ofTexts c.exclude))
      = some c.exclude := by
    split
    · rename_i hnil
      rw [List.isEmpty_iff.mp hnil]
      rfl
    · exact asTexts?_ofTexts c.exclude
  have hbool (o : Option Bool) : optional? Json.asBool? (o.map Json.bool) = some o :=
    optional?_map (fun _ => rfl) o
  rw [fieldValues, ofFields?, houtput, optional?_map orNull_ofText, optional?_map orNull_ofTexts,
    hexclude, hbool, hbool]
  simp only [Option.bind_eq_bind, Option.bind_some, Option.map_map]
  rw [show Path.mk ∘ Path.text = id from rfl, Option.map_id, id]

theorem ofFields?_fullValues (c : Config) : ofFields? (c.fullValues.map some) = some c := by
  rw [fullValues, List.map_map, ← c.ofFields?_fieldValues]
  exact (c.ofFields?_rows (·.2.1)).symm

/-! ## Objects -/

theorem keys_setMembers_sublist (c : Config) :
    (c.setMembers.map (·.1)).Sublist fieldNames := by
  have hsub (rs : List (Text × Option Json × Json)) :
      ((rs.filterMap fun r => r.2.1.map (r.1, ·)).map (·.1)).Sublist (rs.map (·.1)) := by
    induction rs with
    | nil => exact .slnil
    | cons r rs ih =>
        obtain ⟨name, value, unset⟩ := r
        cases value with
        | none => exact .cons _ ih
        | some v => exact .cons_cons _ ih
  exact hsub c.rows

theorem nodup_fieldNames : fieldNames.Nodup := by
  decide

theorem nodup_keys_fullMembers (c : Config) : (c.fullMembers.map (·.1)).Nodup := by
  have hkeys : c.fullMembers.map (·.1) = fieldNames := rfl
  rw [hkeys]
  exact nodup_fieldNames

/-- In an object that spells a config, a field has its value or is left out, and then there is
something else that may stand for it. -/
theorem Spells.lookup_getD {c : Config} {ms : List (Text × Json)} (h : c.Spells ms)
    {r : Text × Option Json × Json} (hr : r ∈ c.rows) :
    (ms.lookup r.1).getD r.2.2 = r.2.1.getD r.2.2 := by
  have hfull : (r.1, r.2.1.getD r.2.2) ∈ c.fullMembers := List.mem_map_of_mem hr
  cases hlookup : ms.lookup r.1 with
  | some v =>
      obtain ⟨before, after, hms, -⟩ := List.lookup_eq_some_iff.mp hlookup
      have hv : (r.1, v) ∈ c.fullMembers := h.full _ (by rw [hms]; simp)
      have hsame := Json.lookup_eq_some_of_mem c.nodup_keys_fullMembers hv
      rw [Json.lookup_eq_some_of_mem c.nodup_keys_fullMembers hfull] at hsame
      exact (Option.some.inj hsame).symm
  | none =>
      cases hset : r.2.1 with
      | none => rfl
      | some v =>
          have hmem : (r.1, v) ∈ c.setMembers :=
            List.mem_filterMap.mpr ⟨r, hr, by rw [hset]; rfl⟩
          rw [Json.lookup_eq_some_of_mem h.nodup (h.set _ hmem)] at hlookup
          exact absurd hlookup (by simp)

/-- An object that spells a config denotes it. -/
theorem Spells.ofJson? {c : Config} {ms : List (Text × Json)} (h : c.Spells ms) :
    Config.ofJson? (Json.ofMembers ms) = some c := by
  have hknown : ∀ m ∈ ms, m.1 ∈ fieldNames := by
    intro m hm
    obtain ⟨r, hr, rfl⟩ := List.mem_map.mp (h.full m hm)
    exact (List.of_mem_zip hr).1
  have hfields : Json.fields? fieldNames true (Json.ofMembers ms)
      = some (fieldNames.map fun name => ms.lookup name) :=
    Json.fields?_object_eq_some_iff.mpr ⟨ms, Json.textMembers?_unitsOf ms, hknown, h.nodup, rfl⟩
  have hrows : fieldNames.map (fun name => ms.lookup name)
      = c.rows.map fun r => ms.lookup r.1 := rfl
  rw [Config.ofJson?, hfields, Option.bind_some, hrows, ofFields?_rows,
    List.map_congr_left fun r hr => congrArg some (h.lookup_getD hr), ← c.ofFields?_fullValues,
    fullValues, List.map_map]
  rfl

theorem Spells.plain {c : Config} {ms : List (Text × Json)} (h : c.Spells ms) :
    (Json.ofMembers ms).Plain := by
  refine .members fun m hm => c.plain_of_mem_fullValues m.2 ?_
  obtain ⟨r, hr, rfl⟩ := List.mem_map.mp (h.full m hm)
  exact List.mem_map_of_mem hr

/-- An object that spells a config is read as it from its text, white space behind it included. -/
theorem Spells.ofText? {c : Config} {ms : List (Text × Json)} (h : c.Spells ms)
    (layout : Json.Layout) {space : Text} (hspace : ∀ x ∈ space, Json.isSpace x = true) :
    Config.ofText? ((Json.ofMembers ms).print layout ++ space) = some c := by
  rw [Config.ofText?, h.plain.parse?_print_append layout hspace, Option.bind_some, h.ofJson?]

/-- The fields that are set spell a config. -/
theorem spells_setMembers (c : Config) : c.Spells c.setMembers where
  nodup := c.keys_setMembers_sublist.nodup nodup_fieldNames
  full := by
    intro m hm
    obtain ⟨r, hr, hrm⟩ := List.mem_filterMap.mp hm
    obtain ⟨v, hv, rfl⟩ := Option.map_eq_some_iff.mp hrm
    exact List.mem_map.mpr ⟨r, hr, by rw [hv, Option.getD_some]⟩
  set := fun _ hm => hm

/-- All fields, in any order, spell a config. -/
theorem spells_of_perm {c : Config} {ms : List (Text × Json)} (h : ms.Perm c.fullMembers) :
    c.Spells ms where
  nodup := (h.map _).nodup_iff.mpr c.nodup_keys_fullMembers
  full := fun _ hm => h.mem_iff.mp hm
  set := fun m hm => h.mem_iff.mpr (c.spells_setMembers.full m hm)

/-! ## The form of a config -/

/-- A config that was printed is read back, white space behind it included. -/
theorem ofText?_print_append (c : Config) (layout : Json.Layout) {space : Text}
    (hspace : ∀ x ∈ space, Json.isSpace x = true) :
    ofText? (c.print layout ++ space) = some c := by
  rw [print, toJson_eq]
  exact c.spells_setMembers.ofText? layout hspace

/-- A config is read back from the text that it is printed as, from an object that spells it
in any other way and from the list of the values of its fields. An object with a key that is no
field is no config, and neither is one with a key twice. -/
theorem read_back_and_strict (c : Config) (layout : Json.Layout) :
    ofText? (c.print layout) = some c ∧
    (∀ ms, c.Spells ms → ofText? ((Json.ofMembers ms).print layout) = some c) ∧
    ofText? ((Json.array c.fullValues).print layout) = some c ∧
    ∀ t ms, Json.parse? t = some (.object ms) →
      (∃ m ∈ ms, ∀ name ∈ fieldNames, Json.textOf? m.1 ≠ some name) ∨
        (∃ name m n, [m, n].Sublist ms ∧ Json.textOf? m.1 = some name ∧
          Json.textOf? n.1 = some name) →
      ofText? t = none := by
  have hnil : ∀ x ∈ ([] : Text), Json.isSpace x = true := fun _ h => absurd h List.not_mem_nil
  refine ⟨?_, fun ms hms => ?_, ?_, fun t ms ht h => ?_⟩
  · simpa using c.ofText?_print_append layout hnil
  · simpa using hms.ofText? layout hnil
  · have hfields : Json.fields? fieldNames true (.array c.fullValues)
        = some (c.fullValues.map some) := rfl
    rw [ofText?, (Json.Plain.array _ c.plain_of_mem_fullValues).parse?_print, Option.bind_some,
      ofJson?, hfields, Option.bind_some, ofFields?_fullValues]
  · rw [ofText?, ht, Option.bind_some, ofJson?]
    rcases h with ⟨m, hm, hunknown⟩ | ⟨name, m, n, hsub, hm, hn⟩
    · rw [Json.fields?_eq_none_of_unknown hm hunknown, Option.bind_none]
    · rw [Json.fields?_eq_none_of_twice hsub hm hn, Option.bind_none]

/-- The fields in another order with two unset ones spelled out, all fields from the last to the
first, an unknown key behind a known one, and a known key twice. -/
theorem read_back_and_strict_sample :
    let c := { empty with followSymlinks := some true }
    let spelled := [("follow_symlinks".toList, Json.bool true), ("exclude".toList, .array []),
      ("output".toList, .null)]
    let unknown := [("output".toList, Json.null), ("out".toList, .null)]
    let twice := [("output".toList, Json.null), ("exclude".toList, .array []),
      ("output".toList, .null)]
    c.Spells spelled ∧ ofText? ((Json.ofMembers spelled).print .compact) = some c ∧
      ofText? ((Json.ofMembers c.fullMembers.reverse).print .compact) = some c ∧
      ofText? ((Json.ofMembers unknown).print .compact) = none ∧
      ofText? ((Json.ofMembers twice).print .compact) = none := by
  intro c spelled unknown twice
  have hspells : c.Spells spelled := by
    refine ⟨by decide, fun m hm => ?_, fun m hm => ?_⟩
    · simp only [spelled, List.mem_cons, List.not_mem_nil, or_false] at hm
      rcases hm with rfl | rfl | rfl <;>
        simp [c, fullMembers, rows, fieldNames, fieldValues, unsetValues, empty]
    · obtain rfl : m = ("follow_symlinks".toList, .bool true) := by
        simpa [c, setMembers, rows, fieldNames, fieldValues, unsetValues, empty] using hm
      exact .head _
  have hunknown : (Json.ofMembers unknown).Plain :=
    .members (by simp [unknown, Json.Plain.null])
  have hlist : (Json.array []).Plain := .texts []
  have htwice : (Json.ofMembers twice).Plain :=
    .members (by simp [twice, Json.Plain.null, hlist])
  have hform := read_back_and_strict c .compact
  have hreversed : c.Spells c.fullMembers.reverse := c.spells_of_perm (List.reverse_perm _)
  refine ⟨hspells, hform.2.1 _ hspells, hform.2.1 _ hreversed, ?_, ?_⟩
  · refine hform.2.2.2 _ _ (hunknown.parse?_print _) (.inl ⟨_, .tail _ (.head _), ?_⟩)
    decide
  · have hsub := List.Sublist.cons_cons (Json.unitsOf "output".toList, Json.null)
      (.cons (Json.unitsOf "exclude".toList, Json.array [])
        (.cons_cons (Json.unitsOf "output".toList, Json.null) .slnil))
    exact hform.2.2.2 _ _ (htwice.parse?_print _) (.inr ⟨"output".toList, _, _, hsub, rfl, rfl⟩)

end Config

end DocDigest
