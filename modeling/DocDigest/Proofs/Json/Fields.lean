import Mathlib.Data.List.Basic
import Mathlib.Data.List.Nodup
import DocDigest.Json.Basic

/-!
# Fields of a record

A closed object gives the values of a record's fields exactly when every key is the name of a field
and no key stands twice (`Json.fields?_object_eq_some_iff`). The value of a field is then the one
that stands at its name, wherever that member is.
-/

set_option autoImplicit false

namespace DocDigest

namespace Json

/-! ## Keys as texts -/

theorem textMembers?_cons (k : List Unit) (v : Json) (ms : List (List Unit × Json)) :
    textMembers? ((k, v) :: ms)
      = (textOf? k).bind fun name => (textMembers? ms).map ((name, v) :: ·) := by
  simp only [textMembers?, List.mapM_cons]
  cases textOf? k with
  | none => rfl
  | some name =>
      simp only [Option.bind_eq_bind, Option.bind_some, Option.map_eq_bind]
      rfl

/-- Keys that are written as texts are read as these texts. -/
theorem textMembers?_unitsOf (ms : List (Text × Json)) :
    textMembers? (ms.map fun (k, v) => (unitsOf k, v)) = some ms := by
  induction ms with
  | nil => rfl
  | cons m ms ih =>
      rw [List.map_cons, textMembers?_cons, ih, textOf?_unitsOf]
      rfl

/-- The keys of the members that are read are what the keys of the members denote. -/
theorem map_textOf?_of_textMembers? {ms : List (List Unit × Json)} {named : List (Text × Json)}
    (h : textMembers? ms = some named) :
    ms.map (textOf? ·.1) = named.map fun m => some m.1 := by
  induction ms generalizing named with
  | nil =>
      obtain rfl : [] = named := Option.some.inj h
      rfl
  | cons m ms ih =>
      rw [textMembers?_cons, Option.bind_eq_some_iff] at h
      obtain ⟨name, hname, h⟩ := h
      obtain ⟨tail, htail, rfl⟩ := Option.map_eq_some_iff.mp h
      rw [List.map_cons, List.map_cons, hname, ih htail]

/-! ## Names of fields -/

theorem allDistinct_iff (ks : List Text) : allDistinct ks = true ↔ ks.Nodup := by
  induction ks with
  | nil => simp [allDistinct]
  | cons k ks ih => simp [allDistinct, ih]

/-- A closed object has fields exactly if its keys are names of fields, each at most once. -/
theorem fields?_object_eq_some_iff {names : List Text} {ms : List (List Unit × Json)}
    {values : List (Option Json)} :
    fields? names true (.object ms) = some values ↔
      ∃ named, textMembers? ms = some named ∧ (∀ m ∈ named, m.1 ∈ names) ∧
        (named.map (·.1)).Nodup ∧ values = names.map fun name => named.lookup name := by
  rw [fields?, Option.bind_eq_bind, Option.bind_eq_some_iff]
  refine exists_congr fun named => and_congr_right fun _ => ?_
  by_cases hknown : ∀ m ∈ named, m.1 ∈ names
  · have hall : named.filter (fun m => names.contains m.1) = named :=
      List.filter_eq_self.mpr fun m hm => List.contains_iff_mem.mpr (hknown m hm)
    simp only [hall, Bool.true_and, bne_self_eq_false, Bool.false_eq_true, if_false,
      allDistinct_iff, Option.ite_none_right_eq_some, Option.some.injEq]
    exact ⟨fun h => ⟨hknown, h.1, h.2.symm⟩, fun h => ⟨h.2.1, h.2.2.symm⟩⟩
  · have hfewer : (named.filter fun m => names.contains m.1).length ≠ named.length := fun h =>
      hknown fun m hm => List.contains_iff_mem.mp (List.length_filter_eq_length_iff.mp h m hm)
    simp only [Bool.true_and, bne_iff_ne, hfewer, ne_eq, not_false_eq_true, if_true]
    exact ⟨fun h => absurd h (by simp), fun h => absurd h.1 hknown⟩

/-- A key that names no field makes a closed object no record. -/
theorem fields?_eq_none_of_unknown {names : List Text} {ms : List (List Unit × Json)}
    {m : List Unit × Json} (hm : m ∈ ms) (hunknown : ∀ name ∈ names, textOf? m.1 ≠ some name) :
    fields? names true (.object ms) = none := by
  rw [Option.eq_none_iff_forall_ne_some]
  intro values h
  obtain ⟨named, hnamed, hknown, -, -⟩ := fields?_object_eq_some_iff.mp h
  have hmem : textOf? m.1 ∈ named.map fun m => some m.1 := by
    rw [← map_textOf?_of_textMembers? hnamed]
    exact List.mem_map_of_mem hm
  obtain ⟨n, hn, heq⟩ := List.mem_map.mp hmem
  exact hunknown n.1 (hknown n hn) heq.symm

/-- A key that stands twice makes an object no record. -/
theorem fields?_eq_none_of_twice {names : List Text} {ms : List (List Unit × Json)} {name : Text}
    {m n : List Unit × Json} (h : [m, n].Sublist ms) (hm : textOf? m.1 = some name)
    (hn : textOf? n.1 = some name) : fields? names true (.object ms) = none := by
  rw [Option.eq_none_iff_forall_ne_some]
  intro values hvalues
  obtain ⟨named, hnamed, -, hnodup, -⟩ := fields?_object_eq_some_iff.mp hvalues
  have hsub : [some name, some name].Sublist ((named.map (·.1)).map some) := by
    have hkeys := h.map (textOf? ·.1)
    rw [map_textOf?_of_textMembers? hnamed] at hkeys
    simpa [hm, hn, Function.comp_def] using hkeys
  exact List.nodup_iff_sublist.mp (hnodup.map fun _ _ => Option.some.inj) _ hsub

/-! ## Values of fields -/

/-- Where no key stands twice, the value at a key is that of the member with this key. -/
theorem lookup_eq_some_of_mem {ms : List (Text × Json)} (h : (ms.map (·.1)).Nodup) {k : Text}
    {v : Json} (hmem : (k, v) ∈ ms) : ms.lookup k = some v := by
  induction ms with
  | nil => exact absurd hmem List.not_mem_nil
  | cons m ms ih =>
      obtain ⟨hhead, htail⟩ := List.nodup_cons.mp h
      rcases List.mem_cons.mp hmem with rfl | hmem
      · exact List.lookup_cons_self
      · have hne : k ≠ m.1 := by
          rintro rfl
          exact hhead (List.mem_map_of_mem (f := (·.1)) hmem)
        rw [List.lookup_cons, beq_eq_false_iff_ne.mpr hne]
        exact ih htail hmem

end Json

end DocDigest
