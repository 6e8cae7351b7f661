import DocDigest.Ignore.Filter
import DocDigest.Settings.Combine
import Mathlib.Data.List.Basic

/-!
# Excluded names

The excluded names of a run are mentioned in up to three places: the default names, unless one side
drops them, then the config file, then the command line. Each name stands once among them, and they
stand in the order in which they are first mentioned (`Settings.excludes_are_ordered_union`).

Adding one name keeps it so (`Excludes.Firsts.insert`), hence adding any number of names does
(`Excludes.Firsts.extend`). A filter only asks whether a name is excluded, so what it ignores and
prunes depends on which names are mentioned, and not on where or how often.
-/

set_option autoImplicit false

namespace DocDigest

namespace Excludes

/-- The excluded names are those of a listing, each of them once and in the order in which they
first occur in it. -/
structure Firsts (listing : List Text) (e : Excludes) : Prop where
  nodup : e.names.Nodup
  mem_iff : ∀ name, name ∈ e.names ↔ name ∈ listing
  inOrder : e.names.Pairwise fun a b => listing.idxOf a < listing.idxOf b

variable {listing : List Text} {e : Excludes} {name : Text}

theorem contains_iff : e.contains name = true ↔ name ∈ e.names :=
  List.contains_iff_mem

theorem insert_of_mem (h : name ∈ e.names) : e.insert name = e :=
  if_pos (contains_iff.mpr h)

theorem insert_of_not_mem (h : name ∉ e.names) : e.insert name = ⟨e.names ++ [name]⟩ :=
  if_neg fun hcontains => h (contains_iff.mp hcontains)

theorem firsts_none : Firsts [] none where
  nodup := List.nodup_nil
  mem_iff := fun _ => Iff.rfl
  inOrder := List.Pairwise.nil

/-- A further name behind a listing does not change where the names of the listing first occur. -/
theorem Firsts.inOrder_append (h : Firsts listing e) (name : Text) :
    e.names.Pairwise fun a b => (listing ++ [name]).idxOf a < (listing ++ [name]).idxOf b := by
  refine h.inOrder.imp_of_mem fun ha hb hlt => ?_
  rw [List.idxOf_append_of_mem ((h.mem_iff _).mp ha),
    List.idxOf_append_of_mem ((h.mem_iff _).mp hb)]
  exact hlt

/-- One more name is added at the end of the listing. -/
theorem Firsts.insert (h : Firsts listing e) (name : Text) :
    Firsts (listing ++ [name]) (e.insert name) := by
  by_cases hmem : name ∈ e.names
  · -- The listing mentions the name already, and nothing is added.
    have hlisted : name ∈ listing := (h.mem_iff name).mp hmem
    rw [insert_of_mem hmem]
    refine ⟨h.nodup, fun other => ?_, h.inOrder_append name⟩
    rw [h.mem_iff, List.mem_append, List.mem_singleton]
    refine (or_iff_left_of_imp ?_).symm
    rintro rfl
    exact hlisted
  · have hlisted : name ∉ listing := fun hin => hmem ((h.mem_iff name).mpr hin)
    rw [insert_of_not_mem hmem]
    refine ⟨?nodup, fun other => ?mem, ?order⟩
    case nodup =>
      refine List.nodup_append.mpr ⟨h.nodup, List.pairwise_singleton _ _, ?_⟩
      rintro a ha b hb rfl
      exact hmem (List.mem_singleton.mp hb ▸ ha)
    case mem =>
      rw [List.mem_append, List.mem_append, h.mem_iff]
    case order =>
      -- The new name first occurs at the end of the listing, behind all others.
      refine List.pairwise_append.mpr ⟨h.inOrder_append name, List.pairwise_singleton _ _, ?_⟩
      intro a ha b hb
      obtain rfl := List.mem_singleton.mp hb
      have hin : a ∈ listing := (h.mem_iff a).mp ha
      rw [List.idxOf_append_of_mem hin, List.idxOf_append_of_notMem hlisted]
      exact Nat.lt_of_lt_of_le (List.idxOf_lt_length_of_mem hin) (Nat.le_add_right _ _)

/-- Adding names one after the other goes on with the listing. -/
theorem Firsts.extend (h : Firsts listing e) (names : List Text) :
    Firsts (listing ++ names) (e.extend names) := by
  induction names generalizing listing e with
  | nil =>
      rwa [List.append_nil]
  | cons name names ih =>
      rw [List.append_cons]
      exact ih (h.insert name)

/-- No default name stands twice. -/
theorem firsts_default : Firsts default.names default := by
  have heq : none.extend default.names = default := by decide
  have hfirsts : Firsts ([] ++ default.names) (none.extend default.names) :=
    firsts_none.extend default.names
  rwa [heq] at hfirsts

end Excludes

/-! ## Filters -/

namespace Filter

variable {d e : Excludes}

/-- A filter makes no difference between excluded names that are the same but for their order and
their number. -/
theorem same_of_same_names (h : ∀ name, name ∈ d.names ↔ name ∈ e.names) (root : Path)
    (rules : List Rule) :
    (∀ p, ignores ⟨root, rules, d⟩ p = ignores ⟨root, rules, e⟩ p) ∧
      ∀ name, prunes ⟨root, rules, d⟩ name = prunes ⟨root, rules, e⟩ name := by
  have hcontains : d.contains = e.contains := by
    funext name
    rw [Bool.eq_iff_iff, Excludes.contains_iff, Excludes.contains_iff]
    exact h name
  constructor
  · intro p
    rw [ignores, ignores, ignoresNames, ignoresNames, hcontains]
  · intro name
    rw [prunes, prunes, hcontains]

end Filter

/-! ## The excluded names of a run -/

namespace Settings

/-- Whether the command line or the config file drops the default names. -/
def dropsDefaults (file : Config) (choices : Choices) : Bool :=
  choices.noDefaultExcludes || file.defaultExcludes == some false

/-- All mentions of excluded names: the default names, unless a side drops them, then those of the
config file, then those of the command line. -/
def mentions (file : Config) (choices : Choices) : List Text :=
  (if dropsDefaults file choices then [] else Excludes.default.names) ++ file.exclude
    ++ choices.exclude

variable {file : Config} {choices : Choices} {name : Text}

theorem mem_mentions_iff :
    name ∈ mentions file choices ↔
      (dropsDefaults file choices = false ∧ name ∈ Excludes.default.names) ∨
        name ∈ file.exclude ∨ name ∈ choices.exclude := by
  rw [mentions, List.mem_append, List.mem_append, or_assoc]
  cases dropsDefaults file choices <;> simp

theorem not_dropsDefaults (file : Config) (choices : Choices) :
    (!dropsDefaults file choices)
      = (!choices.noDefaultExcludes && file.defaultExcludes.getD true) := by
  rw [dropsDefaults, Bool.not_or]
  rcases file.defaultExcludes with _ | _ | _ <;> rfl

/-- The excluded names of a run are all that are mentioned, each where it is first mentioned. -/
theorem firsts_excludesOf (file : Config) (choices : Choices) :
    Excludes.Firsts (mentions file choices) (excludesOf file choices) := by
  have hbase : Excludes.Firsts
      (if dropsDefaults file choices then [] else Excludes.default.names)
      (if !dropsDefaults file choices then Excludes.default else Excludes.none) := by
    cases dropsDefaults file choices with
    | false => exact Excludes.firsts_default
    | true => exact Excludes.firsts_none
  rw [not_dropsDefaults] at hbase
  exact (hbase.extend file.exclude).extend choices.exclude

/-- None of the excluded names of a run stands twice. They are the names of the config file, those
of the command line and, unless one of the two drops them, the default names. They stand in the
order in which they are first mentioned. If the same names are mentioned for another run, however
often and on whichever side, a filter with them ignores the same paths and prunes the same
directories. -/
theorem excludes_are_ordered_union (root : Path) (file : Config) (choices : Choices) :
    let excludes := (combine root file choices).excludes
    excludes.names.Nodup ∧
      (∀ name, name ∈ excludes.names ↔
        (choices.noDefaultExcludes = false ∧ file.defaultExcludes ≠ some false ∧
            name ∈ Excludes.default.names) ∨
          name ∈ file.exclude ∨ name ∈ choices.exclude) ∧
      excludes.names.Pairwise (fun a b =>
        (mentions file choices).idxOf a < (mentions file choices).idxOf b) ∧
      ∀ (file' : Config) (choices' : Choices),
        (∀ name, name ∈ mentions file choices ↔ name ∈ mentions file' choices') →
        let excludes' := (combine root file' choices').excludes
        ∀ rules,
          (∀ p, Filter.ignores ⟨root, rules, excludes⟩ p
            = Filter.ignores ⟨root, rules, excludes'⟩ p) ∧
          ∀ name, Filter.prunes ⟨root, rules, excludes⟩ name
            = Filter.prunes ⟨root, rules, excludes'⟩ name := by
  intro excludes
  have hfirsts : Excludes.Firsts (mentions file choices) excludes :=
    firsts_excludesOf file choices
  refine ⟨hfirsts.nodup, fun name => ?_, hfirsts.inOrder, ?_⟩
  · rw [hfirsts.mem_iff, mem_mentions_iff]
    simp [dropsDefaults, and_assoc]
  · intro file' choices' hsame excludes' rules
    have hfirsts' : Excludes.Firsts (mentions file' choices') excludes' :=
      firsts_excludesOf file' choices'
    refine Filter.same_of_same_names (fun name => ?_) root rules
    rw [hfirsts.mem_iff, hfirsts'.mem_iff]
    exact hsame name

/-- A name that moves from the config file to the command line, and one that moves the other way and
is then repeated, change the order of the excluded names and nothing else. -/
theorem excludes_are_ordered_union_of_moved_names :
    let file := { Config.empty with exclude := ["tmp".toList, "build".toList, "tmp".toList] }
    let choices := { Choices.empty with exclude := ["lib".toList] }
    let file' := { Config.empty with exclude := ["lib".toList, "lib".toList] }
    let choices' := { Choices.empty with exclude := ["tmp".toList] }
    let excludes := (combine ⟨[]⟩ file choices).excludes
    let excludes' := (combine ⟨[]⟩ file' choices').excludes
    (∀ name, name ∈ mentions file choices ↔ name ∈ mentions file' choices') ∧
      excludes.names = Excludes.default.names ++ ["tmp".toList, "lib".toList] ∧
      excludes'.names = Excludes.default.names ++ ["lib".toList, "tmp".toList] ∧
      ∀ rules,
        (∀ p, Filter.ignores ⟨⟨[]⟩, rules, excludes⟩ p
          = Filter.ignores ⟨⟨[]⟩, rules, excludes'⟩ p) ∧
        ∀ name, Filter.prunes ⟨⟨[]⟩, rules, excludes⟩ name
          = Filter.prunes ⟨⟨[]⟩, rules, excludes'⟩ name := by
  intro file choices file' choices' excludes excludes'
  have hthere : ∀ name ∈ mentions file choices, name ∈ mentions file' choices' := by decide
  have hback : ∀ name ∈ mentions file' choices', name ∈ mentions file choices := by decide
  have hsame : ∀ name, name ∈ mentions file choices ↔ name ∈ mentions file' choices' :=
    fun name => ⟨hthere name, hback name⟩
  refine ⟨hsame, by decide, by decide, ?_⟩
  exact (excludes_are_ordered_union ⟨[]⟩ file choices).2.2.2 file' choices' hsame

end Settings

end DocDigest
