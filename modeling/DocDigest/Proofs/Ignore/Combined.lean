import DocDigest.Ignore.Filter
import DocDigest.Proofs.Text.Lines

/-!
# More rules

The rules of two texts with a line feed between them are the rules of the first text and then those
of the second, however the lines of the texts end (`Rule.ofText_append_lineFeed`). The filter with
the rules and the excluded names of two filters ignores what one of them ignores, and no more
(`Filter.ignores_combined`). No rule takes back what another one says, so a filter that extends
another one ignores all that this one does (`Filter.Extends.ignores`).
-/

set_option autoImplicit false

namespace DocDigest

/-! ## Rules files -/

namespace Rule

theorem ofLine?_eq_of_trim_eq {l m : Text} (h : Text.trim l = Text.trim m) :
    ofLine? l = ofLine? m := by
  rw [ofLine?, h, ofLine?]

/-- How the lines of a rules file end does not matter. -/
theorem ofText_eq (t : Text) : ofText t = (Text.splitOn '\n' t).filterMap ofLine? :=
  Text.filterMap_closeLines rfl (fun l => ofLine?_eq_of_trim_eq (Text.trim_dropReturn l)) _

/-- The rules of two texts, one below the other. -/
theorem ofText_append_lineFeed (t u : Text) : ofText (t ++ '\n' :: u) = ofText t ++ ofText u := by
  rw [ofText_eq, ofText_eq, ofText_eq, Text.splitOn_append_cons, List.filterMap_append]

end Rule

namespace Filter

/-! ## Two filters together -/

/-- The filter with the rules of a text. -/
def ofText (root : Path) (t : Text) (excludes : Excludes) : Filter :=
  ⟨root, Rule.ofText t, excludes⟩

/-- The filter with the rules and the excluded names of both filters. -/
def combined (f g : Filter) : Filter :=
  ⟨f.root, f.rules ++ g.rules, f.excludes.extend g.excludes.names⟩

variable {f g : Filter}

theorem contains_excludes_combined (name : Text) :
    (f.combined g).excludes.contains name
      = (f.excludes.contains name || g.excludes.contains name) :=
  Excludes.contains_extend f.excludes g.excludes.names name

theorem ignoresNames_combined (names : List Text) :
    (f.combined g).ignoresNames names = (f.ignoresNames names || g.ignoresNames names) := by
  have hnames : names.any (f.combined g).excludes.contains
      = (names.any f.excludes.contains || names.any g.excludes.contains) := by
    rw [Bool.eq_iff_iff, Bool.or_eq_true, List.any_eq_true, List.any_eq_true, List.any_eq_true]
    simp only [contains_excludes_combined, Bool.or_eq_true, and_or_left, exists_or]
  rw [ignoresNames, ignoresNames, ignoresNames, hnames, combined, List.any_append]
  simp only [Bool.or_assoc, Bool.or_left_comm]

/-- Together, two filters on one root ignore what one of them ignores. -/
theorem ignores_combined (hroot : f.root = g.root) (p : Path) :
    (f.combined g).ignores p = (f.ignores p || g.ignores p) := by
  rw [ignores, ignoresNames_combined, ignores, ignores, ← hroot, combined]

theorem ofText_append_lineFeed (root : Path) (t u : Text) (d e : Excludes) :
    ofText root (t ++ '\n' :: u) (d.extend e.names)
      = (ofText root t d).combined (ofText root u e) := by
  rw [ofText, Rule.ofText_append_lineFeed]
  rfl

/-! ## Filters with more rules -/

/-- A filter that has the root of another one, and all its rules and excluded names. -/
structure Extends (g f : Filter) : Prop where
  root : g.root = f.root
  rules : f.rules ⊆ g.rules
  excludes : ∀ name, f.excludes.contains name = true → g.excludes.contains name = true

theorem combined_extends (f g : Filter) : (f.combined g).Extends f where
  root := rfl
  rules := List.subset_append_left f.rules g.rules
  excludes := by
    intro name hname
    rw [contains_excludes_combined, hname, Bool.true_or]

theorem Extends.ignores (h : g.Extends f) {p : Path} (hp : f.ignores p = true) :
    g.ignores p = true := by
  rw [Filter.ignores, ignoresNames, Bool.or_eq_true, List.any_eq_true, List.any_eq_true] at hp
  rw [Filter.ignores, ignoresNames, Bool.or_eq_true, List.any_eq_true, List.any_eq_true, h.root]
  rcases hp with ⟨name, hname, hcontains⟩ | ⟨rule, hrule, hcovers⟩
  · exact Or.inl ⟨name, hname, h.excludes name hcontains⟩
  · exact Or.inr ⟨rule, h.rules hrule, hcovers⟩

theorem Extends.prunes (h : g.Extends f) {name : Text} (hname : f.prunes name = true) :
    g.prunes name = true := by
  rw [Filter.prunes, Bool.or_eq_true, List.any_eq_true] at hname
  rw [Filter.prunes, Bool.or_eq_true, List.any_eq_true]
  rcases hname with hcontains | ⟨rule, hrule, hcovers⟩
  · exact Or.inl (h.excludes name hcontains)
  · exact Or.inr ⟨rule, h.rules hrule, hcovers⟩

/-- A line more makes a filter ignore more, wherever it stands and whatever it says. -/
theorem ofText_with_line_extends (root : Path) (t line u : Text) (e : Excludes) :
    (ofText root (t ++ '\n' :: (line ++ '\n' :: u)) e).Extends
      (ofText root (t ++ '\n' :: u) e) where
  root := rfl
  rules := by
    rw [ofText, ofText, Rule.ofText_append_lineFeed, Rule.ofText_append_lineFeed,
      Rule.ofText_append_lineFeed]
    exact ((List.sublist_append_right _ _).append_left _).subset
  excludes := fun _ h => h

end Filter

end DocDigest
