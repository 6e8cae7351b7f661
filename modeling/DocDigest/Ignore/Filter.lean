import DocDigest.Ignore.Excludes
import DocDigest.Ignore.Rule
import DocDigest.Path.Basic

/-!
# Filtering paths

A filter ignores a path below its root if an excluded name stands in the path or a rule covers it.
A directory whose name alone decides this for everything below it can be left out of a walk.
-/

set_option autoImplicit false

namespace DocDigest

/-- What decides whether a path is ignored. -/
structure Filter where
  root : Path
  rules : List Rule
  excludes : Excludes

namespace Filter

/-- Whether a path with the given names below the root is ignored. -/
def ignoresNames (f : Filter) (names : List Text) : Bool :=
  names.any f.excludes.contains || f.rules.any (·.covers (Text.joinWith ['/'] names) names)

/-- Whether a path is ignored. Dots in the path do not count, nor do the names on the way to the
root. -/
def ignores (f : Filter) (p : Path) : Bool := f.ignoresNames (Path.namesBelow f.root p)

/-- Whether everything in a directory of this name is ignored, wherever the directory is. -/
def prunes (f : Filter) (name : Text) : Bool :=
  f.excludes.contains name || f.rules.any (·.coversName name)

/-- A name that prunes ignores every path that it stands in. -/
theorem ignoresNames_of_prunes {f : Filter} {name : Text} {names : List Text}
    (hp : f.prunes name = true) (hm : name ∈ names) : f.ignoresNames names = true := by
  rcases Bool.or_eq_true _ _ ▸ hp with h | h
  · have hx : names.any f.excludes.contains = true := List.any_eq_true.mpr ⟨name, hm, h⟩
    simp [ignoresNames, hx]
  · obtain ⟨r, hr, hc⟩ := List.any_eq_true.mp h
    have hx : r.covers (Text.joinWith ['/'] names) names = true := by
      have hn : names.any r.coversName = true := List.any_eq_true.mpr ⟨name, hm, hc⟩
      simp [Rule.covers, hn]
    have hy : f.rules.any (·.covers (Text.joinWith ['/'] names) names) = true :=
      List.any_eq_true.mpr ⟨r, hr, hx⟩
    simp [ignoresNames, hy]

end Filter

end DocDigest
