import DocDigest.Text.Basic

/-!
# Excluded names

Names that exclude a path wherever they stand in it.
-/

set_option autoImplicit false

namespace DocDigest

/-- The names that are excluded, in the order in which they are shown. -/
structure Excludes where
  names : List Text
deriving DecidableEq

namespace Excludes

/-- The names that are excluded unless the user says otherwise. -/
def default : Excludes :=
  ⟨["node_modules".toList, ".git".toList, "dist".toList, "build".toList, "coverage".toList]⟩

def none : Excludes := ⟨[]⟩

def contains (e : Excludes) (name : Text) : Bool := e.names.contains name

/-- Adds a name at the end unless it is there. -/
def insert (e : Excludes) (name : Text) : Excludes :=
  if e.contains name then e else ⟨e.names ++ [name]⟩

def extend (e : Excludes) (names : List Text) : Excludes := names.foldl insert e

/-- Adding a name excludes it and nothing else. -/
theorem contains_insert (e : Excludes) (name other : Text) :
    (e.insert name).contains other = (e.contains other || other == name) := by
  by_cases h : e.contains name = true
  · by_cases ho : other = name
    · subst ho; simp [insert, h]
    · simp [insert, h, ho]
  · simp only [insert, h, Bool.false_eq_true, if_false]
    by_cases ho : other = name <;> simp [contains, ho]

theorem contains_extend (e : Excludes) (names : List Text) (other : Text) :
    (e.extend names).contains other = (e.contains other || names.contains other) := by
  induction names generalizing e with
  | nil => simp [extend]
  | cons n ns ih =>
    rw [extend, List.foldl_cons, ← extend, ih, contains_insert, List.contains_cons, Bool.or_assoc]

end Excludes

end DocDigest
