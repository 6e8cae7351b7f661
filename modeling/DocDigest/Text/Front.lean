/-!
# Taking a front off a list

`after? front l` is what follows `front` in a list `l` that begins with it. The main statement,
`after?_eq_some_iff`, says that this is the one way to write `l` as `front` and something behind it.
-/

set_option autoImplicit false

namespace DocDigest

variable {α : Type} [DecidableEq α]

/-- What follows `front` in a list that begins with it. -/
def after? : List α → List α → Option (List α)
  | [], l => some l
  | _ :: _, [] => none
  | f :: fs, x :: xs => if f = x then after? fs xs else none

theorem after?_eq_some_iff {front l rest : List α} :
    after? front l = some rest ↔ l = front ++ rest := by
  induction front generalizing l with
  | nil => simp [after?]
  | cons f fs ih =>
    cases l with
    | nil => simp [after?]
    | cons x xs => by_cases h : f = x <;> simp [after?, h, ih, Ne.symm]

/-- Nothing follows a front that the list does not begin with. -/
theorem after?_eq_none_iff {front l : List α} : after? front l = none ↔ ¬ front <+: l := by
  rw [Option.eq_none_iff_forall_ne_some]
  constructor
  · rintro h ⟨rest, rfl⟩
    exact h rest (after?_eq_some_iff.mpr rfl)
  · intro h rest hr
    exact h ⟨rest, (after?_eq_some_iff.mp hr).symm⟩

theorem after?_append (front rest : List α) : after? front (front ++ rest) = some rest :=
  after?_eq_some_iff.mpr rfl

end DocDigest
