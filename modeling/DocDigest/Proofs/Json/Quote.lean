import Mathlib.Tactic.SplitIfs
import DocDigest.Json.Parser
import DocDigest.Json.Printer

/-!
# Strings read back

A text that was written in quotes is read back, escapes and all, and the reader stops behind its
closing quote (`Json.units?_quoted`).
-/

set_option autoImplicit false

namespace DocDigest

namespace Json

/-! ## Escapes by code point -/

theorem hexValue?_hexDigit {n : Nat} (h : n < 16) : hexValue? (hexDigit n) = some n := by
  have hall : ∀ n < 16, hexValue? (hexDigit n) = some n := by
    decide
  exact hall n h

/-- The four digits of a code point below the surrogates stand for its character. -/
theorem hexUnit?_hexDigits {code : Nat} (h : code < 0xD800) :
    hexUnit? (hexDigit (code / 4096 % 16)) (hexDigit (code / 256 % 16))
      (hexDigit (code / 16 % 16)) (hexDigit (code % 16)) = some (.char (Char.ofNat code)) := by
  have hdigit : ∀ n, hexValue? (hexDigit (n % 16)) = some (n % 16) := fun n =>
    hexValue?_hexDigit (Nat.mod_lt n (by decide))
  have hcode : ((code / 4096 % 16 * 16 + code / 256 % 16) * 16 + code / 16 % 16) * 16 + code % 16
      = code := by
    omega
  have hhigh : isHighHalf code = false := by
    simp only [isHighHalf, Bool.and_eq_false_iff, decide_eq_false_iff_not]
    omega
  have hlow : isLowHalf code = false := by
    simp only [isLowHalf, Bool.and_eq_false_iff, decide_eq_false_iff_not]
    omega
  simp only [hexUnit?, hdigit, bind, Option.bind, hcode, hhigh, hlow, Bool.or_false,
    Bool.false_eq_true, if_false]

theorem units?_escapeCode {code : Nat} (h : code < 0xD800) (rest : Text) :
    units? (escapeCode code ++ rest) = (units? rest).map (consUnit (.char (Char.ofNat code))) := by
  rw [escapeCode]
  simp only [List.cons_append, List.nil_append]
  rw [units?, hexUnit?_hexDigits h, Option.bind_some]

/-! ## Characters and texts -/

/-- A letter behind a backslash stands for its character. -/
theorem units?_letter {e c : Char} (he : e ≠ 'u') (h : escaped? e = some c) (rest : Text) :
    units? ('\\' :: e :: rest) = (units? rest).map (consUnit (.char c)) := by
  rw [units?, h, Option.bind_some]
  rintro a b c' d rest' rfl
  exact absurd rfl he

/-- A character that was written is read back, and what follows it is read as if alone. -/
theorem units?_escape (c : Char) (rest : Text) :
    units? (escape c ++ rest) = (units? rest).map (consUnit (.char c)) := by
  rw [escape]
  split_ifs with hquote hslash hback hform hfeed hreturn htab hcontrol
  · exact units?_letter (by decide) (by rw [hquote]; rfl) rest
  · exact units?_letter (by decide) (by rw [hslash]; rfl) rest
  · exact units?_letter (by decide) (by rw [hback]; rfl) rest
  · exact units?_letter (by decide) (by rw [hform]; rfl) rest
  · exact units?_letter (by decide) (by rw [hfeed]; rfl) rest
  · exact units?_letter (by decide) (by rw [hreturn]; rfl) rest
  · exact units?_letter (by decide) (by rw [htab]; rfl) rest
  · rw [units?_escapeCode (by omega), Char.ofNat_toNat]
  · rw [List.singleton_append, units?]
    · rw [if_neg (by simp [hslash, hcontrol])]
    · exact hquote
    · rintro a b c' d rest' rfl
      exact absurd rfl hslash
    · rintro e rest' rfl
      exact absurd rfl hslash

/-- A text that was written in quotes is read back from behind the opening quote. -/
theorem units?_quoted (t rest : Text) :
    units? ((unitsOf t).flatMap escapeUnit ++ '"' :: rest) = some (unitsOf t, rest) := by
  induction t with
  | nil =>
      rfl
  | cons c cs ih =>
      have hunits : unitsOf (c :: cs) = .char c :: unitsOf cs := rfl
      rw [hunits, List.flatMap_cons, List.append_assoc, escapeUnit, units?_escape, ih]
      rfl

end Json

end DocDigest
