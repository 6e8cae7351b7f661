import DocDigest.Text.Basic

/-!
# UTF-8

`encode` writes a text as bytes. `decode` reads bytes one at a time and gives a character for each
well-formed sequence and `none` for each longest run of bytes that begins a sequence but cannot be
completed (a byte that begins none is such a run by itself). The strict reading `ofBytes?` refuses
a text with such a run, and the lenient reading `ofBytesLenient` puts U+FFFD in its place.
-/

set_option autoImplicit false

namespace DocDigest

/-- The contents of a file. -/
abbrev Bytes := List UInt8

namespace Utf8

/-- The UTF-8 form of a text. -/
def encode (t : Text) : Bytes := t.flatMap String.utf8EncodeChar

/-- Where a reader stands between two bytes. -/
inductive State where
  | idle
  /-- A sequence is open: `more` bytes are to follow the next one, which has to lie between `low`
  and `high`, and `value` is what the bytes so far spell. -/
  | within (more low high value : Nat)

/-- Reads the first byte of a sequence: what it completes, and the state after it. The second byte
of a sequence is bounded so that no character has two forms, none is a surrogate, and none exceeds
U+10FFFF. -/
def first (b : UInt8) : List (Option Char) × State :=
  let n := b.toNat
  if n < 0x80 then ([some (Char.ofNat n)], .idle)
  -- bytes that continue a sequence, and first bytes of forms that are too long
  else if n < 0xC2 then ([none], .idle)
  else if n < 0xE0 then ([], .within 0 0x80 0xBF (n - 0xC0))
  else if n = 0xE0 then ([], .within 1 0xA0 0xBF 0)
  else if n = 0xED then ([], .within 1 0x80 0x9F 0xD)
  else if n < 0xF0 then ([], .within 1 0x80 0xBF (n - 0xE0))
  else if n = 0xF0 then ([], .within 2 0x90 0xBF 0)
  else if n < 0xF4 then ([], .within 2 0x80 0xBF (n - 0xF0))
  else if n = 0xF4 then ([], .within 2 0x80 0x8F 4)
  else ([none], .idle)

/-- Reads one byte: what it completes, and the state after it. A byte that cannot continue the open
sequence ends it and is read as a first byte. -/
def step (s : State) (b : UInt8) : List (Option Char) × State :=
  match s with
  | .idle => first b
  | .within more low high value =>
    if low ≤ b.toNat ∧ b.toNat ≤ high then
      let value := value * 64 + (b.toNat - 0x80)
      match more with
      | 0 => ([some (Char.ofNat value)], .idle)
      | more + 1 => ([], .within more 0x80 0xBF value)
    else (none :: (first b).1, (first b).2)

/-- Reads bytes from a state on; a sequence that is open at the end is broken. -/
def decodeFrom : State → Bytes → List (Option Char)
  | .idle, [] => []
  | .within _ _ _ _, [] => [none]
  | s, b :: bs => (step s b).1 ++ decodeFrom (step s b).2 bs

/-- The characters of a byte sequence, with `none` for each broken part. -/
def decode (bs : Bytes) : List (Option Char) := decodeFrom .idle bs

/-- The text that the bytes spell, if they are well-formed throughout. -/
def ofBytes? (bs : Bytes) : Option Text := (decode bs).mapM id

/-- The text that the bytes spell, with U+FFFD for each broken part. -/
def ofBytesLenient (bs : Bytes) : Text := (decode bs).map (·.getD '\uFFFD')

def dropByteOrderMark (t : Text) : Text := Text.dropLeading ['\uFEFF'] t

example : decode [0xE2, 0x82, 0x41, 0xF0, 0x80] = [none, some 'A', none, none] := by decide

example : ofBytes? (encode ['é', '日', '😀']) = some ['é', '日', '😀'] := by decide

/-! ## Reading what was written -/

theorem decodeFrom_last {low high value : Nat} {b : UInt8} (hl : low ≤ b.toNat)
    (hh : b.toNat ≤ high) (bs : Bytes) :
    decodeFrom (.within 0 low high value) (b :: bs)
      = some (Char.ofNat (value * 64 + (b.toNat - 0x80))) :: decodeFrom .idle bs := by
  simp [decodeFrom, step, hl, hh]

theorem decodeFrom_next {more low high value : Nat} {b : UInt8} (hl : low ≤ b.toNat)
    (hh : b.toNat ≤ high) (bs : Bytes) :
    decodeFrom (.within (more + 1) low high value) (b :: bs)
      = decodeFrom (.within more 0x80 0xBF (value * 64 + (b.toNat - 0x80))) bs := by
  simp [decodeFrom, step, hl, hh]

theorem decodeFrom_idle (b : UInt8) (bs : Bytes) :
    decodeFrom .idle (b :: bs) = (first b).1 ++ decodeFrom (first b).2 bs := rfl

theorem toNat_ofNat {n : Nat} (h : n < 256) : (UInt8.ofNat n).toNat = n := by
  rw [UInt8.toNat_ofNat', Nat.mod_eq_of_lt h]

/-- A character's code point is in range and no surrogate. -/
theorem toNat_valid (c : Char) : c.toNat < 0xD800 ∨ 0xDFFF < c.toNat ∧ c.toNat < 0x110000 :=
  c.valid

/-- A character that was written is read back, and what follows it is read as if alone. -/
theorem decodeFrom_utf8EncodeChar (c : Char) (bs : Bytes) :
    decodeFrom .idle (String.utf8EncodeChar c ++ bs) = some c :: decodeFrom .idle bs := by
  have hv := toNat_valid c
  have hc : Char.ofNat c.toNat = c := Char.ofNat_toNat c
  rw [String.utf8EncodeChar, show c.val.toNat = c.toNat from rfl]
  -- Only the code point matters from here on, with a case for each length of the sequence.
  generalize c.toNat = v at hv hc
  subst hc
  by_cases h1 : v ≤ 127
  · have hb : (UInt8.ofNat v).toNat = v := toNat_ofNat (by omega)
    rw [if_pos h1, List.singleton_append, decodeFrom_idle, first, hb, if_pos (by omega)]
    rfl
  by_cases h2 : v ≤ 2047
  · have hb : (UInt8.ofNat (v / 64 % 32 + 192)).toNat = v / 64 + 192 := by
      rw [toNat_ofNat (by omega)]; omega
    have hd : (UInt8.ofNat (v % 64 + 128)).toNat = v % 64 + 128 := toNat_ofNat (by omega)
    rw [if_neg h1, if_pos h2, List.cons_append, List.singleton_append, decodeFrom_idle, first, hb,
      if_neg (by omega), if_neg (by omega), if_pos (by omega), List.nil_append,
      decodeFrom_last (by omega) (by omega), hd]
    rw [show (v / 64 + 192 - 0xC0) * 64 + (v % 64 + 128 - 0x80) = v by
      omega]
  by_cases h3 : v ≤ 65535
  · have hb : (UInt8.ofNat (v / 4096 % 16 + 224)).toNat = v / 4096 + 224 := by
      rw [toNat_ofNat (by omega)]; omega
    have hd : (UInt8.ofNat (v / 64 % 64 + 128)).toNat = v / 64 % 64 + 128 :=
      toNat_ofNat (by omega)
    have he : (UInt8.ofNat (v % 64 + 128)).toNat = v % 64 + 128 := toNat_ofNat (by omega)
    rw [if_neg h1, if_neg h2, if_pos h3, List.cons_append, List.cons_append,
      List.singleton_append, decodeFrom_idle, first, hb, if_neg (by omega), if_neg (by omega),
      if_neg (by omega)]
    by_cases hE0 : v / 4096 + 224 = 0xE0
    · rw [if_pos hE0, List.nil_append, decodeFrom_next (by omega) (by omega),
        decodeFrom_last (by omega) (by omega), hd, he]
      rw [show (0 * 64 + (v / 64 % 64 + 128 - 0x80)) * 64 + (v % 64 + 128 - 0x80) = v by
        omega]
    by_cases hED : v / 4096 + 224 = 0xED
    · rw [if_neg hE0, if_pos hED, List.nil_append, decodeFrom_next (by omega) (by omega),
        decodeFrom_last (by omega) (by omega), hd, he]
      rw [show (0xD * 64 + (v / 64 % 64 + 128 - 0x80)) * 64 + (v % 64 + 128 - 0x80) = v by
        omega]
    · rw [if_neg hE0, if_neg hED, if_pos (by omega), List.nil_append,
        decodeFrom_next (by omega) (by omega), decodeFrom_last (by omega) (by omega), hd, he]
      rw [show ((v / 4096 + 224 - 0xE0) * 64 + (v / 64 % 64 + 128 - 0x80)) * 64
        + (v % 64 + 128 - 0x80) = v by omega]
  · have hb : (UInt8.ofNat (v / 262144 % 8 + 240)).toNat = v / 262144 + 240 := by
      rw [toNat_ofNat (by omega)]; omega
    have hd : (UInt8.ofNat (v / 4096 % 64 + 128)).toNat = v / 4096 % 64 + 128 :=
      toNat_ofNat (by omega)
    have he : (UInt8.ofNat (v / 64 % 64 + 128)).toNat = v / 64 % 64 + 128 :=
      toNat_ofNat (by omega)
    have hf : (UInt8.ofNat (v % 64 + 128)).toNat = v % 64 + 128 := toNat_ofNat (by omega)
    rw [if_neg h1, if_neg h2, if_neg h3, List.cons_append, List.cons_append, List.cons_append,
      List.singleton_append, decodeFrom_idle, first, hb, if_neg (by omega), if_neg (by omega),
      if_neg (by omega), if_neg (by omega), if_neg (by omega), if_neg (by omega)]
    by_cases hF0 : v / 262144 + 240 = 0xF0
    · rw [if_pos hF0, List.nil_append, decodeFrom_next (by omega) (by omega),
        decodeFrom_next (by omega) (by omega), decodeFrom_last (by omega) (by omega), hd, he, hf]
      rw [show ((0 * 64 + (v / 4096 % 64 + 128 - 0x80)) * 64 + (v / 64 % 64 + 128 - 0x80)) * 64
          + (v % 64 + 128 - 0x80) = v by
        omega]
    by_cases hF4 : v / 262144 + 240 < 0xF4
    · rw [if_neg hF0, if_pos hF4, List.nil_append, decodeFrom_next (by omega) (by omega),
        decodeFrom_next (by omega) (by omega), decodeFrom_last (by omega) (by omega), hd, he, hf]
      rw [show (((v / 262144 + 240 - 0xF0) * 64 + (v / 4096 % 64 + 128 - 0x80)) * 64
          + (v / 64 % 64 + 128 - 0x80)) * 64 + (v % 64 + 128 - 0x80) = v by
        omega]
    · rw [if_neg hF0, if_neg hF4, if_pos (by omega), List.nil_append,
        decodeFrom_next (by omega) (by omega), decodeFrom_next (by omega) (by omega),
        decodeFrom_last (by omega) (by omega), hd, he, hf]
      rw [show ((4 * 64 + (v / 4096 % 64 + 128 - 0x80)) * 64 + (v / 64 % 64 + 128 - 0x80)) * 64
          + (v % 64 + 128 - 0x80) = v by
        omega]

theorem decode_encode (t : Text) : decode (encode t) = t.map some := by
  induction t with
  | nil => rfl
  | cons c cs ih =>
    rw [decode, encode] at ih
    rw [decode, encode, List.flatMap_cons, decodeFrom_utf8EncodeChar, ih, List.map_cons]

/-- A text that was written is read back. -/
theorem ofBytes?_encode (t : Text) : ofBytes? (encode t) = some t := by
  rw [ofBytes?, decode_encode]
  induction t with
  | nil => rfl
  | cons c cs ih => simp [ih]

/-- The lenient reading agrees with the strict one on a text that was written. -/
theorem ofBytesLenient_encode (t : Text) : ofBytesLenient (encode t) = t := by
  rw [ofBytesLenient, decode_encode, List.map_map]
  exact List.map_id t

end Utf8

end DocDigest
