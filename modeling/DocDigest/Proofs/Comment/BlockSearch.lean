import DocDigest.Proofs.Comment.Place
import DocDigest.Proofs.Text.Occurrence

/-!
# What the search for a block comment finds

The search gives the first opener together with the first closer behind it (`first?_eq_some_iff`),
and nothing exactly if no opener has a closer behind it (`first?_eq_none_iff`): an opener that
nothing closes leaves no later one closed.
-/

set_option autoImplicit false

namespace DocDigest

namespace Block

/-- The mark that opens a block comment. -/
def opener : Text := ['/', '*', '*']

/-- The mark that closes a block comment. -/
def closer : Text := ['*', '/']

theorem opener_ne_nil : opener ≠ [] := List.cons_ne_nil _ _

theorem closer_ne_nil : closer ≠ [] := List.cons_ne_nil _ _

theorem byteLength_opener : opener.byteLength = 3 := by decide

theorem byteLength_closer : closer.byteLength = 2 := by decide

/-! ## The closer -/

theorem close?_closer (offset : Nat) (rest : Text) :
    close? offset (closer ++ rest) = some (offset + 2) := rfl

theorem close?_cons {c : Char} {cs : Text} (h : ¬ closer <+: c :: cs) (offset : Nat) :
    close? offset (c :: cs) = close? (offset + c.utf8Size) cs := by
  rw [close?]
  rintro rest rfl rfl
  exact h ⟨rest, rfl⟩

theorem close?_append {body rest : Text} (h : Text.Absent closer body rest) (offset : Nat) :
    close? offset (body ++ rest) = close? (offset + body.byteLength) rest := by
  induction body generalizing offset with
  | nil =>
      rfl
  | cons c cs ih =>
      obtain ⟨hc, hcs⟩ := Text.absent_cons.mp h
      rw [List.cons_append, close?_cons hc, ih hcs, Text.byteLength, Nat.add_assoc]

/-- The search for a closer gives the place behind the first one. -/
theorem close?_eq_some_iff {offset stop : Nat} {t : Text} :
    close? offset t = some stop ↔
      ∃ body rest, t = body ++ (closer ++ rest) ∧ Text.Absent closer body (closer ++ rest) ∧
        stop = offset + body.byteLength + 2 := by
  have hfound : ∀ {body rest : Text}, Text.Absent closer body (closer ++ rest) →
      close? offset (body ++ (closer ++ rest)) = some (offset + body.byteLength + 2) :=
    fun h => by rw [close?_append h, close?_closer]
  constructor
  · intro hs
    rcases Text.absent_or_first closer t with h | ⟨body, rest, rfl, h⟩
    · rw [← List.append_nil t, close?_append h] at hs
      exact absurd hs (by simp [close?])
    · rw [hfound h, Option.some.injEq] at hs
      exact ⟨body, rest, rfl, h, hs.symm⟩
  · rintro ⟨body, rest, rfl, h, rfl⟩
    exact hfound h

theorem close?_eq_none_iff {offset : Nat} {t : Text} :
    close? offset t = none ↔ ∀ body rest, t ≠ body ++ (closer ++ rest) := by
  rcases Text.absent_or_first closer t with h | ⟨body, rest, rfl, h⟩
  · refine ⟨fun _ body rest ht => ?_, fun _ => ?_⟩
    · exact (Text.absent_nil_iff closer_ne_nil).mp h ⟨body, rest, by rw [ht, List.append_assoc]⟩
    · rw [← List.append_nil t, close?_append h]
      rfl
  · rw [close?_append h, close?_closer]
    exact iff_of_false (Option.some_ne_none _) fun hno => hno body rest rfl

/-! ## The whole comment -/

theorem first?_opener (offset : Nat) (rest : Text) :
    first? offset (opener ++ rest) = (close? (offset + 3) rest).map (Span.mk offset) := rfl

theorem first?_cons {c : Char} {cs : Text} (h : ¬ opener <+: c :: cs) (offset : Nat) :
    first? offset (c :: cs) = first? (offset + c.utf8Size) cs := by
  rw [first?]
  rintro rest rfl rfl
  exact h ⟨rest, rfl⟩

/-- The search goes on behind a text in which no opener begins. -/
theorem first?_append {gap rest : Text} (h : Text.Absent opener gap rest) (offset : Nat) :
    first? offset (gap ++ rest) = first? (offset + gap.byteLength) rest := by
  induction gap generalizing offset with
  | nil =>
      rfl
  | cons c cs ih =>
      obtain ⟨hc, hcs⟩ := Text.absent_cons.mp h
      rw [List.cons_append, first?_cons hc, ih hcs, Text.byteLength, Nat.add_assoc]

/-- The search gives the first opener and the first closer behind it. -/
theorem first?_eq_some_iff {offset : Nat} {t : Text} {s : Span} :
    first? offset t = some s ↔
      ∃ gap body rest, t = gap ++ (opener ++ (body ++ (closer ++ rest))) ∧
        Text.Absent opener gap (opener ++ (body ++ (closer ++ rest))) ∧
        Text.Absent closer body (closer ++ rest) ∧
        s = ⟨offset + gap.byteLength, offset + gap.byteLength + 3 + body.byteLength + 2⟩ := by
  constructor
  · intro hs
    rcases Text.absent_or_first opener t with h | ⟨gap, after, rfl, h⟩
    · rw [← List.append_nil t, first?_append h] at hs
      exact absurd hs (by simp [first?])
    · rw [first?_append h, first?_opener, Option.map_eq_some_iff] at hs
      obtain ⟨stop, hstop, rfl⟩ := hs
      obtain ⟨body, rest, rfl, hbody, rfl⟩ := close?_eq_some_iff.mp hstop
      exact ⟨gap, body, rest, rfl, h, hbody, rfl⟩
  · rintro ⟨gap, body, rest, rfl, hgap, hbody, rfl⟩
    rw [first?_append hgap, first?_opener, close?_append hbody, close?_closer, Option.map_some]

/-- There is nothing to find exactly if no opener has a closer behind it. -/
theorem first?_eq_none_iff {offset : Nat} {t : Text} :
    first? offset t = none ↔
      ∀ gap body rest, t ≠ gap ++ (opener ++ (body ++ (closer ++ rest))) := by
  constructor
  · rintro hnone gap body rest rfl
    rcases Text.absent_or_first opener (gap ++ (opener ++ (body ++ (closer ++ rest))))
      with h | ⟨lead, after, heq, h⟩
    · exact (Text.absent_nil_iff opener_ne_nil).mp h
        ⟨gap, body ++ (closer ++ rest), List.append_assoc _ _ _⟩
    · -- The first opener stands before the closed one, and its text holds the same closer.
      rw [heq, first?_append h, first?_opener, Option.map_eq_none_iff, close?_eq_none_iff]
        at hnone
      obtain ⟨mid, rfl, hmid⟩ := h.exists_append heq.symm
      have hcut : opener ++ after = (mid ++ (opener ++ body)) ++ (closer ++ rest) := by
        rw [hmid, List.append_assoc, List.append_assoc]
      have hle : opener.byteLength ≤ (mid ++ (opener ++ body)).byteLength := by
        rw [Text.byteLength_append, Text.byteLength_append]
        omega
      obtain ⟨inner, -, hinner⟩ := Text.exists_append_of_byteLength_le hcut hle
      exact hnone inner rest hinner
  · intro hno
    cases hs : first? offset t with
    | none =>
        rfl
    | some s =>
        obtain ⟨gap, body, rest, ht, -⟩ := first?_eq_some_iff.mp hs
        exact absurd ht (hno gap body rest)

/-! ## Searching from a later place -/

/-- The first comment starts no later than any opener that has a closer behind it. -/
theorem exists_first?_le (offset : Nat) (gap body rest : Text) :
    ∃ s, first? offset (gap ++ (opener ++ (body ++ (closer ++ rest)))) = some s ∧
      s.start ≤ offset + gap.byteLength := by
  cases hs : first? offset (gap ++ (opener ++ (body ++ (closer ++ rest)))) with
  | none =>
      exact absurd rfl (first?_eq_none_iff.mp hs gap body rest)
  | some s =>
      obtain ⟨lead, body', rest', heq, hlead, -, rfl⟩ := first?_eq_some_iff.mp hs
      obtain ⟨mid, rfl, -⟩ := hlead.exists_append heq.symm
      refine ⟨_, rfl, ?_⟩
      rw [Text.byteLength_append]
      show offset + lead.byteLength ≤ offset + (lead.byteLength + mid.byteLength)
      omega

/-- A comment that starts behind a stretch is found from behind the stretch too. -/
theorem first?_of_append {offset : Nat} {mid rest : Text} {s : Span}
    (h : first? offset (mid ++ rest) = some s) (hle : offset + mid.byteLength ≤ s.start) :
    first? (offset + mid.byteLength) rest = some s := by
  obtain ⟨gap, body, after, heq, hgap, hbody, rfl⟩ := first?_eq_some_iff.mp h
  have hlen : mid.byteLength ≤ gap.byteLength := Nat.le_of_add_le_add_left hle
  obtain ⟨gap, rfl, rfl⟩ := Text.exists_append_of_byteLength_le heq hlen
  refine first?_eq_some_iff.mpr ⟨gap, body, after, rfl, (Text.absent_append.mp hgap).2, hbody, ?_⟩
  simp only [Text.byteLength_append, Nat.add_assoc]

theorem first?_eq_none_of_append {offset : Nat} {mid rest : Text}
    (h : first? offset (mid ++ rest) = none) : first? (offset + mid.byteLength) rest = none := by
  refine first?_eq_none_iff.mpr ?_
  rintro gap body after rfl
  exact first?_eq_none_iff.mp h (mid ++ gap) body after (List.append_assoc _ _ _).symm

end Block

end DocDigest
