import DocDigest.Proofs.Comment.FreshScan

/-!
# Scanning a text that stands somewhere else

A search does not depend on where its text stands (`Shape.nextFrom_append_left`). So a scan behind a
text that a line begins after is the scan of what is there alone, with all spans shifted
(`FreshScan.append_left`).
-/

set_option autoImplicit false

namespace DocDigest

namespace Block

theorem close?_add (offset n : Nat) (t : Text) :
    close? (offset + n) t = (close? offset t).map (· + n) := by
  induction t generalizing offset with
  | nil =>
      rfl
  | cons c cs ih =>
      by_cases hp : closer <+: c :: cs
      · obtain ⟨rest, hrest⟩ := hp
        rw [← hrest, close?_closer, close?_closer, Option.map_some, Nat.add_right_comm]
      · rw [close?_cons hp, close?_cons hp, Nat.add_right_comm, ih]

theorem first?_add (offset n : Nat) (t : Text) :
    first? (offset + n) t = (first? offset t).map (Span.shift n) := by
  induction t generalizing offset with
  | nil =>
      rfl
  | cons c cs ih =>
      by_cases hp : opener <+: c :: cs
      · obtain ⟨rest, hrest⟩ := hp
        rw [← hrest, first?_opener, first?_opener, Nat.add_right_comm, close?_add, Option.map_map,
          Option.map_map]
        rfl
      · rw [first?_cons hp, first?_cons hp, Nat.add_right_comm, ih]

end Block

namespace LineRun

theorem stop_add (offset n : Nat) (t : Text) : stop (offset + n) t = stop offset t + n := by
  induction t generalizing offset with
  | nil =>
      rfl
  | cons c cs ih =>
      rw [stop, stop]
      split
      · rfl
      · rw [Nat.add_right_comm, ih]

theorem first?_add (offset n : Nat) (fresh : Bool) (t : Text) :
    first? (offset + n) fresh t = (first? offset fresh t).map (Span.shift n) := by
  induction t generalizing offset fresh with
  | nil =>
      rfl
  | cons c cs ih =>
      rw [first?, first?]
      split
      · rw [stop_add, Nat.add_right_comm]
        rfl
      · rw [Nat.add_right_comm, ih]

end LineRun

/-- Behind a text that a line begins after, a search finds what it finds without that text. -/
theorem Shape.nextFrom_append_left (shape : Shape) {front : Text}
    (hfront : Cursor.lineBegins true front = true) (before t : Text) :
    shape.nextFrom (Cursor.between (front ++ before) t)
      = (shape.nextFrom (Cursor.between before t)).map (Span.shift front.byteLength) := by
  have hlen : (front ++ before).byteLength = before.byteLength + front.byteLength := by
    rw [Text.byteLength_append, Nat.add_comm]
  cases shape with
  | block =>
      show Block.first? (front ++ before).byteLength t = _
      rw [hlen]
      exact Block.first?_add _ _ t
  | line =>
      show LineRun.first? (front ++ before).byteLength (Cursor.lineBegins true (front ++ before)) t
        = _
      rw [hlen, Cursor.lineBegins_append, hfront]
      exact LineRun.first?_add _ _ _ t

namespace Scan

theorem Chosen.shift {search : Shape → Option Span} {shapes : List Shape} {s : Span}
    (h : Chosen search shapes s) (n : Nat) :
    Chosen (fun shape => (search shape).map (Span.shift n)) shapes (s.shift n) := by
  obtain ⟨sooner, shape, later, rfl, hshape, hsooner, hlater⟩ := h
  refine ⟨sooner, shape, later, rfl, congrArg (Option.map (Span.shift n)) hshape, ?_, ?_⟩
  · intro other hother t ht
    obtain ⟨u, hu, rfl⟩ := Option.map_eq_some_iff.mp ht
    exact Nat.add_lt_add_right (hsooner other hother u hu) n
  · intro other hother t ht
    obtain ⟨u, hu, rfl⟩ := Option.map_eq_some_iff.mp ht
    exact Nat.add_le_add_right (hlater other hother u hu) n

/-- Behind a text that a line begins after, a scan does what it does without that text. -/
theorem FreshScan.append_left {shapes : List Shape} {front before t : Text} {spans : List Span}
    (hfront : Cursor.lineBegins true front = true)
    (h : FreshScan shapes (before ++ t) before.byteLength spans) :
    FreshScan shapes (front ++ before ++ t) (front ++ before).byteLength
      (spans.map (Span.shift front.byteLength)) := by
  have hsearch := fun shape : Shape => shape.nextFrom_append_left hfront
  induction spans generalizing before t with
  | nil =>
      refine FreshScan.nil_of_eq_none fun shape hmem => ?_
      rw [hsearch, h.eq_none_of_nil hmem, Option.map_none]
  | cons a spans ih =>
      obtain ⟨hchosen, gap, text, rest, rfl, -, -, -, rfl, hrest⟩ := h.exists_of_cons
      have hshifted := hchosen.shift front.byteLength
      simp only [← hsearch] at hshifted
      refine FreshScan.next (by rwa [nextAt_between_fun]) ?_
      have hstop : (front ++ (before ++ gap ++ text)).byteLength
          = (before ++ gap ++ text).byteLength + front.byteLength := by
        rw [Text.byteLength_append, Nat.add_comm]
      have hbehind := ih hrest
      rw [hstop] at hbehind
      simp only [List.append_assoc] at hbehind ⊢
      exact hbehind

end Scan

end DocDigest
