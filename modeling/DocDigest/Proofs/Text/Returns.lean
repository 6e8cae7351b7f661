import DocDigest.Proofs.Text.Lines

/-!
# Carriage returns before line feeds

`Text.withReturns` is a text with a carriage return put before each of its line feeds. Words that
hold neither character occur in both texts at the same places (`Text.isPrefix_withReturns_iff`,
`Text.Absent.withReturns`), places keep their order (`Text.byteLength_withReturns_lt`), and each
line but the last gets a carriage return at its end (`Text.splitOn_withReturns`).
-/

set_option autoImplicit false

namespace DocDigest

namespace Text

/-- The text with a carriage return before each line feed. -/
def withReturns (t : Text) : Text := t.flatMap fun c => if c = '\n' then ['\r', '\n'] else [c]

@[simp] theorem withReturns_nil : withReturns [] = [] := rfl

theorem withReturns_lineFeed (t : Text) :
    withReturns ('\n' :: t) = '\r' :: '\n' :: withReturns t := rfl

theorem withReturns_cons {c : Char} (hc : c ≠ '\n') (t : Text) :
    withReturns (c :: t) = c :: withReturns t := by
  rw [withReturns, List.flatMap_cons, if_neg hc]
  rfl

theorem withReturns_append (s t : Text) :
    withReturns (s ++ t) = withReturns s ++ withReturns t :=
  List.flatMap_append

/-- A text of one line stays as it is. -/
theorem withReturns_of_not_mem {t : Text} (h : '\n' ∉ t) : withReturns t = t := by
  induction t with
  | nil =>
      rfl
  | cons c cs ih =>
      have hc : c ≠ '\n' := fun heq => h (by rw [heq]; exact List.mem_cons_self)
      have hcs : '\n' ∉ cs := fun hmem => h (List.mem_cons_of_mem c hmem)
      rw [withReturns_cons hc, ih hcs]

theorem withReturns_ne_nil {t : Text} (h : t ≠ []) : withReturns t ≠ [] := by
  cases t with
  | nil =>
      exact absurd rfl h
  | cons c cs =>
      by_cases hc : c = '\n'
      · subst hc
        exact List.cons_ne_nil _ _
      · rw [withReturns_cons hc]
        exact List.cons_ne_nil _ _

/-! ## Occurrences -/

section

variable {needle gap rest : Text} (hfeed : '\n' ∉ needle) (hreturn : '\r' ∉ needle)

include hfeed hreturn

theorem isPrefix_withReturns_iff {t : Text} : needle <+: withReturns t ↔ needle <+: t := by
  induction needle generalizing t with
  | nil =>
      exact iff_of_true List.nil_prefix List.nil_prefix
  | cons d ds ih =>
      rw [List.mem_cons, not_or] at hfeed hreturn
      cases t with
      | nil =>
          exact Iff.rfl
      | cons c cs =>
          by_cases hc : c = '\n'
          · -- Here stands a carriage return, there a line feed: neither begins the words.
            subst hc
            rw [withReturns_lineFeed, List.cons_prefix_cons, List.cons_prefix_cons]
            exact iff_of_false (fun h => hreturn.1 h.1.symm) fun h => hfeed.1 h.1.symm
          · rw [withReturns_cons hc, List.cons_prefix_cons, List.cons_prefix_cons,
              ih hfeed.2 hreturn.2]

/-- Where no occurrence begins, none begins with carriage returns put in. -/
theorem Absent.withReturns (h : Absent needle gap rest) :
    Absent needle (Text.withReturns gap) (Text.withReturns rest) := by
  induction gap with
  | nil =>
      exact absent_nil _ _
  | cons c cs ih =>
      obtain ⟨hhere, hbehind⟩ := absent_cons.mp h
      by_cases hc : c = '\n'
      · subst hc
        obtain ⟨d, ds, rfl⟩ : ∃ d ds, needle = d :: ds :=
          List.exists_cons_of_ne_nil fun hnil => hhere (hnil ▸ List.nil_prefix)
        rw [List.mem_cons, not_or] at hfeed hreturn
        refine absent_cons.mpr ⟨fun hp => ?_, absent_cons.mpr ⟨fun hp => ?_, ih hbehind⟩⟩
        · exact hreturn.1 (List.cons_prefix_cons.mp hp).1.symm
        · exact hfeed.1 (List.cons_prefix_cons.mp hp).1.symm
      · rw [withReturns_cons hc]
        refine absent_cons.mpr ⟨fun hp => ?_, ih hbehind⟩
        rw [← withReturns_append, ← withReturns_cons hc,
          isPrefix_withReturns_iff hfeed hreturn] at hp
        exact hhere hp

end

/-! ## Places -/

/-- Of two places of a text, the one that is first stays first. -/
theorem byteLength_withReturns_le {a b s t : Text} (h : a ++ s = b ++ t)
    (hle : a.byteLength ≤ b.byteLength) :
    (withReturns a).byteLength ≤ (withReturns b).byteLength := by
  obtain ⟨mid, rfl, -⟩ := exists_append_of_byteLength_le h hle
  rw [withReturns_append, byteLength_append]
  exact Nat.le_add_right _ _

theorem byteLength_withReturns_lt {a b s t : Text} (h : a ++ s = b ++ t)
    (hlt : a.byteLength < b.byteLength) :
    (withReturns a).byteLength < (withReturns b).byteLength := by
  obtain ⟨mid, rfl, -⟩ := exists_append_of_byteLength_le h (Nat.le_of_lt hlt)
  have hmid : mid ≠ [] := by
    rintro rfl
    rw [List.append_nil] at hlt
    exact absurd hlt (Nat.lt_irrefl _)
  have hpos := byteLength_pos (withReturns_ne_nil hmid)
  rw [withReturns_append, byteLength_append]
  omega

/-! ## Lines -/

/-- The lines of a text, with a carriage return at the end of each but the last. -/
def returnEach : List Text → List Text
  | [] => []
  | [last] => [last]
  | line :: rest => (line ++ ['\r']) :: returnEach rest

/-- What is the same for a line with a carriage return at its end is the same for all lines. -/
theorem map_returnEach {α : Type} {read : Text → α} (h : ∀ l, read (l ++ ['\r']) = read l)
    (ls : List Text) : (returnEach ls).map read = ls.map read := by
  induction ls with
  | nil =>
      rfl
  | cons l rest ih =>
      cases rest with
      | nil =>
          rfl
      | cons m rest =>
          rw [returnEach, List.map_cons, h, ih]
          · rfl
          · exact List.cons_ne_nil m rest

/-- Lines that are joined by line feeds, with carriage returns put in, are joined by both. -/
theorem withReturns_joinWith {ls : List Text} (h : ∀ l ∈ ls, '\n' ∉ l) :
    withReturns (joinWith ['\n'] ls) = joinWith ['\r', '\n'] ls := by
  induction ls with
  | nil =>
      rfl
  | cons l ls ih =>
      obtain ⟨hl, hls⟩ := List.forall_mem_cons.mp h
      cases ls with
      | nil =>
          exact withReturns_of_not_mem hl
      | cons m ms =>
          have hne : m :: ms ≠ [] := List.cons_ne_nil m ms
          rw [joinWith_cons_of_ne_nil _ _ hne, joinWith_cons_of_ne_nil _ _ hne, withReturns_append,
            withReturns_append, withReturns_of_not_mem hl, ih hls]
          rfl

theorem splitOn_withReturns_joinWith {l : Text} {ls : List Text} (h : ∀ m ∈ l :: ls, '\n' ∉ m) :
    splitOn '\n' (withReturns (l ++ below ls)) = returnEach (l :: ls) := by
  induction ls generalizing l with
  | nil =>
      have hl : '\n' ∉ l := h l List.mem_cons_self
      rw [below_nil, List.append_nil, withReturns_of_not_mem hl, splitOn_of_not_mem hl]
      rfl
  | cons m ms ih =>
      have hl : '\n' ∉ l := h l List.mem_cons_self
      have hreturned : '\n' ∉ l ++ ['\r'] := by simpa using hl
      have htext : withReturns (l ++ below (m :: ms))
          = (l ++ ['\r']) ++ '\n' :: withReturns (m ++ below ms) := by
        rw [below_cons, withReturns_append, withReturns_lineFeed, withReturns_of_not_mem hl,
          List.append_assoc, List.singleton_append]
      rw [htext, splitOn_append_cons, splitOn_of_not_mem hreturned,
        ih fun n hn => h n (List.mem_cons_of_mem l hn), List.singleton_append]
      rfl

theorem splitOn_withReturns (t : Text) :
    splitOn '\n' (withReturns t) = returnEach (splitOn '\n' t) := by
  obtain ⟨l, ls, hlines⟩ := List.exists_cons_of_ne_nil (splitOn_ne_nil '\n' t)
  have hfeed : ∀ m ∈ l :: ls, '\n' ∉ m := fun m hm => not_mem_of_mem_splitOn (hlines ▸ hm)
  calc splitOn '\n' (withReturns t)
      = splitOn '\n' (withReturns (joinWith ['\n'] (l :: ls))) := by
        rw [← hlines, joinWith_splitOn]
    _ = returnEach (l :: ls) := by
        rw [joinWith_cons, splitOn_withReturns_joinWith hfeed]
    _ = returnEach (splitOn '\n' t) := by
        rw [hlines]

end Text

end DocDigest
