import DocDigest.Proofs.Text.Occurrence
import DocDigest.Proofs.Text.Trim

/-!
# Lines of joined texts

Splitting a text gives back the pieces that it was joined from (`Text.splitOn_joinWith`), and so the
lines of a text are the lines that it was joined from (`Text.lines_joinWith`), as long as none of
them is empty or ends in a carriage return.

A text of several lines is written as its first line and the rest with a line feed before each of
them, `Text.below`. What stands before a place of a text is written as the whole lines, with a line
feed behind each of them, `Text.ended`, and the beginning of the next line.
-/

set_option autoImplicit false

namespace DocDigest

namespace Text

theorem splitOn_of_not_mem {sep : Char} {t : Text} (h : sep ∉ t) : splitOn sep t = [t] := by
  induction t with
  | nil =>
      rfl
  | cons c cs ih =>
      have hc : ¬ c = sep := fun heq => h (by rw [heq]; exact List.mem_cons_self)
      rw [splitOn, if_neg hc, ih fun hcs => h (List.mem_cons_of_mem c hcs), List.modifyHead_cons]

/-- A text is told by its pieces. -/
theorem splitOn_injective {sep : Char} {s t : Text} (h : splitOn sep s = splitOn sep t) :
    s = t := by
  calc s = joinWith [sep] (splitOn sep s) := (joinWith_splitOn sep s).symm
    _ = joinWith [sep] (splitOn sep t) := by rw [h]
    _ = t := joinWith_splitOn sep t

theorem joinWith_cons_of_ne_nil (sep p : Text) {ps : List Text} (h : ps ≠ []) :
    joinWith sep (p :: ps) = p ++ sep ++ joinWith sep ps := by
  cases ps with
  | nil =>
      exact absurd rfl h
  | cons q qs =>
      rfl

/-- Splitting a text gives back the pieces that it was joined from. -/
theorem splitOn_joinWith {sep : Char} {p : Text} {ps : List Text} (h : ∀ q ∈ p :: ps, sep ∉ q) :
    splitOn sep (joinWith [sep] (p :: ps)) = p :: ps := by
  induction ps generalizing p with
  | nil =>
      exact splitOn_of_not_mem (h p List.mem_cons_self)
  | cons q qs ih =>
      rw [joinWith_cons_of_ne_nil _ _ (List.cons_ne_nil q qs), List.append_assoc,
        List.singleton_append, splitOn_append_cons, splitOn_of_not_mem (h p List.mem_cons_self),
        ih fun r hr => h r (List.mem_cons_of_mem p hr)]
      rfl

/-- Fewer pieces are joined to fewer characters. -/
theorem joinWith_sublist (sep : Text) {ps qs : List Text} (h : ps.Sublist qs) :
    (joinWith sep ps).Sublist (joinWith sep qs) := by
  induction h with
  | slnil =>
      exact .slnil
  | @cons ps qs q hsub ih =>
      by_cases hqs : qs = []
      · subst hqs
        rw [List.sublist_nil.mp hsub]
        exact List.nil_sublist _
      · rw [joinWith_cons_of_ne_nil sep q hqs]
        exact ih.trans (List.sublist_append_right _ _)
  | @cons_cons ps qs q hsub ih =>
      by_cases hqs : qs = []
      · subst hqs
        obtain rfl := List.sublist_nil.mp hsub
        exact .refl _
      · rw [joinWith_cons_of_ne_nil sep q hqs]
        by_cases hps : ps = []
        · subst hps
          rw [List.append_assoc]
          exact List.sublist_append_left _ _
        · rw [joinWith_cons_of_ne_nil sep q hps]
          exact ih.append_left _

/-! ## Lines below each other -/

/-- Lines with a line feed before each of them. -/
def below (ls : List Text) : Text := ls.flatMap ('\n' :: ·)

@[simp] theorem below_nil : below [] = [] := rfl

@[simp] theorem below_cons (l : Text) (ls : List Text) :
    below (l :: ls) = '\n' :: (l ++ below ls) := rfl

theorem below_append (as bs : List Text) : below (as ++ bs) = below as ++ below bs :=
  List.flatMap_append

theorem joinWith_cons (l : Text) (ls : List Text) : joinWith ['\n'] (l :: ls) = l ++ below ls := by
  induction ls generalizing l with
  | nil =>
      exact (List.append_nil l).symm
  | cons m ms ih =>
      rw [joinWith, ih, below_cons, List.append_assoc, List.singleton_append]
      exact List.cons_ne_nil m ms

theorem head?_below {ls : List Text} {c : Char} (h : (below ls).head? = some c) : c = '\n' := by
  cases ls with
  | nil =>
      exact absurd h (Option.some_ne_none c).symm
  | cons l ls =>
      exact (Option.some.inj h).symm

/-- Where no line holds a text of one line, no occurrence of it begins in the lines. -/
theorem absent_below {needle rest : Text} (hfeed : '\n' ∉ needle)
    (hrest : ∀ c, rest.head? = some c → c ∉ needle) {ls : List Text}
    (h : ∀ l ∈ ls, ¬ needle <:+: l) : Absent needle (below ls) rest := by
  induction ls with
  | nil =>
      exact absent_nil needle rest
  | cons l ls ih =>
      have hl := h l List.mem_cons_self
      -- Behind a line comes a line feed, or `rest` if it is the last one.
      have hnext : ∀ c, (below ls ++ rest).head? = some c → c ∉ needle := by
        intro c hc
        rw [List.head?_append, Option.or_eq_some_iff] at hc
        rcases hc with hc | ⟨-, hc⟩
        · rwa [head?_below hc]
        · exact hrest c hc
      refine absent_cons.mpr ⟨?_, absent_append.mpr ⟨absent_of_not_within hl hnext, ?_⟩⟩
      · intro hp
        cases needle with
        | nil =>
            exact hl List.nil_infix
        | cons d ds =>
            exact hfeed (by rw [(List.cons_prefix_cons.mp hp).1]; exact List.mem_cons_self)
      · exact ih fun m hm => h m (List.mem_cons_of_mem l hm)

/-- Where no line holds a text of one line, the lines joined do not hold it. -/
theorem not_isInfix_joinWith {needle : Text} (hfeed : '\n' ∉ needle) (hne : needle ≠ [])
    {ls : List Text} (h : ∀ l ∈ ls, ¬ needle <:+: l) : ¬ needle <:+: joinWith ['\n'] ls := by
  have hbelow : ¬ needle <:+: below ls :=
    (absent_nil_iff hne).mp (absent_below hfeed (by simp) h)
  cases ls with
  | nil =>
      exact hbelow
  | cons l ls =>
      intro hwithin
      rw [joinWith_cons] at hwithin
      exact hbelow (hwithin.trans (List.suffix_cons '\n' (l ++ below ls)).isInfix)

/-- The pieces between the line feeds are stretches of the text. -/
theorem isInfix_of_mem_splitOn {l t : Text} (h : l ∈ splitOn '\n' t) : l <:+: t := by
  rw [← joinWith_splitOn '\n' t]
  cases hpieces : splitOn '\n' t with
  | nil =>
      exact absurd hpieces (splitOn_ne_nil '\n' t)
  | cons m ms =>
      rw [hpieces] at h
      rw [joinWith_cons]
      rcases List.mem_cons.mp h with rfl | h
      · exact (List.prefix_append l (below ms)).isInfix
      · have hbelow : '\n' :: l <:+: below ms := List.infix_of_mem_flatten (List.mem_map_of_mem h)
        exact ((List.suffix_cons '\n' l).isInfix.trans hbelow).trans
          (List.suffix_append m (below ms)).isInfix

/-- A text of one line belongs to the first line of what follows it. -/
theorem splitOn_append_of_not_mem {front t l : Text} {ls : List Text} (hfront : '\n' ∉ front)
    (h : splitOn '\n' t = l :: ls) : splitOn '\n' (front ++ t) = (front ++ l) :: ls := by
  have hfeed : ∀ m ∈ (front ++ l) :: ls, '\n' ∉ m := by
    intro m hm
    rcases List.mem_cons.mp hm with rfl | hm
    · have hl : '\n' ∉ l := not_mem_of_mem_splitOn (h ▸ List.mem_cons_self)
      simp [hfront, hl]
    · exact not_mem_of_mem_splitOn (h ▸ List.mem_cons_of_mem l hm)
  calc splitOn '\n' (front ++ t) = splitOn '\n' (front ++ joinWith ['\n'] (l :: ls)) := by
        rw [← h, joinWith_splitOn]
    _ = splitOn '\n' (joinWith ['\n'] ((front ++ l) :: ls)) := by
        rw [joinWith_cons, joinWith_cons, List.append_assoc]
    _ = (front ++ l) :: ls := splitOn_joinWith hfeed

/-! ## Lines above each other -/

/-- Lines with a line feed behind each of them. -/
def ended (ls : List Text) : Text := ls.flatMap (· ++ ['\n'])

@[simp] theorem ended_nil : ended [] = [] := rfl

theorem ended_append (as bs : List Text) : ended (as ++ bs) = ended as ++ ended bs :=
  List.flatMap_append

theorem ended_cons (l : Text) (ls : List Text) : ended (l :: ls) = l ++ '\n' :: ended ls := by
  rw [ended, List.flatMap_cons, List.append_assoc]
  rfl

theorem byteLength_ended_cons (l : Text) (ls : List Text) :
    (ended (l :: ls)).byteLength = l.byteLength + 1 + (ended ls).byteLength := by
  have hfeed : Char.utf8Size '\n' = 1 := by decide
  rw [ended_cons, byteLength_append, byteLength, hfeed, Nat.add_assoc]

theorem joinWith_append {ls : List Text} (h : ls ≠ []) (as : List Text) :
    joinWith ['\n'] (as ++ ls) = ended as ++ joinWith ['\n'] ls := by
  induction as with
  | nil =>
      rfl
  | cons a as ih =>
      have hne : as ++ ls ≠ [] := List.append_ne_nil_of_right_ne_nil as h
      rw [List.cons_append, joinWith_cons_of_ne_nil _ _ hne, ih, ended_cons]
      simp only [List.append_assoc, List.cons_append, List.nil_append]

theorem joinWith_append_lineFeed {ls : List Text} (h : ls ≠ []) :
    joinWith ['\n'] ls ++ ['\n'] = ended ls := by
  rcases List.eq_nil_or_concat ls with rfl | ⟨init, l, rfl⟩
  · exact absurd rfl h
  · rw [List.concat_eq_append, joinWith_append (List.cons_ne_nil l []), ended_append,
      List.append_assoc, ended_cons]
    rfl

theorem below_eq_cons {ls : List Text} (h : ls ≠ []) : below ls = '\n' :: joinWith ['\n'] ls := by
  cases ls with
  | nil =>
      exact absurd rfl h
  | cons l ls =>
      rw [below_cons, joinWith_cons]

/-- Whole lines and the beginning of the next one stand in front of every place of a text. -/
theorem exists_eq_ended_append (t : Text) :
    ∃ ls tail, t = ended ls ++ tail ∧ '\n' ∉ tail ∧ ∀ l ∈ ls, '\n' ∉ l := by
  rcases List.eq_nil_or_concat (splitOn '\n' t) with hnil | ⟨ls, tail, heq⟩
  · exact absurd hnil (splitOn_ne_nil '\n' t)
  · rw [List.concat_eq_append] at heq
    refine ⟨ls, tail, ?_, ?_, ?_⟩
    · rw [← joinWith_splitOn '\n' t, heq, joinWith_append (List.cons_ne_nil tail [])]
      rfl
    · exact not_mem_of_mem_splitOn (t := t) (by rw [heq]; simp)
    · intro l hl
      exact not_mem_of_mem_splitOn (t := t) (by rw [heq]; exact List.mem_append_left _ hl)

theorem splitOn_ended_append {ls : List Text} (h : ∀ l ∈ ls, '\n' ∉ l) (t : Text) :
    splitOn '\n' (ended ls ++ t) = ls ++ splitOn '\n' t := by
  induction ls with
  | nil =>
      rfl
  | cons l ls ih =>
      rw [ended_cons, List.append_assoc, List.cons_append, splitOn_append_cons,
        splitOn_of_not_mem (h l List.mem_cons_self), ih fun m hm => h m (List.mem_cons_of_mem l hm)]
      rfl

/-- A line begins before the lines below it. -/
theorem byteLength_ended_lt {above ls : List Text} {l : Text} (h : above ++ [l] <+: ls) :
    (ended above).byteLength < (ended ls).byteLength := by
  obtain ⟨rest, rfl⟩ := h
  rw [ended_append, ended_append, byteLength_append, byteLength_append, byteLength_ended_cons]
  omega

/-! ## Taking lines apart -/

theorem dropReturn_of_getLast?_ne {l : Text} (h : l.getLast? ≠ some '\r') : dropReturn l = l := by
  refine dropTrailing_of_not_isSuffix ?_
  rintro ⟨init, rfl⟩
  exact h List.getLast?_concat

/-- Lines of which none is empty or ends in a carriage return are read back as they are. -/
theorem closeLines_eq_self {ls : List Text} (hne : ∀ l ∈ ls, l ≠ [])
    (hreturn : ∀ l ∈ ls, l.getLast? ≠ some '\r') : closeLines ls = ls := by
  induction ls with
  | nil =>
      rfl
  | cons l ls ih =>
      cases ls with
      | nil =>
          have hl : l.isEmpty = false := by
            simpa using hne l List.mem_cons_self
          rw [closeLines, hl, if_neg Bool.false_ne_true]
      | cons m ms =>
          rw [closeLines, dropReturn_of_getLast?_ne (hreturn l List.mem_cons_self),
            ih (fun n hn => hne n (List.mem_cons_of_mem l hn))
              fun n hn => hreturn n (List.mem_cons_of_mem l hn)]
          exact List.cons_ne_nil m ms

/-- Reading something off each line is the same with the lines closed or not, if nothing is read off
an empty line and a carriage return at the end of a line does not matter. -/
theorem filterMap_closeLines {α : Type} {read : Text → Option α} (hempty : read [] = none)
    (hreturn : ∀ l, read (dropReturn l) = read l) (ls : List Text) :
    (closeLines ls).filterMap read = ls.filterMap read := by
  induction ls with
  | nil =>
      rfl
  | cons l rest ih =>
      cases rest with
      | nil =>
          rw [closeLines]
          split
          · next hnil =>
            rw [List.isEmpty_iff.mp hnil, List.filterMap_cons_none hempty]
          · rfl
      | cons m rest =>
          rw [closeLines, List.filterMap_cons, List.filterMap_cons, hreturn, ih]
          exact List.cons_ne_nil m rest

/-- No line holds a line feed. -/
theorem not_mem_of_mem_lines {l t : Text} (h : l ∈ lines t) : '\n' ∉ l := by
  have hclose : ∀ {ls : List Text}, (∀ m ∈ ls, '\n' ∉ m) → ∀ m ∈ closeLines ls, '\n' ∉ m := by
    intro ls hls
    induction ls with
    | nil =>
        intro m hm
        exact absurd hm List.not_mem_nil
    | cons k ls ih =>
        cases ls with
        | nil =>
            rw [closeLines]
            split
            · intro m hm
              exact absurd hm List.not_mem_nil
            · exact hls
        | cons k' ls =>
            rw [closeLines]
            · intro m hm
              rcases List.mem_cons.mp hm with rfl | hm
              · intro hfeed
                exact hls k List.mem_cons_self ((dropTrailing_isPrefix _ k).subset hfeed)
              · exact ih (fun n hn => hls n (List.mem_cons_of_mem k hn)) m hm
            · exact List.cons_ne_nil k' ls
  exact hclose (fun m hm => not_mem_of_mem_splitOn hm) l h

/-- The lines of a text are the lines that it was joined from. -/
theorem lines_joinWith {l : Text} {ls : List Text} (hfeed : ∀ m ∈ l :: ls, '\n' ∉ m)
    (hne : ∀ m ∈ l :: ls, m ≠ []) (hreturn : ∀ m ∈ l :: ls, m.getLast? ≠ some '\r') :
    lines (joinWith ['\n'] (l :: ls)) = l :: ls := by
  rw [lines, splitOn_joinWith hfeed, closeLines_eq_self hne hreturn]

end Text

end DocDigest
