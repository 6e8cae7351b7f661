import DocDigest.Proofs.Ignore.Combined
import DocDigest.Proofs.Text.Returns
import Mathlib.Data.List.DropRight

/-!
# The lines of rules

A line can hold a rule if its pattern holds something, does not end in a slash and, without an
anchor, does not begin like an anchored rule or a comment (`Rule.exists_ofLine?_eq_iff`). Such a
rule is read back from the line that it is written as (`Rule.ofLine?_line`). So a rules file with a
line for each of some rules holds these rules in their order, whatever blank lines and comments
stand between them (`Rule.rules_of_written_lines`).
-/

set_option autoImplicit false

namespace DocDigest

namespace Rule

/-! ## Slashes at the end -/

theorem dropSlashes_eq (t : Text) : dropSlashes t = t.rdropWhile (· == '/') := rfl

theorem dropSlashes_isPrefix (t : Text) : dropSlashes t <+: t :=
  List.rdropWhile_prefix _ t

theorem dropSlashes_eq_self_iff {t : Text} : dropSlashes t = t ↔ t.getLast? ≠ some '/' := by
  rw [dropSlashes_eq, List.rdropWhile_eq_self_iff]
  rcases List.eq_nil_or_concat' t with rfl | ⟨init, c, rfl⟩
  · simp
  · simp

/-- A slash behind a text that does not end in one is all that is dropped. -/
theorem dropSlashes_append_slash {t : Text} (h : t.getLast? ≠ some '/') :
    dropSlashes (t ++ ['/']) = t := by
  rw [dropSlashes_eq, List.rdropWhile_concat_pos _ _ _ (by decide), ← dropSlashes_eq]
  exact dropSlashes_eq_self_iff.mpr h

theorem getLast?_dropSlashes_ne (t : Text) : (dropSlashes t).getLast? ≠ some '/' :=
  dropSlashes_eq_self_iff.mp (List.rdropWhile_idempotent _ t)

/-! ## The rule on one line -/

/-- The pattern, behind the slash that anchors it if one does. -/
def opened (r : Rule) : Text := (if r.anchored then ['/'] else []) ++ r.pattern

theorem line_eq (r : Rule) : r.line = r.opened ++ ['/'] := rfl

theorem opened_of_anchored {r : Rule} (h : r.anchored = true) : r.opened = '/' :: r.pattern := by
  simp [opened, h]

theorem opened_of_not_anchored {r : Rule} (h : r.anchored = false) : r.opened = r.pattern := by
  simp [opened, h]

/-- The rule of a text that is trimmed and has no slashes at its end. -/
def ofBody (body : Text) : Rule :=
  match body with
  | '/' :: rest => ⟨rest, true⟩
  | _ => ⟨body, false⟩

/-- Without an anchor, a pattern that begins with a slash would be taken for an anchored one. -/
theorem ofBody_eq_iff {body : Text} {r : Rule} :
    ofBody body = r ↔
      body = r.opened ∧ (r.anchored = false → r.pattern.head? ≠ some '/') := by
  obtain ⟨pattern, anchored⟩ := r
  fun_cases ofBody body with
  | case1 rest => cases anchored <;> grind [opened]
  | case2 hslash =>
      have hfirst : body.head? ≠ some '/' := by grind [List.head?_eq_some_iff]
      cases anchored <;> grind [opened]

theorem ofLine?_eq (l : Text) :
    ofLine? l =
      if (Text.trim l).head? = none ∨ (Text.trim l).head? = some '#' then none
      else if (ofBody (dropSlashes (Text.trim l))).pattern.isEmpty then none
      else some (ofBody (dropSlashes (Text.trim l))) := rfl

/-- A line holds a rule if it begins with no `#`, and is the rule's pattern, behind a slash that
anchors it or without one, when white space and slashes are taken off its ends. -/
theorem ofLine?_eq_some_iff {l : Text} {r : Rule} :
    ofLine? l = some r ↔ (Text.trim l).head? ≠ some '#' ∧ dropSlashes (Text.trim l) = r.opened ∧
      r.pattern ≠ [] ∧ (r.anchored = false → r.pattern.head? ≠ some '/') := by
  rw [ofLine?_eq]
  split
  · next hidle =>
    refine iff_of_false (Option.some_ne_none r).symm ?_
    rintro ⟨hhash, hopened, hne, -⟩
    -- Nothing is left of a blank line, so no pattern is.
    rw [List.head?_eq_none_iff.mp (hidle.resolve_right hhash)] at hopened
    exact hne (List.append_eq_nil_iff.mp hopened.symm).2
  · next hidle =>
    constructor
    · intro h
      rw [Option.ite_none_left_eq_some, Option.some.injEq] at h
      obtain ⟨hne, hbody⟩ := h
      obtain ⟨hopened, hfirst⟩ := ofBody_eq_iff.mp hbody
      rw [hbody, List.isEmpty_iff] at hne
      exact ⟨fun hhash => hidle (Or.inr hhash), hopened, hne, hfirst⟩
    · rintro ⟨-, hopened, hne, hfirst⟩
      rw [ofBody_eq_iff.mpr ⟨hopened, hfirst⟩, if_neg (by rwa [List.isEmpty_iff])]

/-! ## The rules that lines hold -/

/-- A rule that a line can hold. Its pattern holds something and does not end in a slash, and
without an anchor it does not begin with a slash, a `#` or white space. -/
structure IsWritable (r : Rule) : Prop where
  ne_nil : r.pattern ≠ []
  last : r.pattern.getLast? ≠ some '/'
  first : r.anchored = false → r.pattern.head? ≠ some '/' ∧ r.pattern.head? ≠ some '#' ∧
    r.pattern.head?.any isBlank = false

instance (r : Rule) : Decidable r.IsWritable :=
  decidable_of_iff
    (r.pattern ≠ [] ∧ r.pattern.getLast? ≠ some '/' ∧ (r.anchored = false →
      r.pattern.head? ≠ some '/' ∧ r.pattern.head? ≠ some '#' ∧
      r.pattern.head?.any isBlank = false))
    ⟨fun h => ⟨h.1, h.2.1, h.2.2⟩, fun h => ⟨h.ne_nil, h.last, h.first⟩⟩

theorem getLast?_opened {r : Rule} (h : r.pattern ≠ []) :
    r.opened.getLast? = r.pattern.getLast? :=
  List.getLast?_append_of_ne_nil _ h

/-- A line's pattern is a stretch of the line. -/
theorem pattern_isInfix {l : Text} {r : Rule} (h : ofLine? l = some r) : r.pattern <:+: l := by
  obtain ⟨-, hopened, -, -⟩ := ofLine?_eq_some_iff.mp h
  have hfront : r.opened <+: Text.trim l := hopened ▸ dropSlashes_isPrefix _
  exact (List.suffix_append _ r.pattern).isInfix.trans (hfront.isInfix.trans (Text.trim_isInfix l))

theorem isWritable_of_ofLine? {l : Text} {r : Rule} (h : ofLine? l = some r) : r.IsWritable := by
  obtain ⟨hhash, hopened, hne, hslash⟩ := ofLine?_eq_some_iff.mp h
  refine ⟨hne, ?_, ?_⟩
  · rw [← getLast?_opened hne, ← hopened]
    exact getLast?_dropSlashes_ne _
  · intro hanchored
    -- Without an anchor, the pattern begins where the trimmed line does.
    obtain ⟨slashes, hslashes⟩ := dropSlashes_isPrefix (Text.trim l)
    have hfirst : ∀ c, r.pattern.head? = some c → (Text.trim l).head? = some c := by
      intro c hc
      rw [← hslashes, hopened, opened_of_not_anchored hanchored, List.head?_append, hc,
        Option.some_or]
    refine ⟨hslash hanchored, fun hc => hhash (hfirst '#' hc), ?_⟩
    rw [Option.any_eq_false]
    intro c hc
    have htrim := hfirst c hc
    rw [Text.head?_trim] at htrim
    rw [Text.head?_trimStart htrim]

theorem IsWritable.head?_line {r : Rule} (h : r.IsWritable) {c : Char}
    (hc : r.line.head? = some c) : c ≠ '#' ∧ isBlank c = false := by
  cases hanchored : r.anchored with
  | true =>
      rw [line_eq, opened_of_anchored hanchored] at hc
      obtain rfl := Option.some.inj hc
      decide
  | false =>
      obtain ⟨d, ds, hpattern⟩ := List.exists_cons_of_ne_nil h.ne_nil
      rw [line_eq, opened_of_not_anchored hanchored, hpattern] at hc
      obtain rfl := Option.some.inj hc
      have hfirst := (h.first hanchored).2
      rw [hpattern] at hfirst
      exact ⟨fun hhash => hfirst.1 (congrArg some hhash), hfirst.2⟩

theorem IsWritable.trim_line {r : Rule} (h : r.IsWritable) : Text.trim r.line = r.line := by
  refine Text.trim_eq_self_iff.mpr ⟨fun c hc => (h.head?_line hc).2, fun c hc => ?_⟩
  rw [line_eq, List.getLast?_concat] at hc
  obtain rfl := Option.some.inj hc
  decide

/-- A rule is read back from the line that it is written as. -/
theorem ofLine?_line {r : Rule} (h : r.IsWritable) : ofLine? r.line = some r := by
  refine ofLine?_eq_some_iff.mpr ⟨?_, ?_, h.ne_nil, ?_⟩
  · rw [h.trim_line]
    exact fun hhash => (h.head?_line hhash).1 rfl
  · rw [h.trim_line, line_eq]
    apply dropSlashes_append_slash
    rw [getLast?_opened h.ne_nil]
    exact h.last
  · exact fun hanchored => (h.first hanchored).1

theorem exists_ofLine?_eq_iff {r : Rule} : (∃ l, ofLine? l = some r) ↔ r.IsWritable :=
  ⟨fun ⟨_, h⟩ => isWritable_of_ofLine? h, fun h => ⟨r.line, ofLine?_line h⟩⟩

theorem not_mem_line {r : Rule} (h : '\n' ∉ r.pattern) : '\n' ∉ r.line := by
  cases hanchored : r.anchored <;> simp [line, hanchored, h]

/-! ## Files with a line for each rule -/

/-- A line with nothing but white space on it, or with a `#` before anything else. -/
def IsIdle (l : Text) : Prop :=
  l.all isBlank = true ∨ (Text.trimStart l).head? = some '#'

instance : DecidablePred IsIdle := fun _ => inferInstanceAs (Decidable (_ ∨ _))

theorem ofLine?_of_isIdle {l : Text} (h : IsIdle l) : ofLine? l = none := by
  rw [ofLine?_eq, if_pos]
  rw [Text.head?_trim]
  rcases h with hblank | hhash
  · have hnil : Text.trimStart l = [] := List.dropWhile_eq_nil_iff.mpr (List.all_eq_true.mp hblank)
    exact Or.inl (by rw [hnil, List.head?_nil])
  · exact Or.inr hhash

/-- The lines of a file that has a line for each of some rules, in their order, and idle lines
above, below and between them. -/
inductive Listing : List Rule → List Text → Prop
  | nil : Listing [] []
  | rule (r : Rule) {rules : List Rule} {ls : List Text} (h : Listing rules ls) :
      Listing (r :: rules) (r.line :: ls)
  | idle {l : Text} (hidle : IsIdle l) (hfeed : '\n' ∉ l) {rules : List Rule} {ls : List Text}
      (h : Listing rules ls) : Listing rules (l :: ls)

variable {rules : List Rule} {ls : List Text}

theorem Listing.filterMap_ofLine? (h : Listing rules ls) (hrules : ∀ r ∈ rules, r.IsWritable) :
    ls.filterMap ofLine? = rules := by
  induction h with
  | nil =>
      rfl
  | rule r _ ih =>
      obtain ⟨hr, hrest⟩ := List.forall_mem_cons.mp hrules
      rw [List.filterMap_cons_some (ofLine?_line hr), ih hrest]
  | idle hidle _ _ ih =>
      rw [List.filterMap_cons_none (ofLine?_of_isIdle hidle), ih hrules]

theorem Listing.not_mem (h : Listing rules ls) (hrules : ∀ r ∈ rules, '\n' ∉ r.pattern) :
    ∀ l ∈ ls, '\n' ∉ l := by
  induction h with
  | nil =>
      exact fun l hl => absurd hl List.not_mem_nil
  | rule r _ ih =>
      obtain ⟨hr, hrest⟩ := List.forall_mem_cons.mp hrules
      exact List.forall_mem_cons.mpr ⟨not_mem_line hr, ih hrest⟩
  | idle _ hfeed _ ih =>
      exact List.forall_mem_cons.mpr ⟨hfeed, ih hrules⟩

/-- The rules of a file are those of its lines. -/
theorem ofText_joinWith (h : ∀ l ∈ ls, '\n' ∉ l) :
    ofText (Text.joinWith ['\n'] ls) = ls.filterMap ofLine? := by
  rw [ofText_eq]
  cases ls with
  | nil => rfl
  | cons l ls => rw [Text.splitOn_joinWith h]

/-- Carriage returns before the line feeds of a rules file make no difference. -/
theorem ofText_withReturns (t : Text) : ofText (Text.withReturns t) = ofText t := by
  have hreturn : ∀ l, ofLine? (l ++ ['\r']) = ofLine? l := fun l =>
    ofLine?_eq_of_trim_eq (Text.trim_append_singleton isBlank_carriageReturn l)
  have hmap : ∀ ls : List Text, ls.filterMap ofLine? = (ls.map ofLine?).filterMap id := by
    intro ls
    rw [List.filterMap_map, Function.id_comp]
  rw [ofText_eq, ofText_eq, Text.splitOn_withReturns, hmap, Text.map_returnEach hreturn, ← hmap]

/-- Rules are written and read back. A line can hold a rule if and only if its pattern is not empty,
does not end in a slash and, without an anchor, does not begin with a slash, a `#` or white space;
and a rules file can if, beyond that, the pattern holds no line feed. Each such rule is read back
from the line that it is written as, and a file that lists rules is read back as these rules in
their order, however its lines end and whatever idle lines stand between them. -/
theorem rules_of_written_lines :
    (∀ r : Rule, (∃ l, ofLine? l = some r) ↔ r.IsWritable) ∧
      (∀ r : Rule, (∃ t, r ∈ ofText t) ↔ r.IsWritable ∧ '\n' ∉ r.pattern) ∧
      (∀ r : Rule, r.IsWritable → ofLine? r.line = some r) ∧
      ∀ (rules : List Rule) (ls : List Text), (∀ r ∈ rules, r.IsWritable ∧ '\n' ∉ r.pattern) →
        Listing rules ls →
          ofText (Text.joinWith ['\n'] ls) = rules ∧
          ofText (Text.joinWith ['\r', '\n'] ls) = rules := by
  have hfile : ∀ (rules : List Rule) (ls : List Text),
      (∀ r ∈ rules, r.IsWritable ∧ '\n' ∉ r.pattern) → Listing rules ls →
        ofText (Text.joinWith ['\n'] ls) = rules ∧
        ofText (Text.joinWith ['\r', '\n'] ls) = rules := by
    intro rules ls hrules hlisting
    have hfeed := hlisting.not_mem fun r hr => (hrules r hr).2
    rw [← Text.withReturns_joinWith hfeed, ofText_withReturns, ofText_joinWith hfeed,
      hlisting.filterMap_ofLine? fun r hr => (hrules r hr).1, and_self]
  refine ⟨fun r => exists_ofLine?_eq_iff, fun r => ⟨?_, ?_⟩, fun r => ofLine?_line, hfile⟩
  · rintro ⟨t, hr⟩
    rw [ofText_eq] at hr
    obtain ⟨l, hl, hline⟩ := List.mem_filterMap.mp hr
    have hfeed := Text.not_mem_of_mem_splitOn hl
    exact ⟨isWritable_of_ofLine? hline, fun hmem => hfeed ((pattern_isInfix hline).subset hmem)⟩
  · intro h
    have hone := (hfile [r] [r.line] (by simpa using h) (.rule r .nil)).1
    exact ⟨_, hone ▸ List.mem_singleton_self r⟩

/-- Patterns that begin like a comment or an anchored rule, or end in white space, are read back
from lines that end in either way, with a comment and a blank line between them. -/
theorem rules_of_written_lines_of_odd_patterns :
    let rules : List Rule :=
      [⟨"#x".toList, true⟩, ⟨"/x".toList, true⟩, ⟨"foo ".toList, false⟩, ⟨"a\r".toList, false⟩]
    (∀ r ∈ rules, r.IsWritable ∧ '\n' ∉ r.pattern) ∧
      ofText "/#x/\n # y\n//x/\nfoo /\n\t\na\r/".toList = rules ∧
      ofText "/#x/\r\n # y\r\n//x/\r\nfoo /\r\n\t\r\na\r/".toList = rules := by
  intro rules
  have hrules : ∀ r ∈ rules, r.IsWritable ∧ '\n' ∉ r.pattern := by decide
  have hlisting : Listing rules
      ["/#x/".toList, " # y".toList, "//x/".toList, "foo /".toList, "\t".toList,
        "a\r/".toList] :=
    .rule _ (.idle (by decide) (by decide) (.rule _ (.rule _ (.idle (by decide) (by decide)
      (.rule _ .nil)))))
  exact ⟨hrules, rules_of_written_lines.2.2.2 rules _ hrules hlisting⟩

end Rule

end DocDigest
