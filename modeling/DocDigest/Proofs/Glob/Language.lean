import DocDigest.Proofs.Glob.Search

/-!
# The language of a pattern

What a pattern stands for is said here on the pattern as it is written: it is a row of pieces
(`Glob.Piece`), a class among them is a text between brackets (`Glob.Class`) whose characters list
others one by one or as ranges (`Glob.Lists`), and each piece takes its part of a text
(`Glob.TakesAll`). The main result, `Glob.accepts_iff_takesAll`, is that a pattern which, its runs
of stars collapsed, is a row of pieces accepts exactly the texts that these take, and that any other
pattern accepts itself alone.
-/

set_option autoImplicit false

namespace DocDigest

namespace Glob

/-! ## Classes -/

/-- The characters of a class start with a range: two characters with a dash between them. -/
def StartsRange (chars : Text) : Prop := ∃ low high rest, chars = low :: '-' :: high :: rest

/-- The characters of a class, read from the left, list a character. -/
inductive Lists : Text → Char → Prop where
  /-- A range lists the characters between its ends, and the ends. -/
  | inRange {low high c : Char} {rest : Text} :
      low ≤ c → c ≤ high → Lists (low :: '-' :: high :: rest) c
  | afterRange {low high c : Char} {rest : Text} :
      Lists rest c → Lists (low :: '-' :: high :: rest) c
  /-- A character that starts no range lists itself. -/
  | self {c : Char} {rest : Text} : ¬ StartsRange (c :: rest) → Lists (c :: rest) c
  | afterSingle {d c : Char} {rest : Text} :
      ¬ StartsRange (d :: rest) → Lists rest c → Lists (d :: rest) c

/-- A class of a pattern. Its first character may be the bracket that closes classes elsewhere. -/
structure Class where
  negated : Bool
  first : Char
  more : Text
  first_ne : negated = false → first ≠ '!'
  not_mem_more : ']' ∉ more

namespace Class

/-- The characters between the brackets, without the mark of a negated class. -/
def chars (cls : Class) : Text := cls.first :: cls.more

/-- The class as it is written. -/
def text (cls : Class) : Text :=
  '[' :: ((if cls.negated then ['!'] else []) ++ (cls.chars ++ [']']))

/-- The class stands for a character, if `lists` tells what its characters list. -/
def Holds (lists : Text → Char → Prop) (cls : Class) (c : Char) : Prop :=
  if cls.negated then ¬ lists cls.chars c else lists cls.chars c

theorem text_append (cls : Class) (p : Text) :
    cls.text ++ p = '[' :: ((if cls.negated then ['!'] else []) ++ cls.chars ++ ']' :: p) := by
  simp only [text, List.cons_append, List.append_assoc, List.nil_append]

end Class

theorem not_lists_nil {c : Char} : ¬ Lists [] c := by
  rintro ⟨⟩

theorem lists_range_iff {low high c : Char} {rest : Text} :
    Lists (low :: '-' :: high :: rest) c ↔ (low ≤ c ∧ c ≤ high) ∨ Lists rest c := by
  have hstarts : StartsRange (low :: '-' :: high :: rest) := ⟨low, high, rest, rfl⟩
  constructor
  · rintro (⟨hlow, hhigh⟩ | hrest | hself | ⟨hsingle, -⟩)
    · exact Or.inl ⟨hlow, hhigh⟩
    · exact Or.inr hrest
    · exact absurd hstarts hself
    · exact absurd hstarts hsingle
  · rintro (⟨hlow, hhigh⟩ | hrest)
    · exact .inRange hlow hhigh
    · exact .afterRange hrest

theorem lists_single_iff {d c : Char} {rest : Text} (h : ¬ StartsRange (d :: rest)) :
    Lists (d :: rest) c ↔ c = d ∨ Lists rest c := by
  constructor
  · intro hlists
    cases hlists with
    | inRange => exact absurd ⟨_, _, _, rfl⟩ h
    | afterRange => exact absurd ⟨_, _, _, rfl⟩ h
    | self => exact Or.inl rfl
    | afterSingle _ hrest => exact Or.inr hrest
  · rintro (rfl | hrest)
    · exact .self h
    · exact .afterSingle h hrest

/-- The members that the characters of a class are read as hold what the characters list. -/
theorem any_members_iff (chars : Text) (c : Char) :
    (members chars).any (·.holds c) = true ↔ Lists chars c := by
  fun_induction members chars with
  | case1 low high rest ih =>
      rw [List.any_cons, Bool.or_eq_true, ih, lists_range_iff, Member.holds, Bool.and_eq_true,
        decide_eq_true_iff, decide_eq_true_iff]
  | case2 d rest hrange ih =>
      have hsingle : ¬ StartsRange (d :: rest) := by
        rintro ⟨low, high, rest', heq⟩
        obtain ⟨rfl, rfl⟩ := List.cons_eq_cons.mp heq
        exact hrange high rest' rfl
      rw [List.any_cons, Bool.or_eq_true, ih, lists_single_iff hsingle, Member.holds, beq_iff_eq]
  | case3 =>
      exact iff_of_false Bool.false_ne_true not_lists_nil

/-! ## Patterns -/

/-- A piece of a pattern. -/
inductive Piece where
  | star
  | any
  | oneOf (cls : Class)
  /-- Any other character. -/
  | char (c : Char) (h : c ∉ ['*', '?', '['])

namespace Piece

/-- The piece as it is written. -/
def text : Piece → Text
  | .star => ['*']
  | .any => ['?']
  | .oneOf cls => cls.text
  | .char c _ => [c]

theorem length_text_pos (x : Piece) : 0 < x.text.length := by
  cases x with
  | oneOf cls => exact Nat.succ_pos _
  | star | any | char => exact Nat.one_pos

/-- The texts that a piece takes, if `lists` tells what the characters of a class list. -/
def Takes (lists : Text → Char → Prop) : Piece → Text → Prop
  | .star, _ => True
  | .any, t => ∃ c, t = [c]
  | .oneOf cls, t => ∃ c, t = [c] ∧ cls.Holds lists c
  | .char c _, t => t = [c]

/-- The element that a piece is read as. -/
def element : Piece → Element
  | .star => .star
  | .any => .one .any
  | .oneOf cls => classElement cls.negated cls.chars
  | .char c _ => .one (.char c)

end Piece

/-- The pattern that pieces are written as. -/
def written (ps : List Piece) : Text := ps.flatMap Piece.text

/-- Pieces take a whole text: it splits into a part for each of them, in their order. -/
def TakesAll (lists : Text → Char → Prop) : List Piece → Text → Prop
  | [], t => t = []
  | x :: ps, t => ∃ taken rest, t = taken ++ rest ∧ x.Takes lists taken ∧ TakesAll lists ps rest

/-- The text starts with a bracket that opens no class. -/
def StaysOpen (p : Text) : Prop :=
  ∃ rest, p = '[' :: rest ∧ ∀ (cls : Class) (behind : Text), p ≠ cls.text ++ behind

theorem written_cons (x : Piece) (ps : List Piece) : written (x :: ps) = x.text ++ written ps :=
  List.flatMap_cons

/-- A text that is not empty starts with a piece, or with a bracket that opens no class. -/
theorem exists_piece_or_staysOpen (c : Char) (p : Text) :
    (∃ (x : Piece) (rest : Text), c :: p = x.text ++ rest) ∨ StaysOpen (c :: p) := by
  by_cases hbracket : c = '['
  · by_cases hclass : ∃ (cls : Class) (rest : Text), c :: p = cls.text ++ rest
    · obtain ⟨cls, rest, heq⟩ := hclass
      exact Or.inl ⟨.oneOf cls, rest, heq⟩
    · exact Or.inr ⟨p, by rw [hbracket], fun cls rest heq => hclass ⟨cls, rest, heq⟩⟩
  · by_cases hstar : c = '*'
    · exact Or.inl ⟨.star, p, by rw [hstar]; rfl⟩
    · by_cases hany : c = '?'
      · exact Or.inl ⟨.any, p, by rw [hany]; rfl⟩
      · exact Or.inl ⟨.char c (by simp [hbracket, hstar, hany]), p, rfl⟩

/-- Every text is a row of pieces, up to the end or up to a bracket that stays open. -/
theorem exists_written_or_staysOpen (p : Text) :
    (∃ ps, p = written ps) ∨ ∃ ps rest, p = written ps ++ rest ∧ StaysOpen rest := by
  -- A class is a piece of several characters, so the induction is on the length.
  induction hlength : p.length using Nat.strongRecOn generalizing p with
  | ind n ih =>
      cases p with
      | nil => exact Or.inl ⟨[], rfl⟩
      | cons c p =>
          rcases exists_piece_or_staysOpen c p with ⟨x, rest, heq⟩ | hopen
          · have hlt : rest.length < n := by
              have hpos := x.length_text_pos
              rw [← hlength, heq, List.length_append]
              omega
            rw [heq]
            rcases ih rest.length hlt rest rfl with ⟨ps, rfl⟩ | ⟨ps, rest, rfl, hopen⟩
            · exact Or.inl ⟨x :: ps, (written_cons x ps).symm⟩
            · refine Or.inr ⟨x :: ps, rest, ?_, hopen⟩
              rw [written_cons, List.append_assoc]
          · exact Or.inr ⟨[], c :: p, rfl, hopen⟩

/-! ## Reading a pattern -/

/-- Behind its first character a class goes on to the next bracket that closes one. -/
theorem elementsFrom?_inside (negated : Bool) (seen : Text) {more : Text} (h : ']' ∉ more)
    (p : Text) :
    elementsFrom? (.inside negated seen) (more ++ ']' :: p) =
      (elements? p).map (classElement negated (seen.reverse ++ more) :: ·) := by
  induction more generalizing seen with
  | nil =>
      rw [List.nil_append, elementsFrom?, if_pos rfl, List.append_nil, elements?]
  | cons c more ih =>
      -- The character is seen now, and stands before what is left of the class.
      have hc : c ≠ ']' := fun heq => h (heq ▸ List.mem_cons_self)
      rw [List.cons_append, elementsFrom?, if_neg hc,
        ih (c :: seen) (List.not_mem_of_not_mem_cons h), List.reverse_cons, List.append_assoc,
        List.singleton_append]

theorem elementsFrom?_inside_of_not_mem (negated : Bool) (seen : Text) {p : Text} (h : ']' ∉ p) :
    elementsFrom? (.inside negated seen) p = none := by
  induction p generalizing seen with
  | nil => rfl
  | cons c p ih =>
      have hc : c ≠ ']' := fun heq => h (heq ▸ List.mem_cons_self)
      rw [elementsFrom?, if_neg hc, ih (c :: seen) (List.not_mem_of_not_mem_cons h)]

theorem elements?_class (cls : Class) (p : Text) :
    elements? (cls.text ++ p) = (elements? p).map (classElement cls.negated cls.chars :: ·) := by
  obtain ⟨negated, first, more, hfirst, hmore⟩ := cls
  rw [Class.text_append, elements?, elementsFrom?, if_pos rfl, Class.chars]
  cases negated with
  | false =>
      rw [if_neg Bool.false_ne_true, List.nil_append, List.cons_append, elementsFrom?,
        if_neg (hfirst rfl), elementsFrom?_inside false [first] hmore]
      rfl
  | true =>
      rw [if_pos rfl, List.append_assoc, List.singleton_append, List.cons_append, elementsFrom?,
        if_pos rfl, elementsFrom?, elementsFrom?_inside true [first] hmore]
      rfl

/-- Nothing is read from a pattern that starts with a class which stays open. -/
theorem elements?_of_staysOpen {p : Text} (h : StaysOpen p) : elements? p = none := by
  obtain ⟨rest, rfl, hopen⟩ := h
  -- A class that starts with `first` is closed as soon as a closing bracket stands behind that.
  have hnone : ∀ (negated : Bool) (first : Char) (behind : Text),
      (negated = false → first ≠ '!') →
      '[' :: rest = '[' :: ((if negated then ['!'] else []) ++ first :: behind) →
      elementsFrom? (.inside negated [first]) behind = none := by
    intro negated first behind hfirst heq
    refine elementsFrom?_inside_of_not_mem negated [first] fun hmem => ?_
    obtain ⟨more, p, rfl, hmore⟩ := List.eq_append_cons_of_mem hmem
    refine hopen ⟨negated, first, more, hfirst, hmore⟩ p ?_
    rw [heq, Class.text_append, Class.chars, List.append_assoc, List.cons_append]
  rw [elements?, elementsFrom?, if_pos rfl]
  cases rest with
  | nil => rfl
  | cons first behind =>
      rw [elementsFrom?]
      by_cases hbang : first = '!'
      · rw [if_pos hbang]
        cases behind with
        | nil => rfl
        | cons first' behind => exact hnone true first' behind nofun (by rw [hbang]; rfl)
      · rw [if_neg hbang]
        exact hnone false first behind (fun _ => hbang) rfl

/-- A piece in front of a pattern is read as its element. -/
theorem elements?_piece (x : Piece) (p : Text) :
    elements? (x.text ++ p) = (elements? p).map (x.element :: ·) := by
  cases x with
  | star => rfl
  | any => rfl
  | oneOf cls => exact elements?_class cls p
  | char c h =>
      rw [List.mem_cons, List.mem_cons, List.mem_singleton, not_or, not_or] at h
      obtain ⟨hstar, hany, hbracket⟩ := h
      rw [Piece.text, List.singleton_append, elements?, elementsFrom?, if_neg hbracket,
        if_neg hstar, if_neg hany, elements?, Piece.element]

theorem elements?_written_append (ps : List Piece) (p : Text) :
    elements? (written ps ++ p) = (elements? p).map (ps.map Piece.element ++ ·) := by
  induction ps with
  | nil => exact Option.map_id'.symm
  | cons x ps ih =>
      rw [written_cons, List.append_assoc, elements?_piece, ih, Option.map_map]
      rfl

theorem elements?_written (ps : List Piece) :
    elements? (written ps) = some (ps.map Piece.element) := by
  have h := elements?_written_append ps []
  rw [List.append_nil] at h
  exact h.trans (congrArg some (List.append_nil _))

/-- Nothing is read exactly if some bracket that the reading meets opens no class. -/
theorem elements?_eq_none_iff {p : Text} :
    elements? p = none ↔ ∃ ps rest, p = written ps ++ rest ∧ StaysOpen rest := by
  constructor
  · intro hnone
    refine (exists_written_or_staysOpen p).resolve_left ?_
    rintro ⟨ps, rfl⟩
    rw [elements?_written] at hnone
    exact nomatch hnone
  · rintro ⟨ps, rest, rfl, hopen⟩
    rw [elements?_written_append, elements?_of_staysOpen hopen, Option.map_none]

theorem exists_written_iff {p : Text} :
    (∃ ps, p = written ps) ↔ ¬ ∃ ps rest, p = written ps ++ rest ∧ StaysOpen rest := by
  rw [← elements?_eq_none_iff]
  constructor
  · rintro ⟨ps, rfl⟩ hnone
    rw [elements?_written] at hnone
    exact nomatch hnone
  · intro hsome
    exact (exists_written_or_staysOpen p).resolve_right (mt elements?_eq_none_iff.mpr hsome)

/-! ## What is accepted -/

/-- The element of a class takes one character that the class stands for. -/
theorem spells_classElement_iff {cls : Class} {es : List Element} {t : Text} :
    Spells (classElement cls.negated cls.chars :: es) t ↔
      ∃ c cs, t = c :: cs ∧ cls.Holds Lists c ∧ Spells es cs := by
  rw [classElement, spells_one_iff]
  refine exists_congr fun c => exists_congr fun cs => and_congr_right fun _ => and_congr_left ?_
  intro _
  rw [Class.Holds]
  cases cls.negated with
  | false => exact any_members_iff cls.chars c
  | true =>
      rw [if_pos rfl, if_pos rfl, ← any_members_iff, Single.holds, Bool.not_eq_true',
        Bool.not_eq_true]

/-- The element that a piece is read as takes what the piece takes. -/
theorem spells_element_iff {x : Piece} {es : List Element} {t : Text} :
    Spells (x.element :: es) t ↔
      ∃ taken rest, t = taken ++ rest ∧ x.Takes Lists taken ∧ Spells es rest := by
  cases x with
  | star =>
      rw [Piece.element, spells_star_iff]
      constructor
      · rintro ⟨rest, ⟨taken, rfl⟩, hrest⟩
        exact ⟨taken, rest, rfl, trivial, hrest⟩
      · rintro ⟨taken, rest, rfl, -, hrest⟩
        exact ⟨rest, List.suffix_append taken rest, hrest⟩
  | any =>
      rw [Piece.element, spells_one_iff]
      constructor
      · rintro ⟨c, cs, rfl, -, hcs⟩
        exact ⟨[c], cs, rfl, ⟨c, rfl⟩, hcs⟩
      · rintro ⟨_, rest, rfl, ⟨c, rfl⟩, hrest⟩
        exact ⟨c, rest, rfl, rfl, hrest⟩
  | oneOf cls =>
      rw [Piece.element, spells_classElement_iff]
      constructor
      · rintro ⟨c, cs, rfl, hc, hcs⟩
        exact ⟨[c], cs, rfl, ⟨c, rfl, hc⟩, hcs⟩
      · rintro ⟨_, rest, rfl, ⟨c, rfl, hc⟩, hrest⟩
        exact ⟨c, rest, rfl, hc, hrest⟩
  | char d h =>
      rw [Piece.element, spells_one_iff]
      constructor
      · rintro ⟨c, cs, rfl, hc, hcs⟩
        exact ⟨[c], cs, rfl, by rw [beq_iff_eq.mp hc, Piece.Takes], hcs⟩
      · rintro ⟨_, rest, rfl, rfl, hrest⟩
        exact ⟨d, rest, rfl, beq_self_eq_true d, hrest⟩

theorem spells_map_element_iff {ps : List Piece} {t : Text} :
    Spells (ps.map Piece.element) t ↔ TakesAll Lists ps t := by
  induction ps generalizing t with
  | nil => exact spells_nil_iff
  | cons x ps ih =>
      rw [List.map_cons, spells_element_iff, TakesAll]
      simp only [ih]

theorem ofText_of_written {p : Text} {ps : List Piece} (h : mergeStars p = written ps) :
    ofText p = .pattern (written ps) (ps.map Piece.element) := by
  rw [ofText, h, elements?_written]

/-- A pattern that is a row of pieces accepts what these take. -/
theorem accepts_of_written {p : Text} {ps : List Piece} (h : mergeStars p = written ps) (t : Text) :
    (ofText p).accepts t = true ↔ TakesAll Lists ps t := by
  rw [ofText_of_written h, accepts, beq_iff_eq, run_eq_matched_iff, spells_map_element_iff]

theorem ofText_of_staysOpen {p rest : Text} {ps : List Piece}
    (h : mergeStars p = written ps ++ rest) (hopen : StaysOpen rest) : ofText p = .literal p := by
  rw [ofText, elements?_eq_none_iff.mpr ⟨ps, rest, h, hopen⟩]

/-- A pattern is read exactly if, its runs of stars collapsed, it is a row of pieces, and it is none
exactly if its reading meets a bracket that opens no class. If it is read, it accepts the texts that
the pieces take, each whole, and no others. If it is not, it accepts itself as it was written, and
nothing else. -/
theorem accepts_iff_takesAll (p : Text) :
    ((∃ es, ofText p = .pattern (mergeStars p) es) ↔ ∃ ps, mergeStars p = written ps) ∧
      (ofText p = .literal p ↔ ∃ ps rest, mergeStars p = written ps ++ rest ∧ StaysOpen rest) ∧
      ∀ t, (ofText p).accepts t = true ↔
        (∃ ps, mergeStars p = written ps ∧ TakesAll Lists ps t) ∨
          (∃ ps rest, mergeStars p = written ps ++ rest ∧ StaysOpen rest) ∧ t = p := by
  rcases exists_written_or_staysOpen (mergeStars p) with ⟨ps, h⟩ | ⟨ps, rest, h, hopen⟩
  · have hnotOpen := exists_written_iff.mp ⟨ps, h⟩
    refine ⟨iff_of_true ⟨_, h ▸ ofText_of_written h⟩ ⟨ps, h⟩, ?_, fun t => ?_⟩
    · rw [ofText_of_written h]
      exact iff_of_false nofun hnotOpen
    · constructor
      · exact fun haccepts => Or.inl ⟨ps, h, (accepts_of_written h t).mp haccepts⟩
      · rintro (⟨qs, hqs, ht⟩ | ⟨hopen, -⟩)
        · exact (accepts_of_written hqs t).mpr ht
        · exact absurd hopen hnotOpen
  · have hnotWritten : ¬ ∃ ps, mergeStars p = written ps :=
      fun hps => exists_written_iff.mp hps ⟨ps, rest, h, hopen⟩
    rw [ofText_of_staysOpen h hopen]
    refine ⟨iff_of_false nofun hnotWritten, iff_of_true rfl ⟨ps, rest, h, hopen⟩, fun t => ?_⟩
    rw [accepts, beq_iff_eq]
    constructor
    · rintro rfl
      exact Or.inr ⟨⟨ps, rest, h, hopen⟩, rfl⟩
    · rintro (⟨qs, hqs, -⟩ | ⟨-, rfl⟩)
      · exact absurd ⟨qs, hqs⟩ hnotWritten
      · rfl

end Glob

end DocDigest
