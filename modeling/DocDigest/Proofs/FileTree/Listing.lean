import DocDigest.FileTree.Basic
import Mathlib.Data.List.Basic

/-!
# The order in which a directory is listed

The entries of a directory are listed in the order of their names. Names are compared code point by
code point, which is the order of their bytes in UTF-8 (`encode_lt_of_comesBefore`). No two entries
of a directory have the same name, so the listing does not depend on the order in which the tree
holds its entries (`WellFormed.children_eq_of_perm`).
-/

set_option autoImplicit false

namespace DocDigest

namespace Utf8

/-! ## Bytes of characters -/

/-- Of two numbers, the greater one has the greater leading digits, or the same ones and a greater
last digit. -/
theorem div_lt_div_or_mod_lt_mod {v w : Nat} (h : v < w) :
    v / 64 < w / 64 ∨ v / 64 = w / 64 ∧ v % 64 < w % 64 := by
  omega

/-- The bytes of a character come before those of a greater one, whatever follows them. -/
theorem utf8EncodeChar_append_lt {c d : Char} (h : c.toNat < d.toNat) (s t : Bytes) :
    String.utf8EncodeChar c ++ s < String.utf8EncodeChar d ++ t := by
  have hd : d.toNat < 0x110000 := by
    have hvalid := toNat_valid d
    omega
  rw [String.utf8EncodeChar, String.utf8EncodeChar, show c.val.toNat = c.toNat from rfl,
    show d.val.toNat = d.toNat from rfl]
  generalize c.toNat = v at h
  generalize d.toNat = w at h hd
  -- A sequence spells the digits of the code point to the base 64.
  have hdigits : ∀ v, v / 4096 = v / 64 / 64 ∧ v / 262144 = v / 64 / 64 / 64 := by
    intro v
    rw [Nat.div_div_eq_div_mul, Nat.div_div_eq_div_mul]
    exact ⟨rfl, rfl⟩
  rw [(hdigits v).1, (hdigits v).2, (hdigits w).1, (hdigits w).2]
  have hlast := div_lt_div_or_mod_lt_mod h
  have hthird : v / 64 < w / 64 → _ := div_lt_div_or_mod_lt_mod
  have hsecond : v / 64 / 64 < w / 64 / 64 → _ := div_lt_div_or_mod_lt_mod
  have hfirst : w / 64 / 64 / 64 < 8 := by omega
  -- Sequences of different lengths differ in the first byte already.
  split_ifs <;>
    simp only [List.cons_append, List.nil_append, List.cons_lt_cons_iff, UInt8.lt_iff_toNat_lt,
      ← UInt8.toNat_inj, UInt8.toNat_ofNat'] <;>
    omega

theorem encode_cons (c : Char) (t : Text) :
    encode (c :: t) = String.utf8EncodeChar c ++ encode t := List.flatMap_cons

end Utf8

namespace FileTree

/-! ## The order of names -/

theorem encode_lt_of_comesBefore {m n : Text} (h : comesBefore m n = true) :
    Utf8.encode m < Utf8.encode n := by
  induction m, n using comesBefore.induct with
  | case1 m =>
      rw [comesBefore] at h
      exact absurd h Bool.false_ne_true
  | case2 d ds =>
      have hpos : 0 < (Utf8.encode (d :: ds)).length := by
        have hsize := d.utf8Size_pos
        rw [Utf8.encode_cons, List.length_append, String.length_utf8EncodeChar]
        omega
      obtain ⟨b, bs, hbytes⟩ := List.exists_cons_of_length_pos hpos
      rw [hbytes]
      exact List.nil_lt_cons b bs
  | case3 c cs d ds heq ih =>
      rw [comesBefore, if_pos heq] at h
      rw [Utf8.encode_cons, Utf8.encode_cons, Char.toNat_inj.mp heq]
      exact List.append_left_lt (ih h)
  | case4 c cs d ds hne =>
      rw [comesBefore, if_neg hne, decide_eq_true_iff] at h
      rw [Utf8.encode_cons, Utf8.encode_cons]
      exact Utf8.utf8EncodeChar_append_lt h _ _

/-- Of two different names, one comes before the other. -/
theorem comesBefore_or_eq_or_comesBefore (m n : Text) :
    comesBefore m n = true ∨ m = n ∨ comesBefore n m = true := by
  induction m, n using comesBefore.induct with
  | case1 m =>
      cases m with
      | nil =>
          exact Or.inr (Or.inl rfl)
      | cons c cs =>
          exact Or.inr (Or.inr rfl)
  | case2 d ds =>
      exact Or.inl rfl
  | case3 c cs d ds heq ih =>
      have hc : c = d := Char.toNat_inj.mp heq
      subst hc
      rw [comesBefore, if_pos rfl, comesBefore, if_pos rfl]
      exact ih.imp_right (Or.imp_left (congrArg (c :: ·)))
  | case4 c cs d ds hne =>
      rw [comesBefore, if_neg hne, comesBefore, if_neg (Ne.symm hne), decide_eq_true_iff,
        decide_eq_true_iff]
      omega

/-- Whether an entry's name comes before another's, byte by byte. -/
def NameLess (a b : Text × Entry) : Prop := Utf8.encode a.1 < Utf8.encode b.1

theorem NameLess.trans {a b c : Text × Entry} (h : NameLess a b) (h' : NameLess b c) :
    NameLess a c := List.lt_trans h h'

/-- Two listings of the same entries in the order of the names are equal. -/
theorem eq_of_perm_of_pairwise {as bs : List (Text × Entry)} (h : as.Perm bs)
    (has : as.Pairwise NameLess) (hbs : bs.Pairwise NameLess) : as = bs := by
  refine h.eq_of_pairwise (fun a b _ _ hab hba => ?_) has hbs
  exact absurd hba (List.lt_asymm hab)

/-! ## Sorting by name -/

theorem insertByName_perm (child : Text × Entry) (children : List (Text × Entry)) :
    (insertByName child children).Perm (child :: children) := by
  induction children with
  | nil =>
      rfl
  | cons other rest ih =>
      rw [insertByName]
      split
      · exact (ih.cons other).trans (.swap child other rest)
      · rfl

theorem sortByName_perm (children : List (Text × Entry)) :
    (sortByName children).Perm children := by
  induction children with
  | nil =>
      rfl
  | cons child rest ih =>
      rw [sortByName, List.foldr_cons, ← sortByName]
      exact (insertByName_perm child _).trans (ih.cons child)

/-- An entry whose name is new is put in its place. -/
theorem pairwise_insertByName {child : Text × Entry} {children : List (Text × Entry)}
    (hnew : ∀ other ∈ children, other.1 ≠ child.1) (hsorted : children.Pairwise NameLess) :
    (insertByName child children).Pairwise NameLess := by
  induction children with
  | nil =>
      exact List.pairwise_singleton NameLess child
  | cons other rest ih =>
      obtain ⟨hother, hrest⟩ := List.pairwise_cons.mp hsorted
      rw [insertByName]
      split
      · next hbefore =>
        refine List.pairwise_cons.mpr ⟨fun a ha => ?_,
          ih (fun a ha => hnew a (List.mem_cons_of_mem _ ha)) hrest⟩
        rcases List.mem_cons.mp ((insertByName_perm child rest).mem_iff.mp ha) with rfl | ha
        · exact encode_lt_of_comesBefore hbefore
        · exact hother a ha
      · next hbefore =>
        have hchild : NameLess child other := by
          rcases comesBefore_or_eq_or_comesBefore other.1 child.1 with h | h | h
          · exact absurd h hbefore
          · exact absurd h (hnew other List.mem_cons_self)
          · exact encode_lt_of_comesBefore h
        refine List.pairwise_cons.mpr ⟨fun a ha => ?_, hsorted⟩
        rcases List.mem_cons.mp ha with rfl | ha
        · exact hchild
        · exact hchild.trans (hother a ha)

theorem pairwise_sortByName {children : List (Text × Entry)}
    (hdistinct : (children.map (·.1)).Nodup) : (sortByName children).Pairwise NameLess := by
  induction children with
  | nil =>
      exact List.Pairwise.nil
  | cons child rest ih =>
      rw [List.map_cons, List.nodup_cons] at hdistinct
      rw [sortByName, List.foldr_cons, ← sortByName]
      refine pairwise_insertByName (fun other hother heq => hdistinct.1 ?_) (ih hdistinct.2)
      rw [← heq]
      exact List.mem_map_of_mem ((sortByName_perm rest).mem_iff.mp hother)

/-! ## Listing a directory -/

theorem childName?_eq_some_iff {folder l : Location} {n : Text} :
    childName? folder l = some n ↔ l = folder ++ [n] := by
  rw [← after?_eq_some_iff, childName?]
  cases h : after? folder l with
  | none =>
      simp
  | some rest =>
      match rest with
      | [] => simp
      | [m] => simp
      | _ :: _ :: _ => simp

/-- The entries that stand right below a directory, in the order in which the tree holds them. -/
def unsorted (t : FileTree) (folder : Location) : List (Text × Entry) :=
  t.entries.filterMap fun (l, e) => (childName? folder l).map (·, e)

theorem children_eq (t : FileTree) (folder : Location) :
    t.children folder = sortByName (t.unsorted folder) := rfl

theorem mem_unsorted {t : FileTree} {folder : Location} {n : Text} {e : Entry} :
    (n, e) ∈ t.unsorted folder ↔ (folder ++ [n], e) ∈ t.entries := by
  rw [unsorted, List.mem_filterMap]
  constructor
  · rintro ⟨⟨l, e'⟩, hmem, h⟩
    obtain ⟨m, hm, heq⟩ := Option.map_eq_some_iff.mp h
    obtain ⟨rfl, rfl⟩ := Prod.mk.inj heq
    rw [childName?_eq_some_iff] at hm
    rwa [← hm]
  · intro hmem
    refine ⟨(folder ++ [n], e), hmem, ?_⟩
    show (childName? folder (folder ++ [n])).map (·, e) = some (n, e)
    rw [childName?_eq_some_iff.mpr rfl, Option.map_some]

/-- The entries of a directory are those that the tree holds right below it. -/
theorem mem_children {t : FileTree} {folder : Location} {n : Text} {e : Entry} :
    (n, e) ∈ t.children folder ↔ (folder ++ [n], e) ∈ t.entries := by
  rw [children_eq, (sortByName_perm _).mem_iff, mem_unsorted]

namespace WellFormed

variable {t t' : FileTree}

theorem isName_of_mem_children (h : t.WellFormed) {folder : Location} {child : Text × Entry}
    (hmem : child ∈ t.children folder) : isName child.1 = true :=
  (h.named _ (mem_children.mp hmem)).2 child.1 (List.mem_append_right folder List.mem_cons_self)

/-- No two entries of a directory have the same name. -/
theorem nodup_unsorted (h : t.WellFormed) (folder : Location) :
    ((t.unsorted folder).map (·.1)).Nodup := by
  have hdistinct := h.distinct
  rw [List.Nodup, List.pairwise_map] at hdistinct
  rw [List.Nodup, List.pairwise_map, unsorted, List.pairwise_filterMap]
  refine hdistinct.imp fun {a b} hne x hx y hy heq => hne ?_
  obtain ⟨m, hm, rfl⟩ := Option.map_eq_some_iff.mp hx
  obtain ⟨n, hn, rfl⟩ := Option.map_eq_some_iff.mp hy
  rw [childName?_eq_some_iff.mp hm, childName?_eq_some_iff.mp hn]
  exact congrArg (folder ++ [·]) heq

/-- A directory is listed in the order of the names. -/
theorem pairwise_children (h : t.WellFormed) (folder : Location) :
    (t.children folder).Pairwise NameLess := by
  rw [children_eq]
  exact pairwise_sortByName (h.nodup_unsorted folder)

/-- The order in which a tree holds its entries makes no difference for what stands where. -/
theorem get?_eq_of_perm (h : t.WellFormed) (hperm : t'.entries.Perm t.entries) :
    t'.get? = t.get? := by
  funext l
  by_cases hl : l = []
  · rw [get?, get?, if_pos hl, if_pos hl]
  · rw [get?, get?, if_neg hl, if_neg hl]
    refine Option.ext fun e => ?_
    rw [lookup_eq_some_iff h.distinct, lookup_eq_some_iff ((hperm.map _).nodup_iff.mpr h.distinct),
      hperm.mem_iff]

/-- The order in which a tree holds its entries makes no difference for a listing. -/
theorem children_eq_of_perm (h : t.WellFormed) (hperm : t'.entries.Perm t.entries) :
    t'.children = t.children := by
  funext folder
  have hunsorted : (t'.unsorted folder).Perm (t.unsorted folder) := hperm.filterMap _
  have hnames : ((t'.unsorted folder).map (·.1)).Nodup :=
    (hunsorted.map _).nodup_iff.mpr (h.nodup_unsorted folder)
  have hsame : (t'.children folder).Perm (t.children folder) :=
    (sortByName_perm _).trans (hunsorted.trans (sortByName_perm _).symm)
  exact eq_of_perm_of_pairwise hsame (pairwise_sortByName hnames) (h.pairwise_children folder)

/-- Directories that hold the same entries are listed the same, wherever they stand. -/
theorem children_eq_of_get? (h : t.WellFormed) (h' : t'.WellFormed) {folder folder' : Location}
    (hget : ∀ n, t'.get? (folder' ++ [n]) = t.get? (folder ++ [n])) :
    t'.children folder' = t.children folder := by
  have hnodup {t : FileTree} (h : t.WellFormed) (folder : Location) :
      (t.children folder).Nodup := by
    refine (h.pairwise_children folder).imp fun hless heq => ?_
    subst heq
    exact List.lt_irrefl _ hless
  have hsame : (t'.children folder').Perm (t.children folder) := by
    refine (List.perm_ext_iff_of_nodup (hnodup h' folder') (hnodup h folder)).mpr ?_
    rintro ⟨n, e⟩
    rw [mem_children, mem_children, ← h'.get?_eq_some_iff (by simp),
      ← h.get?_eq_some_iff (by simp), hget]
  exact eq_of_perm_of_pairwise hsame (h'.pairwise_children folder') (h.pairwise_children folder)

end WellFormed

end FileTree

end DocDigest
