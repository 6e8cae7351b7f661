import DocDigest.FileTree.Basic
import Mathlib.Data.List.Nodup

/-!
# Names that are bytes

To the system, the name of an entry and the target of a link are bytes. A tree of such names is
shown as a tree whose names are texts, with U+FFFD where the bytes are none. Names that differ only
there are shown alike, so the tree that is shown may have two entries at one location. If all names
are UTF-8, it is well-formed like the tree of the system (`RawTree.wellFormed_shown`).
-/

set_option autoImplicit false

namespace DocDigest

/-- Whether bytes are the UTF-8 form of a text. -/
def Utf8.IsText (bs : Bytes) : Prop := ∃ t, bs = encode t

/-- What stands at a location of a tree whose names are bytes. -/
inductive RawEntry where
  | directory
  | file (contents : Bytes)
  | link (target : Bytes)
deriving DecidableEq

def RawEntry.shown : RawEntry → Entry
  | .directory => .directory
  | .file contents => .file contents
  | .link target => .link ⟨Utf8.ofBytesLenient target⟩

/-- The entries below the root directory, with names that are bytes. -/
structure RawTree where
  entries : List (List Bytes × RawEntry)

namespace RawTree

/-- The location that is shown for names. -/
def shownNames (names : List Bytes) : Location := names.map Utf8.ofBytesLenient

/-- The tree that is shown. -/
def shown (r : RawTree) : FileTree := ⟨r.entries.map fun (names, e) => (shownNames names, e.shown)⟩

/-- Whether bytes can be the name of an entry: they are not empty, neither one dot nor two, and
without a slash. -/
def IsName (bs : Bytes) : Prop := bs ≠ [] ∧ bs ≠ [0x2E] ∧ bs ≠ [0x2E, 0x2E] ∧ 0x2F ∉ bs

instance (bs : Bytes) : Decidable (IsName bs) := inferInstanceAs (Decidable (_ ∧ _ ∧ _ ∧ _))

/-- A tree as a file system holds it: no location has two entries, locations are made of names, and
every entry stands in a directory. -/
structure WellFormed (r : RawTree) : Prop where
  distinct : (r.entries.map (·.1)).Nodup
  named : ∀ e ∈ r.entries, e.1 ≠ [] ∧ ∀ n ∈ e.1, IsName n
  housed : ∀ e ∈ r.entries, e.1.dropLast = [] ∨ (e.1.dropLast, .directory) ∈ r.entries

/-- Whether all names and the targets of all links are valid UTF-8. -/
structure Unicode (r : RawTree) : Prop where
  names : ∀ e ∈ r.entries, ∀ n ∈ e.1, Utf8.IsText n
  targets : ∀ e ∈ r.entries, ∀ target, e.2 = .link target → Utf8.IsText target

variable {r : RawTree} {n : Bytes} {names : List Bytes}

/-! ## Names that are valid UTF-8 -/

theorem encode_ofBytesLenient (h : Utf8.IsText n) : Utf8.encode (Utf8.ofBytesLenient n) = n := by
  obtain ⟨t, rfl⟩ := h
  rw [Utf8.ofBytesLenient_encode]

/-- Names that are valid UTF-8 are told from what is shown for them. -/
theorem encode_shownNames (h : ∀ n ∈ names, Utf8.IsText n) :
    (shownNames names).map Utf8.encode = names := by
  rw [shownNames, List.map_map]
  conv_rhs => rw [← List.map_id names]
  exact List.map_congr_left fun n hn => encode_ofBytesLenient (h n hn)

/-- Other names may be shown alike. -/
example : shownNames [[0x61, 0xFF]] = shownNames [[0x61, 0xFE]] := by decide

theorem isName_ofBytesLenient (htext : Utf8.IsText n) (h : IsName n) :
    FileTree.isName (Utf8.ofBytesLenient n) = true := by
  obtain ⟨t, rfl⟩ := htext
  obtain ⟨hempty, hdot, hdots, hslash⟩ := h
  have hslash' : '/' ∉ t := fun hmem => hslash (List.mem_flatMap.mpr ⟨'/', hmem, by decide⟩)
  have hne : t ≠ [] := by
    rintro rfl
    exact hempty rfl
  have hdot' : t ≠ ['.'] := by
    rintro rfl
    exact hdot (by decide)
  have hdots' : t ≠ ['.', '.'] := by
    rintro rfl
    exact hdots (by decide)
  simp [FileTree.isName, Utf8.ofBytesLenient_encode, hne, hdot', hdots', hslash']

/-! ## The tree that is shown -/

theorem locations_shown (r : RawTree) :
    r.shown.entries.map (·.1) = (r.entries.map (·.1)).map shownNames := by
  simp only [shown, List.map_map]
  rfl

/-- No two locations are shown alike if all names are valid UTF-8. -/
theorem nodup_locations_shown (hr : r.WellFormed) (hnames : r.Unicode) :
    (r.shown.entries.map (·.1)).Nodup := by
  rw [locations_shown]
  refine List.Nodup.map_on ?_ hr.distinct
  intro a ha b hb hab
  obtain ⟨e, he, rfl⟩ := List.mem_map.mp ha
  obtain ⟨f, hf, rfl⟩ := List.mem_map.mp hb
  rw [← encode_shownNames (hnames.names e he), ← encode_shownNames (hnames.names f hf), hab]

/-- A well-formed tree whose names are all valid UTF-8 is shown as a well-formed one. -/
theorem wellFormed_shown (hr : r.WellFormed) (hnames : r.Unicode) : r.shown.WellFormed where
  distinct := nodup_locations_shown hr hnames
  named := by
    intro e he
    obtain ⟨raw, hraw, rfl⟩ := List.mem_map.mp he
    obtain ⟨hne, hnamed⟩ := hr.named raw hraw
    refine ⟨fun hnil => hne (List.map_eq_nil_iff.mp hnil), fun n hn => ?_⟩
    obtain ⟨bs, hbs, rfl⟩ := List.mem_map.mp hn
    exact isName_ofBytesLenient (hnames.names raw hraw bs hbs) (hnamed bs hbs)
  housed := by
    intro e he
    obtain ⟨raw, hraw, rfl⟩ := List.mem_map.mp he
    have hfolder : (shownNames raw.1).dropLast = shownNames raw.1.dropLast :=
      (List.map_dropLast).symm
    show FileTree.isDirectoryAt _ (shownNames raw.1).dropLast = true
    rw [hfolder, FileTree.isDirectoryAt, FileTree.get?]
    rcases hr.housed raw hraw with htop | hmem
    · rw [htop]
      rfl
    · by_cases htop : shownNames raw.1.dropLast = []
      · rw [if_pos htop]
        rfl
      · have hlookup : (shownNames raw.1.dropLast, Entry.directory) ∈ r.shown.entries :=
          List.mem_map.mpr ⟨_, hmem, rfl⟩
        rw [if_neg htop,
          (FileTree.lookup_eq_some_iff (nodup_locations_shown hr hnames)).mpr hlookup]
        rfl

end RawTree

end DocDigest
