import DocDigest.Proofs.Text.Lines
import DocDigest.Settings.Combine

/-!
# Normal extensions

The extensions of a run are normal: not empty, trimmed, and with a dot in front. A normal extension
stands for itself as a word (`Extension.ofWord?_eq_self_iff`), so that nothing changes when the
extensions of a run are read as words again.

A list of words may as well be given as one text with commas between them, as long as no word holds
a comma (`Extension.ofList_joinWith`). For the settings of a run it then makes no difference which
of the two is given (`Settings.extensions_from_list_or_words`).
-/

set_option autoImplicit false

namespace DocDigest

namespace Extension

/-- An extension as the names of files end with it. -/
structure IsNormal (e : Text) : Prop where
  ne_nil : e ≠ []
  trimmed : Text.trim e = e
  dot : e.head? = some '.'

/-! ## The extension of a word -/

theorem ofWord?_of_blank {word : Text} (h : Text.trim word = []) : ofWord? word = none := by
  rw [ofWord?, h]

theorem ofWord?_of_dot {word : Text} (h : (Text.trim word).head? = some '.') :
    ofWord? word = some (Text.trim word) := by
  obtain ⟨rest, hrest⟩ := List.head?_eq_some_iff.mp h
  rw [ofWord?, hrest]
  rfl

theorem ofWord?_of_bare {word : Text} (hne : Text.trim word ≠ [])
    (h : (Text.trim word).head? ≠ some '.') : ofWord? word = some ('.' :: Text.trim word) := by
  rw [ofWord?]
  split
  · next hnil =>
    exact absurd hnil hne
  · next hdot =>
    rw [hdot] at h
    exact absurd rfl h
  · rfl

/-- A word that is not blank stands for what is left of it when it is trimmed, if that begins with a
dot, and otherwise for that with a dot in front. -/
theorem exists_ofWord?_eq_some {word : Text} (h : Text.trim word ≠ []) :
    ∃ e, ofWord? word = some e ∧
      ((e = Text.trim word ∧ e.head? = some '.') ∨ e = '.' :: Text.trim word) := by
  by_cases hdot : (Text.trim word).head? = some '.'
  · exact ⟨_, ofWord?_of_dot hdot, .inl ⟨rfl, hdot⟩⟩
  · exact ⟨_, ofWord?_of_bare h hdot, .inr rfl⟩

theorem eq_of_ofWord?_eq_some {word e : Text} (h : ofWord? word = some e) :
    (e = Text.trim word ∧ e.head? = some '.') ∨ e = '.' :: Text.trim word := by
  have hne : Text.trim word ≠ [] := by
    intro hnil
    rw [ofWord?_of_blank hnil] at h
    exact absurd h (Option.some_ne_none e).symm
  obtain ⟨e', he', hform⟩ := exists_ofWord?_eq_some hne
  obtain rfl : e' = e := Option.some.inj (he'.symm.trans h)
  exact hform

/-- A dot in front of a trimmed text leaves it trimmed. -/
theorem trim_dot_cons {t : Text} (h : Text.trim t = t) : Text.trim ('.' :: t) = '.' :: t := by
  have hdot : isBlank '.' = false := by decide
  refine Text.trim_eq_self_iff.mpr ⟨?_, ?_⟩
  · intro c hc
    rw [← Option.some.inj hc]
    exact hdot
  · intro c hc
    cases t with
    | nil =>
        rw [← Option.some.inj hc]
        exact hdot
    | cons d ds =>
        rw [List.getLast?_cons_cons] at hc
        exact (Text.trim_eq_self_iff.mp h).2 c hc

theorem isNormal_of_ofWord? {word e : Text} (h : ofWord? word = some e) : IsNormal e := by
  rcases eq_of_ofWord?_eq_some h with ⟨rfl, hdot⟩ | rfl
  · refine ⟨?_, Text.trim_trim word, hdot⟩
    intro hnil
    rw [hnil] at hdot
    exact absurd hdot (Option.some_ne_none '.').symm
  · exact ⟨List.cons_ne_nil _ _, trim_dot_cons (Text.trim_trim word), rfl⟩

/-- The normal extensions are the words that stand for themselves. -/
theorem ofWord?_eq_self_iff {e : Text} : ofWord? e = some e ↔ IsNormal e := by
  constructor
  · exact isNormal_of_ofWord?
  · intro h
    have hdot : (Text.trim e).head? = some '.' := by
      rw [h.trimmed, h.dot]
    rw [ofWord?_of_dot hdot, h.trimmed]

/-- An extension holds a comma if the word that it was read from does. -/
theorem comma_mem_iff_of_ofWord? {word e : Text} (h : ofWord? word = some e) :
    ',' ∈ e ↔ ',' ∈ word := by
  have htrim : ',' ∈ Text.trim word ↔ ',' ∈ word := Text.mem_trim_iff (by decide)
  rcases eq_of_ofWord?_eq_some h with ⟨rfl, -⟩ | rfl
  · exact htrim
  · rw [List.mem_cons, htrim]
    exact or_iff_right (by decide)

/-- A word that holds a comma stands for an extension. -/
theorem exists_ofWord?_of_comma_mem {word : Text} (h : ',' ∈ word) :
    ∃ e, ofWord? word = some e := by
  have hmem : ',' ∈ Text.trim word := (Text.mem_trim_iff (by decide)).mpr h
  obtain ⟨e, he, -⟩ := exists_ofWord?_eq_some (List.ne_nil_of_mem hmem)
  exact ⟨e, he⟩

/-! ## The extensions of words -/

theorem isNormal_of_mem_ofWords {words : List Text} {e : Text} (h : e ∈ ofWords words) :
    IsNormal e := by
  obtain ⟨word, -, hword⟩ := List.mem_filterMap.mp h
  exact isNormal_of_ofWord? hword

/-- Normal extensions are read back as they are. -/
theorem ofWords_eq_self {es : List Text} (h : ∀ e ∈ es, IsNormal e) : ofWords es = es := by
  induction es with
  | nil =>
      rfl
  | cons e es ih =>
      have he : ofWord? e = some e := ofWord?_eq_self_iff.mpr (h e List.mem_cons_self)
      rw [ofWords, List.filterMap_cons_some he, ← ofWords,
        ih fun f hf => h f (List.mem_cons_of_mem e hf)]

theorem comma_free_ofWords_iff {words : List Text} :
    (∀ e ∈ ofWords words, ',' ∉ e) ↔ ∀ word ∈ words, ',' ∉ word := by
  constructor
  · intro h word hword hcomma
    obtain ⟨e, he⟩ := exists_ofWord?_of_comma_mem hcomma
    have hmem : e ∈ ofWords words := List.mem_filterMap.mpr ⟨word, hword, he⟩
    exact h e hmem ((comma_mem_iff_of_ofWord? he).mpr hcomma)
  · intro h e he hcomma
    obtain ⟨word, hword, hof⟩ := List.mem_filterMap.mp he
    exact h word hword ((comma_mem_iff_of_ofWord? hof).mp hcomma)

/-! ## Commas between the words -/

/-- Words without commas may be given with commas between them. No words at all are given as the
empty text, which is split into one blank word. -/
theorem ofList_joinWith {words : List Text} (h : ∀ word ∈ words, ',' ∉ word) :
    ofList (Text.joinWith [','] words) = ofWords words := by
  cases words with
  | nil =>
      rfl
  | cons word words =>
      rw [ofList, Text.splitOn_joinWith h]

theorem comma_free_ofList (t : Text) : ∀ e ∈ ofList t, ',' ∉ e :=
  comma_free_ofWords_iff.mpr fun _ hword => Text.not_mem_of_mem_splitOn hword

/-- Normal extensions are read back from the text with commas between them exactly if none of them
holds a comma. -/
theorem ofList_joinWith_eq_self_iff {es : List Text} (h : ∀ e ∈ es, IsNormal e) :
    ofList (Text.joinWith [','] es) = es ↔ ∀ e ∈ es, ',' ∉ e := by
  constructor
  · intro heq
    rw [← heq]
    exact comma_free_ofList _
  · intro hcomma
    rw [ofList_joinWith hcomma, ofWords_eq_self h]

end Extension

namespace Settings

/-- From wherever the extensions of a run come, they are read from words. -/
theorem exists_extensionsOf_eq_ofWords (file : Config) (choices : Choices) :
    ∃ words, extensionsOf file choices = Extension.ofWords words := by
  rw [extensionsOf]
  split
  · exact ⟨Text.splitOn ',' _, rfl⟩
  · exact ⟨_, rfl⟩
  · exact ⟨Config.defaultExtensions, rfl⟩

theorem isNormal_of_mem_extensionsOf {file : Config} {choices : Choices} {e : Text}
    (h : e ∈ extensionsOf file choices) : Extension.IsNormal e := by
  obtain ⟨words, heq⟩ := exists_extensionsOf_eq_ofWords file choices
  rw [heq] at h
  exact Extension.isNormal_of_mem_ofWords h

/-- Only a word of the config file brings a comma into the extensions of a run. -/
theorem comma_free_extensionsOf_iff (file : Config) (choices : Choices) :
    (∀ e ∈ extensionsOf file choices, ',' ∉ e) ↔
      (choices.extensions = none → ∀ words, file.extensions = some words →
        ∀ word ∈ words, ',' ∉ word) := by
  cases hlist : choices.extensions with
  | some list =>
      have hext : extensionsOf file choices = Extension.ofList list := by
        rw [extensionsOf, hlist]
      rw [hext]
      exact iff_of_true (Extension.comma_free_ofList list)
        fun hnone => absurd hnone (Option.some_ne_none list)
  | none =>
      cases hwords : file.extensions with
      | some words =>
          have hext : extensionsOf file choices = Extension.ofWords words := by
            rw [extensionsOf, hlist, hwords]
          rw [hext, Extension.comma_free_ofWords_iff]
          constructor
          · intro h _ words' hwords'
            rwa [← Option.some.inj hwords']
          · intro h
            exact h rfl words rfl
      | none =>
          have hext : extensionsOf file choices = Extension.ofWords Config.defaultExtensions := by
            rw [extensionsOf, hlist, hwords]
          rw [hext, Extension.comma_free_ofWords_iff]
          exact iff_of_true (by decide) fun _ words hsome =>
            absurd hsome (Option.some_ne_none words).symm

/-- Words for the extensions that hold no comma make the same settings in the config file and, with
commas between them, on the command line. -/
theorem combine_joinWith (root : Path) (file : Config) (choices : Choices) {words : List Text}
    (h : ∀ word ∈ words, ',' ∉ word) :
    combine root file { choices with extensions := some (Text.joinWith [','] words) } =
      combine root { file with extensions := some words } { choices with extensions := none } := by
  let others := combine root file { choices with extensions := none }
  calc combine root file { choices with extensions := some (Text.joinWith [','] words) }
      = { others with extensions := Extension.ofList (Text.joinWith [','] words) } := rfl
    _ = { others with extensions := Extension.ofWords words } := by
        rw [Extension.ofList_joinWith h]
    _ = combine root { file with extensions := some words }
          { choices with extensions := none } := rfl

/-- It makes no difference whether words for the extensions stand in the config file or, with commas
between them, on the command line. All extensions of a run are normal, so that reading them as words
again changes nothing. Reading them from the text with commas between them changes nothing either,
unless they come from a word of the config file with a comma in it. -/
theorem extensions_from_list_or_words (root : Path) (file : Config) (choices : Choices) :
    (∀ words : List Text, (∀ word ∈ words, ',' ∉ word) →
      combine root file { choices with extensions := some (Text.joinWith [','] words) } =
        combine root { file with extensions := some words } { choices with extensions := none }) ∧
    (∀ e ∈ (combine root file choices).extensions, Extension.IsNormal e) ∧
    Extension.ofWords (combine root file choices).extensions =
      (combine root file choices).extensions ∧
    (Extension.ofList (Text.joinWith [','] (combine root file choices).extensions) =
      (combine root file choices).extensions ↔
        (choices.extensions = none → ∀ words, file.extensions = some words →
          ∀ word ∈ words, ',' ∉ word)) := by
  have hnormal : ∀ e ∈ (combine root file choices).extensions, Extension.IsNormal e :=
    fun _ => isNormal_of_mem_extensionsOf
  refine ⟨?same, hnormal, ?words, ?joined⟩
  case same =>
    intro words h
    exact combine_joinWith root file choices h
  case words =>
    exact Extension.ofWords_eq_self hnormal
  case joined =>
    rw [Extension.ofList_joinWith_eq_self_iff hnormal]
    exact comma_free_extensionsOf_iff file choices

/-- An empty word is dropped, a lone dot is kept, and any kind of white space around a word goes. -/
theorem extensions_from_list_or_words_with_odd_words :
    let words : List Text := [" ts".toList, [], ".".toList, "\u00a0.d ts\u3000".toList]
    let listed := combine ⟨"src".toList⟩ { Config.defaults with extensions := some words }
      Choices.empty
    (∀ word ∈ words, ',' ∉ word) ∧
      combine ⟨"src".toList⟩ Config.defaults
        { Choices.empty with extensions := some " ts,,.,\u00a0.d ts\u3000".toList } = listed ∧
      listed.extensions = [".ts".toList, ".".toList, ".d ts".toList] ∧
      Extension.ofWords listed.extensions = listed.extensions ∧
      Extension.ofList ".ts,.,.d ts".toList = listed.extensions := by
  intro words listed
  have hcomma : ∀ word ∈ words, ',' ∉ word := by decide
  have hsame := (extensions_from_list_or_words ⟨"src".toList⟩ Config.defaults Choices.empty).1
  obtain ⟨-, -, hwords, hjoined⟩ := extensions_from_list_or_words ⟨"src".toList⟩
    { Config.defaults with extensions := some words } Choices.empty
  refine ⟨hcomma, hsame words hcomma, by decide, hwords, hjoined.mpr ?_⟩
  rintro - _ hgiven
  rwa [← Option.some.inj hgiven]

end Settings

end DocDigest
