import Mathlib.Data.List.Basic
import DocDigest.Proofs.Json.Quote

/-!
# Values read back

A value of texts, flags, nulls, lists and records that was written, in either layout, is read back
with what stood behind it left over (`Json.Plain.readsBack`), and so the whole printed text spells
the value (`Json.parse?_print`).
-/

set_option autoImplicit false

namespace DocDigest

namespace Json

/-- A value without numbers whose strings all denote texts. -/
inductive Plain : Json → Prop where
  | null : Plain .null
  | bool (b : Bool) : Plain (.bool b)
  | text (t : Text) : Plain (ofText t)
  | array (vs : List Json) (h : ∀ v ∈ vs, Plain v) : Plain (.array vs)
  | object (ms : List (List Unit × Json)) (hkeys : ∀ m ∈ ms, ∃ k, m.1 = unitsOf k)
      (h : ∀ m ∈ ms, Plain m.2) : Plain (.object ms)

theorem Plain.texts (ts : List Text) : Plain (ofTexts ts) := by
  refine .array _ fun v hv => ?_
  obtain ⟨t, _, rfl⟩ := List.mem_map.mp hv
  exact .text t

theorem Plain.members {ms : List (Text × Json)} (h : ∀ m ∈ ms, Plain m.2) :
    Plain (ofMembers ms) := by
  refine .object _ (fun m hm => ?_) fun m hm => ?_
  · obtain ⟨n, _, rfl⟩ := List.mem_map.mp hm
    exact ⟨n.1, rfl⟩
  · obtain ⟨n, hn, rfl⟩ := List.mem_map.mp hm
    exact h n hn

/-! ## White space -/

theorem skipSpace_append {s : Text} (hs : ∀ c ∈ s, isSpace c = true) (t : Text) :
    skipSpace (s ++ t) = skipSpace t :=
  List.dropWhile_append_of_pos hs

theorem skipSpace_of_not_isSpace {c : Char} (hc : isSpace c = false) (t : Text) :
    skipSpace (c :: t) = c :: t := by
  rw [skipSpace, List.dropWhile_cons_of_neg (by simp [hc])]

theorem isSpace_of_mem_lineBreak {layout : Layout} {depth : Nat} {c : Char}
    (hc : c ∈ lineBreak layout depth) : isSpace c = true := by
  cases layout with
  | compact => exact absurd hc List.not_mem_nil
  | indented =>
      rcases List.mem_cons.mp hc with rfl | hc
      · rfl
      · rw [List.eq_of_mem_replicate hc]
        rfl

theorem skipSpace_lineBreak (layout : Layout) (depth : Nat) (t : Text) :
    skipSpace (lineBreak layout depth ++ t) = skipSpace t :=
  skipSpace_append (fun _ => isSpace_of_mem_lineBreak) t

/-- Space in front of a value is passed over. -/
theorem value?_congr {t t' : Text} (h : skipSpace t = skipSpace t') (fuel : Nat) :
    value? fuel t = value? fuel t' := by
  cases fuel with
  | zero => rfl
  | succ fuel => rw [value?, value?, h]

theorem items?_congr {t t' : Text} (h : skipSpace t = skipSpace t') (fuel : Nat) :
    items? fuel t = items? fuel t' := by
  cases fuel with
  | zero => rfl
  | succ fuel => rw [items?, items?, value?_congr h]

theorem members?_congr {t t' : Text} (h : skipSpace t = skipSpace t') (fuel : Nat) :
    members? fuel t = members? fuel t' := by
  cases fuel with
  | zero => rfl
  | succ fuel => rw [members?, members?, h]

/-! ## What is written -/

/-- The first character that is written for a value begins a value: it is no space and closes no
list. -/
theorem Plain.exists_cons_write {v : Json} (h : Plain v) (layout : Layout) (depth : Nat) :
    ∃ c w, write layout depth v = c :: w ∧ isSpace c = false ∧ c ≠ ']' := by
  cases h with
  | null => exact ⟨'n', "ull".toList, rfl, rfl, by decide⟩
  | bool b =>
      cases b with
      | false => exact ⟨'f', "alse".toList, rfl, rfl, by decide⟩
      | true => exact ⟨'t', "rue".toList, rfl, rfl, by decide⟩
  | text t => exact ⟨'"', _, rfl, rfl, by decide⟩
  | array vs _ =>
      cases vs with
      | nil => exact ⟨'[', _, rfl, rfl, by decide⟩
      | cons v vs => exact ⟨'[', _, rfl, rfl, by decide⟩
  | object ms _ _ =>
      cases ms with
      | nil => exact ⟨'{', _, rfl, rfl, by decide⟩
      | cons m ms => exact ⟨'{', _, rfl, rfl, by decide⟩

theorem Plain.exists_fuel {v : Json} (h : Plain v) {layout : Layout} {depth fuel : Nat}
    (hfuel : (write layout depth v).length ≤ fuel) : ∃ n, fuel = n + 1 := by
  obtain ⟨c, w, hw, -⟩ := h.exists_cons_write layout depth
  rw [hw, List.length_cons] at hfuel
  exact Nat.exists_eq_add_one_of_ne_zero (by omega)

/-- A quoted text at the front of a text is read as a value. -/
theorem value?_quote (t rest : Text) (fuel : Nat) :
    value? (fuel + 1) (quote (unitsOf t) ++ rest) = some (ofText t, rest) := by
  have hquote : quote (unitsOf t) ++ rest
      = '"' :: ((unitsOf t).flatMap escapeUnit ++ '"' :: rest) := by
    simp [quote]
  rw [hquote, value?, skipSpace_of_not_isSpace rfl]
  simp only [units?_quoted]
  rfl

/-! ## Lists and records -/

/-- What the reader gives back for a value in every place that has room for it. -/
def ReadsBack (layout : Layout) (v : Json) : Prop :=
  ∀ (depth fuel : Nat) (rest : Text), (write layout depth v).length ≤ fuel →
    value? fuel (write layout depth v ++ rest) = some (v, rest)

/-- The items that were written are read back up to the bracket. -/
theorem items?_write {layout : Layout} (outer : Nat) {depth : Nat} {v : Json} {vs : List Json}
    (h : ∀ u ∈ v :: vs, ReadsBack layout u) {fuel : Nat}
    (hfuel : (write layout depth v ++ writeItems layout depth vs).length < fuel) (rest : Text) :
    items? fuel (write layout depth v
      ++ (writeItems layout depth vs ++ (lineBreak layout outer ++ ']' :: rest)))
      = some (v :: vs, rest) := by
  induction vs generalizing v fuel with
  | nil =>
      obtain ⟨fuel, rfl⟩ := Nat.exists_eq_add_one_of_ne_zero (show fuel ≠ 0 by omega)
      rw [writeItems, List.append_nil] at hfuel
      rw [items?, h v List.mem_cons_self _ _ _ (by omega)]
      simp only [Option.bind_some, writeItems, List.nil_append]
      rw [skipSpace_lineBreak, skipSpace_of_not_isSpace rfl]
      rfl
  | cons u us ih =>
      obtain ⟨fuel, rfl⟩ := Nat.exists_eq_add_one_of_ne_zero (show fuel ≠ 0 by omega)
      simp only [writeItems, List.length_append, List.length_cons, List.length_nil] at hfuel
      have hlength : (write layout depth u ++ writeItems layout depth us).length < fuel := by
        rw [List.length_append]
        omega
      have hrest := ih (fun w hw => h w (List.mem_cons_of_mem _ hw)) hlength
      rw [items?, h v List.mem_cons_self _ _ _ (by omega)]
      simp only [Option.bind_some, writeItems, List.append_assoc, List.cons_append,
        List.nil_append]
      rw [skipSpace_of_not_isSpace rfl]
      simp only
      rw [items?_congr (skipSpace_lineBreak layout depth _), hrest]
      rfl

/-- A key that was written is read back up to the value behind its colon. -/
theorem members?_key (layout : Layout) (k : Text) (fuel : Nat) (t : Text) :
    members? (fuel + 1) (quote (unitsOf k) ++ (colon layout ++ t))
      = (value? fuel t).bind fun (v, t) =>
          match skipSpace t with
          | ',' :: t => (members? fuel t).map fun (ms, rest) => ((unitsOf k, v) :: ms, rest)
          | '}' :: rest => some ([(unitsOf k, v)], rest)
          | _ => none := by
  have hquote : quote (unitsOf k) ++ (colon layout ++ t)
      = '"' :: ((unitsOf k).flatMap escapeUnit ++ '"' :: (colon layout ++ t)) := by
    simp [quote]
  obtain ⟨space, hcolon, hspace⟩ : ∃ space, colon layout ++ t = ':' :: (space ++ t)
      ∧ ∀ c ∈ space, isSpace c = true := by
    cases layout with
    | compact => exact ⟨[], rfl, fun _ h => absurd h List.not_mem_nil⟩
    | indented => exact ⟨[' '], rfl, fun c h => by rw [List.mem_singleton.mp h]; rfl⟩
  rw [hquote, members?, skipSpace_of_not_isSpace rfl]
  simp only [units?_quoted, Option.bind_some]
  rw [hcolon, skipSpace_of_not_isSpace rfl]
  simp only
  exact congrArg (Option.bind · _) (value?_congr (skipSpace_append hspace t) fuel)

/-- The members that were written are read back up to the brace. -/
theorem members?_write {layout : Layout} (outer : Nat) {depth : Nat} {k : List Unit} {v : Json}
    {ms : List (List Unit × Json)} (hkeys : ∀ m ∈ (k, v) :: ms, ∃ t, m.1 = unitsOf t)
    (h : ∀ m ∈ (k, v) :: ms, ReadsBack layout m.2) {fuel : Nat}
    (hfuel : (write layout depth v ++ writeMembers layout depth ms).length < fuel) (rest : Text) :
    members? fuel (quote k ++ (colon layout ++ (write layout depth v
      ++ (writeMembers layout depth ms ++ (lineBreak layout outer ++ '}' :: rest)))))
      = some ((k, v) :: ms, rest) := by
  induction ms generalizing k v fuel with
  | nil =>
      obtain ⟨t, rfl⟩ : ∃ t, k = unitsOf t := hkeys (k, v) List.mem_cons_self
      obtain ⟨fuel, rfl⟩ := Nat.exists_eq_add_one_of_ne_zero (show fuel ≠ 0 by omega)
      have hv : ReadsBack layout v := h (unitsOf t, v) List.mem_cons_self
      rw [writeMembers, List.append_nil] at hfuel
      rw [members?_key, hv _ _ _ (by omega)]
      simp only [Option.bind_some, writeMembers, List.nil_append]
      rw [skipSpace_lineBreak, skipSpace_of_not_isSpace rfl]
      rfl
  | cons m ms ih =>
      obtain ⟨t, rfl⟩ : ∃ t, k = unitsOf t := hkeys (k, v) List.mem_cons_self
      obtain ⟨fuel, rfl⟩ := Nat.exists_eq_add_one_of_ne_zero (show fuel ≠ 0 by omega)
      have hv : ReadsBack layout v := h (unitsOf t, v) List.mem_cons_self
      simp only [writeMembers, List.length_append, List.length_cons, List.length_nil] at hfuel
      have hlength : (write layout depth m.2 ++ writeMembers layout depth ms).length < fuel := by
        rw [List.length_append]
        omega
      have hrest := ih (fun w hw => hkeys w (List.mem_cons_of_mem _ hw))
        (fun w hw => h w (List.mem_cons_of_mem _ hw)) hlength
      rw [members?_key, hv _ _ _ (by omega)]
      simp only [Option.bind_some, writeMembers, List.append_assoc, List.cons_append,
        List.nil_append]
      rw [skipSpace_of_not_isSpace rfl]
      simp only
      rw [members?_congr (skipSpace_lineBreak layout depth _), hrest]
      rfl

/-! ## Values -/

/-- A list that does not close at once has items. -/
theorem value?_bracket {t w : Text} {c : Char} (ht : skipSpace t = c :: w) (hc : c ≠ ']')
    (fuel : Nat) :
    value? (fuel + 1) ('[' :: t)
      = (items? fuel (c :: w)).map fun (items, rest) => (.array items, rest) := by
  rw [value?, skipSpace_of_not_isSpace rfl]
  simp only [ht]
  split
  · rename_i heq
    exact absurd (List.cons.inj heq).1 hc
  · rfl

/-- A record that does not close at once has members. -/
theorem value?_brace {t w : Text} {c : Char} (ht : skipSpace t = c :: w) (hc : c ≠ '}')
    (fuel : Nat) :
    value? (fuel + 1) ('{' :: t)
      = (members? fuel (c :: w)).map fun (ms, rest) => (.object ms, rest) := by
  rw [value?, skipSpace_of_not_isSpace rfl]
  simp only [ht]
  split
  · rename_i heq
    exact absurd (List.cons.inj heq).1 hc
  · rfl

/-- A list reads back if its items do. -/
theorem readsBack_array {layout : Layout} {vs : List Json} (hplain : ∀ v ∈ vs, Plain v)
    (h : ∀ v ∈ vs, ReadsBack layout v) : ReadsBack layout (.array vs) := by
  intro depth fuel rest hfuel
  obtain ⟨fuel, rfl⟩ := (Plain.array vs hplain).exists_fuel hfuel
  cases vs with
  | nil => rfl
  | cons v vs =>
      simp only [write, List.length_append, List.length_cons, List.length_nil] at hfuel
      have hlength : (write layout (depth + 1) v
          ++ writeItems layout (depth + 1) vs).length < fuel := by
        rw [List.length_append]
        omega
      have hitems := items?_write depth h hlength rest
      obtain ⟨c, w, hw, hspace, hne⟩ :=
        (hplain v List.mem_cons_self).exists_cons_write layout (depth + 1)
      rw [hw, List.cons_append] at hitems
      simp only [write, List.append_assoc, List.cons_append, List.nil_append]
      rw [value?_bracket (by rw [skipSpace_lineBreak, hw, List.cons_append,
        skipSpace_of_not_isSpace hspace]) hne, hitems]
      rfl

/-- A record reads back if its values do and its keys denote texts. -/
theorem readsBack_object {layout : Layout} {ms : List (List Unit × Json)}
    (hkeys : ∀ m ∈ ms, ∃ t, m.1 = unitsOf t) (hplain : ∀ m ∈ ms, Plain m.2)
    (h : ∀ m ∈ ms, ReadsBack layout m.2) : ReadsBack layout (.object ms) := by
  intro depth fuel rest hfuel
  obtain ⟨fuel, rfl⟩ := (Plain.object ms hkeys hplain).exists_fuel hfuel
  cases ms with
  | nil => rfl
  | cons m ms =>
      obtain ⟨k, v⟩ := m
      simp only [write, List.length_append, List.length_cons, List.length_nil] at hfuel
      have hlength : (write layout (depth + 1) v
          ++ writeMembers layout (depth + 1) ms).length < fuel := by
        rw [List.length_append]
        omega
      have hmembers := members?_write depth hkeys h hlength rest
      simp only [quote, List.append_assoc, List.cons_append, List.nil_append] at hmembers
      simp only [write, quote, List.append_assoc, List.cons_append, List.nil_append]
      rw [value?_brace (by rw [skipSpace_lineBreak, skipSpace_of_not_isSpace rfl]) (by decide),
        hmembers]
      rfl

/-- A value that was written is read back in every place, with what stood behind it left over. -/
theorem Plain.readsBack {v : Json} (h : Plain v) (layout : Layout) : ReadsBack layout v := by
  induction h with
  | null =>
      intro depth fuel rest hfuel
      obtain ⟨fuel, rfl⟩ := Plain.null.exists_fuel hfuel
      rfl
  | bool b =>
      intro depth fuel rest hfuel
      obtain ⟨fuel, rfl⟩ := (Plain.bool b).exists_fuel hfuel
      cases b <;> rfl
  | text t =>
      intro depth fuel rest hfuel
      obtain ⟨fuel, rfl⟩ := (Plain.text t).exists_fuel hfuel
      exact value?_quote t rest fuel
  | array vs hplain ih => exact readsBack_array hplain ih
  | object ms hkeys hplain ih => exact readsBack_object hkeys hplain ih

/-- What was printed spells the value, and so it does with white space behind it. -/
theorem Plain.parse?_print_append {v : Json} (h : Plain v) (layout : Layout) {space : Text}
    (hspace : ∀ c ∈ space, isSpace c = true) : parse? (v.print layout ++ space) = some v := by
  have hread := h.readsBack layout 0 (2 * (v.print layout ++ space).length + 2) space
    (by rw [print, List.length_append]; omega)
  have hnil : skipSpace space = [] := by
    rw [← List.append_nil space, skipSpace_append hspace]
    rfl
  rw [← print] at hread
  rw [parse?, hread]
  simp only [hnil, if_true]

theorem Plain.parse?_print {v : Json} (h : Plain v) (layout : Layout) :
    parse? (v.print layout) = some v := by
  simpa using h.parse?_print_append layout (fun _ h => absurd h List.not_mem_nil)

end Json

end DocDigest
