-- A document that was read is printed on one line. Texts are escaped, whole
-- numbers are digits, and any other number stays as it was read, of which
-- the grammar says that it has no line feed.
import FeatureGraph.Json.Printer
import FeatureGraph.Proofs.Dictionary
import FeatureGraph.Proofs.Json.Continuing
import FeatureGraph.Proofs.Lists
import Mathlib.Data.List.TakeWhile
import Mathlib.Tactic.IntervalCases

namespace FeatureGraph.Json

/-- No number within the document is written with a line feed. -/
inductive Plain : Json → Prop where
  | null : Plain .null
  | bool (b : Bool) : Plain (.bool b)
  | int (n : Int) : Plain (.int n)
  | decimal {literal : String} (h : '\n' ∉ literal.toList) : Plain (.decimal literal)
  | string (s : String) : Plain (.string s)
  | array {items : List Json} (h : ∀ j ∈ items, Plain j) : Plain (.array items)
  | object {members : List (String × Json)} (h : ∀ m ∈ members, Plain m.2) :
      Plain (.object members)

/-! ## Printing -/

theorem newline_notMem_hexFixed (width n : Nat) : '\n' ∉ Text.hexFixed width n := by
  induction width generalizing n with
  | zero => exact List.not_mem_nil
  | succ width ih =>
    have hdigit : ∀ m : Fin 16, '\n' ≠ Text.hexDigit m := by decide
    rw [Text.hexFixed, List.mem_append, List.mem_singleton, not_or]
    exact ⟨ih (n / 16), hdigit ⟨n % 16, Nat.mod_lt _ (by decide)⟩⟩

theorem newline_notMem_escapeChar (c : Char) : '\n' ∉ escapeChar c := by
  unfold escapeChar
  split
  · decide
  · split
    · decide
    · split
      · decide
      · split
        · decide
        · split
          · decide
          · rename_i hnewline
            split
            · decide
            · split
              · decide
              · split
                · simp [newline_notMem_hexFixed]
                · exact fun hmem => hnewline (List.mem_singleton.mp hmem).symm

theorem newline_notMem_stringChars (s : String) : '\n' ∉ stringChars s := by
  simp [stringChars, newline_notMem_escapeChar]

theorem newline_notMem_toDigits (n : Nat) : '\n' ∉ Nat.toDigits 10 n := by
  intro hmem
  exact absurd (Nat.isDigit_of_mem_toDigits (by decide) (by decide) hmem) (by decide)

theorem newline_notMem_intChars (n : Int) : '\n' ∉ intChars n := by
  cases n with
  | ofNat n => exact newline_notMem_toDigits n
  | negSucc n => simp [intChars, newline_notMem_toDigits]

theorem newline_notMem_itemChars {items : List Json} (h : ∀ j ∈ items, '\n' ∉ chars j) :
    '\n' ∉ itemChars items := by
  induction items with
  | nil => exact List.not_mem_nil
  | cons item rest ih =>
    obtain ⟨hitem, hrest⟩ := List.forall_mem_cons.mp h
    cases rest with
    | nil => exact hitem
    | cons next rest => simp [itemChars, hitem, ih hrest]

theorem newline_notMem_memberChars {members : List (String × Json)}
    (h : ∀ m ∈ members, '\n' ∉ chars m.2) : '\n' ∉ memberChars members := by
  induction members with
  | nil => exact List.not_mem_nil
  | cons m rest ih =>
    obtain ⟨key, item⟩ := m
    obtain ⟨hitem, hrest⟩ := List.forall_mem_cons.mp h
    cases rest with
    | nil => simp [memberChars, hitem, newline_notMem_stringChars]
    | cons next rest => simp [memberChars, hitem, newline_notMem_stringChars, ih hrest]

/-- A plain document is printed on one line. -/
theorem Plain.newline_notMem_chars {j : Json} (h : j.Plain) : '\n' ∉ chars j := by
  induction h with
  | null => decide
  | bool b => cases b <;> decide
  | int n => exact newline_notMem_intChars n
  | decimal h => exact h
  | string s => exact newline_notMem_stringChars s
  | array _ ih => simp [chars, newline_notMem_itemChars ih]
  | object _ ih => simp [chars, newline_notMem_memberChars ih]

/-! ## Numbers that are read -/

/-- The digits of a number are digits. -/
structure Numeral.Written (n : Numeral) : Prop where
  whole : ∀ b ∈ n.whole, isDigit b = true
  fraction : ∀ b ∈ n.fraction, isDigit b = true
  exponent : ∀ negative ds, n.exponent = some (negative, ds) → ∀ b ∈ ds, isDigit b = true

theorem isDigit_of_digits {bs ds rest : Bytes} (h : digits bs = some (ds, rest)) :
    ∀ b ∈ ds, isDigit b = true := by
  unfold digits at h
  split at h
  · cases h
  · rename_i hdigits
    cases h
    intro b hb
    exact List.mem_takeWhile_imp (hdigits ▸ hb)

theorem isDigit_of_wholeDigits {bs ds rest : Bytes} (h : wholeDigits bs = some (ds, rest)) :
    ∀ b ∈ ds, isDigit b = true := by
  unfold wholeDigits at h
  split at h
  · rename_i hdigits
    split at h
    · cases h
    · cases h
      exact isDigit_of_digits hdigits
  · exact isDigit_of_digits h

theorem isDigit_of_fractionDigits {bs ds rest : Bytes}
    (h : fractionDigits bs = some (ds, rest)) : ∀ b ∈ ds, isDigit b = true := by
  unfold fractionDigits at h
  split at h
  · split at h
    · exact isDigit_of_digits h
    · cases h
      exact fun _ hb => absurd hb List.not_mem_nil
  · cases h
    exact fun _ hb => absurd hb List.not_mem_nil

theorem isDigit_of_exponentDigits {bs ds rest : Bytes} {negative : Bool}
    (h : exponentDigits bs = some (some (negative, ds), rest)) : ∀ b ∈ ds, isDigit b = true := by
  unfold exponentDigits at h
  split at h
  · split at h
    · obtain ⟨⟨ds', rest'⟩, hdigits, heq⟩ := Option.map_eq_some_iff.mp h
      cases heq
      exact isDigit_of_digits hdigits
    · cases h
  · cases h

theorem written_of_numeral {bs rest : Bytes} {n : Numeral} (h : numeral bs = some (n, rest)) :
    n.Written := by
  have hmagnitude : ∃ negative bs', magnitude negative bs' = some (n, rest) := by
    cases bs with
    | nil => cases h
    | cons b bs =>
      rw [numeral_cons] at h
      split at h
      · exact ⟨_, _, h⟩
      · exact ⟨_, _, h⟩
  obtain ⟨negative, bs', hread⟩ := hmagnitude
  obtain ⟨bs₁, bs₂, hwhole, hfraction, hexponent, -⟩ := magnitude_eq_some.mp hread
  refine ⟨isDigit_of_wholeDigits hwhole, isDigit_of_fractionDigits hfraction, ?_⟩
  intro negative ds heq
  rw [heq] at hexponent
  exact isDigit_of_exponentDigits hexponent

theorem newline_notMem_digits {ds : Bytes} (h : ∀ b ∈ ds, isDigit b = true) :
    '\n' ∉ (String.ofList (ds.map fun b => Char.ofNat b.toNat)).toList := by
  rw [String.toList_ofList, List.mem_map]
  rintro ⟨b, hb, hnewline⟩
  have hdigit := h b hb
  simp only [isDigit, Bool.and_eq_true, decide_eq_true_eq, UInt8.le_iff_toNat_le] at hdigit
  obtain ⟨hlow, hhigh⟩ := hdigit
  generalize b.toNat = n at hlow hhigh hnewline
  change 48 ≤ n at hlow
  change n ≤ 57 at hhigh
  interval_cases n <;> exact absurd hnewline (by decide)

theorem Numeral.Written.newline_notMem_literal {n : Numeral} (h : n.Written) :
    '\n' ∉ n.literal.toList := by
  obtain ⟨negative, whole, fraction, exponent⟩ := n
  have hwhole := newline_notMem_digits h.whole
  have hfraction := newline_notMem_digits h.fraction
  simp only [Numeral.literal, String.toList_append, List.mem_append, not_or]
  refine ⟨⟨⟨?_, hwhole⟩, ?_⟩, ?_⟩
  · split <;> decide
  · split
    · decide
    · rw [String.toList_append, List.mem_append, not_or]
      exact ⟨by decide, hfraction⟩
  · cases exponent with
    | none => decide
    | some e =>
      obtain ⟨sign, ds⟩ := e
      simp only [String.toList_append, List.mem_append, not_or]
      exact ⟨by split <;> decide, newline_notMem_digits (h.exponent sign ds rfl)⟩

/-! ## Documents that are read -/

/-- The numbers that a reader gives are plain. -/
def Lexis.Plain (lexis : Lexis) : Prop :=
  ∀ (n : Numeral) (j : Json), n.Written → lexis.number n = some j → j.Plain

theorem plain_kept : kept.Plain := by
  intro n j hn h
  change n.toJson? = some j at h
  unfold Numeral.toJson? at h
  dsimp only at h
  split at h
  · cases h
    exact .int _
  · split at h
    · cases h
      exact .int _
    · split at h
      · cases h
        exact .decimal hn.newline_notMem_literal
      · cases h

theorem plain_passed : passed.Plain := by
  intro n j hn h
  cases h
  exact .null

variable {lexis : Lexis} {bs rest : Bytes} {j : Json}

theorem plain_of_scalar (hlexis : lexis.Plain) (h : scalar lexis bs = some (j, rest)) :
    j.Plain := by
  unfold scalar at h
  split at h
  · cases h
  · split at h
    · obtain ⟨⟨s, tail⟩, -, heq⟩ := Option.map_eq_some_iff.mp h
      cases heq
      exact .string s
    · split at h
      · obtain ⟨⟨_, tail⟩, -, heq⟩ := Option.map_eq_some_iff.mp h
        cases heq
        exact .null
      · split at h
        · obtain ⟨⟨_, tail⟩, -, heq⟩ := Option.map_eq_some_iff.mp h
          cases heq
          exact .bool true
        · split at h
          · obtain ⟨⟨_, tail⟩, -, heq⟩ := Option.map_eq_some_iff.mp h
            cases heq
            exact .bool false
          · split at h
            · cases h
            · rename_i n tail hnumeral
              obtain ⟨j', hnumber, heq⟩ := Option.map_eq_some_iff.mp h
              cases heq
              exact hlexis n j (written_of_numeral hnumeral) hnumber

section Series

variable {α : Type} {P : α → Prop} {one : Scan α} {close : UInt8}

theorem seriesFrom_all (hone : ∀ bs a rest, one bs = some (a, rest) → P a) {fuel : Bytes}
    {done as : List α} (h : seriesFrom close one fuel done bs = some (as, rest))
    (hdone : ∀ a ∈ done, P a) : ∀ a ∈ as, P a := by
  induction fuel generalizing done bs with
  | nil => cases h
  | cons f fuel ih =>
    rw [seriesFrom] at h
    split at h
    · cases h
    · rename_i a tail hread
      have hmore : ∀ x ∈ a :: done, P x := List.forall_mem_cons.mpr ⟨hone bs a tail hread, hdone⟩
      split at h
      · cases h
      · split at h
        · exact ih h hmore
        · split at h
          · cases h
            exact fun x hx => hmore x (List.mem_reverse.mp hx)
          · cases h

/-- What holds of each that is read holds of all between the brackets. -/
theorem series_all (hone : ∀ bs a rest, one bs = some (a, rest) → P a) {as : List α}
    (h : series close one bs = some (as, rest)) : ∀ a ∈ as, P a := by
  unfold series at h
  split at h
  · cases h
  · split at h
    · cases h
      exact fun _ ha => absurd ha List.not_mem_nil
    · exact seriesFrom_all hone h fun _ ha => absurd ha List.not_mem_nil

end Series

theorem plain_of_member {string : Scan String} {item : String → Scan Json} {m : String × Json}
    (hitem : ∀ key bs j rest, item key bs = some (j, rest) → j.Plain)
    (h : member string item bs = some (m, rest)) : m.2.Plain := by
  unfold member at h
  split at h
  · cases h
  · split at h
    · split at h
      · cases h
      · split at h
        · cases h
        · split at h
          · obtain ⟨⟨j, rest'⟩, hread, heq⟩ := Option.map_eq_some_iff.mp h
            cases heq
            exact hitem _ _ j _ hread
          · cases h
    · cases h

theorem plain_of_value (hlexis : lexis.Plain) {limit : Nat}
    (h : value lexis limit bs = some (j, rest)) : j.Plain := by
  induction limit generalizing bs j rest with
  | zero =>
    rw [value] at h
    exact plain_of_scalar hlexis h
  | succ limit ih =>
    rw [value] at h
    split at h
    · cases h
    · split at h
      · rw [items_eq] at h
        obtain ⟨⟨js, rest'⟩, hread, heq⟩ := Option.map_eq_some_iff.mp h
        cases heq
        exact .array (series_all (fun _ _ _ hread => ih hread) hread)
      · split at h
        · rw [members_eq] at h
          obtain ⟨⟨ms, rest'⟩, hread, heq⟩ := Option.map_eq_some_iff.mp h
          cases heq
          have hall : ∀ m ∈ ms, m.2.Plain :=
            series_all (fun _ _ _ hread => plain_of_member (fun _ _ _ _ h => ih h) hread) hread
          exact .object fun m hm => hall m (Dictionary.mem_of_mem_ofList hm)
        · exact plain_of_scalar hlexis h

theorem plain_of_fieldItem {fields : List String} {key : String}
    (h : fieldItem fields key bs = some (j, rest)) : j.Plain := by
  unfold fieldItem at h
  split at h
  · exact plain_of_value plain_kept h
  · exact plain_of_value plain_passed h

theorem of_complete {α : Type} {scan : Scan α} {a : α} (h : complete scan bs = some a) :
    ∃ rest, scan bs = some (a, rest) := by
  unfold complete at h
  split at h
  · rename_i hread
    split at h
    · cases h
      exact ⟨_, hread⟩
    · cases h
  · cases h

/-- The fields of a record that was read are plain. -/
theorem plain_of_parseRecord? {fields : List String} {js : List Json}
    (h : parseRecord? fields bs = some js) : ∀ j ∈ js, j.Plain := by
  unfold parseRecord? at h
  split at h
  · rename_i harray
    split at h
    · cases h
      obtain ⟨rest, hread⟩ := of_complete harray
      unfold arrayItems at hread
      split at hread
      · cases hread
      · split at hread
        · rw [items_eq] at hread
          exact series_all (fun _ _ _ h => plain_of_value plain_kept h) hread
        · cases hread
    · cases h
  · split at h
    · cases h
    · rename_i ms hobject
      obtain ⟨rest, hread⟩ := of_complete hobject
      have hall : ∀ m ∈ ms, m.2.Plain := by
        unfold objectMembers at hread
        split at hread
        · cases hread
        · split at hread
          · rw [members_eq] at hread
            refine series_all (fun _ _ _ hread => ?_) hread
            exact plain_of_member (fun _ _ _ _ h => plain_of_fieldItem h) hread
          · cases hread
      intro j hj
      obtain ⟨f, -, hf⟩ := exists_of_mem_mapM h hj
      split at hf
      · rename_i m hfilter
        cases hf
        exact hall m (List.mem_of_mem_filter (hfilter ▸ List.mem_cons_self))
      · cases hf

end FeatureGraph.Json
