-- The words of a text: the longest runs of characters without a blank one.
-- In UTF-8 a blank character is one blank byte, and no other character has a
-- blank byte in it. So the words of a text and the words of its bytes are the
-- same, and bytes are a text exactly if each of their words is one.
import FeatureGraph.Text.Blank
import FeatureGraph.Text.Utf8
import Mathlib.Data.List.Basic

namespace FeatureGraph

universe u v

/-! ## Runs -/

section Runs

variable {α : Type u} {β : Type v} (p : α → Bool)

/-- The longest runs of members that do not pass the test, in order. -/
def runs (l : List α) : List (List α) := (l.splitOnP p).filter (!·.isEmpty)

variable {p}

theorem splitOnP_append {front back : List α} (h : ∀ a ∈ front, p a = false) :
    (front ++ back).splitOnP p = (back.splitOnP p).modifyHead (front ++ ·) := by
  induction front with
  | nil =>
    rw [List.nil_append]
    cases back.splitOnP p <;> rfl
  | cons a rest ih =>
    have ha := h a List.mem_cons_self
    rw [List.cons_append, List.splitOnP_cons_eq_if_modifyHead, if_neg (by simp [ha]),
      ih fun b hb => h b (List.mem_cons_of_mem _ hb)]
    cases back.splitOnP p <;> rfl

/-- Runs of members that are written out are the runs of what they are written as, if one that
passes is written as one that passes, and any other as some that do not. -/
theorem runs_flatMap {q : β → Bool} {f : α → List β} (hne : ∀ a, f a ≠ [])
    (hpass : ∀ a, p a = true → ∃ b, f a = [b] ∧ q b = true)
    (hfail : ∀ a, p a = false → ∀ b ∈ f a, q b = false) (l : List α) :
    runs q (l.flatMap f) = (runs p l).map (·.flatMap f) := by
  have hsplit : (l.flatMap f).splitOnP q = (l.splitOnP p).map (·.flatMap f) := by
    induction l with
    | nil => simp
    | cons a rest ih =>
      rw [List.flatMap_cons, List.splitOnP_cons_eq_if_modifyHead]
      split
      · rename_i ha
        obtain ⟨b, hb, hq⟩ := hpass a ha
        rw [hb, List.singleton_append, List.splitOnP_cons_eq_if_modifyHead, if_pos hq, ih]
        rfl
      · rename_i ha
        rw [splitOnP_append (hfail a (by simpa using ha)), ih]
        cases rest.splitOnP p <;> simp
  have hempty : ∀ l : List α, (l.flatMap f).isEmpty = l.isEmpty := by
    intro l
    cases l with
    | nil => rfl
    | cons a rest => simp [hne]
  simp only [runs, hsplit, List.filter_map, Function.comp_def, hempty]

end Runs

/-! ## Texts and their bytes -/

namespace Text

/-- The ASCII characters that part words. -/
def isAsciiBlank (c : Char) : Bool :=
  c = ' ' || c = '\t' || c = '\n' || c = '\x0c' || c = '\r'

/-- The words of a text, in order. -/
def words (s : String) : List String := (runs isAsciiBlank s.toList).map String.ofList

/-- The words of bytes, in order. -/
def byteWords (bs : Bytes) : List Bytes := runs isBlankByte bs

theorem encode_eq (s : String) : encode s = s.toList.flatMap String.utf8EncodeChar := by
  have h : s.toByteArray = s.toList.utf8Encode := by
    rw [← String.toByteArray_ofList, String.ofList_toList]
  rw [encode, String.toUTF8, h, List.utf8Encode]
  simp

theorem encode_ofList (cs : List Char) :
    encode (String.ofList cs) = cs.flatMap String.utf8EncodeChar := by
  rw [encode_eq, String.toList_ofList]

theorem encode_append (s t : String) : encode (s ++ t) = encode s ++ encode t := by
  simp only [encode_eq, String.toList_append, List.flatMap_append]

theorem encode_injective : Function.Injective encode := fun a b h =>
  Option.some.inj ((decode?_encode a).symm.trans (h ▸ decode?_encode b))

/-- Bytes that are read as a text are those that write it. -/
theorem decode?_eq_some {bs : Bytes} {s : String} : decode? bs = some s ↔ bs = encode s := by
  constructor
  · intro h
    unfold decode? String.fromUTF8? at h
    split at h
    · cases h
      rfl
    · cases h
  · rintro rfl
    exact decode?_encode s

/-- A blank character is one blank byte. -/
theorem blank_of_isAsciiBlank {c : Char} (h : isAsciiBlank c = true) :
    ∃ b, String.utf8EncodeChar c = [b] ∧ isBlankByte b = true := by
  simp only [isAsciiBlank, Bool.or_eq_true, decide_eq_true_eq] at h
  rcases h with (((rfl | rfl) | rfl) | rfl) | rfl
  all_goals exact ⟨_, rfl, rfl⟩

theorem not_blank {b : UInt8} (hne : b.toNat ≠ 0x20 ∧ b.toNat ≠ 0x09 ∧ b.toNat ≠ 0x0A ∧
    b.toNat ≠ 0x0C ∧ b.toNat ≠ 0x0D) : isBlankByte b = false := by
  simp only [isBlankByte, ← UInt8.toNat_inj]
  simp [hne]

theorem utf8EncodeChar_ascii {c : Char} (h : c.toNat ≤ 127) :
    String.utf8EncodeChar c = [UInt8.ofNat c.toNat] := by
  simp [String.utf8EncodeChar, h]

/-- ASCII characters have one byte each. -/
theorem encode_ascii {cs : List Char} (h : ∀ c ∈ cs, c.toNat ≤ 127) :
    cs.flatMap String.utf8EncodeChar = cs.map fun c => UInt8.ofNat c.toNat := by
  induction cs with
  | nil => rfl
  | cons c rest ih =>
    obtain ⟨hc, hrest⟩ := List.forall_mem_cons.mp h
    rw [List.flatMap_cons, utf8EncodeChar_ascii hc, ih hrest]
    rfl

/-- The bytes of a long character are no ASCII. -/
theorem le_of_mem_utf8EncodeChar {c : Char} (h : ¬ c.toNat ≤ 127) :
    ∀ b ∈ String.utf8EncodeChar c, 128 ≤ b.toNat := by
  simp only [String.utf8EncodeChar, Char.toNat_val, if_neg h]
  split
  · simp only [List.forall_mem_cons, UInt8.toNat_ofNat']
    refine ⟨?_, ?_, by simp⟩ <;> omega
  · split
    · simp only [List.forall_mem_cons, UInt8.toNat_ofNat']
      refine ⟨?_, ?_, ?_, by simp⟩ <;> omega
    · simp only [List.forall_mem_cons, UInt8.toNat_ofNat']
      refine ⟨?_, ?_, ?_, ?_, by simp⟩ <;> omega

/-- An ASCII byte stands for a character alone. -/
theorem toNat_of_mem_utf8EncodeChar {c : Char} {b : UInt8} (hb : b.toNat < 128)
    (h : b ∈ String.utf8EncodeChar c) : c.toNat = b.toNat := by
  by_cases hlong : c.toNat ≤ 127
  · rw [utf8EncodeChar_ascii hlong, List.mem_singleton] at h
    rw [h, UInt8.toNat_ofNat', Nat.mod_eq_of_lt (by omega)]
  · have hlarge := le_of_mem_utf8EncodeChar hlong b h
    omega

/-- No other character has a blank byte in it. -/
theorem not_blank_of_not_isAsciiBlank {c : Char} (h : isAsciiBlank c = false) :
    ∀ b ∈ String.utf8EncodeChar c, isBlankByte b = false := by
  intro b hb
  by_cases hlong : c.toNat ≤ 127
  · rw [utf8EncodeChar_ascii hlong, List.mem_singleton] at hb
    have hnumber : c.val.toNat = b.toNat := by
      rw [hb, UInt8.toNat_ofNat', Char.toNat_val, Nat.mod_eq_of_lt (by omega)]
    simp only [isAsciiBlank, Bool.or_eq_false_iff, decide_eq_false_iff_not, Char.ext_iff,
      ← UInt32.toNat_inj, hnumber] at h
    exact not_blank ⟨h.1.1.1.1, h.1.1.1.2, h.1.1.2, h.1.2, h.2⟩
  · have hlarge := le_of_mem_utf8EncodeChar hlong b hb
    exact not_blank (by omega)

/-- The words of a text, written as bytes, are the words of its bytes. -/
theorem byteWords_encode (s : String) : byteWords (encode s) = (words s).map encode := by
  have hne : ∀ c : Char, String.utf8EncodeChar c ≠ [] := fun c => String.utf8EncodeChar_ne_nil
  rw [byteWords, encode_eq, runs_flatMap hne (fun c => blank_of_isAsciiBlank)
    (fun c => not_blank_of_not_isAsciiBlank), words, List.map_map]
  exact List.map_congr_left fun cs _ => (encode_ofList cs).symm

/-! ## Bytes that may be no text -/

/-- The bytes are UTF-8. -/
def IsText (bs : Bytes) : Prop := ∃ s, bs = encode s

theorem isText_nil : IsText [] := ⟨"", rfl⟩

theorem isText_encode (s : String) : IsText (encode s) := ⟨s, rfl⟩

theorem IsText.append {front back : Bytes} (h : IsText front) (h' : IsText back) :
    IsText (front ++ back) := by
  obtain ⟨s, rfl⟩ := h
  obtain ⟨t, rfl⟩ := h'
  exact ⟨s ++ t, (encode_append s t).symm⟩

theorem decode?_eq_none {bs : Bytes} : decode? bs = none ↔ ¬ IsText bs := by
  rw [Option.eq_none_iff_forall_ne_some]
  exact (forall_congr' fun s => not_congr decode?_eq_some).trans not_exists.symm

theorem isText_blank {b : UInt8} (h : isBlankByte b = true) : IsText [b] := by
  simp only [isBlankByte, Bool.or_eq_true, decide_eq_true_eq] at h
  rcases h with (((rfl | rfl) | rfl) | rfl) | rfl
  exacts [⟨" ", rfl⟩, ⟨"\t", rfl⟩, ⟨"\n", rfl⟩, ⟨"\x0c", rfl⟩, ⟨"\r", rfl⟩]

/-- Bytes are UTF-8 if what stands between their blank bytes is. -/
theorem isText_of_parts (front : Bytes) (hfront : ∀ b ∈ front, isBlankByte b = false) (bs : Bytes)
    (h : ∀ part ∈ (front ++ bs).splitOnP isBlankByte, IsText part) : IsText (front ++ bs) := by
  induction bs generalizing front with
  | nil =>
    rw [splitOnP_append hfront] at h
    simpa using h
  | cons b rest ih =>
    by_cases hb : isBlankByte b = true
    · rw [splitOnP_append hfront, List.splitOnP_cons_eq_if_modifyHead, if_pos hb,
        List.modifyHead_cons, List.append_nil] at h
      obtain ⟨hhead, hrest⟩ := List.forall_mem_cons.mp h
      exact hhead.append ((isText_blank hb).append (ih [] (by simp) hrest))
    · have hsnoc : front ++ b :: rest = front ++ [b] ++ rest := by simp
      rw [hsnoc] at h ⊢
      refine ih _ (fun b' hb' => ?_) h
      rcases List.mem_append.mp hb' with hmem | hmem
      · exact hfront b' hmem
      · rw [List.mem_singleton.mp hmem]
        simpa using hb

/-- A blank byte is never part of a longer character, so bytes are UTF-8 exactly if their words
are. -/
theorem isText_iff_byteWords (bs : Bytes) : IsText bs ↔ ∀ word ∈ byteWords bs, IsText word := by
  constructor
  · rintro ⟨s, rfl⟩ word hword
    rw [byteWords_encode] at hword
    obtain ⟨t, -, rfl⟩ := List.mem_map.mp hword
    exact isText_encode t
  · intro h
    refine isText_of_parts [] (by simp) bs fun part hpart => ?_
    cases part with
    | nil => exact isText_nil
    | cons b part => exact h _ (List.mem_filter.mpr ⟨hpart, rfl⟩)

end Text

end FeatureGraph
