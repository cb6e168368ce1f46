-- Cuts of a text. Where one falls between two characters both parts are
-- texts, and where one falls within a character neither is. So the pieces of
-- a text are texts exactly if all the cuts between them fall between
-- characters. For pieces of every size that is so of ASCII alone.
import FeatureGraph.Proofs.Pieces
import FeatureGraph.Proofs.Text.Words

namespace FeatureGraph.Text

variable {s t d : String} {front back bs : Bytes} {size count : Nat}

/-- The bytes of a text that begin with those of another are that text and one more. -/
theorem exists_of_encode_append (h : encode s ++ back = encode t) :
    ∃ r, t = s ++ r ∧ back = encode r := by
  have hbytes : s.toList.utf8Encode ++ ⟨back.toArray⟩ = t.toList.utf8Encode := by
    rw [← String.toByteArray_ofList, ← String.toByteArray_ofList, String.ofList_toList,
      String.ofList_toList]
    refine ByteArray.ext (Array.toList_inj.mp ?_)
    simpa [encode, String.toUTF8] using h
  obtain ⟨cs, hcs⟩ := List.isPrefix_of_utf8Encode_append_eq_utf8Encode _ hbytes
  obtain rfl : t = s ++ String.ofList cs := by
    rw [← String.toList_inj, String.toList_append, String.toList_ofList, hcs]
  refine ⟨_, rfl, ?_⟩
  rw [encode_append] at h
  exact List.append_cancel_left h

/-- What stands behind a text in a text is a text. -/
theorem IsText.of_append (h : IsText (front ++ back)) (hfront : IsText front) : IsText back := by
  obtain ⟨t, ht⟩ := h
  obtain ⟨s, rfl⟩ := hfront
  obtain ⟨r, -, rfl⟩ := exists_of_encode_append ht
  exact isText_encode r

theorem isText_flatten {parts : List Bytes} (h : ∀ part ∈ parts, IsText part) :
    IsText parts.flatten := by
  induction parts with
  | nil => exact isText_nil
  | cons part rest ih =>
    obtain ⟨hpart, hrest⟩ := List.forall_mem_cons.mp h
    exact hpart.append (ih hrest)

/-- A text is cut after so many bytes between two of its characters. -/
def CutsAt (d : String) (count : Nat) : Prop :=
  ∃ front back, d = front ++ back ∧ (encode front).length = count

theorem isText_take_iff (hcount : count ≤ (encode d).length) :
    IsText ((encode d).take count) ↔ CutsAt d count := by
  constructor
  · rintro ⟨s, hs⟩
    obtain ⟨r, rfl, -⟩ := exists_of_encode_append (hs ▸ List.take_append_drop count (encode d))
    refine ⟨s, r, rfl, ?_⟩
    rw [← hs, List.length_take]
    omega
  · rintro ⟨front, back, rfl, rfl⟩
    rw [encode_append, List.take_left' rfl]
    exact isText_encode front

/-- The pieces of a text are texts if it can be cut there. -/
theorem isText_of_mem_pieces (hsize : 0 < size) (hbs : IsText bs)
    (h : ∀ count, count * size ≤ bs.length → IsText (bs.take (count * size))) :
    ∀ piece ∈ Bytes.pieces size bs, IsText piece := by
  fun_induction Bytes.pieces size bs with
  | case1 => simp
  | case2 b rest ih =>
    have hsplit : b :: rest.take (size - 1) ++ rest.drop (size - 1) = b :: rest := by
      rw [List.cons_append, List.take_append_drop]
    -- the first piece is cut off after its bytes, or is the whole text
    have hpiece : IsText (b :: rest.take (size - 1)) := by
      by_cases hmore : size ≤ (b :: rest).length
      · have hfirst := h 1 (by omega)
        rwa [Nat.one_mul, ← Nat.sub_add_cancel hsize, List.take_succ_cons] at hfirst
      · rw [List.length_cons] at hmore
        rwa [List.take_of_length_le (by omega)]
    refine List.forall_mem_cons.mpr ⟨hpiece, ih ?_ fun count hcount => ?_⟩
    · exact (hsplit ▸ hbs).of_append hpiece
    · by_cases hmore : size ≤ (b :: rest).length
      · rw [List.length_drop] at hcount
        rw [List.length_cons] at hmore
        have hnext := h (count + 1) (by rw [Nat.succ_mul, List.length_cons]; omega)
        have hwant : (count + 1) * size = (size - 1 + count * size) + 1 := by
          rw [Nat.succ_mul]
          omega
        rw [hwant, List.take_succ_cons, List.take_add, ← List.cons_append] at hnext
        exact hnext.of_append hpiece
      · rw [List.length_cons] at hmore
        rw [List.drop_of_length_le (by omega), List.take_nil]
        exact isText_nil

/-- In pieces of this size a text is cut between its characters alone, wherever a full piece
ends. -/
def CutsEvery (d : String) (size : Nat) : Prop :=
  ∀ count, count * max 1 size ≤ (encode d).length → CutsAt d (count * max 1 size)

/-- The pieces of a text are texts exactly if it is only cut between its characters. -/
theorem pieces_isText_iff :
    (∀ piece ∈ Bytes.pieces size (encode d), IsText piece) ↔ CutsEvery d size := by
  have hsize : 0 < max 1 size := by omega
  rw [← Bytes.pieces_max]
  constructor
  · intro h count hcount
    obtain ⟨-, -, hflatten⟩ := Bytes.take_pieces hsize hcount
    rw [← isText_take_iff hcount, ← hflatten]
    exact isText_flatten fun part hpart => h part (List.mem_of_mem_take hpart)
  · intro h
    exact isText_of_mem_pieces hsize (isText_encode d) fun count hcount =>
      (isText_take_iff hcount).mpr (h count hcount)

/-! ## Pieces of any size -/

/-- No byte of a longer character is a text. -/
theorem ascii_of_isText {b : UInt8} (h : IsText [b]) : b.toNat ≤ 127 := by
  obtain ⟨s, hs⟩ := h
  rw [encode_eq] at hs
  cases hchars : s.toList with
  | nil => simp [hchars] at hs
  | cons c rest =>
    rw [hchars, List.flatMap_cons] at hs
    by_cases hc : c.toNat ≤ 127
    · rw [utf8EncodeChar_ascii hc] at hs
      obtain ⟨rfl, -⟩ := List.cons_eq_cons.mp hs
      rw [UInt8.toNat_ofNat']
      omega
    · exfalso
      revert hs
      simp only [String.utf8EncodeChar, Char.toNat_val, if_neg hc]
      split
      · simp
      · split <;> simp

theorem cutsAt_ascii (h : ∀ c ∈ d.toList, c.toNat ≤ 127) (hcount : count ≤ (encode d).length) :
    CutsAt d count := by
  refine ⟨.ofList (d.toList.take count), .ofList (d.toList.drop count), ?_, ?_⟩
  · rw [← String.toList_inj, String.toList_append, String.toList_ofList, String.toList_ofList,
      List.take_append_drop]
  · rw [encode_eq, encode_ascii h, List.length_map] at hcount
    rw [encode_ofList, encode_ascii fun c hc => h c (List.mem_of_mem_take hc), List.length_map,
      List.length_take]
    omega

/-- A text that fits into one piece is not cut. -/
theorem cutsEvery_of_length_le (h : (encode d).length ≤ size) : CutsEvery d size := by
  intro count hcount
  rcases Nat.eq_zero_or_pos count with rfl | hpos
  · exact ⟨"", d, (String.empty_append).symm, by simp [encode_eq]⟩
  · have hall : (encode d).length = count * max 1 size := by
      have hone := Nat.le_mul_of_pos_left (max 1 size) hpos
      omega
    exact ⟨d, "", (String.append_empty).symm, hall⟩

/-- A text can be cut into pieces of any size, single bytes among them, exactly if it is ASCII. -/
theorem cutsEvery_forall_iff : (∀ size, CutsEvery d size) ↔ ∀ c ∈ d.toList, c.toNat ≤ 127 := by
  constructor
  · intro h c hc
    obtain ⟨before, after, hsplit⟩ := List.append_of_mem hc
    have hbytes : encode d = encode (.ofList before) ++ (String.utf8EncodeChar c ++
        encode (.ofList after)) := by
      rw [encode_eq, hsplit, List.flatMap_append, List.flatMap_cons, encode_ofList, encode_ofList]
    obtain ⟨b, more, hb⟩ := List.exists_cons_of_ne_nil (String.utf8EncodeChar_ne_nil (c := c))
    -- the cut behind the first byte of the character
    have hcut : IsText (encode (.ofList before) ++ [b]) := by
      have hcount : (encode (.ofList before)).length + 1 ≤ (encode d).length := by
        rw [hbytes, hb, List.length_append, List.cons_append, List.length_cons]
        omega
      have htake := h 1 ((encode (.ofList before)).length + 1) (by simpa using hcount)
      rw [Nat.max_self, Nat.mul_one, ← isText_take_iff hcount, hbytes, hb,
        List.take_length_add_append] at htake
      exact htake
    have hbyte := ascii_of_isText (hcut.of_append (isText_encode _))
    rw [toNat_of_mem_utf8EncodeChar (by omega) (hb ▸ List.mem_cons_self)]
    exact hbyte
  · intro h size count hcount
    exact cutsAt_ascii h hcount

end FeatureGraph.Text
