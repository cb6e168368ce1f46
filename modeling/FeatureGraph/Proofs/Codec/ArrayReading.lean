-- What is read as an array. A decoder accepts exactly the stored form, with
-- the header written in any way that JSON allows. What it reads is written
-- back with the same elements behind a header of its own, which is hardly
-- longer than the one that was read.
import FeatureGraph.Proofs.Codec.ArrayStream
import FeatureGraph.Proofs.Json.Lengths
import FeatureGraph.Proofs.Pieces

namespace FeatureGraph

namespace ArrayFormat

variable {t : Dtype} {axes : List Nat} {rows : Nat} {head body bs : Bytes} {source : ByteSource}

/-! ## The stored form -/

/-- The bytes are an array in its stored form: the length of the header, the header, and the
elements, which are whole rows. Where a row has no elements there is no body, and there are no
rows. -/
structure Stored (t : Dtype) (axes : List Nat) (rows : Nat) (head body bs : Bytes) : Prop where
  layout : bs = Bytes.ofNat 4 head.length ++ (head ++ body)
  short : head.length < 2 ^ 32
  header : Header.parse? head = some ⟨t.tag, axes⟩
  whole : body.length = rows * (volume axes * t.size)
  empty : volume axes = 0 → rows = 0
  fits : nonzeroVolume (rows :: axes) < 2 ^ 63

/-! ## The elements -/

/-- Bytes that fill elements are those of the elements that they spell. -/
theorem flatMap_elementsOf {count : Nat} (h : body.length = count * t.size) :
    (elementsOf t body).length = count ∧ (elementsOf t body).flatMap (·.toBytes) = body := by
  have htake : body.take (body.length / t.size * t.size) = body := by
    rw [h, Nat.mul_div_cancel _ t.size_pos, ← h, List.take_length]
  obtain ⟨hcount, hfull, hflatten⟩ := Bytes.take_pieces t.size_pos (Nat.le_of_eq h.symm)
  rw [← h, List.take_length] at hflatten
  -- so many full pieces are all the bytes, so there are no more
  have hall : (Bytes.pieces t.size body).take count = Bytes.pieces t.size body :=
    Bytes.IsCut.unique ⟨hflatten, fun part hpart => hfull part (List.dropLast_subset _ hpart),
      fun part hpart => by
        have hlength := hfull part hpart
        have hsize := t.size_pos
        refine ⟨?_, Nat.le_of_eq hlength⟩
        rintro rfl
        rw [List.length_nil] at hlength
        omega⟩
  rw [hall] at hcount hfull
  rw [elementsOf, htake]
  refine ⟨by rw [List.length_map, hcount], ?_⟩
  rw [List.flatMap_map, List.flatMap_def, List.map_congr_left fun part hpart =>
    Element.toBytes_ofBytes (hfull part hpart), List.map_id', Bytes.flatten_pieces]

/-- An array of these elements has their bytes. -/
theorem body_of_bits {a : NdArray} {elements : List (Element t)} (hdtype : a.dtype = t)
    (hbits : a.bits = elements.map (·.val)) : a.body = elements.flatMap (·.toBytes) := by
  subst hdtype
  have helements : a.elements = elements :=
    List.map_injective_iff.mpr (fun x y h => Fin.ext h) hbits
  rw [NdArray.body, helements]

/-! ## The decoder -/

/-- What is decoded has a header in front. -/
theorem header_of_decodeSource {value : Payload} (hsource : source.Lasts)
    (h : decodeSource t source = .ok value) : ∃ axes head body,
      source.rest = Bytes.ofNat 4 head.length ++ (head ++ body) ∧ head.length < 2 ^ 32 ∧
      Header.parse? head = some ⟨t.tag, axes⟩ ∧ decodeBody t axes body = .ok value := by
  by_cases hfour : source.rest.length < 4
  · simp [decodeSource, ByteSource.readExactly_of_short hsource hfour, Except.mapError, bind,
      Except.bind] at h
  obtain ⟨source₁, hread₁, hrest₁, hsource₁⟩ :=
    ByteSource.readExactly_of_lasts hsource 4 (by omega)
  have hlength : (source.rest.take 4).length = 4 := by
    rw [List.length_take]
    omega
  generalize hsize : Bytes.toNat (source.rest.take 4) = size at *
  by_cases hmore : source₁.rest.length < size
  · simp [decodeSource, hread₁, hsize, ByteSource.readExactly_of_short hsource₁ hmore,
      Except.mapError, bind, Except.bind] at h
  obtain ⟨source₂, hread₂, hrest₂, hsource₂⟩ :=
    ByteSource.readExactly_of_lasts hsource₁ size (by omega)
  have hhead : (source₁.rest.take size).length = size := by
    rw [List.length_take]
    omega
  simp only [decodeSource, hread₁, hsize, hread₂, Except.mapError, bind, Except.bind,
    ByteSource.readAll_of_lasts hsource₂] at h
  split at h
  · cases h
  · rename_i header hheader
    split at h
    · cases h
    · rename_i hdtype
      rw [ne_eq, not_not] at hdtype
      refine ⟨header.axes, source₁.rest.take size, source₂.rest, ?_, ?_, ?_, h⟩
      · rw [hhead, hrest₂, List.take_append_drop, hrest₁, ← hsize]
        conv => lhs; rw [← List.take_append_drop 4 source.rest]
        congr 1
        have hback := Bytes.ofNat_toNat (source.rest.take 4)
        rw [hlength] at hback
        exact hback.symm
      · have hlt := Bytes.toNat_lt (source.rest.take 4)
        rw [hlength, hsize] at hlt
        rw [hhead]
        exact hlt
      · rw [hheader, ← hdtype]

/-- A body that is decoded is whole rows. -/
theorem rows_of_decodeBody {value : Payload} (h : decodeBody t axes body = .ok value) :
    ∃ rows, body.length = rows * (volume axes * t.size) ∧ (volume axes = 0 → rows = 0) ∧
      nonzeroVolume (rows :: axes) < 2 ^ 63 := by
  unfold decodeBody at h
  dsimp only at h
  split at h
  · cases h
  · generalize hrows : (if volume axes * t.size = 0 then 0 else
      body.length / (volume axes * t.size)) = rows at h
    split at h
    · cases h
    · rename_i hwhole
      rw [ne_eq, not_not] at hwhole
      split at h
      · rename_i a harray
        unfold NdArray.ofList? at harray
        split at harray
        · rename_i hsuits
          refine ⟨rows, hwhole.symm, fun hzero => ?_, hsuits.2.1⟩
          rw [← hrows, hzero, Nat.zero_mul, if_pos rfl]
        · cases harray
      · cases h

/-- A body of whole rows is decoded. -/
theorem decodeBody_whole (hwhole : body.length = rows * (volume axes * t.size))
    (hempty : volume axes = 0 → rows = 0) (hfits : nonzeroVolume (rows :: axes) < 2 ^ 63) :
    ∃ a : NdArray, decodeBody t axes body = .ok (.array a) ∧ a.dtype = t ∧ a.form = .free ∧
      a.shape = rows :: axes ∧ a.body = body := by
  rw [← Nat.mul_assoc] at hwhole
  obtain ⟨hcount, hbody⟩ := flatMap_elementsOf hwhole
  have hrows : (if volume axes = 0 then 0 else rows) = rows := by
    split
    · rename_i hzero
      exact (hempty hzero).symm
    · rfl
  obtain ⟨a, hdecode, hdtype, hform, hshape, hbits⟩ :=
    decodeBody_flatMap hcount (by rw [hrows]; exact hfits)
  rw [hbody] at hdecode
  rw [hrows] at hshape
  exact ⟨a, hdecode, hdtype, hform, hshape, (body_of_bits hdtype hbits).trans hbody⟩

/-- A decoder accepts exactly the stored form. -/
theorem decodes_iff (hsource : source.Lasts) :
    (∃ value, (Decoder.array t).decode source = .ok value) ↔
      ∃ axes rows head body, Stored t axes rows head body source.rest := by
  constructor
  · rintro ⟨value, hdecode⟩
    obtain ⟨axes, head, body, hlayout, hshort, hheader, hbody⟩ :=
      header_of_decodeSource hsource hdecode
    obtain ⟨rows, hwhole, hempty, hfits⟩ := rows_of_decodeBody hbody
    exact ⟨axes, rows, head, body, hlayout, hshort, hheader, hwhole, hempty, hfits⟩
  · rintro ⟨axes, rows, head, body, h⟩
    obtain ⟨a, hbody, -⟩ := decodeBody_whole h.whole h.empty h.fits
    exact ⟨_, (decodeSource_header h.layout h.short h.header hsource).trans hbody⟩

/-! ## The header -/

theorem toCount?_eq_some {j : Json} {n : Nat} (h : Json.toCount? j = some n) :
    j = .int (Int.ofNat n) := by
  cases j with
  | int k =>
    rw [Json.toCount?] at h
    split at h
    · rename_i hfits
      cases h
      rw [Int.ofNat_eq_natCast, Int.toNat_of_nonneg hfits.1]
    · cases h
  | _ => cases h

theorem eq_map_of_mapM_toCount? {items : List Json} (h : items.mapM Json.toCount? = some axes) :
    items = axes.map fun n => .int (Int.ofNat n) := by
  induction items generalizing axes with
  | nil =>
    cases h
    rfl
  | cons j items ih =>
    rw [List.mapM_cons] at h
    obtain ⟨n, hn, h⟩ := Option.bind_eq_some_iff.mp h
    obtain ⟨rest, hrest, h⟩ := Option.bind_eq_some_iff.mp h
    cases h
    rw [toCount?_eq_some hn, ih hrest, List.map_cons]

/-- The axes that a header names stand in it as an array. -/
theorem axes_of_parse? {header : Header} (h : Header.parse? head = some header) :
    ∃ js, Json.parseRecord? ["dtype", "shape"] head = some js ∧
      .array (header.axes.map fun n => .int (Int.ofNat n)) ∈ js := by
  unfold Header.parse? at h
  split at h
  · rename_i dtype items hrecord
    obtain ⟨axes, haxes, rfl⟩ := Option.map_eq_some_iff.mp h
    exact ⟨_, hrecord, by simp [eq_map_of_mapM_toCount? haxes]⟩
  · cases h

theorem length_encode_int (n : Nat) :
    (Text.encode (Json.print (.int (Int.ofNat n)))).length = (Nat.toDigits 10 n).length := by
  rw [Json.print, Text.encode_ofList, Json.chars, Json.intChars]
  exact (congrArg List.length (Json.digitBytes_eq n)).trans (List.length_map _)

theorem length_joined_le (texts : List Bytes) :
    (Json.joined texts).length ≤ (texts.map List.length).sum + texts.length := by
  induction texts with
  | nil => exact Nat.zero_le _
  | cons text texts ih =>
    cases texts with
    | nil => simp [Json.joined, List.intercalate]
    | cons next texts =>
      rw [Json.joined_cons_cons]
      simp only [List.length_append, List.length_cons, List.map_cons, List.sum_cons] at ih ⊢
      omega

/-- The axes are printed in a byte more than they weigh at most. -/
theorem length_encode_axes (axes : List Nat) :
    (Text.encode (Json.print (.array (axes.map fun n => .int (Int.ofNat n))))).length ≤
      Json.weightOf (.array (axes.map fun n => .int (Int.ofNat n))) + 1 := by
  have hjoined := length_joined_le
    ((axes.map fun n => Json.int (Int.ofNat n)).map fun j => Text.encode (Json.print j))
  have hdigits : List.length ∘ (fun j => Text.encode (Json.print j)) ∘
      (fun n => Json.int (Int.ofNat n)) = Json.digitCount ∘ fun n => Json.int (Int.ofNat n) :=
    funext length_encode_int
  rw [Json.print, Text.encode_ofList, Json.chars, List.flatMap_append, List.flatMap_cons,
    Json.encode_itemChars, Json.weightOf]
  simp only [List.map_map, List.length_map, hdigits] at hjoined
  simp only [List.length_append, List.map_map, List.length_map]
  have hopen : (String.utf8EncodeChar '[').length = 1 := by decide
  have hclose : (List.flatMap String.utf8EncodeChar [']']).length = 1 := by decide
  omega

/-- The header that is written has at most 24 bytes more than one that says the same. -/
theorem Header.length_toBytes_le (h : Header.parse? head = some ⟨t.tag, axes⟩) :
    (Header.mk t.tag axes).toBytes.length ≤ head.length + 24 := by
  obtain ⟨js, hrecord, hmem⟩ := axes_of_parse? h
  have hweight := Json.weightOf_le_of_parseRecord? hrecord hmem
  have haxes := length_encode_axes axes
  have hdtype : (Json.memberBytes ("dtype", .string t.tag)).length = 13 := by
    cases t <;> decide +kernel
  have hkey : (Text.encode (Json.print (.string "shape"))).length = 7 := by decide +kernel
  have hopen : (String.utf8EncodeChar '\x7b').length = 1 := by decide
  have hclose : (List.flatMap String.utf8EncodeChar ['\x7d']).length = 1 := by decide
  rw [Header.toBytes, Json.print, Text.encode_ofList, Json.chars, List.flatMap_append,
    List.flatMap_cons, Json.encode_memberChars, List.map_cons, List.map_singleton,
    Json.joined_cons_cons]
  simp only [Json.joined, List.intercalate_singleton, Json.memberBytes, List.length_append,
    List.length_cons] at hdtype ⊢
  dsimp only at hmem hweight
  omega

/-! ## Reading and writing again -/

/-- What was read is written behind a header of its own, and is read from there again. -/
theorem read_again {a : NdArray} (hfits : nonzeroVolume (rows :: axes) < 2 ^ 63)
    (hbody : decodeBody t axes a.body = .ok (.array a)) (hdtype : a.dtype = t)
    (hshape : a.shape = rows :: axes) (hshort : (Header.mk t.tag axes).toBytes.length < 2 ^ 32) :
    (Encoder.array t).written (Encoder.array t).start [.array a] =
      .ok ((Header.mk t.tag axes).frame ++ a.body) ∧
    ∀ again : ByteSource, again.Lasts → again.rest = (Header.mk t.tag axes).frame ++ a.body →
      (Decoder.array t).decode again = .ok (.array a) := by
  have hrows : HasRows t axes a := ⟨hdtype, by rw [NdArray.rows, hshape]; rfl⟩
  have haxes : ∀ n ∈ axes, n < 2 ^ 64 := fun n hn => by
    have hle := le_nonzeroVolume (List.mem_cons_of_mem rows hn)
    omega
  constructor
  · have hencode : (Encoder.array t).encode (.array a) (Encoder.array t).start =
        (.ok ((Header.mk t.tag axes).frame :: bodyRuns a), some axes) := by
      have hfirst := encodeChunk_first hrows (by rw [hrows.others]; exact hshort)
      rw [hrows.others] at hfirst
      simp only [Encoder.array, hfirst]
    rw [Encoder.written_of_ok hencode, List.flatten_cons, flatten_bodyRuns]
    simp [Encoder.written, Encoder.array, Except.map]
  · intro again hsource hrest
    exact (decodeSource_framed haxes (Header.framed?_eq hshort) hsource hrest).trans hbody

/-- A decoder of arrays accepts exactly the stored form, however few bytes each read gives. What it
reads has the element type, the rows and the axes that are stored, and the stored elements. A fresh
encoder writes it with the same elements behind a header of its own, and that is read as the same
array again. The length of this header has to fit into four bytes, and it does if that of the header
which was read is at least 24 below what fits; otherwise the encoder refuses the array. -/
theorem stored_form_is_exact (t : Dtype) (source : ByteSource) (hsource : source.Lasts) :
    ((∃ value, (Decoder.array t).decode source = .ok value) ↔
      ∃ axes rows head body, Stored t axes rows head body source.rest) ∧
    ∀ axes rows head body, Stored t axes rows head body source.rest →
      ∃ a : NdArray, (Decoder.array t).decode source = .ok (.array a) ∧
        a.dtype = t ∧ a.form = .free ∧ a.shape = rows :: axes ∧ a.body = body ∧
        (Header.mk t.tag axes).toBytes.length ≤ head.length + 24 ∧
        ((Header.mk t.tag axes).toBytes.length < 2 ^ 32 →
          (Encoder.array t).written (Encoder.array t).start [.array a] =
            .ok ((Header.mk t.tag axes).frame ++ body) ∧
          ∀ again : ByteSource, again.Lasts → again.rest = (Header.mk t.tag axes).frame ++ body →
            (Decoder.array t).decode again = .ok (.array a)) ∧
        (2 ^ 32 ≤ (Header.mk t.tag axes).toBytes.length →
          (Encoder.array t).encode (.array a) (Encoder.array t).start =
            (.error (.malformedArray .headerTooLong), (Encoder.array t).start)) := by
  refine ⟨decodes_iff hsource, fun axes rows head body h => ?_⟩
  obtain ⟨a, hdecode, hdtype, hform, hshape, rfl⟩ := decodeBody_whole h.whole h.empty h.fits
  refine ⟨a, (decodeSource_header h.layout h.short h.header hsource).trans hdecode, hdtype, hform,
    hshape, rfl, Header.length_toBytes_le h.header, read_again h.fits hdecode hdtype hshape,
    fun hlong => ?_⟩
  have hnone : (Header.mk t.tag axes).framed? = none := if_neg (Nat.not_lt.mpr hlong)
  simp only [Encoder.array, encodeChunk, hdtype, hshape, hnone, ne_eq, not_true_eq_false, if_false]

/-- Two rows of two, with a header whose fields stand in a list. -/
theorem listed_header_is_read : ∃ a : NdArray,
    (Decoder.array .u1).decode (.ofBytes (Bytes.ofNat 4 11 ++ (Text.encode "[\x22|u1\x22,[2]]" ++
      [1, 2, 3, 4]))) = .ok (.array a) ∧ a.shape = [2, 2] ∧ a.body = [1, 2, 3, 4] ∧
    (Encoder.array .u1).written none [.array a] =
      .ok ((Header.mk "|u1" [2]).frame ++ [1, 2, 3, 4]) := by
  have hstored : Stored .u1 [2] 2 (Text.encode "[\x22|u1\x22,[2]]") [1, 2, 3, 4]
      (Bytes.ofNat 4 11 ++ (Text.encode "[\x22|u1\x22,[2]]" ++ [1, 2, 3, 4])) :=
    ⟨by decide +kernel, by decide +kernel, by decide +kernel, by decide +kernel, by decide +kernel,
      by decide +kernel⟩
  generalize Bytes.ofNat 4 11 ++ (Text.encode "[\x22|u1\x22,[2]]" ++ [1, 2, 3, 4]) = bs
    at hstored ⊢
  obtain ⟨-, hread⟩ := stored_form_is_exact .u1 (.ofBytes bs) (ByteSource.lasts_of_sound rfl)
  obtain ⟨a, hdecode, -, -, hshape, hbody, -, hagain, -⟩ := hread _ _ _ _ hstored
  obtain ⟨hwritten, -⟩ := hagain (by decide +kernel)
  exact ⟨a, hdecode, hshape, hbody, hwritten⟩

end ArrayFormat

end FeatureGraph
