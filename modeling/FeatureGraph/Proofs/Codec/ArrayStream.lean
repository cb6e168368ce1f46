-- Streams of arrays. What is offered to an encoder of arrays is rejected
-- exactly if it is no such array or does not go with the first that was
-- taken, and leaves no trace then. What was taken is read back as one array,
-- whose rows are theirs.
import FeatureGraph.Proofs.Codec.ArrayFormat
import FeatureGraph.Proofs.Codec.Offering

namespace FeatureGraph

namespace NdArray

/-- The length of the first axis. -/
def rows (a : NdArray) : Nat := a.shape.headD 0

/-- Every axis but the first. -/
def others (a : NdArray) : List Nat := a.shape.tail

/-- The lengths of the first axes together. -/
def totalRows : (arrays : List NdArray) → Nat
  | [] => 0
  | a :: arrays => a.rows + totalRows arrays

end NdArray

namespace ArrayFormat

variable {t : Dtype} {axes : List Nat} {arrays : List NdArray}

/-- The array has elements of this type, and these axes behind its first. -/
structure HasRows (t : Dtype) (axes : List Nat) (a : NdArray) : Prop where
  dtype : a.dtype = t
  shape : a.shape = a.rows :: axes

theorem HasRows.others {a : NdArray} (h : HasRows t axes a) : a.others = axes := by
  rw [NdArray.others, h.shape, List.tail_cons]

/-! ## The encoder -/

/-- A header with its length in front. -/
def Header.frame (h : Header) : Bytes := Bytes.ofNat 4 h.toBytes.length ++ h.toBytes

theorem Header.framed?_eq {h : Header} (hsmall : h.toBytes.length < 2 ^ 32) :
    h.framed? = some h.frame := if_pos hsmall

/-- What stands before the elements that the encoder puts out from a state on. -/
def opening (t : Dtype) : (s : Option (List Nat)) → (arrays : List NdArray) → Bytes
  | none, first :: _ => (Header.mk t.tag first.others).frame
  | _, _ => []

/-- Why a chunk does not go with the stream. -/
def Misfit (t : Dtype) (s : Option (List Nat)) (chunk : Payload) : Prop :=
  (∀ a, chunk = .array a → a.dtype ≠ t) ∨
    ∃ a, chunk = .array a ∧ (a.shape = [] ∨ ∃ expected, s = some expected ∧ a.others ≠ expected)

/-- The header of the array, if it begins a stream, is not too long. -/
def HeaderFits (t : Dtype) (chunk : Payload) : Prop :=
  ∀ a, chunk = .array a → (Header.mk t.tag a.others).toBytes.length < 2 ^ 32

/-- The elements of an array in one run, and no run if there are none. -/
def bodyRuns (a : NdArray) : List Bytes := if a.body.isEmpty then [] else [a.body]

theorem flatten_bodyRuns (a : NdArray) : (bodyRuns a).flatten = a.body := by
  unfold bodyRuns
  cases h : a.body with
  | nil => rfl
  | cons b body => simp

theorem encodeChunk_first {a : NdArray} (h : HasRows t axes a)
    (hheader : (Header.mk t.tag a.others).toBytes.length < 2 ^ 32) :
    encodeChunk t (.array a) none =
      (.ok ((Header.mk t.tag a.others).frame :: bodyRuns a), some axes) := by
  rw [h.others] at hheader ⊢
  rw [encodeChunk, if_neg (not_not_intro h.dtype), h.shape]
  simp only [Header.framed?_eq hheader, bodyRuns]

theorem encodeChunk_next {a : NdArray} (h : HasRows t axes a) :
    encodeChunk t (.array a) (some axes) = (.ok (bodyRuns a), some axes) := by
  rw [encodeChunk, if_neg (not_not_intro h.dtype), h.shape]
  simp only [if_true, bodyRuns]

theorem encodeChunk_misfit {s : Option (List Nat)} {chunk : Payload} (h : Misfit t s chunk) :
    ∃ cause, encodeChunk t chunk s = (.error cause, s) := by
  unfold encodeChunk
  cases chunk with
  | array a =>
    by_cases hdtype : a.dtype = t
    · rcases h with hother | ⟨b, hb, hshape⟩
      · exact absurd hdtype (hother a rfl)
      · cases hb
        simp only [hdtype, ne_eq, not_true_eq_false, if_false]
        split
        · exact ⟨_, rfl⟩
        · rename_i n others heq
          obtain ⟨expected, rfl, hne⟩ := hshape.resolve_left (by simp [heq])
          rw [NdArray.others, heq, List.tail_cons] at hne
          simp only [if_neg (Ne.symm hne)]
          exact ⟨_, rfl⟩
    · simp only [ne_eq, hdtype, not_false_eq_true, if_true]
      exact ⟨_, rfl⟩
  | _ => exact ⟨_, rfl⟩

/-- What goes with the stream. -/
theorem hasRows_of_not_misfit {s : Option (List Nat)} {chunk : Payload} (h : ¬ Misfit t s chunk) :
    ∃ a axes, chunk = .array a ∧ HasRows t axes a ∧ s.getD axes = axes := by
  obtain ⟨a, rfl, hdtype⟩ : ∃ a, chunk = .array a ∧ a.dtype = t := by
    by_contra hnone
    exact h (Or.inl fun a ha hdtype => hnone ⟨a, ha, hdtype⟩)
  have hnonempty : a.shape ≠ [] := fun hnil => h (Or.inr ⟨a, rfl, Or.inl hnil⟩)
  obtain ⟨n, axes, hshape⟩ := List.exists_cons_of_ne_nil hnonempty
  have hrows : HasRows t axes a := ⟨hdtype, by rw [NdArray.rows, hshape]; rfl⟩
  refine ⟨a, axes, rfl, hrows, ?_⟩
  cases s with
  | none => rfl
  | some expected =>
    by_contra hne
    exact h (Or.inr ⟨a, rfl, Or.inr ⟨expected, rfl, fun heq => hne (hrows.others ▸ heq.symm)⟩⟩)

/-- A chunk is put out, behind a header if it is the first, or it does not go with the stream and
leaves no trace. -/
theorem encodeChunk_cases {chunk : Payload} (hheader : HeaderFits t chunk) (s : Option (List Nat)) :
    (∃ a axes runs, chunk = .array a ∧ HasRows t axes a ∧ s.getD axes = axes ∧
      (Encoder.array t).encode chunk s = (.ok runs, some axes) ∧
      runs.flatten = opening t s [a] ++ a.body) ∨
    (Misfit t s chunk ∧ ∃ cause, (Encoder.array t).encode chunk s = (.error cause, s)) := by
  by_cases hmisfit : Misfit t s chunk
  · exact Or.inr ⟨hmisfit, encodeChunk_misfit hmisfit⟩
  · obtain ⟨a, axes, rfl, hrows, hs⟩ := hasRows_of_not_misfit hmisfit
    left
    cases s with
    | none =>
      refine ⟨a, axes, _, rfl, hrows, hs, encodeChunk_first hrows (hheader a rfl), ?_⟩
      rw [List.flatten_cons, flatten_bodyRuns]
      rfl
    | some expected =>
      obtain rfl : expected = axes := hs
      exact ⟨a, expected, _, rfl, hrows, rfl, encodeChunk_next hrows, flatten_bodyRuns a⟩

/-! ## A stream -/

/-- The arrays that are taken share the axes of the first, which the encoder remembers, and their
elements are put out one after another, with one header in front. -/
theorem offered_arrays {offered : List Payload} (hheaders : ∀ chunk ∈ offered, HeaderFits t chunk)
    (s : Option (List Nat)) :
    ∃ arrays : List NdArray, (Encoder.array t).taken s offered = arrays.map .array ∧
      (Encoder.array t).after s offered = s.or (arrays.head?.map (·.others)) ∧
      (∀ axes, s.or (arrays.head?.map (·.others)) = some axes → ∀ a ∈ arrays, HasRows t axes a) ∧
      (Encoder.array t).written s offered = .ok (opening t s arrays ++ arrays.flatMap (·.body)) := by
  induction offered generalizing s with
  | nil => exact ⟨[], rfl, by cases s <;> rfl, by simp, by cases s <;> rfl⟩
  | cons chunk rest ih =>
    obtain ⟨hheader, hrest⟩ := List.forall_mem_cons.mp hheaders
    rcases encodeChunk_cases hheader s with
      ⟨a, axes, runs, rfl, hrows, hs, hencode, hruns⟩ | ⟨-, cause, hencode⟩
    · obtain ⟨arrays, htaken, hafter, hall, hwritten⟩ := ih hrest (some axes)
      have hor : s.or ((a :: arrays).head?.map (·.others)) = some axes := by
        cases s with
        | none => exact congrArg some hrows.others
        | some expected => exact congrArg some hs
      refine ⟨a :: arrays, ?_, ?_, ?_, ?_⟩
      · refine (Encoder.taken_of_ok hencode rest).trans ?_
        rw [htaken, List.map_cons]
      · refine Eq.trans ?_ (hafter.trans hor.symm)
        exact congrArg (Encoder.after (.array t) · rest) (congrArg Prod.snd hencode)
      · rw [hor]
        rintro _ ⟨⟩
        exact List.forall_mem_cons.mpr ⟨hrows, hall axes rfl⟩
      · refine (Encoder.written_of_ok hencode rest).trans ?_
        have hopening : opening t s (a :: arrays) = opening t s [a] := by cases s <;> rfl
        rw [hwritten, hruns, hopening, List.flatMap_cons]
        simp [Except.map, opening]
    · obtain ⟨arrays, htaken, hafter, hall, hwritten⟩ := ih hrest s
      refine ⟨arrays, ?_, ?_, hall, ?_⟩
      · exact (Encoder.taken_of_error hencode rest).trans htaken
      · refine Eq.trans ?_ hafter
        exact congrArg (Encoder.after (.array t) · rest) (congrArg Prod.snd hencode)
      · exact (Encoder.written_of_error hencode rest).trans hwritten

/-- A chunk is rejected exactly if it does not go with the stream. -/
theorem rejects_iff {chunk : Payload} (hheader : HeaderFits t chunk) (s : Option (List Nat)) :
    (Encoder.array t).Rejects s chunk ↔ Misfit t s chunk := by
  constructor
  · rintro ⟨cause, hcause⟩
    rcases encodeChunk_cases hheader s with ⟨a, axes, runs, -, -, -, hencode, -⟩ | ⟨hmisfit, -⟩
    · rw [hencode] at hcause
      cases hcause
    · exact hmisfit
  · intro hmisfit
    obtain ⟨cause, hencode⟩ := encodeChunk_misfit hmisfit
    exact ⟨cause, congrArg Prod.fst hencode⟩

/-- A chunk that is rejected leaves no trace. -/
theorem unchanged_of_rejects {chunk : Payload} (hheader : HeaderFits t chunk) {s : Option (List Nat)}
    (h : (Encoder.array t).Rejects s chunk) : ((Encoder.array t).encode chunk s).2 = s := by
  obtain ⟨cause, hencode⟩ := encodeChunk_misfit ((rejects_iff hheader s).mp h)
  exact congrArg Prod.snd hencode

/-- What a chunk has to go with are the axes of the first array that was taken. -/
theorem misfit_after_iff {front : List Payload} (hfront : ∀ chunk ∈ front, HeaderFits t chunk)
    (chunk : Payload) : Misfit t ((Encoder.array t).after none front) chunk ↔
      (∀ a, chunk = .array a → a.dtype ≠ t) ∨ ∃ a, chunk = .array a ∧ (a.shape = [] ∨
        ∃ first, ((Encoder.array t).taken none front).head? = some (.array first) ∧
          a.others ≠ first.others) := by
  obtain ⟨arrays, htaken, hafter, -⟩ := offered_arrays hfront none
  have hhead : ∀ first : NdArray, ((Encoder.array t).taken none front).head? =
      some (.array first) ↔ arrays.head? = some first := by
    intro first
    rw [htaken, List.head?_map]
    cases arrays.head? <;> simp
  refine or_congr Iff.rfl (exists_congr fun a => and_congr_right fun _ => or_congr Iff.rfl ?_)
  rw [hafter, Option.none_or]
  constructor
  · rintro ⟨expected, hexpected, hne⟩
    obtain ⟨first, hfirst, rfl⟩ := Option.map_eq_some_iff.mp hexpected
    exact ⟨first, (hhead first).mpr hfirst, hne⟩
  · rintro ⟨first, hfirst, hne⟩
    exact ⟨first.others, by rw [(hhead first).mp hfirst]; rfl, hne⟩

/-! ## Reading it back -/

/-- The elements of arrays with the same axes but for the first. -/
theorem exists_elements (h : ∀ a ∈ arrays, HasRows t axes a) :
    ∃ elements : List (Element t),
      arrays.flatMap (·.body) = elements.flatMap (·.toBytes) ∧
      arrays.flatMap (·.bits) = elements.map (·.val) ∧
      elements.length = NdArray.totalRows arrays * volume axes := by
  induction arrays with
  | nil => exact ⟨[], rfl, rfl, by simp [NdArray.totalRows]⟩
  | cons a arrays ih =>
    obtain ⟨⟨hdtype, hshape⟩, harrays⟩ := List.forall_mem_cons.mp h
    obtain ⟨elements, hbody, hbits, hlength⟩ := ih harrays
    subst hdtype
    refine ⟨a.elements ++ elements, ?_, ?_, ?_⟩
    · rw [List.flatMap_cons, hbody, List.flatMap_append]
      rfl
    · rw [List.flatMap_cons, hbits, List.map_append]
      rfl
    · rw [List.length_append, a.length_elements, hshape, volume_cons, hlength, NdArray.totalRows,
        Nat.add_mul]

/-- The array that these arrays make together is of a size that an array can have. -/
theorem together_bounded {first : NdArray} (h : ∀ a ∈ first :: arrays, HasRows t axes a)
    (hcount : NdArray.totalRows (first :: arrays) * volume axes < 2 ^ 63) :
    nonzeroVolume ((if volume axes = 0 then 0 else NdArray.totalRows (first :: arrays)) :: axes) <
      2 ^ 63 := by
  have hfirst : nonzeroVolume axes < 2 ^ 63 := by
    refine Nat.lt_of_le_of_lt ?_ first.bounded
    rw [(h first List.mem_cons_self).shape]
    exact nonzeroVolume_le_cons _ _
  by_cases hzero : volume axes = 0
  · rw [if_pos hzero, nonzeroVolume_cons, if_pos rfl]
    exact hfirst
  · have hpos := Nat.pos_of_ne_zero hzero
    rw [if_neg hzero, nonzeroVolume_cons, nonzeroVolume_of_pos hpos]
    split
    · exact nonzeroVolume_of_pos hpos ▸ hfirst
    · exact hcount

/-- The output for arrays of one kind is read back as one array. -/
theorem decode_arrays {first : NdArray} {source : ByteSource}
    (h : ∀ a ∈ first :: arrays, HasRows t first.others a)
    (hheader : (Header.mk t.tag first.others).toBytes.length < 2 ^ 32)
    (hcount : NdArray.totalRows (first :: arrays) * volume first.others < 2 ^ 63)
    (hsource : source.Lasts)
    (hrest : source.rest =
      (Header.mk t.tag first.others).frame ++ (first :: arrays).flatMap (·.body)) :
    ∃ whole : NdArray, (Decoder.array t).decode source = .ok (.array whole) ∧ whole.dtype = t ∧
      whole.form = .free ∧
      whole.shape = (if volume first.others = 0 then 0 else NdArray.totalRows (first :: arrays)) ::
        first.others ∧
      whole.bits = (first :: arrays).flatMap (·.bits) := by
  obtain ⟨elements, hbody, hbits, hlength⟩ := exists_elements h
  have haxes : ∀ n ∈ first.others, n < 2 ^ 64 := by
    intro n hn
    have hle := le_nonzeroVolume (List.mem_of_mem_tail hn)
    have hlt : nonzeroVolume first.shape < 2 ^ 63 := first.bounded
    omega
  rw [hbody] at hrest
  have hdecode : (Decoder.array t).decode source =
      decodeBody t first.others (elements.flatMap (·.toBytes)) :=
    decodeSource_framed haxes (Header.framed?_eq hheader) hsource hrest
  rw [hdecode, hbits]
  exact decodeBody_flatMap hlength (together_bounded h hcount)

/-- Of all that is offered to an encoder of arrays, a chunk is rejected exactly if it is no array
of the element type, has no first axis, or has other axes behind it than the first that was taken,
and the encoder is left as it was. If any was taken, and all that were taken have no more elements
than an array can have, then the whole output is read back as one array, however few bytes each read
gives. Its rows are the rows of all that were taken, bit for bit, but there are none if a row has no
elements. -/
theorem array_streams_round_trip (t : Dtype) (offered : List Payload)
    (hheaders : ∀ a, .array a ∈ offered → (Header.mk t.tag a.others).toBytes.length < 2 ^ 32) :
    (∀ front chunk back, offered = front ++ chunk :: back →
      let left := (Encoder.array t).after (Encoder.array t).start front
      ((Encoder.array t).Rejects left chunk ↔
        (∀ a, chunk = .array a → a.dtype ≠ t) ∨ ∃ a, chunk = .array a ∧ (a.shape = [] ∨
          ∃ first, ((Encoder.array t).taken (Encoder.array t).start front).head? =
            some (.array first) ∧ a.others ≠ first.others)) ∧
      ((Encoder.array t).Rejects left chunk →
        (Encoder.array t).after (Encoder.array t).start (front ++ [chunk]) = left)) ∧
    ∃ (arrays : List NdArray) (bytes : Bytes),
      (Encoder.array t).taken (Encoder.array t).start offered = arrays.map .array ∧
      (Encoder.array t).written (Encoder.array t).start offered = .ok bytes ∧
      ∀ first, arrays.head? = some first →
        NdArray.totalRows arrays * volume first.others < 2 ^ 63 →
        ∀ source : ByteSource, source.Lasts → source.rest = bytes →
          ∃ whole : NdArray, (Decoder.array t).decode source = .ok (.array whole) ∧
            whole.dtype = t ∧ whole.form = .free ∧
            whole.shape = (if volume first.others = 0 then 0 else NdArray.totalRows arrays) ::
              first.others ∧
            whole.bits = arrays.flatMap (·.bits) := by
  have hall : ∀ chunk ∈ offered, HeaderFits t chunk := fun chunk hchunk a ha =>
    hheaders a (ha ▸ hchunk)
  constructor
  · intro front chunk back heq left
    have hfront : ∀ p ∈ front, HeaderFits t p := fun p hp => hall p (by simp [heq, hp])
    have hchunk : HeaderFits t chunk := hall chunk (by simp [heq])
    refine ⟨(rejects_iff hchunk left).trans (misfit_after_iff hfront chunk), fun hrejects => ?_⟩
    exact (Encoder.after_snoc ..).trans (unchanged_of_rejects hchunk hrejects)
  · obtain ⟨arrays, htaken, -, hrows, hwritten⟩ := offered_arrays hall none
    refine ⟨arrays, _, htaken, hwritten, fun first hfirst hcount source hsource hrest => ?_⟩
    obtain ⟨rest, rfl⟩ : ∃ rest, arrays = first :: rest := by
      cases arrays with
      | nil => cases hfirst
      | cons a rest => cases hfirst; exact ⟨rest, rfl⟩
    have hoffered : Payload.array first ∈ offered :=
      ((Encoder.array t).taken_sublist none offered).mem (htaken ▸ List.mem_cons_self)
    exact decode_arrays (hrows _ rfl) (hheaders first hoffered) hcount hsource hrest

/-! ## A transposed array, and a row -/

/-- Three rows of two elements, transposed: two rows of three. -/
def transposed : NdArray where
  dtype := .u2
  form := .grid
  shape := [2, 3]
  memory := ([1, 4, 2, 5, 3, 6].map (Element.ofBits .u2)).toArray
  start := 0
  strides := [1, 2]
  elements := [1, 2, 3, 4, 5, 6].map (Element.ofBits .u2)
  ranked := by decide
  bounded := by decide
  stepped := rfl
  placed := by decide

def lastRow : NdArray where
  dtype := .u2
  form := .free
  shape := [1, 3]
  memory := ([7, 8, 9].map (Element.ofBits .u2)).toArray
  start := 0
  strides := [3, 1]
  elements := [7, 8, 9].map (Element.ofBits .u2)
  ranked := by decide
  bounded := by decide
  stepped := rfl
  placed := by decide

/-- A text stands between them. -/
def interrupted : List Payload := [.array transposed, .text "no array", .array lastRow]

theorem interrupted_headers (a : NdArray) (ha : .array a ∈ interrupted) :
    (Header.mk (Dtype.tag .u2) a.others).toBytes.length < 2 ^ 32 := by
  simp only [interrupted, List.mem_cons, Payload.array.injEq, List.not_mem_nil, or_false,
    reduceCtorEq, false_or] at ha
  rcases ha with rfl | rfl <;> decide +kernel

/-- The text is rejected, and what was put out is read back as three rows. -/
theorem interrupted_is_read_back :
    (Encoder.array .u2).Rejects (some [3]) (.text "no array") ∧
      ∃ bytes, (Encoder.array .u2).written none interrupted = .ok bytes ∧
        ∃ whole : NdArray, (Decoder.array .u2).decode (.ofBytes bytes) = .ok (.array whole) ∧
          whole.shape = [3, 3] ∧ whole.bits = [1, 2, 3, 4, 5, 6, 7, 8, 9] := by
  obtain ⟨hrejects, arrays, bytes, htaken, hwritten, hread⟩ :=
    array_streams_round_trip .u2 interrupted interrupted_headers
  have harrays : arrays = [transposed, lastRow] := by
    have hmap : arrays.map Payload.array = [transposed, lastRow].map Payload.array :=
      htaken.symm.trans rfl
    exact List.map_injective_iff.mpr (fun a b h => Payload.array.inj h) hmap
  subst harrays
  obtain ⟨whole, hdecode, -, -, hshape, hbits⟩ := hread transposed rfl (by decide)
    (.ofBytes bytes) (ByteSource.lasts_of_sound rfl) rfl
  refine ⟨?_, bytes, hwritten, whole, hdecode, hshape.trans rfl, hbits.trans rfl⟩
  refine (hrejects [.array transposed] (.text "no array") [.array lastRow] rfl).1.mpr (Or.inl ?_)
  rintro a ⟨⟩

end ArrayFormat

end FeatureGraph
