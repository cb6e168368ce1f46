-- Encoders at work behind a node, and what their bytes are read back as. Every
-- chunk is answered on its own: taken, or refused without a trace. Bytes and
-- texts are put out as they come, and read back joined; of documents the latest
-- is put out, in one piece, at the end.
import FeatureGraph.Proofs.ByteSource
import FeatureGraph.Proofs.Codec.Offering
import FeatureGraph.Proofs.Component.Storing
import FeatureGraph.Proofs.Component.Tokenizer

namespace FeatureGraph

variable {W : Type}

/-! ## Answers -/

/-- The bytes that answers put out. -/
def emitted (answers : List (Except ComponentError Output)) : Bytes :=
  answers.flatMap fun
    | .ok out => out.flatMap fun
      | .ok data => data.bytes?.getD []
      | .error _ => []
    | .error _ => []

/-- The answer to a chunk that is encoded in these runs, or refused. -/
def reply (expected : String) : Option (List Bytes) → Except ComponentError Output
  | some runs => .ok (Output.ofBytes runs)
  | none => .error (.codec (.unsupportedChunk expected))

theorem emitted_append (front back : List (Except ComponentError Output)) :
    emitted (front ++ back) = emitted front ++ emitted back := List.flatMap_append

theorem emitted_ofBytes (runs : List Bytes) : emitted [.ok (Output.ofBytes runs)] = runs.flatten := by
  simp only [emitted, Output.ofBytes, List.flatMap_cons, List.flatMap_nil, List.append_nil,
    List.flatMap_map]
  exact List.flatMap_id ..

/-- What is refused puts out nothing. -/
theorem emitted_replies {β : Type} (expected : Payload → String) (taken? : Payload → Option β)
    (runs : β → List Bytes) (offered : List Payload) :
    emitted (offered.map fun chunk => reply (expected chunk) ((taken? chunk).map runs)) =
      (offered.filterMap taken?).flatMap fun x => (runs x).flatten := by
  induction offered with
  | nil => rfl
  | cons chunk rest ih =>
    rw [List.map_cons, ← List.singleton_append, emitted_append, ih]
    cases h : taken? chunk with
    | none =>
      rw [List.filterMap_cons_none h]
      rfl
    | some x =>
      rw [List.filterMap_cons_some h, List.flatMap_cons, Option.map_some, reply, emitted_ofBytes]

namespace Encoder

/-- What the node of an encoder answers from its start on. -/
def answers (e : Encoder) (offered : List Payload) (w : W) : List (Except ComponentError Output) :=
  (Component.encoding e).answers offered e.start w

/-- Whatever it remembers, the encoder takes the chunks that have runs of bytes, and puts these
out; others it refuses. -/
def Takes (e : Encoder) (expected : Payload → String) (runs? : Payload → Option (List Bytes)) :
    Prop :=
  ∀ chunk s, (e.encode chunk s).1 = match runs? chunk with
    | some runs => .ok runs
    | none => .error (.unsupportedChunk (expected chunk))

variable {e : Encoder} {expected : Payload → String} {runs? : Payload → Option (List Bytes)}
  {offered : List Payload} {last : List Bytes}

theorem Takes.answers_from (h : e.Takes expected runs?) (s : e.State) (w : W)
    (hlast : (e.finish (e.after s offered)).1 = .ok last) :
    (Component.encoding e).answers offered s w =
      (offered.map fun chunk => reply (expected chunk) (runs? chunk)) ++
        [.ok (Output.ofBytes last)] := by
  induction offered generalizing s with
  | nil =>
    rw [after, List.foldl_nil] at hlast
    simp only [Component.answers, Component.encoding]
    split
    · rename_i runs heq
      rw [heq] at hlast
      cases hlast
      rfl
    · rename_i cause heq
      rw [heq] at hlast
      cases hlast
  | cons chunk rest ih =>
    have hrest := ih (e.encode chunk s).2 hlast
    have hchunk := h chunk s
    simp only [Component.answers, Component.encoding, List.map_cons, List.cons_append]
    cases hruns : runs? chunk <;> rw [hruns] at hchunk <;> simp only [hchunk] <;>
      exact congrArg (_ :: ·) hrest

theorem Takes.answers (h : e.Takes expected runs?)
    (hlast : (e.finish (e.after e.start offered)).1 = .ok last) (w : W) :
    e.answers offered w = (offered.map fun chunk => reply (expected chunk) (runs? chunk)) ++
      [.ok (Output.ofBytes last)] := h.answers_from e.start w hlast

end Encoder

/-! ## Texts -/

/-- The text of a chunk that is taken as text. -/
def Payload.text? : Payload → Option String
  | .text s => some s
  | .literal s => some s
  | .bytes bs => Text.decode? bs
  | _ => none

/-- What a chunk that is no text is told to be. -/
def Payload.textExpected : Payload → String
  | .bytes _ => "utf-8 text"
  | _ => "text"

theorem Encoder.textBytes_eq (chunk : Payload) : textBytes chunk = match chunk.text? with
    | some s => .ok (Text.encode s)
    | none => .error (.unsupportedChunk chunk.textExpected) := by
  cases chunk with
  | text | literal => rfl
  | bytes bs =>
    rw [textBytes, Payload.text?]
    cases h : Text.decode? bs with
    | none => rfl
    | some s => simp [Text.decode?_eq_some.mp h]
  | buffer | int | words | counts | json | array | path | stored | batch | inputs => rfl

theorem Text.encode_join (texts : List String) :
    encode (String.join texts) = texts.flatMap encode := by
  induction texts with
  | nil => rfl
  | cons s rest ih => rw [String.join_cons, encode_append, ih, List.flatMap_cons]

/-! ## Documents -/

namespace Encoder

/-- What is remembered is the latest document. -/
theorem after_document (expected : String) (document? : Payload → Option Json)
    (offered : List Payload) (latest : Option Json) :
    (document expected document?).after latest offered =
      (offered.filterMap document?).getLast?.or latest := by
  induction offered generalizing latest with
  | nil => rfl
  | cons chunk rest ih =>
    refine (ih _).trans ?_
    cases h : document? chunk with
    | none => simp [document, h]
    | some doc => simp [document, h, List.getLast?_cons]

end Encoder

/-! ## Reading back -/

/-- The decoder reads the bytes as this value, in however small parts a source may give them. -/
def Decoder.Reads (d : Decoder) (bs : Bytes) (value : Payload) : Prop :=
  ∀ source : ByteSource, source.readAll = .ok bs → d.decode source = .ok value

namespace Decoder

variable {bs : Bytes} {value : Payload}

theorem raw_reads (size : Nat) (bs : Bytes) : (raw size).Reads bs (.bytes bs) := by
  intro source hsource
  simp [raw, allBytes, hsource, Except.mapError, Except.map]

theorem text_reads (s : String) : text.Reads (Text.encode s) (.text s) := by
  intro source hsource
  simp [text, whole, allBytes, hsource, Except.mapError, bind, Except.bind, pure, Except.pure]

theorem document_reads {read? : Bytes → Option Payload} (h : read? bs = some value) :
    (document read?).Reads bs value := by
  intro source hsource
  simp [document, whole, hsource, h]

end Decoder

/-! ## The presets -/

namespace Encoder

variable (offered : List Payload) (w : W)

theorem identity_takes :
    identity.Takes (fun _ => "bytes or string") fun chunk => chunk.bytes?.map fun bs => [bs] := by
  intro chunk s
  simp only [identity]
  cases chunk.bytes? <;> rfl

theorem text_takes :
    text.Takes Payload.textExpected fun chunk => chunk.text?.map fun s => [Text.encode s] := by
  intro chunk s
  simp only [text, textBytes_eq]
  cases chunk.text? <;> rfl

theorem document_takes (expected : String) (document? : Payload → Option Json) :
    (document expected document?).Takes (fun _ => expected) fun chunk =>
      (document? chunk).map fun _ => [] := by
  intro chunk s
  simp only [document]
  cases document? chunk <;> rfl

theorem answers_identity : identity.answers offered w =
    (offered.map fun chunk => reply "bytes or string" (chunk.bytes?.map fun bs => [bs])) ++
      [.ok []] := by
  have hlast : (identity.finish (identity.after identity.start offered)).1 = .ok [] := rfl
  exact identity_takes.answers hlast w

theorem answers_text : text.answers offered w =
    (offered.map fun chunk =>
      reply chunk.textExpected (chunk.text?.map fun s => [Text.encode s])) ++ [.ok []] := by
  have hlast : (text.finish (text.after text.start offered)).1 = .ok [] := rfl
  exact text_takes.answers hlast w

theorem answers_document (expected : String) (document? : Payload → Option Json) :
    (document expected document?).answers offered w =
      (offered.map fun chunk => reply expected ((document? chunk).map fun _ => [])) ++
        [.ok (Output.ofBytes ((offered.filterMap document?).getLast?.toList.map fun doc =>
          Text.encode doc.print))] := by
  have hafter := after_document expected document? offered none
  rw [Option.or_none] at hafter
  rw [← hafter]
  exact (document_takes expected document?).answers rfl w

end Encoder

/-- Chunks that are put through an encoder, one after the other and then to its end, and what is
read of the bytes that it puts out. An encoder of bytes or texts answers a chunk that it takes with
its bytes, and all together are read as the bytes or the texts of these chunks, joined. One of
documents puts out nothing but the latest document, at the end, and this is read as the chunk that
had it, if the reader gives back what the printer wrote of it. A chunk that is not taken is
answered with an error, and passed over else. -/
theorem presets_read_back (offered : List Payload) (w : W) :
    (Encoder.identity.answers offered w = (offered.map fun chunk =>
        reply "bytes or string" (chunk.bytes?.map fun bs => [bs])) ++ [.ok []] ∧
      ∀ size, (Decoder.raw size).Reads (emitted (Encoder.identity.answers offered w))
        (.bytes (offered.filterMap Payload.bytes?).flatten)) ∧
    (Encoder.text.answers offered w = (offered.map fun chunk =>
        reply chunk.textExpected (chunk.text?.map fun s => [Text.encode s])) ++ [.ok []] ∧
      Decoder.text.Reads (emitted (Encoder.text.answers offered w))
        (.text (String.join (offered.filterMap Payload.text?)))) ∧
    ∀ (expected : String) (document? : Payload → Option Json) (read? : Bytes → Option Payload)
      (front : List Payload) (latest : Payload) (back : List Payload) (doc : Json),
      offered = front ++ latest :: back → (∀ chunk ∈ back, document? chunk = none) →
      document? latest = some doc → read? (Text.encode doc.print) = some latest →
        (Encoder.document expected document?).answers offered w =
            (offered.map fun chunk => reply expected ((document? chunk).map fun _ => [])) ++
              [.ok [.ok (.bytes (Text.encode doc.print))]] ∧
          (Decoder.document read?).Reads
            (emitted ((Encoder.document expected document?).answers offered w)) latest := by
  refine ⟨⟨Encoder.answers_identity offered w, fun size => ?_⟩,
    ⟨Encoder.answers_text offered w, ?_⟩, ?_⟩
  · have hbytes : emitted (Encoder.identity.answers offered w) =
        (offered.filterMap Payload.bytes?).flatten := by
      rw [Encoder.answers_identity, emitted_append, emitted_replies]
      simp [emitted]
    rw [hbytes]
    exact Decoder.raw_reads size _
  · have hbytes : emitted (Encoder.text.answers offered w) =
        Text.encode (String.join (offered.filterMap Payload.text?)) := by
      rw [Encoder.answers_text, emitted_append, emitted_replies, Text.encode_join]
      simp [emitted]
    rw [hbytes]
    exact Decoder.text_reads _
  · intro expected document? read? front latest back doc hoffered hback hlatest hread
    have hlast : (offered.filterMap document?).getLast? = some doc := by
      rw [hoffered, List.filterMap_append, List.filterMap_cons_some hlatest,
        List.filterMap_eq_nil_iff.mpr hback, List.getLast?_concat]
    have hanswers := Encoder.answers_document offered w expected document?
    rw [hlast] at hanswers
    refine ⟨hanswers, ?_⟩
    have hbytes : emitted ((Encoder.document expected document?).answers offered w) =
        Text.encode doc.print := by
      rw [hanswers, emitted_append, emitted_replies]
      simp [emitted, Output.ofBytes, Payload.bytes?]
    rw [hbytes]
    exact Decoder.document_reads hread

/-- Chunks of several types. The encoders of bytes and of texts take the first and the third, that
of words the second and the fourth. -/
def mixed : List Payload :=
  [.text "é", .words ["a"], .bytes [0x78], .words ["b", "c"], .int 7]

theorem mixed_chunks_are_read_back :
    (Decoder.raw 1).decode (.ofBytes (emitted (Encoder.identity.answers mixed ()))) =
        .ok (.bytes [0xC3, 0xA9, 0x78]) ∧
      Decoder.text.decode (.ofBytes (emitted (Encoder.text.answers mixed ()))) =
        .ok (.text "éx") ∧
      (Decoder.json .words).decode (.ofBytes (emitted ((Encoder.json .words).answers mixed ()))) =
        .ok (.words ["b", "c"]) := by
  obtain ⟨⟨-, hraw⟩, ⟨-, htext⟩, hdocument⟩ := presets_read_back mixed ()
  have hread : Json.parseWords? (Text.encode (Json.ofWords ["b", "c"]).print) =
      some ["b", "c"] := by decide +kernel
  obtain ⟨-, hwords⟩ := hdocument DocumentKind.words.expected DocumentKind.words.document?
    DocumentKind.words.read? [.text "é", .words ["a"], .bytes [0x78]] (.words ["b", "c"]) [.int 7]
    _ rfl (by simp [DocumentKind.document?]) rfl (congrArg (Option.map Payload.words) hread)
  have hbytes : (mixed.filterMap Payload.bytes?).flatten = [0xC3, 0xA9, 0x78] := by decide +kernel
  have hjoined : String.join (mixed.filterMap Payload.text?) = "éx" := by decide +kernel
  refine ⟨?_, ?_, hwords _ (ByteSource.readAll_of_sound rfl)⟩
  · rw [hraw 1 _ (ByteSource.readAll_of_sound rfl), hbytes]
  · rw [htext _ (ByteSource.readAll_of_sound rfl), hjoined]

end FeatureGraph
