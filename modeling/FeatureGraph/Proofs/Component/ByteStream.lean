-- The ways in which bytes are cut into chunks: a byte stream over a payload
-- or a file, the pieces of a source, and the stream of a decoder. They cut
-- alike, however many bytes each read gives. Where a source fails, the piece
-- that was begun is lost, and the failure is the last that comes.
import FeatureGraph.Component.ByteStream
import FeatureGraph.Proofs.ByteSource
import FeatureGraph.Proofs.Files

namespace FeatureGraph

namespace Bytes

/-- The pieces are the only cut into parts of one size. -/
theorem isCut_iff {size : Nat} {bs : Bytes} {parts : List Bytes} :
    IsCut (max 1 size) bs parts ↔ parts = pieces size bs := by
  constructor
  · intro h
    rw [h.unique, pieces_max]
  · rintro rfl
    exact isCut_pieces size bs

/-- As far as the run reaches, so many of its pieces are there and full. -/
theorem take_pieces_div {count : Nat} {bs : Bytes} (h : count ≤ bs.length) (size : Nat) :
    ((pieces size bs).take (count / max 1 size)).length = count / max 1 size ∧
      ∀ part ∈ (pieces size bs).take (count / max 1 size), part.length = max 1 size := by
  have hreach : count / max 1 size * max 1 size ≤ bs.length :=
    Nat.le_trans (Nat.div_mul_le_self count _) h
  obtain ⟨hcount, hfull, -⟩ := take_pieces (by omega) hreach
  rw [pieces_max] at hcount hfull
  exact ⟨hcount, hfull⟩

end Bytes

namespace Component

/-- What the lazy ways make of a source: these pieces, with a failure where it failed. -/
structure ComesAs (source : ByteSource) (size : Nat) (reads : List (Except IoError Bytes)) :
    Prop where
  pieces : source.pieces size = reads
  decoder : (Decoder.raw size).stream source = .ok (Output.ofReads reads)
  file : ∀ (p : String) (w : Workspace), w.files.openText p = .ok source →
    (byteStream size).transform (.path p) () w = (.ok (Output.ofReads reads), (), w)

theorem comesAs_pieces (source : ByteSource) (size : Nat) :
    ComesAs source size (source.pieces size) := by
  refine ⟨rfl, rfl, fun p w h => ?_⟩
  simp only [byteStream, h]

theorem byteStream_bytes {value : Payload} {bs : Bytes} (h : value.bytes? = some bs) (size : Nat)
    (w : Workspace) : (byteStream size).transform value () w =
      (.ok (Output.ofReads ((Bytes.pieces size bs).map .ok)), (), w) := by
  have hreads : Output.ofReads ((Bytes.pieces size bs).map .ok) =
      Output.ofBytes (Bytes.pieces size bs) := by
    rw [Output.ofReads, Output.ofBytes, List.map_map]
    rfl
  cases value with
  | path p => cases h
  | _ => simp only [byteStream, h, hreads]

/-- Bytes come in the same pieces on all ways: a payload that holds them, and a source of them,
however many bytes it gives at a time. The pieces are the one cut of the bytes into parts of the
chunk size, where a chunk size of zero acts as one; they are also what a decoder joins. Of a source
that fails there are as many full pieces as it gives, then the failure, and nothing more. -/
theorem all_ways_cut_alike (size : Nat) (bs : Bytes) :
    (∀ parts, Bytes.IsCut (max 1 size) bs parts ↔ parts = Bytes.pieces size bs) ∧
    (∀ (value : Payload) (w : Workspace), value.bytes? = some bs →
      (byteStream size).transform value () w =
        (.ok (Output.ofReads ((Bytes.pieces size bs).map .ok)), (), w)) ∧
    ∀ source : ByteSource, source.rest = bs →
      (source.Lasts →
        ComesAs source size ((Bytes.pieces size bs).map .ok) ∧
        (Decoder.raw size).decode source = .ok (.bytes (Bytes.pieces size bs).flatten)) ∧
      ∀ k e, source.fault = some (k, e) → k ≤ bs.length →
        ∃ full, full = (Bytes.pieces size bs).take (k / max 1 size) ∧
          full.length = k / max 1 size ∧ (∀ part ∈ full, part.length = max 1 size) ∧
          ComesAs source size (full.map .ok ++ [.error e]) := by
  refine ⟨fun parts => Bytes.isCut_iff, fun value w h => byteStream_bytes h size w, ?_⟩
  rintro source rfl
  refine ⟨fun hlasts => ⟨?_, ?_⟩, fun k e hfault hk => ?_⟩
  · exact ByteSource.pieces_of_lasts hlasts size ▸ comesAs_pieces source size
  · simp [Bytes.flatten_pieces, Decoder.raw, Decoder.allBytes, ByteSource.readAll_of_lasts hlasts,
      Except.mapError, Except.map]
  · obtain ⟨hcount, hfull⟩ := Bytes.take_pieces_div hk size
    exact ⟨_, rfl, hcount, hfull,
      ByteSource.pieces_of_fault hfault hk size ▸ comesAs_pieces source size⟩

/-- A working folder with one file, of five letters. -/
private def letters : Workspace :=
  .new ⟨[(["d"], .file [0x61, 0x62, 0x63, 0x64, 0x65])]⟩ .inMemory ⟨fun _ => 0, fun _ => 0, 0, 0⟩

/-- Five bytes come in twos, be they in a payload, in a file or given one by one; if they fail to
come after the fourth, then two full pieces come before the failure. -/
theorem five_bytes_come_in_twos :
    (byteStream 2).transform (.literal "abcde") () letters =
      (.ok (Output.ofBytes [[0x61, 0x62], [0x63, 0x64], [0x65]]), (), letters) ∧
    (byteStream 2).transform (.path "d") () letters =
      (.ok (Output.ofBytes [[0x61, 0x62], [0x63, 0x64], [0x65]]), (), letters) ∧
    (ByteSource.pieces ⟨[0x61, 0x62, 0x63, 0x64, 0x65], fun _ => some 1, 0, none⟩ 2 =
      [.ok [0x61, 0x62], .ok [0x63, 0x64], .ok [0x65]]) ∧
    ByteSource.pieces ⟨[0x61, 0x62, 0x63, 0x64, 0x65], fun _ => some 1, 0, some (4, .isFolder)⟩ 2 =
      [.ok [0x61, 0x62], .ok [0x63, 0x64], .error .isFolder] := by
  obtain ⟨hcut, hpayload, hsource⟩ := all_ways_cut_alike 2 [0x61, 0x62, 0x63, 0x64, 0x65]
  have hpieces : Bytes.pieces 2 [0x61, 0x62, 0x63, 0x64, 0x65] =
    [[0x61, 0x62], [0x63, 0x64], [0x65]] := ((hcut _).mp ⟨by decide, by decide, by decide⟩).symm
  have hopen : letters.files.openText "d" =
      .ok (.ofBytes [0x61, 0x62, 0x63, 0x64, 0x65]) := by
    rw [FileTree.openText, FileTree.resolve, FileTree.names_d]
    with_unfolding_all rfl
  refine ⟨?_, ?_, ?_, ?_⟩
  · exact (hpayload (.literal "abcde") letters (by decide +kernel)).trans (by rw [hpieces]; rfl)
  · obtain ⟨hways, -⟩ := (hsource (.ofBytes _) rfl).1 (ByteSource.lasts_of_sound rfl)
    exact (hways.file "d" letters hopen).trans (by rw [hpieces]; rfl)
  · obtain ⟨hways, -⟩ := (hsource ⟨_, fun _ => some 1, 0, none⟩ rfl).1 (ByteSource.lasts_of_sound rfl)
    exact hways.pieces.trans (by rw [hpieces]; rfl)
  · obtain ⟨full, rfl, -, -, hways⟩ :=
      (hsource ⟨_, fun _ => some 1, 0, some (4, .isFolder)⟩ rfl).2 4 .isFolder rfl (by decide)
    exact hways.pieces.trans (by rw [hpieces]; rfl)

end Component

end FeatureGraph
