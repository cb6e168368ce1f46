-- Texts: one feature whose bytes come in pieces of one size and are stored as
-- text. The encoder takes a piece only if it is a text of its own. So a text
-- comes in, and is read back as it was, exactly if each cut falls between two
-- of its characters; of any other nothing is stored.
import FeatureGraph.Proofs.Run.Breaking
import FeatureGraph.Proofs.Schema.Documents
import FeatureGraph.Proofs.Schema.Drafting
import FeatureGraph.Proofs.Text.Cuts

namespace FeatureGraph

open Component Run

/-! ## Pieces that are encoded as text -/

section Encoding

variable {bs : Bytes}

theorem Encoder.encode_text (h : Text.IsText bs) :
    Encoder.text.encode (.bytes bs) () = (.ok [bs], ()) := by
  obtain ⟨s, rfl⟩ := h
  simp only [Encoder.text, Encoder.textBytes, Text.decode?_encode]
  rfl

theorem Encoder.encode_not_text (h : ¬ Text.IsText bs) :
    Encoder.text.encode (.bytes bs) () = (.error (.unsupportedChunk "utf-8 text"), ()) := by
  simp only [Encoder.text, Encoder.textBytes, Text.decode?_eq_none.mpr h]
  rfl

/-- Of pieces that are not all texts there is a first that is none. -/
theorem Text.exists_first_not_text {pieces : List Bytes} (h : ¬ ∀ piece ∈ pieces, IsText piece) :
    ∃ front piece back, pieces = front ++ piece :: back ∧ (∀ part ∈ front, IsText part) ∧
      ¬ IsText piece := by
  induction pieces with
  | nil => simp at h
  | cons first rest ih =>
    by_cases hfirst : IsText first
    · obtain ⟨front, piece, back, rfl, hfront, hpiece⟩ :=
        ih fun hrest => h (List.forall_mem_cons.mpr ⟨hfirst, hrest⟩)
      exact ⟨first :: front, piece, back, rfl, List.forall_mem_cons.mpr ⟨hfirst, hfront⟩, hpiece⟩
    · exact ⟨[], first, rest, rfl, by simp, hfirst⟩

end Encoding

namespace Schema

/-! ## The feature -/

/-- Bytes that come in pieces of this size and are stored as text. -/
def textFeature (key : String) (size : Nat) : Feature :=
  { (Feature.new key (byteStream size)).asText with isStored := true }

def textTable (key : String) (size : Nat) : Dictionary Feature :=
  Dictionary.empty.insert key (textFeature key size)

/-- Where the text goes. -/
def textPlace (scheme : KeyScheme) (id key : String) : Destination :=
  destination scheme id (textFeature key 0)

/-- The nodes of its full graph. -/
def textNodes (key : String) (size : Nat) (d : Destination) : List (Node Workspace) :=
  { Node.new key (byteStream size) [] with listeners := [1] } :: relayNodes .text d

section Compile

variable (name id key : String) (scheme : KeyScheme) (idSource : IdSource) (size : Nat)

theorem build_text {s : Schema} (h : build name scheme idSource [textFeature key size] = .ok s) :
    s = ⟨name, scheme, idSource, textTable key size⟩ := by
  obtain ⟨features, hcollect, rfl⟩ := build_eq_ok h
  rw [collect_eq_ok hcollect]
  rfl

theorem values_textTable : (textTable key size).values = [textFeature key size] := rfl

theorem size_textTable : (textTable key size).size = 1 := rfl

attribute [local simp] textFeature Feature.new Feature.asText Feature.isRoot Feature.contentType
  textPlace destination

attribute [local simp] Procedure.bind_apply Procedure.each Procedure.view Procedure.change
  Procedure.ofExcept Procedure.fail Draft.empty Draft.addNode Draft.place Draft.placed?
  collectAll addFeature addWriter

attribute [local simp] Graph.empty Graph.add Graph.find? Graph.listen List.findIdx? List.findIdx?.go
  List.lookup_cons List.lookup_nil Node.new textNodes relayNodes values_textTable size_textTable

theorem fullGraph_text : fullGraph name (textTable key size) scheme id =
    .ok ⟨name ++ ":" ++ id, textNodes key size (textPlace scheme id key)⟩ := by
  have hencoder := (encoderKey_ne_self key).symm
  have hwriter := (writerKey_ne_self key).symm
  have hboth := encoderKey_ne_writerKey key key
  simp [fullGraph, hencoder, hwriter, hboth]

theorem prune_text {d : Destination} : ((⟨name, textNodes key size d⟩ : Graph Workspace).prune
    (candidates (textTable key size))).1 = ⟨name, textNodes key size d⟩ := by
  simp [candidates, Graph.prune, Graph.pruneRounds, Graph.pruneRound, Graph.pruneOne]

theorem roots_text {d : Destination} (hkey : d.feature = key) :
    (⟨name, textNodes key size d⟩ : Graph Workspace).roots = [(key, 0)] := by
  subst hkey
  refine Graph.roots_of_first rfl rfl ?_ rfl ?_
  · have hencoder := (encoderKey_ne_self d.feature).symm
    have hwriter := (writerKey_ne_self d.feature).symm
    have hboth := encoderKey_ne_writerKey d.feature d.feature
    simp [hencoder, hwriter, hboth]
  · simp [Node.isRoot]

theorem roots_schema : roots ⟨name, scheme, idSource, textTable key size⟩ = [key] := by
  simp [roots]

end Compile

/-! ## Runs of pieces -/

section Runs

variable {I : Workspace → Prop} {K : String → Prop} {w w' : Workspace} {dest : Destination}
  {pieces : List Bytes}

/-- Pieces that are texts come to lie one behind the other. -/
theorem pours_texts (dest : Destination) (hI : Workspace.Reliable I K) (hw : I w)
    (hpieces : ∀ piece ∈ pieces, piece ≠ [] ∧ Text.IsText piece) : ∃ block,
    Pours 0 (pieces.map .bytes) [relayLine .text () dest [] false false] w [block] w ∧
      Relaying .text () dest pieces.flatten block := by
  refine pours_line (fun _ hpiece h => ?_) hpieces rfl (relaying_start .text () dest)
  exact h.takes hI hw hpiece.1 (Encoder.encode_text hpiece.2)

/-- A piece that is no text stops the encoder, and the writer behind it has nothing to store. -/
theorem Relaying.refuses {front piece : Bytes} {block : List (Node Workspace)}
    (h : Relaying .text () dest front block) (hpiece : ¬ Text.IsText piece) (w : Workspace) :
    ∃ block', Refuses 1 0 (some (.bytes piece)) block w
        (.failed (encoderKey dest.feature) (.codec (.unsupportedChunk "utf-8 text"))) block' w ∧
      Shuts (block' ++ []) w w := by
  obtain ⟨parts, rfl, -⟩ := h
  have hfail : (encoding (W := Workspace) .text).transform (.bytes piece) () w =
      (.error (.codec (.unsupportedChunk "utf-8 text")), (), w) := by
    simp only [encoding, Encoder.encode_not_text hpiece]
    rfl
  exact ⟨_, refuses_link (encoding_plain _) hfail, shuts_link rfl (shuts_link rfl ⟨[], .nil⟩)⟩

theorem opens_text (hI : Workspace.Reliable I K) (hw : I w) (hdest : K dest.key) :
    List.Forall₂ (Opens w) (relayNodes .text dest)
      (relayLine .text () dest [] false false ++ []) := by
  rw [List.append_nil]
  exact opens_relayLine .text hI hw hdest

section Ingest

variable {value : Payload} {bs : Bytes} {key : String} {size : Nat} (name : String)
  (hI : Workspace.Reliable I K) (hw : I w) (hvalue : value.Holds w.files bs) (hdest : K dest.key)
  (hkey : dest.feature = key)

include hI hw hvalue hdest hkey

/-- Bytes come in whose pieces are texts. -/
theorem run_text (hbs : bs ≠ []) (h : ∀ piece ∈ Bytes.pieces size bs, Text.IsText piece) :
    ∃ w', I w' ∧ Leaves K dest.key (some bs) w w' ∧
      ((⟨name, textNodes key size dest⟩ : Graph Workspace).process
        (Dictionary.empty.insert key value) w).2 = (w', .ok ()) := by
  obtain ⟨block, hpours, hrelay⟩ := pours_texts dest hI hw fun piece hpiece =>
    ⟨piece_ne_nil size bs piece hpiece, h piece hpiece⟩
  rw [Bytes.flatten_pieces] at hrelay
  obtain ⟨block', htakes, hends⟩ := hrelay.ends (w := w) rfl
  obtain ⟨w', hw', hleaves, hshuts⟩ := hends hI hw hdest
  refine ⟨w', hw', by simpa [hbs] using hleaves, ?_⟩
  exact Graph.process_of_root [_] (byteStream_plain size) rfl (roots_text _ _ _ hkey) rfl
    (opens_text hI hw hdest) (by simp [relayLine])
    (byteStream_transform hvalue size) hpours rfl (.cons htakes .nil) rfl
    (by simpa using hshuts ⟨[], .nil⟩)

/-- Bytes come in of which a piece is no text. -/
theorem run_not_text (h : ¬ ∀ piece ∈ Bytes.pieces size bs, Text.IsText piece) :
    ((⟨name, textNodes key size dest⟩ : Graph Workspace).process
      (Dictionary.empty.insert key value) w).2 =
        (w, .error (.failed (encoderKey key) (.codec (.unsupportedChunk "utf-8 text")))) := by
  obtain ⟨front, piece, back, hpieces, hfront, hpiece⟩ := Text.exists_first_not_text h
  have hgood : ∀ part ∈ front, part ≠ [] ∧ Text.IsText part := fun part hpart =>
    ⟨piece_ne_nil size bs part (hpieces ▸ List.mem_append_left _ hpart), hfront part hpart⟩
  obtain ⟨block, hpours, hrelay⟩ := pours_texts dest hI hw hgood
  obtain ⟨block', hrefuses, hshuts⟩ := hrelay.refuses hpiece w
  have hout := byteStream_transform hvalue size
  rw [hpieces, List.map_append, List.map_cons] at hout
  subst hkey
  exact Graph.process_of_refusal (byteStream_plain size) rfl (roots_text _ _ _ rfl) rfl
    (opens_text hI hw hdest) hout hpours hrefuses rfl hshuts

end Ingest

end Runs

/-! ## Ingesting and reading -/

section Schemas

variable {I : Workspace → Prop} {K : String → Prop} {w w' w₀ : Workspace} {name id key d : String}
  {scheme : KeyScheme} {idSource : IdSource} {size : Nat} {value : Payload} {s : Schema}

/-- A stored text is read as it is. -/
theorem read_text (hI : Workspace.Reliable I K) (hw : I w) (hK : K (scheme.build id key))
    (h : (w.held? (scheme.build id key)).map Prod.fst = some (Text.encode d)) :
    (read ⟨name, scheme, idSource, textTable key size⟩ w id key).1 = .ok (.text d) := by
  have hread := read_of_held hI hw hK h
  have hcontains : isStoredFor scheme w id key = .ok true := by
    rw [isStoredFor, hI.contains hw hK, ← Option.isSome_map, h]
    rfl
  simp [read, feature, textTable, textFeature, Feature.new, Feature.asText, hcontains, readStored,
    hread, Decoder.text, Decoder.whole, Decoder.allBytes, ByteSource.readAll_of_sound,
    ByteSource.ofBytes, Except.mapError, Bind.bind, Except.bind, pure, Except.pure]

/-- A text that is cut between its characters alone is stored, and read as it was. -/
theorem ingest_text (hI : Workspace.Reliable I K) (hw : I w) (hK : K (scheme.build id key))
    (hvalue : value.Holds w.files (Text.encode d)) (hd : d ≠ "")
    (hmint : w.newId idSource (Dictionary.empty.insert key value) = (.ok id, w₀))
    (hcuts : Text.CutsEvery d size) : ∃ w',
      ingest ⟨name, scheme, idSource, textTable key size⟩ value w = (.ok id, w') ∧
      ((Entity.new id).get ⟨name, scheme, idSource, textTable key size⟩ key w').1 =
        .ok (.text d) := by
  have hsame := Workspace.sameHoldings_newId w idSource (Dictionary.empty.insert key value)
  rw [hmint] at hsame
  have hdest : K (textPlace scheme id key).key := hK
  have hkey : (textPlace scheme id key).feature = key := rfl
  have hbytes : Text.encode d ≠ [] := fun h => hd (Text.encode_injective h)
  obtain ⟨w', hw', hleaves, hrun⟩ := run_text (name ++ ":" ++ id) hI (hI.frame hw hsame)
    (hsame.files ▸ hvalue) hdest hkey hbytes (Text.pieces_isText_iff.mpr hcuts)
  refine ⟨w', ?_, ?_⟩
  · simp only [ingest, roots_schema, process, hmint, fullGraph_text, prune_text]
    rw [ran_of_process hrun]
  · rw [get_new]
    exact read_text hI hw' hK hleaves.there

/-- Of any other text a piece is refused. -/
theorem ingest_cut_text (hI : Workspace.Reliable I K) (hw : I w) (hK : K (scheme.build id key))
    (hvalue : value.Holds w.files (Text.encode d))
    (hmint : w.newId idSource (Dictionary.empty.insert key value) = (.ok id, w₀))
    (hcuts : ¬ Text.CutsEvery d size) :
    ingest ⟨name, scheme, idSource, textTable key size⟩ value w =
      (.error (.graph (.failed (encoderKey key) (.codec (.unsupportedChunk "utf-8 text")))), w₀) := by
  have hsame := Workspace.sameHoldings_newId w idSource (Dictionary.empty.insert key value)
  rw [hmint] at hsame
  have hdest : K (textPlace scheme id key).key := hK
  have hkey : (textPlace scheme id key).feature = key := rfl
  have hrun := run_not_text (name ++ ":" ++ id) hI (hI.frame hw hsame) (hsame.files ▸ hvalue) hdest
    hkey (mt Text.pieces_isText_iff.mp hcuts)
  simp only [ingest, roots_schema, process, hmint, fullGraph_text, prune_text]
  rw [ran_of_process hrun]

/-- A text comes in, and is read back as it was, exactly if it is cut between its characters alone.
Else the encoder does not take a piece of it, and what is stored stays as it was. Which of the two
it is does not depend on the size of the pieces if the text is ASCII, and only then. -/
theorem text_comes_in_cut_between_characters (hI : Workspace.Reliable I K) (hw : I w)
    (hbuild : build name scheme idSource [textFeature key size] = .ok s)
    (hK : K (scheme.build id key)) (hvalue : value.Holds w.files (Text.encode d)) (hd : d ≠ "")
    (hid : (w.newId idSource (Dictionary.empty.insert key value)).1 = .ok id) :
    (∃ w', (Text.CutsEvery d size → s.ingest value w = (.ok id, w') ∧
        ((Entity.new id).get s key w').1 = .ok (.text d)) ∧
      (¬ Text.CutsEvery d size → s.ingest value w = (.error (.graph (.failed (encoderKey key)
          (.codec (.unsupportedChunk "utf-8 text")))), w') ∧ ∀ k, w'.held? k = w.held? k)) ∧
    ((∀ size, Text.CutsEvery d size) ↔ ∀ c ∈ d.toList, c.toNat ≤ 127) := by
  refine ⟨?_, Text.cutsEvery_forall_iff⟩
  obtain rfl := build_text _ _ _ _ _ hbuild
  have hmint : w.newId idSource (Dictionary.empty.insert key value) = (.ok id, _) :=
    Prod.ext hid rfl
  by_cases hcuts : Text.CutsEvery d size
  · obtain ⟨w', hingest, hget⟩ := ingest_text hI hw hK hvalue hd hmint hcuts
    exact ⟨w', fun _ => ⟨hingest, hget⟩, fun hnot => absurd hcuts hnot⟩
  · have hsame := Workspace.sameHoldings_newId w idSource (Dictionary.empty.insert key value)
    exact ⟨_, fun hall => absurd hall hcuts,
      fun _ => ⟨ingest_cut_text hI hw hK hvalue hmint hcuts, hsame.held⟩⟩

/-- A letter of two bytes, and pieces of two bytes. -/
theorem letter_comes_in_whole : ∃ s w',
    build "letters" (.delimited ":") .random [textFeature "t" 2] = .ok s ∧
      s.ingest (.text "é") blank = (.ok (IdSource.randomId 0 0), w') ∧
      ((Entity.new (IdSource.randomId 0 0)).get s "t" w').1 = .ok (.text "é") := by
  have hblank : blank.InMemory := ⟨rfl, ⟨_, rfl⟩, fun log h => nomatch h⟩
  have hbuild : build "letters" (.delimited ":") .random [textFeature "t" 2] =
    .ok ⟨"letters", .delimited ":", .random, textTable "t" 2⟩ := rfl
  have hvalue : (Payload.text "é").Holds blank.files (Text.encode "é") := .here rfl
  obtain ⟨⟨w', hwhole, -⟩, -⟩ := text_comes_in_cut_between_characters (K := fun _ => True)
    Workspace.reliable_inMemory hblank hbuild trivial hvalue (by decide) rfl
  obtain ⟨hingest, hget⟩ := hwhole (Text.cutsEvery_of_length_le (by decide +kernel))
  exact ⟨_, w', hbuild, hingest, hget⟩

/-- The same letter is refused where a piece is a single byte. -/
theorem letter_is_refused_in_parts : ∃ s w',
    build "letters" (.delimited ":") .random [textFeature "t" 1] = .ok s ∧
      s.ingest (.text "é") blank = (.error (.graph (.failed "t/encoder"
        (.codec (.unsupportedChunk "utf-8 text")))), w') := by
  have hblank : blank.InMemory := ⟨rfl, ⟨_, rfl⟩, fun log h => nomatch h⟩
  have hbuild : build "letters" (.delimited ":") .random [textFeature "t" 1] =
    .ok ⟨"letters", .delimited ":", .random, textTable "t" 1⟩ := rfl
  have hvalue : (Payload.text "é").Holds blank.files (Text.encode "é") := .here rfl
  have hcuts : ¬ Text.CutsEvery "é" 1 := fun h => by
    have hpiece := Text.pieces_isText_iff.mpr h [0xC3] (by decide +kernel)
    exact absurd (Text.ascii_of_isText hpiece) (by decide)
  have hmint : blank.newId .random (Dictionary.empty.insert "t" (.text "é")) =
    (.ok (IdSource.randomId 0 0), _) := rfl
  exact ⟨_, _, hbuild, ingest_cut_text (K := fun _ => True) Workspace.reliable_inMemory hblank
    trivial hvalue hmint hcuts⟩

end Schemas

end Schema

end FeatureGraph
