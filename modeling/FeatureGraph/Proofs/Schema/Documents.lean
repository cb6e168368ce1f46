-- Documents: their bytes, which are stored, and the counts of their words,
-- which may be. Whatever the size of the pieces in which a document comes in,
-- its bytes are read back as they were and each word is counted as often as it
-- occurs, be the counts stored or worked out again. A document without words
-- has no counts.
import FeatureGraph.CommandLine.Run
import FeatureGraph.Proofs.ByteSource
import FeatureGraph.Proofs.Component.Recalling
import FeatureGraph.Proofs.Schema.Availability
import FeatureGraph.Proofs.Schema.Lines

namespace FeatureGraph

open Component Run

/-! ## Documents that come in -/

/-- The payload holds these bytes, or is the path of a file that does. -/
inductive Payload.Holds (files : FileTree) (bs : Bytes) : Payload → Prop
  | here {value : Payload} (h : value.bytes? = some bs) : Holds files bs value
  | there {p : String} {source : ByteSource} (h : files.openText p = .ok source)
      (hsound : source.fault = none) (hbytes : source.rest = bs) : Holds files bs (.path p)

/-- A byte stream cuts what it is given into pieces. -/
theorem Component.byteStream_transform {value : Payload} {bs : Bytes} {w : Workspace}
    (h : value.Holds w.files bs) (size : Nat) :
    (byteStream size).transform value () w =
      (.ok (Output.ofPayloads ((Bytes.pieces size bs).map .bytes)), (), w) := by
  cases h with
  | here h =>
    cases value with
    | path p => cases h
    | _ => simp [byteStream, h, Output.ofBytes, Output.ofPayloads, Function.comp_def]
  | there h hsound hbytes =>
    simp [byteStream, h, Output.ofReads, Output.ofPayloads, ByteSource.pieces_of_sound hsound,
      hbytes, Function.comp_def]

/-- A replay reads back in pieces what was stored. -/
theorem Component.replay_raw {size stream : Nat} {bs : Bytes} {w : Workspace}
    (h : w.streams[stream]? = some (some (ByteSource.ofBytes bs))) :
    (replay (Decoder.raw size)).transform (.stored stream) () w =
      (.ok (Output.ofPayloads ((Bytes.pieces size bs).map .bytes)), (),
        (w.takeStream stream).2) := by
  simp [replay, Workspace.takeStream, h, Decoder.raw, Output.ofReads, Output.ofPayloads,
    ByteSource.pieces_of_sound, ByteSource.ofBytes, Function.comp_def]

namespace Schema

/-! ## The features of documents -/

/-- The bytes of a document come in pieces of this size, and are stored. -/
def documentBytes (chunkSize : Nat) : Feature :=
  { Feature.new "stream" (byteStream chunkSize) with isStored := true }

def documentWords : Feature := { Feature.new "words" tokenizer with needs := ["stream"] }

/-- The counts of the words may be stored or not. -/
def documentCounts (stored : Bool) : Feature :=
  { (Feature.new "count" wordCount.aggregator).asDocument .counts with
    needs := ["words"], isStored := stored }

def documentFeatures (chunkSize : Nat) (stored : Bool) : List Feature :=
  [documentBytes chunkSize, documentWords, documentCounts stored]

/-- The command line stores the counts. -/
theorem documentFeatures_stored (chunkSize : Nat) :
    documentFeatures chunkSize true = CommandLine.documentFeatures chunkSize := rfl

/-- The features of documents by their keys. -/
def documentTable (chunkSize : Nat) (stored : Bool) : Dictionary Feature :=
  Dictionary.ofList [("stream", documentBytes chunkSize), ("words", documentWords),
    ("count", documentCounts stored)]

section Documents

variable {name : String} {scheme : KeyScheme} {idSource : IdSource} {chunkSize : Nat}
  {stored : Bool} {s : Schema}

theorem build_documents
    (h : build name scheme idSource (documentFeatures chunkSize stored) = .ok s) :
    s = ⟨name, scheme, idSource, documentTable chunkSize stored⟩ := by
  obtain ⟨features, hcollect, rfl⟩ := build_eq_ok h
  rw [collect_eq_ok hcollect]
  rfl

/-! ## Their graphs -/

variable {id : String}

/-- Where the bytes of a document go. -/
def bytesPlace (scheme : KeyScheme) (id : String) : Destination :=
  destination scheme id (documentBytes 0)

/-- Where the counts of its words go. -/
def countsPlace (scheme : KeyScheme) (id : String) : Destination :=
  destination scheme id (documentCounts true)

/-- The first node of a full graph, before these blocks. -/
def bytesNode (chunkSize : Nat) (listeners : List Nat) : Node Workspace :=
  { Node.new "stream" (byteStream chunkSize) [] with listeners }

section Compile

variable (name id : String) (scheme : KeyScheme) (chunkSize : Nat) (stored : Bool)

/-! What the builder of a graph does is unfolded step by step. -/

attribute [local simp] documentBytes documentWords documentCounts Feature.new Feature.asDocument
  Feature.isRoot Feature.contentType destination encoderKey writerKey captureKey

attribute [local simp] Procedure.bind_apply Procedure.each Procedure.view Procedure.change
  Procedure.ofExcept Procedure.fail Draft.empty Draft.addNode Draft.place Draft.placed?
  Draft.addSource collectAll withFeature addFeature addWriter addPartial

attribute [local simp] Graph.empty Graph.add Graph.find? Graph.listen List.findIdx? List.findIdx?.go
  List.lookup_cons List.lookup_nil Node.new byteNodes wordNodes

theorem entries_documentTable : (documentTable chunkSize stored).entries =
    [("count", documentCounts stored), ("stream", documentBytes chunkSize),
      ("words", documentWords)] := by
  simp only [documentTable, Dictionary.ofList, Dictionary.insert, Dictionary.empty, List.foldl_cons,
    List.foldl_nil, Dictionary.place, String.reduceLT, String.reduceEq, if_true, if_false]

theorem size_documentTable : (documentTable chunkSize stored).size = 3 := by
  rw [Dictionary.size, entries_documentTable]
  rfl

theorem values_documentTable : (documentTable chunkSize stored).values =
    [documentCounts stored, documentBytes chunkSize, documentWords] := by
  rw [Dictionary.values, entries_documentTable]
  rfl

theorem get?_documentTable (key : String) : (documentTable chunkSize stored).get? key =
    if key = "count" then some (documentCounts stored)
    else if key = "stream" then some (documentBytes chunkSize)
    else if key = "words" then some documentWords else none := by
  rw [Dictionary.get?, entries_documentTable]
  rfl

/-- The nodes of a full graph whose counts are stored. -/
def countingNodes : List (Node Workspace) :=
  bytesNode chunkSize [1, 3] :: (byteNodes (bytesPlace scheme id) ++
    wordNodes 3 (writerKey "count") (storing (countsPlace scheme id)))

/-- The nodes that would count the words if somebody asked for the counts. -/
def idleNodes : List (Node Workspace) :=
  [{ Node.new "words" tokenizer [0] with pruned := true },
   { Node.new "count" wordCount.aggregator [3] with pruned := true }]

/-- The nodes of a full graph whose counts are not stored. -/
def silentNodes : List (Node Workspace) :=
  bytesNode chunkSize [1] :: (byteNodes (bytesPlace scheme id) ++ idleNodes)

attribute [local simp] countingNodes silentNodes idleNodes bytesNode bytesPlace countsPlace
  size_documentTable values_documentTable get?_documentTable

theorem fullGraph_counting :
    fullGraph name (documentTable chunkSize true) scheme id =
      .ok ⟨name ++ ":" ++ id, countingNodes id scheme chunkSize⟩ := by
  simp [fullGraph]

attribute [local simp] candidates Graph.prune Graph.pruneRounds Graph.pruneRound Graph.pruneOne
  Graph.unlink Node.isLeaf

theorem prune_counting : ((⟨name, countingNodes id scheme chunkSize⟩ : Graph Workspace).prune
    (candidates (documentTable chunkSize true))).1 = ⟨name, countingNodes id scheme chunkSize⟩ := by
  simp

theorem fullGraph_silent :
    ∃ g, fullGraph name (documentTable chunkSize false) scheme id = .ok g ∧
      (g.prune (candidates (documentTable chunkSize false))).1 =
        ⟨name ++ ":" ++ id, silentNodes id scheme chunkSize⟩ := by
  refine ⟨⟨name ++ ":" ++ id, bytesNode chunkSize [1, 3] :: (byteNodes (bytesPlace scheme id) ++
    [{ Node.new "words" tokenizer [0] with listeners := [4] },
      Node.new "count" wordCount.aggregator [3]])⟩, ?_, ?_⟩
  · simp [fullGraph]
  · simp

/-- The nodes that count the words of stored bytes again. -/
def recountNodes (slot : Nat) : List (Node Workspace) :=
  { Node.new "stream" (replay (Decoder.raw defaultChunkSize)) [] with listeners := [1] } ::
    wordNodes 1 (captureKey "count") (capture slot)

theorem partialGraph_recount {w : Workspace} (slot : Nat)
    (hbytes : isStoredFor scheme w id "stream" = .ok true)
    (hwords : isStoredFor scheme w id "words" = .ok false) :
    partialGraph name (documentTable chunkSize stored) scheme w id "count" slot =
      .ok ⟨⟨name ++ ":" ++ id ++ ":" ++ "count", recountNodes slot⟩, ["stream"]⟩ := by
  simp [partialGraph, recountNodes, hbytes, hwords]

theorem partialGraph_missing {w : Workspace} (slot : Nat)
    (hbytes : isStoredFor scheme w id "stream" = .ok false)
    (hwords : isStoredFor scheme w id "words" = .ok false) :
    partialGraph name (documentTable chunkSize stored) scheme w id "count" slot =
      .error (.unavailable "stream" (.rootNotStored "stream" id)) := by
  simp [partialGraph, hbytes, hwords]

attribute [local simp] Node.isRoot

theorem roots_counting : (⟨name, countingNodes id scheme chunkSize⟩ : Graph Workspace).roots =
    [("stream", 0)] := by
  refine Graph.roots_of_first rfl rfl ?_ rfl ?_
  · simp
  · simp

theorem roots_silent : (⟨name, silentNodes id scheme chunkSize⟩ : Graph Workspace).roots =
    [("stream", 0)] := by
  refine Graph.roots_of_first rfl rfl ?_ rfl ?_
  · simp
  · simp

theorem roots_recount (slot : Nat) : (⟨name, recountNodes slot⟩ : Graph Workspace).roots =
    [("stream", 0)] := by
  refine Graph.roots_of_first rfl rfl ?_ rfl ?_
  · simp [recountNodes]
  · simp

end Compile

/-! ## Runs of bytes -/

section Runs

variable {I : Workspace → Prop} {K : String → Prop} {w w₁ w' : Workspace} {id d : String}
  {value : Payload}

/-- The bytes that a document leaves, if there are any. -/
def keptBytes (d : String) : Option Bytes :=
  if Text.encode d = [] then none else some (Text.encode d)

/-- The counts that a document leaves, if it has words. -/
def keptCounts (d : String) : Option Bytes :=
  if Text.words d = [] then none
  else some (Text.encode (Json.ofCounts (WordCount.tally (Text.words d))).print)

theorem encode_print_ne_nil (table : Dictionary Nat) :
    Text.encode (Json.ofCounts table).print ≠ [] := by
  rw [Json.print, Text.encode_ofList, Json.ofCounts, Json.chars]
  simp [String.utf8EncodeChar]

/-- What the line that counts words leaves in the store in the end. -/
theorem Counting.stores {k : Nat} {key : String} {dest : Destination}
    {block : List (Node Workspace)}
    (hI : Workspace.Reliable I K) (hw : I w) (hdest : K dest.key)
    (h : Counting k key (storing dest) ⟨some ⟨dest.key, dest.contentType, []⟩, false⟩
      (Text.encode d) block) :
    ∃ block', Takes k 0 none (told 0 block) w block' w ∧
      ∀ {w}, I w → ∃ w₁, I w₁ ∧ Leaves K dest.key (keptCounts d) w w₁ ∧
        ∀ {rest w'}, Shuts rest w₁ w' → Shuts (block' ++ rest) w w' := by
  by_cases hwords : Text.words d = []
  · obtain ⟨block', htakes, hshuts⟩ := h.silent (w := w) hwords
    refine ⟨block', htakes, fun {w} hw => ?_⟩
    obtain ⟨w₁, hw₁, hleaves, hclosed⟩ := shuts_storing hI hw hdest key (k + 2) [] false false
      false
    refine ⟨w₁, hw₁, ?_, fun hrest => hshuts (hclosed hrest)⟩
    simpa [keptCounts, hwords] using hleaves
  · have hsink : (storing dest).transform
        (.bytes (Text.encode (Json.ofCounts (WordCount.tally (Text.words d))).print))
        ⟨some ⟨dest.key, dest.contentType, []⟩, false⟩ w = _ :=
      transform_storing hI hw (encode_print_ne_nil _)
    obtain ⟨block', htakes, hshuts⟩ := h.ends (storing_plain dest) hwords hsink rfl
    refine ⟨block', htakes, fun {w} hw => ?_⟩
    obtain ⟨w₁, hw₁, hleaves, hclosed⟩ := shuts_storing hI hw hdest key (k + 2)
      [Text.encode (Json.ofCounts (WordCount.tally (Text.words d))).print] true true true
    refine ⟨w₁, hw₁, ?_, fun hrest => hshuts (hclosed hrest)⟩
    simpa [keptCounts, hwords] using hleaves

/-- What the line that counts words keeps in a capture in the end. -/
theorem Counting.captures {k slot : Nat} {key : String} {block : List (Node Workspace)}
    (h : Counting k key (capture slot) () (Text.encode d) block) :
    ∃ block', Takes k 0 none (told 0 block) w block'
        ((keptCounts d).elim w (w.capture slot ·)) ∧
      ∀ {rest w' w''}, Shuts rest w' w'' → Shuts (block' ++ rest) w' w'' := by
  by_cases hwords : Text.words d = []
  · obtain ⟨block', htakes, hshuts⟩ := h.silent (w := w) hwords
    refine ⟨block', ?_, fun hrest => hshuts (shuts_link rfl hrest)⟩
    simpa [keptCounts, hwords] using htakes
  · obtain ⟨block', htakes, hshuts⟩ := h.ends (w := w) ⟨fun _ _ _ _ _ => rfl, fun _ _ _ _ => rfl⟩
      hwords rfl rfl
    refine ⟨block', ?_, fun hrest => hshuts (shuts_link rfl hrest)⟩
    simpa [keptCounts, hwords] using htakes

/-! ### What comes to the lines -/

section Lines

variable {P Q : Bytes → List (Node Workspace) → Prop} {whole : Bytes} {size k : Nat}
  {b c : List (Node Workspace)}

/-- A line takes in the pieces of these bytes one by one. -/
structure Follows (w : Workspace) (whole : Bytes) (k : Nat)
    (P : Bytes → List (Node Workspace) → Prop) : Prop where
  takes : ∀ {front piece back block}, front ++ piece ++ back = whole → piece ≠ [] →
    P front block → ∃ block', Takes k 0 (some (.bytes piece)) block w block' w ∧
      P (front ++ piece) block'

theorem piece_ne_nil (size : Nat) (bs : Bytes) : ∀ piece ∈ Bytes.pieces size bs, piece ≠ [] :=
  fun piece hpiece => ((Bytes.isCut_pieces size bs).bounded piece hpiece).1

theorem Follows.pours (size : Nat) (hP : Follows w whole 1 P) (h : P [] b) : ∃ b',
    Pours 0 ((Bytes.pieces size whole).map .bytes) [b] w [b'] w ∧ P whole b' :=
  pours_line hP.takes (piece_ne_nil size whole) (Bytes.flatten_pieces size whole) h

theorem Follows.pours_pair (size : Nat) (hP : Follows w whole 1 P) (hQ : Follows w whole k Q)
    (hplace : ∀ {front b}, P front b → 1 + b.length = k) (h : P [] b) (h' : Q [] c) :
    ∃ b' c', Pours 0 ((Bytes.pieces size whole).map .bytes) [b, c] w [b', c'] w ∧
      P whole b' ∧ Q whole c' := by
  obtain ⟨_, hpours, b', c', rfl, hb', hc'⟩ := pours_pieces (w := w)
    (P := fun front blocks => ∃ b c, blocks = [b, c] ∧ P front b ∧ Q front c)
    (fun {front piece back blocks} hsplit hpiece hblocks => by
      obtain ⟨b, c, rfl, hb, hc⟩ := hblocks
      obtain ⟨b', htakes, hb'⟩ := hP.takes hsplit hpiece hb
      obtain ⟨c', htakes', hc'⟩ := hQ.takes hsplit hpiece hc
      exact ⟨_, hands_pair htakes (hplace hb) htakes', b', c', rfl, hb', hc'⟩)
    (piece_ne_nil size whole) (Bytes.flatten_pieces size whole) ⟨b, c, rfl, h, h'⟩
  exact ⟨b', c', hpours, hb', hc'⟩

theorem follows_storing (hI : Workspace.Reliable I K) (hw : I w) (dest : Destination) :
    Follows w whole 1 (Storing dest) :=
  ⟨fun _ hpiece h => h.takes hI hw hpiece⟩

theorem follows_counting (w : Workspace) (d : String) (k : Nat) (key : String)
    (sink : Component Workspace) (s : sink.State) :
    Follows w (Text.encode d) k (Counting k key sink s) :=
  ⟨fun hsplit _ h => h.takes hsplit⟩

end Lines

/-! ### Documents that come in -/

theorem byteStream_plain (size : Nat) : (byteStream size).Plain :=
  ⟨fun _ _ _ _ _ => rfl, fun _ _ _ _ => rfl⟩

section Ingest

variable (hI : Workspace.Reliable I K) (hw : I w) (hvalue : value.Holds w.files (Text.encode d))
  (hbytes : K (bytesPlace scheme id).key)

include hI hw hvalue hbytes

/-- A document comes in whose counts are stored. -/
theorem run_counting (chunkSize : Nat) (hcounts : K (countsPlace scheme id).key)
    (name : String) :
    ∃ w₁ w', I w' ∧ Leaves K (bytesPlace scheme id).key (keptBytes d) w w₁ ∧
      Leaves K (countsPlace scheme id).key (keptCounts d) w₁ w' ∧
      ((⟨name, countingNodes id scheme chunkSize⟩ : Graph Workspace).process
        (Dictionary.empty.insert "stream" value) w).2 = (w', .ok ()) := by
  have hopens : List.Forall₂ (Opens w) (byteNodes (bytesPlace scheme id) ++
      wordNodes 3 (writerKey "count") (storing (countsPlace scheme id))) _ :=
    List.rel_append (opens_byteLine hI hw hbytes) (opens_wordLine (acquire_storing hI hw hcounts))
  obtain ⟨b₁, b₂, hpours, hstoring, hcounting⟩ :=
    (follows_storing hI hw (bytesPlace scheme id)).pours_pair chunkSize
      (follows_counting w d 3 (writerKey "count") (storing (countsPlace scheme id)) _)
      (fun h => by rw [h.length]) (storing_start _) (counting_start ..)
  obtain ⟨b₁', htakes₁, hends₁⟩ := hstoring.ends (w := w)
  obtain ⟨b₂', htakes₂, hends₂⟩ := hcounting.stores hI hw hcounts
  obtain ⟨w₁, hw₁, hleaves₁, hshuts₁⟩ := hends₁ hI hw hbytes
  obtain ⟨w', hw', hleaves₂, hshuts₂⟩ := hends₂ hw₁
  have hhands := hands_pair htakes₁ (by rw [length_told, hstoring.length]) htakes₂
  have hshuts : Shuts ([b₁', b₂'].flatten ++ []) w w' := by
    simpa using hshuts₁ (hshuts₂ ⟨[], .nil⟩)
  refine ⟨w₁, w', hw', hleaves₁, hleaves₂, ?_⟩
  exact Graph.process_of_root [_, _] (byteStream_plain chunkSize) rfl (roots_counting ..) rfl hopens
    (by simp [byteLine, wordLine]) (byteStream_transform hvalue chunkSize) hpours rfl hhands rfl
    hshuts

/-- A document comes in whose counts are not stored. -/
theorem run_silent (chunkSize : Nat) (name : String) : ∃ w', I w' ∧
    Leaves K (bytesPlace scheme id).key (keptBytes d) w w' ∧
    ((⟨name, silentNodes id scheme chunkSize⟩ : Graph Workspace).process
      (Dictionary.empty.insert "stream" value) w).2 = (w', .ok ()) := by
  have hopens : List.Forall₂ (Opens w) (byteNodes (bytesPlace scheme id) ++ idleNodes) _ :=
    List.rel_append (opens_byteLine hI hw hbytes) (opens_pruned (by simp [idleNodes]))
  obtain ⟨b, hpours, hstoring⟩ :=
    (follows_storing hI hw _).pours chunkSize (storing_start _)
  obtain ⟨b', htakes, hends⟩ := hstoring.ends (w := w)
  obtain ⟨w', hw', hleaves, hshuts⟩ := hends hI hw hbytes
  refine ⟨w', hw', hleaves, ?_⟩
  exact Graph.process_of_root [_] (byteStream_plain chunkSize) rfl (roots_silent ..) rfl hopens
    (by simp [byteLine]) (byteStream_transform hvalue chunkSize) hpours rfl (.cons htakes .nil) rfl
    (by simpa using hshuts (shuts_idle (by simp [idleNodes, Node.new])))

end Ingest

/-- Stored bytes are counted again. -/
theorem run_recount {stream : Nat} (slot : Nat) (name : String)
    (hstream : w.streams[stream]? = some (some (ByteSource.ofBytes (Text.encode d)))) :
    ((⟨name, recountNodes slot⟩ : Graph Workspace).process
      (Dictionary.empty.insert "stream" (.stored stream)) w).2 =
        ((keptCounts d).elim (w.takeStream stream).2 ((w.takeStream stream).2.capture slot ·),
          .ok ()) := by
  have hfollows :=
    follows_counting (w.takeStream stream).2 d 1 (captureKey "count") (capture slot) ()
  obtain ⟨b, hpours, hcounting⟩ := hfollows.pours defaultChunkSize (counting_start ..)
  obtain ⟨b', htakes, hshuts⟩ := hcounting.captures (w := (w.takeStream stream).2)
  have hall : ∀ w', Shuts ([b'].flatten ++ []) w' w' := fun w' => by
    simpa using hshuts ⟨[], .nil⟩
  exact Graph.process_of_root [_] (replay_plain _) rfl (roots_recount ..) rfl
    (by simpa using opens_wordLine rfl) (by simp [wordLine]) (replay_raw hstream) hpours rfl
    (.cons htakes .nil) rfl (hall _)

end Runs

/-! ## Ingesting and reading -/

section Schemas

variable {I : Workspace → Prop} {K : String → Prop} {w w' : Workspace} {id d : String}
  {value : Payload}

/-- What a document leaves behind under a new id. -/
structure Ingested (I : Workspace → Prop) (scheme : KeyScheme) (id d : String) (stored : Bool)
    (w : Workspace) : Prop where
  reliable : I w
  bytes : (w.held? (scheme.build id "stream")).map Prod.fst = keptBytes d
  words : w.held? (scheme.build id "words") = none
  counts : (w.held? (scheme.build id "count")).map Prod.fst = if stored then keptCounts d else none

theorem roots_documents : roots ⟨name, scheme, idSource, documentTable chunkSize stored⟩ =
    ["stream"] := by
  simp [roots, values_documentTable, documentBytes, documentWords, documentCounts, Feature.isRoot,
    Feature.new, Feature.asDocument]

theorem ran_of_process {g : Graph Workspace} {inputs : Inputs} {w w' : Workspace}
    {result : Except GraphError Unit} (h : (g.process inputs w).2 = (w', result)) :
    g.process inputs w = ((g.process inputs w).1, w', result) := by
  rw [← h]

/-- What the graph of a document leaves in the store. -/
theorem run_documents (hI : Workspace.Reliable I K) (hw : I w) (hK : ∀ key, K (scheme.build id key))
    (hvalue : value.Holds w.files (Text.encode d)) (name : String) (chunkSize : Nat)
    (stored : Bool) :
    ∃ g w₁ w', fullGraph name (documentTable chunkSize stored) scheme id = .ok g ∧
      ((g.prune (candidates (documentTable chunkSize stored))).1.process
        (Dictionary.empty.insert "stream" value) w).2 = (w', .ok ()) ∧ I w' ∧
      Leaves K (scheme.build id "stream") (keptBytes d) w w₁ ∧
      Leaves K (scheme.build id "count") (if stored then keptCounts d else none) w₁ w' := by
  cases stored with
  | true =>
    obtain ⟨w₁, w', hw', hbytes, hcounts, hrun⟩ := run_counting hI hw hvalue
      (hK "stream") chunkSize (hK "count") (name ++ ":" ++ id)
    refine ⟨_, w₁, w', fullGraph_counting .., ?_, hw', hbytes, hcounts⟩
    rw [prune_counting, hrun]
  | false =>
    obtain ⟨g, hfull, hprune⟩ := fullGraph_silent name id scheme chunkSize
    obtain ⟨w', hw', hbytes, hrun⟩ :=
      run_silent hI hw hvalue (hK "stream") chunkSize (name ++ ":" ++ id)
    exact ⟨g, w', w', hfull, hprune ▸ hrun, hw', hbytes, .refl w' _⟩

theorem ingest_documents (hI : Workspace.Reliable I K) (hw : I w)
    (hK : ∀ key, K (scheme.build id key))
    (hscheme : scheme.Separates) (hvalue : value.Holds w.files (Text.encode d))
    (hid : (w.newId idSource (Dictionary.empty.insert "stream" value)).1 = .ok id)
    (hnew : ∀ key, w.held? (scheme.build id key) = none) :
    ∃ w', ingest ⟨name, scheme, idSource, documentTable chunkSize stored⟩ value w = (.ok id, w') ∧
      Ingested I scheme id d stored w' := by
  have hsame := Workspace.sameHoldings_newId w idSource (Dictionary.empty.insert "stream" value)
  generalize hmint : w.newId idSource (Dictionary.empty.insert "stream" value) = minted at hid hsame
  obtain ⟨_, w₀⟩ := minted
  dsimp only at hid hsame
  subst hid
  have hnew₀ : ∀ key, w₀.held? (scheme.build id key) = none := fun key => by rw [hsame.held, hnew]
  have hvalue₀ : value.Holds w₀.files (Text.encode d) := hsame.files ▸ hvalue
  have hne : ∀ {key key'}, key ≠ key' → scheme.build id key ≠ scheme.build id key' :=
    fun hkeys h => hkeys (hscheme id _ _ h)
  obtain ⟨g, w₁, w', hfull, hrun, hw', hbytes, hcounts⟩ :=
    run_documents hI (hI.frame hw hsame) hK hvalue₀ name chunkSize stored
  have hheld : ∀ key, key ≠ "stream" → w₁.held? (scheme.build id key) = none := fun key hkey => by
    rw [hbytes.others _ (hK key) (hne hkey), hnew₀]
  refine ⟨w', ?_, hw', ?_, ?_, ?_⟩
  · simp only [ingest, roots_documents, process, hmint, hfull]
    rw [ran_of_process hrun]
  · rw [hcounts.others _ (hK "stream") (hne (by decide)), hbytes.there, hnew₀]
    simp
  · rw [hcounts.others _ (hK "words") (hne (by decide)), hheld "words" (by decide)]
  · rw [hcounts.there, hheld "count" (by decide)]
    simp

/-! ### What is read back -/

/-- What lies under a key is read as it is. -/
theorem read_of_held (hI : Workspace.Reliable I K) (hw : I w) {key : String} (hkey : K key)
    {data : Bytes} (h : (w.held? key).map Prod.fst = some data) :
    w.read key = .ok (ByteSource.ofBytes data) := by
  obtain ⟨held, hheld, rfl⟩ := Option.map_eq_some_iff.mp h
  exact hI.reads hw hkey hheld

theorem Ingested.frame (hI : Workspace.Reliable I K) (h : Ingested I scheme id d stored w)
    (hsame : Workspace.SameHoldings w w') : Ingested I scheme id d stored w' :=
  ⟨hI.frame h.reliable hsame, by rw [hsame.held, h.bytes], by rw [hsame.held, h.words],
    by rw [hsame.held, h.counts]⟩

section Read

variable (hI : Workspace.Reliable I K) (hK : ∀ key, K (scheme.build id key))
  (h : Ingested I scheme id d stored w)

include hI hK h

theorem Ingested.contains (key : String) : isStoredFor scheme w id key =
    .ok ((w.held? (scheme.build id key)).map Prod.fst).isSome := by
  rw [isStoredFor, hI.contains h.reliable (hK key), Option.isSome_map]
  rfl

theorem Ingested.contains_bytes : isStoredFor scheme w id "stream" = .ok (keptBytes d).isSome := by
  rw [h.contains hI hK, h.bytes]

theorem Ingested.contains_words : isStoredFor scheme w id "words" = .ok false := by
  rw [h.contains hI hK, h.words]
  rfl

/-- The bytes are read as they came. -/
theorem read_bytes (hd : Text.encode d ≠ []) :
    (read ⟨name, scheme, idSource, documentTable chunkSize stored⟩ w id "stream").1 =
      .ok (.bytes (Text.encode d)) := by
  have hkept : keptBytes d = some (Text.encode d) := if_neg hd
  have hcontains := h.contains_bytes hI hK
  have hread := read_of_held hI h.reliable (hK "stream") (h.bytes.trans hkept)
  simp [read, feature, get?_documentTable, documentBytes, Feature.new, hcontains, hkept, readStored,
    hread, Decoder.raw, Decoder.allBytes, ByteSource.readAll_of_sound, ByteSource.ofBytes,
    Except.map, Except.mapError]

/-- What is made of the counts that are kept of a document. -/
def decodeCounts (d : String) : Except Failure Payload :=
  ((Decoder.json .counts).decode (ByteSource.ofBytes ((keptCounts d).getD []))).mapError .codec

/-- Counts are worked out again of bytes that are stored. -/
theorem recompute_counts (hd : Text.encode d ≠ []) :
    (recompute ⟨name, scheme, idSource, documentTable chunkSize stored⟩ w id
      (documentCounts stored)).1 = decodeCounts d := by
  have hkept : keptBytes d = some (Text.encode d) := if_neg hd
  have hopen : Ingested I scheme id d stored w.newCapture.2 := h.frame hI ⟨rfl, rfl, rfl, rfl⟩
  have hplan := partialGraph_recount name id scheme chunkSize stored w.newCapture.1
    ((hopen.contains_bytes hI hK).trans (by rw [hkept]; rfl)) (hopen.contains_words hI hK)
  have hread := read_of_held hI hopen.reliable (hK "stream") (hopen.bytes.trans hkept)
  obtain ⟨stream, w₂, hhold, hstream, hcaptures⟩ : ∃ stream w₂,
      w.newCapture.2.holdStream (ByteSource.ofBytes (Text.encode d)) = (.stored stream, w₂) ∧
        w₂.streams[stream]? = some (some (ByteSource.ofBytes (Text.encode d))) ∧
          w₂.captures = w.captures ++ [[]] :=
    ⟨_, _, rfl, List.getElem?_concat_length, rfl⟩
  have hrun := run_recount w.newCapture.1 (name ++ ":" ++ id ++ ":" ++ "count") hstream
  have hcaptured : ((keptCounts d).elim (w₂.takeStream stream).2
      ((w₂.takeStream stream).2.capture w.newCapture.1 ·)).captured w.newCapture.1 =
        (keptCounts d).getD [] := by
    cases keptCounts d <;> simp [Workspace.captured, Workspace.capture, Workspace.takeStream,
      Workspace.newCapture, hcaptures]
  have hkey : (documentCounts stored).key = "count" := rfl
  simp only [recompute, hkey, hplan, openSources, hread, hhold]
  rw [ran_of_process hrun]
  dsimp only
  rw [hcaptured]
  rfl

/-- Without bytes that are stored there is nothing to count. -/
theorem recompute_missing (hd : Text.encode d = []) :
    (recompute ⟨name, scheme, idSource, documentTable chunkSize stored⟩ w id
      (documentCounts stored)).1 = .error (.unavailable "stream" (.rootNotStored "stream" id)) := by
  have hkept : keptBytes d = none := if_pos hd
  have hopen : Ingested I scheme id d stored w.newCapture.2 := h.frame hI ⟨rfl, rfl, rfl, rfl⟩
  have hplan := partialGraph_missing name id scheme chunkSize stored w.newCapture.1
    ((hopen.contains_bytes hI hK).trans (by rw [hkept]; rfl)) (hopen.contains_words hI hK)
  have hkey : (documentCounts stored).key = "count" := rfl
  simp only [recompute, hkey, hplan]

/-- Counts that are stored are read, and all others are worked out. -/
theorem read_counts :
    (read ⟨name, scheme, idSource, documentTable chunkSize stored⟩ w id "count").1 =
    if stored ∧ Text.words d ≠ [] then decodeCounts d
    else (recompute ⟨name, scheme, idSource, documentTable chunkSize stored⟩ w id
      (documentCounts stored)).1 := by
  have hfeature : feature ⟨name, scheme, idSource, documentTable chunkSize stored⟩ "count" =
      .ok (documentCounts stored) := by
    rw [feature, get?_documentTable]
    rfl
  have hcompute : (documentCounts stored).canCompute (documentTable chunkSize stored) = true := by
    simp [Feature.canCompute, size_documentTable, Feature.derivable, get?_documentTable,
      documentCounts, documentWords, documentBytes, Feature.isRoot, Feature.new,
      Feature.asDocument]
  have hflag : (documentCounts stored).isStored = stored := rfl
  have hkey : (documentCounts stored).key = "count" := rfl
  have hcontains := h.contains hI hK "count"
  have hcounts := h.counts
  rw [hcounts] at hcontains
  simp only [read, hfeature, hcompute, hflag, hkey, hcontains]
  cases stored with
  | false => simp
  | true =>
    by_cases hwords : Text.words d = []
    · simp [keptCounts, hwords]
    · have hkept : keptCounts d =
          some (Text.encode (Json.ofCounts (WordCount.tally (Text.words d))).print) := if_neg hwords
      rw [if_pos rfl, hkept] at hcounts
      have hread := read_of_held hI h.reliable (hK "count") hcounts
      have hdecoder : (documentCounts true).decoder = Decoder.json .counts := rfl
      simp [hkept, hwords, readStored, hkey, hread, hdecoder, decodeCounts]

end Read

/-- Only a text with bytes has words. -/
theorem encode_ne_nil (h : Text.words d ≠ []) : Text.encode d ≠ [] := by
  intro hd
  have hwords := Text.byteWords_encode d
  rw [hd] at hwords
  exact h (List.map_eq_nil_iff.mp hwords.symm)

theorem decodeCounts_of_words (hwords : Text.words d ≠ []) (hjson :
    Json.parseCounts? (Text.encode (Json.ofCounts (WordCount.tally (Text.words d))).print) =
      some (WordCount.tally (Text.words d))) :
    decodeCounts d = .ok (.counts (WordCount.tally (Text.words d))) := by
  have hread : DocumentKind.counts.read?
      (Text.encode (Json.ofCounts (WordCount.tally (Text.words d))).print) =
        some (.counts (WordCount.tally (Text.words d))) := by
    rw [DocumentKind.read?, hjson]
    rfl
  simp [decodeCounts, keptCounts, hwords, Decoder.json, Decoder.document, Decoder.whole,
    ByteSource.readAll_of_sound, ByteSource.ofBytes, hread, Except.mapError]

/-- Every document is taken in. Afterwards its bytes are read as they were, and each word in lower
case stands for how often it occurs, whatever the size of the pieces and whether the counts are
stored or worked out again. Without words there are no counts. -/
theorem words_are_counted (hI : Workspace.Reliable I K) (hw : I w)
    (hbuild : build name scheme idSource (documentFeatures chunkSize stored) = .ok s)
    (hscheme : scheme.Separates) (hK : ∀ key, K (scheme.build id key))
    (hvalue : value.Holds w.files (Text.encode d))
    (hid : (w.newId idSource (Dictionary.empty.insert "stream" value)).1 = .ok id)
    (hnew : ∀ key, w.held? (scheme.build id key) = none)
    (hjson : Json.parseCounts?
      (Text.encode (Json.ofCounts (WordCount.tally (Text.words d))).print) =
        some (WordCount.tally (Text.words d))) :
    ∃ w', s.ingest value w = (.ok id, w') ∧
      (Text.words d ≠ [] →
        ((Entity.new id).get s "stream" w').1 = .ok (.bytes (Text.encode d)) ∧
        ∃ table, ((Entity.new id).get s "count" w').1 = .ok (.counts table) ∧
          ∀ word, table.get? word =
            if ((Text.words d).map Text.lower).count word = 0 then none
            else some (((Text.words d).map Text.lower).count word)) ∧
      (Text.words d = [] → s.isStored w' id "count" = .ok false ∧
        ∃ e, ((Entity.new id).get s "count" w').1 = .error e) := by
  obtain rfl := build_documents hbuild
  obtain ⟨w', hingest, h⟩ : ∃ w', ingest ⟨name, scheme, idSource, documentTable chunkSize stored⟩
      value w = (.ok id, w') ∧ Ingested I scheme id d stored w' :=
    ingest_documents hI hw hK hscheme hvalue hid hnew
  refine ⟨w', hingest, fun hwords => ⟨?_, _, ?_, WordCount.get?_tally _⟩, fun hwords => ⟨?_, ?_⟩⟩
  · rw [get_new, read_bytes hI hK h (encode_ne_nil hwords)]
  · rw [get_new, read_counts hI hK h, recompute_counts hI hK h (encode_ne_nil hwords), ite_self]
    exact decodeCounts_of_words hwords hjson
  · rw [isStored, feature, get?_documentTable]
    refine (h.contains hI hK "count").trans ?_
    rw [h.counts, keptCounts, if_pos hwords, ite_self]
    rfl
  · rw [get_new, read_counts hI hK h, if_neg (fun h => h.2 hwords)]
    by_cases hd : Text.encode d = []
    · exact ⟨_, recompute_missing hI hK h hd⟩
    · refine ⟨.codec .json, ?_⟩
      rw [recompute_counts hI hK h hd, decodeCounts, keptCounts, if_pos hwords]
      rfl

/-- Three words, two of which are alike in lower case, in pieces of two bytes. -/
theorem letters_are_counted : ∃ s w',
    build "document" (.delimited ":") .random (documentFeatures 2 false) = .ok s ∧
      s.ingest (.text "a b A") blank = (.ok (IdSource.randomId 0 0), w') ∧
      ((Entity.new (IdSource.randomId 0 0)).get s "stream" w').1 =
        .ok (.bytes (Text.encode "a b A")) ∧
      ∃ table, ((Entity.new (IdSource.randomId 0 0)).get s "count" w').1 = .ok (.counts table) ∧
        table.get? "a" = some 2 ∧ table.get? "b" = some 1 := by
  have hblank : blank.InMemory := ⟨rfl, ⟨_, rfl⟩, fun log h => nomatch h⟩
  have hbuild : build "document" (.delimited ":") .random (documentFeatures 2 false) =
    .ok ⟨"document", .delimited ":", .random, documentTable 2 false⟩ := rfl
  have hjson : Json.parseCounts? (Text.encode (Json.ofCounts (WordCount.tally
      (Text.words "a b A"))).print) = some (WordCount.tally (Text.words "a b A")) := by
    refine Option.map_injective (f := Dictionary.entries) ?_ (by decide +kernel)
    rintro ⟨_, _⟩ ⟨_, _⟩ rfl
    rfl
  have hvalue : (Payload.text "a b A").Holds blank.files (Text.encode "a b A") := .here rfl
  obtain ⟨w', hingest, hwords, -⟩ := words_are_counted Workspace.reliable_inMemory hblank hbuild
    (KeyScheme.delimited_separates ":") (fun _ => trivial) hvalue rfl (fun _ => rfl) hjson
  obtain ⟨hbytes, table, hcount, htable⟩ := hwords (by decide +kernel)
  refine ⟨_, w', hbuild, hingest, hbytes, table, hcount, ?_, ?_⟩
  · rw [htable]
    decide +kernel
  · rw [htable]
    decide +kernel

end Schemas

end Documents

end Schema

end FeatureGraph
