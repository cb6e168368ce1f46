-- The lines of a graph of documents: the nodes that store the bytes, and the
-- nodes that part them into words, count these and hand the table on. A line
-- is a block, so what it does with the bytes that reach it is said once, for
-- every graph and every place in it.
import FeatureGraph.Component.ByteStream
import FeatureGraph.Proofs.Component.Tokenizer
import FeatureGraph.Proofs.Component.WordCount
import FeatureGraph.Proofs.Graph.Chains
import FeatureGraph.Proofs.Reliable
import FeatureGraph.Proofs.Run.Links
import FeatureGraph.Schema.Compile

namespace FeatureGraph.Schema

open Component Run

variable {I : Workspace → Prop} {K : String → Prop} {w w₁ w' : Workspace}

/-! ## Writers that are released -/

/-- Under the key lie these bytes, or what there was if there are none; all else is as it was. -/
structure Leaves (K : String → Prop) (key : String) (data : Option Bytes) (w w' : Workspace) :
    Prop where
  there : (w'.held? key).map Prod.fst = data.or ((w.held? key).map Prod.fst)
  others : ∀ k, K k → k ≠ key → w'.held? k = w.held? k

theorem Leaves.refl (w : Workspace) (key : String) : Leaves K key none w w :=
  ⟨rfl, fun _ _ _ => rfl⟩

/-- A writer that has ended leaves its bytes, and any other nothing. -/
theorem shuts_storing (hI : Workspace.Reliable I K) (hw : I w) {d : Destination} (hd : K d.key)
    (key : String) (u : Nat) (parts : List Bytes) (heard told ended : Bool) :
    ∃ w₁, I w₁ ∧ Leaves K d.key (if ended then some parts.reverse.flatten else none) w w₁ ∧
      ∀ {rest w'}, Shuts rest w₁ w' → Shuts (Node.link key (storing d) u []
        ⟨some ⟨d.key, d.contentType, parts⟩, ended⟩ heard told ended :: rest) w w' := by
  cases ended with
  | false => exact ⟨w, hw, .refl w d.key, shuts_link rfl⟩
  | true =>
    have hkey : K (Writer.key ⟨d.key, d.contentType, parts⟩) := hd
    obtain ⟨w₁, hcommit, htold, hafter, hself, hother⟩ := hI.publishes hw hkey d.announcement
    have hannounce : w₁.announce d.announcement = (.ok (), (w₁.announce d.announcement).2) :=
      Prod.ext htold rfl
    have hrelease : (storing d).release ⟨some ⟨d.key, d.contentType, parts⟩, true⟩ w =
        (.ok (), ⟨none, true⟩, (w₁.announce d.announcement).2) := by
      simp only [storing, if_true, hcommit]
      rw [hannounce]
    exact ⟨_, hafter, ⟨hself, hother⟩, shuts_link hrelease⟩

/-! ## Lines that store what comes -/

section Relay

variable {e : Encoder} {s : e.State} {d : Destination} {bs front : Bytes} {parts : List Bytes}
  {block : List (Node Workspace)}

/-- An encoder and the writer after it, behind a root, as they are added. -/
def relayNodes (e : Encoder) (d : Destination) : List (Node Workspace) :=
  [{ Node.new (encoderKey d.feature) (encoding e) [0] with listeners := [2] },
   Node.new (writerKey d.feature) (storing d) [1]]

/-- The encoder and the writer in the course of a run, after these pieces, the last one
first. -/
def relayLine (e : Encoder) (s : e.State) (d : Destination) (parts : List Bytes)
    (told ended : Bool) : List (Node Workspace) :=
  [.link (encoderKey d.feature) (encoding e) 0 [2] s (!parts.isEmpty) told ended,
   .link (writerKey d.feature) (storing d) 1 [] ⟨some ⟨d.key, d.contentType, parts⟩, ended⟩
    (!parts.isEmpty) ended ended]

theorem acquire_storing (hI : Workspace.Reliable I K) (hw : I w) (hd : K d.key) :
    (storing d).acquire (storing d).start w =
      (.ok (), ⟨some ⟨d.key, d.contentType, []⟩, false⟩, w) := by
  simp only [storing, hI.opens hw hd]

theorem opens_relayLine (e : Encoder) (hI : Workspace.Reliable I K) (hw : I w) (hd : K d.key) :
    List.Forall₂ (Opens w) (relayNodes e d) (relayLine e e.start d [] false false) :=
  .cons (opens_link rfl) (.cons (opens_link (acquire_storing hI hw hd)) .nil)

theorem transform_storing (hI : Workspace.Reliable I K) (hw : I w) (hbs : bs ≠ []) :
    (storing d).transform (.bytes bs) ⟨some ⟨d.key, d.contentType, parts⟩, false⟩ w =
      (.ok [], ⟨some ⟨d.key, d.contentType, bs :: parts⟩, false⟩, w) := by
  simp only [storing, Payload.bytes?, hI.writes hw hbs]
  rfl

/-- What the encoder passes on as it is comes to lie with the pieces before it. -/
theorem takes_relayLine (hI : Workspace.Reliable I K) (hw : I w) (hbs : bs ≠ [])
    (hpass : e.encode (.bytes bs) s = (.ok [bs], s)) :
    Takes 1 0 (some (.bytes bs)) (relayLine e s d parts false false) w
      (relayLine e s d (bs :: parts) false false) w := by
  have hlast : Takes 2 1 (some (.bytes bs)) [Node.link (writerKey d.feature) (storing d) 1 []
      ⟨some ⟨d.key, d.contentType, parts⟩, false⟩ (!parts.isEmpty) false false] w
      [Node.link (writerKey d.feature) (storing d) 1 []
      ⟨some ⟨d.key, d.contentType, bs :: parts⟩, false⟩ true false false] w :=
    takes_link [] (storing_plain d) rfl (transform_storing hI hw hbs) .nil
  have hencode : (encoding (W := Workspace) e).transform (.bytes bs) s w =
      (.ok (Output.ofPayloads [.bytes bs]), s, w) := by
    simp only [encoding, hpass]
    rfl
  exact takes_link [_] (encoding_plain e) rfl hencode (.cons (.cons hlast .nil) .nil)

/-- The pieces end, and with them the nodes of the line, unless there were none. -/
theorem takes_relayLine_end (hfinish : e.finish s = (.ok [], s)) :
    Takes 1 0 none (relayLine e s d parts true false) w
      (relayLine e s d parts true (!parts.isEmpty)) w := by
  cases parts with
  | nil => exact takes_silent [[_]] (encoding_plain e) rfl
  | cons bs rest =>
    have hstop : (storing d).lastChunk ⟨some ⟨d.key, d.contentType, bs :: rest⟩, false⟩ w =
        (.ok (Output.ofPayloads []), ⟨some ⟨d.key, d.contentType, bs :: rest⟩, true⟩, w) := rfl
    have hlast : Takes 2 1 none [Node.link (writerKey d.feature) (storing d) 1 []
        ⟨some ⟨d.key, d.contentType, bs :: rest⟩, false⟩ true true false] w
        [Node.link (writerKey d.feature) (storing d) 1 []
        ⟨some ⟨d.key, d.contentType, bs :: rest⟩, true⟩ true true true] w :=
      takes_link_end [] (storing_plain d) rfl (by simp) hstop .nil .nil
    have hflush : (encoding (W := Workspace) e).lastChunk s w =
        (.ok (Output.ofPayloads []), s, w) := by
      simp only [encoding, hfinish]
      rfl
    exact takes_link_end [[_]] (encoding_plain e) rfl (by simp) hflush .nil
      (.cons (takes_told hlast) .nil)

/-- The line has taken in these bytes. -/
def Relaying (e : Encoder) (s : e.State) (d : Destination) (front : Bytes)
    (block : List (Node Workspace)) : Prop :=
  ∃ parts, block = relayLine e s d parts false false ∧ parts.reverse.flatten = front ∧
    parts.isEmpty = front.isEmpty

theorem relaying_start (e : Encoder) (s : e.State) (d : Destination) :
    Relaying e s d [] (relayLine e s d [] false false) :=
  ⟨[], rfl, rfl, rfl⟩

theorem Relaying.length (h : Relaying e s d front block) : block.length = 2 := by
  obtain ⟨parts, rfl, -⟩ := h
  rfl

theorem Relaying.takes (h : Relaying e s d front block) (hI : Workspace.Reliable I K) (hw : I w)
    (hbs : bs ≠ []) (hpass : e.encode (.bytes bs) s = (.ok [bs], s)) :
    ∃ block', Takes 1 0 (some (.bytes bs)) block w block' w ∧
      Relaying e s d (front ++ bs) block' := by
  obtain ⟨parts, rfl, rfl, -⟩ := h
  refine ⟨_, takes_relayLine hI hw hbs hpass, bs :: parts, rfl, by simp, ?_⟩
  simp [hbs]

/-- What came is stored in the end, if there was anything. -/
theorem Relaying.ends (h : Relaying e s d front block) (hfinish : e.finish s = (.ok [], s)) :
    ∃ block', Takes 1 0 none (told 0 block) w block' w ∧
      ∀ {I K w}, Workspace.Reliable I K → I w → K d.key → ∃ w₁, I w₁ ∧
        Leaves K d.key (if front = [] then none else some front) w w₁ ∧
          ∀ {rest w'}, Shuts rest w₁ w' → Shuts (block' ++ rest) w w' := by
  obtain ⟨parts, rfl, hfront, hempty⟩ := h
  refine ⟨relayLine e s d parts true (!parts.isEmpty), takes_told (takes_relayLine_end hfinish), ?_⟩
  intro I K w hI hw hd
  obtain ⟨w₁, hw₁, hleaves, hshuts⟩ := shuts_storing hI hw hd _ _ _ _ _ _
  refine ⟨w₁, hw₁, ?_, fun hrest => shuts_link rfl (hshuts hrest)⟩
  rw [hempty, hfront] at hleaves
  cases front <;> exact hleaves

end Relay

/-! ### The line that stores the bytes -/

section Bytes

variable {d : Destination} {bs front : Bytes} {block : List (Node Workspace)}

/-- The encoder and the writer of the bytes that a root sends, as they are added. -/
def byteNodes (d : Destination) : List (Node Workspace) :=
  [{ Node.new (encoderKey d.feature) (encoding .identity) [0] with listeners := [2] },
   Node.new (writerKey d.feature) (storing d) [1]]

/-- The encoder and the writer in the course of a run, after these pieces, the last one
first. -/
def byteLine (d : Destination) (parts : List Bytes) (told ended : Bool) : List (Node Workspace) :=
  [.link (encoderKey d.feature) (encoding .identity) 0 [2] () (!parts.isEmpty) told ended,
   .link (writerKey d.feature) (storing d) 1 [] ⟨some ⟨d.key, d.contentType, parts⟩, ended⟩
    (!parts.isEmpty) ended ended]

theorem opens_byteLine (hI : Workspace.Reliable I K) (hw : I w) (hd : K d.key) :
    List.Forall₂ (Opens w) (byteNodes d) (byteLine d [] false false) :=
  opens_relayLine .identity hI hw hd

/-- The line has taken in these bytes. -/
def Storing (d : Destination) (front : Bytes) (block : List (Node Workspace)) : Prop :=
  ∃ parts, block = byteLine d parts false false ∧ parts.reverse.flatten = front ∧
    parts.isEmpty = front.isEmpty

theorem storing_iff : Storing d front block ↔ Relaying .identity () d front block := Iff.rfl

theorem storing_start (d : Destination) : Storing d [] (byteLine d [] false false) :=
  relaying_start .identity () d

theorem Storing.length (h : Storing d front block) : block.length = 2 :=
  (storing_iff.mp h).length

theorem Storing.takes (h : Storing d front block) (hI : Workspace.Reliable I K) (hw : I w)
    (hbs : bs ≠ []) : ∃ block', Takes 1 0 (some (.bytes bs)) block w block' w ∧
      Storing d (front ++ bs) block' :=
  (storing_iff.mp h).takes hI hw hbs rfl

/-- The bytes are stored in the end, if there are any. -/
theorem Storing.ends (h : Storing d front block) :
    ∃ block', Takes 1 0 none (told 0 block) w block' w ∧
      ∀ {I K w}, Workspace.Reliable I K → I w → K d.key → ∃ w₁, I w₁ ∧
        Leaves K d.key (if front = [] then none else some front) w w₁ ∧
          ∀ {rest w'}, Shuts rest w₁ w' → Shuts (block' ++ rest) w w' :=
  (storing_iff.mp h).ends rfl

end Bytes

/-! ## The line that counts the words -/

section Words

open Tokenizer WordCount

variable {k : Nat} {key : String} {sink : Component Workspace} {s s₁ s₂ : sink.State} {fed : Bool}
  {present front piece back : Bytes} {items : List Payload} {ws : List String} {text : String}
  {block : List (Node Workspace)}

/-- These words wait to be counted, in lists of some each, the last one first. -/
def Waiting (ws : List String) (items : List Payload) : Prop :=
  ∃ lists : List (List String), items = (lists.map .words).reverse ∧ [] ∉ lists ∧ lists.flatten = ws

theorem waiting_nil : Waiting [] [] := ⟨[], rfl, by simp, rfl⟩

theorem Waiting.batch (h : Waiting ws items) (more : List String) :
    Waiting (ws ++ more) (batch more ++ items) := by
  obtain ⟨lists, rfl, hfull, rfl⟩ := h
  by_cases hmore : more = []
  · exact ⟨lists, by simp [Tokenizer.batch, hmore], hfull, by simp [hmore]⟩
  · refine ⟨lists ++ [more], by simp [Tokenizer.batch, hmore], ?_, by simp⟩
    simpa [hfull] using Ne.symm hmore

theorem Waiting.isEmpty (h : Waiting ws items) : items.isEmpty = ws.isEmpty := by
  obtain ⟨lists, rfl, hfull, rfl⟩ := h
  cases lists with
  | nil => rfl
  | cons first rest =>
    have hfirst : first ≠ [] := fun h => hfull (h ▸ List.mem_cons_self)
    obtain ⟨w, more, rfl⟩ := List.exists_cons_of_ne_nil hfirst
    simp

/-- The nodes that count the words of the bytes that a root sends, from this number on, as they
are added. -/
def wordNodes (k : Nat) (key : String) (sink : Component Workspace) : List (Node Workspace) :=
  [{ Node.new "words" tokenizer [0] with listeners := [k + 1] },
   { Node.new "count" wordCount.aggregator [k] with listeners := [k + 2] },
   { Node.new (encoderKey "count") (encoding (.json .counts)) [k + 1] with listeners := [k + 3] },
   Node.new key sink [k + 2]]

/-- The nodes that count words in the course of a run, after a tokenizer with this number: the
lists of words that wait to be counted, the last one first, where the table goes, and whether the
tokenizer has ended. -/
def countLine (k : Nat) (key : String) (sink : Component Workspace) (s : sink.State)
    (items : List Payload) (closed : Bool) : List (Node Workspace) :=
  [.link "count" wordCount.aggregator k [k + 2] ⟨items, false⟩ (!items.isEmpty) closed false,
   .link (encoderKey "count") (encoding (.json .counts)) (k + 1) [k + 3] none false false false,
   .link key sink (k + 2) [] s false false false]

/-- The nodes of a line that has counted its words. -/
def countedLine (k : Nat) (key : String) (sink : Component Workspace) (s : sink.State) :
    List (Node Workspace) :=
  [.link "count" wordCount.aggregator k [k + 2] ⟨[], true⟩ true true true,
   .link (encoderKey "count") (encoding (.json .counts)) (k + 1) [k + 3] none true true true,
   .link key sink (k + 2) [] s true true true]

/-- The nodes that count the words of bytes in the course of a run: what the tokenizer has of the
present word, and the nodes after it. -/
def wordLine (k : Nat) (key : String) (sink : Component Workspace) (s : sink.State) (fed : Bool)
    (present : Bytes) (items : List Payload) (closed : Bool) : List (Node Workspace) :=
  .link "words" tokenizer 0 [k + 1] present fed closed false :: countLine k key sink s items false

theorem told_countLine :
    told k (countLine k key sink s items false) = countLine k key sink s items true := told_link

theorem told_wordLine : told 0 (wordLine k key sink s fed present items false) =
    wordLine k key sink s fed present items true := told_link

theorem opens_wordLine (h : sink.acquire sink.start w = (.ok (), s, w)) :
    List.Forall₂ (Opens w) (wordNodes k key sink) (wordLine k key sink s false [] [] false) :=
  .cons (opens_link rfl) (.cons (opens_link rfl) (.cons (opens_link rfl)
    (.cons (opens_link h) .nil)))

theorem tokenizer_plain : (tokenizer (W := Workspace)).Plain :=
  ⟨fun _ _ _ _ _ => rfl, fun _ _ _ _ => rfl⟩

/-! ### While bytes come -/

/-- What the tokenizer sends comes to wait. -/
theorem pours_batch : Pours k (batch ws) [countLine k key sink s items false] w
    [countLine k key sink s (batch ws ++ items) false] w := by
  by_cases hws : ws = []
  · rw [batch, if_pos hws]
    exact .nil
  · rw [batch, if_neg hws]
    refine .cons (.cons ?_ .nil) .nil
    exact takes_held [[_, _]] (aggregator_heldBack _) rfl rfl

/-- A piece of a text comes in. -/
theorem takes_wordLine (h : front ++ piece ++ back = Text.encode text) :
    ∃ ws, Takes k 0 (some (.bytes piece))
        (wordLine k key sink s fed (read [] front).present items false) w
        (wordLine k key sink s true (read [] (front ++ piece)).present (batch ws ++ items)
          false) w ∧
      (read [] (front ++ piece)).words.reverse =
        (read [] front).words.reverse ++ ws.map Text.encode := by
  obtain ⟨ws, hfeed, hwords⟩ := feed_encode h
  have hread : (tokenizer (W := Workspace)).transform (.bytes piece) (read [] front).present w =
      (.ok (Output.ofPayloads (batch ws)), (read [] (front ++ piece)).present, w) := by
    simp only [tokenizer, Payload.bytes?, hfeed]
  refine ⟨ws, ?_, hwords⟩
  exact takes_link [countLine k key sink s items false] tokenizer_plain rfl hread
    pours_batch

/-! ### When the bytes end -/

/-- The encoder has kept the table, and sends it when its provider ends. -/
theorem takes_table_end (hplain : sink.Plain) {doc : Json}
    (hsink : sink.transform (.bytes (Text.encode doc.print)) s w = (.ok [], s₁, w₁))
    (hlast : sink.lastChunk s₁ w₁ = (.ok [], s₂, w₁)) :
    Takes (k + 2) (k + 1) none
      [.link (encoderKey "count") (encoding (.json .counts)) (k + 1) [k + 3] (some doc) true true
         false,
       .link key sink (k + 2) [] s false false false] w
      [.link (encoderKey "count") (encoding (.json .counts)) (k + 1) [k + 3] none true true true,
       .link key sink (k + 2) [] s₂ true true true] w₁ := by
  have hsent : Takes (k + 3) (k + 2) (some (.bytes (Text.encode doc.print)))
      [Node.link key sink (k + 2) [] s false false false] w
      [Node.link key sink (k + 2) [] s₁ true false false] w₁ :=
    takes_link [] hplain rfl hsink .nil
  have hended : Takes (k + 3) (k + 2) none [Node.link key sink (k + 2) [] s₁ true true false] w₁
      [Node.link key sink (k + 2) [] s₂ true true true] w₁ :=
    takes_link_end [] hplain rfl (by simp) hlast .nil .nil
  have hfinish : (encoding (W := Workspace) (.json .counts)).lastChunk (some doc) w =
      (.ok (Output.ofPayloads [.bytes (Text.encode doc.print)]), none, w) := rfl
  exact takes_link_end [[_]] (encoding_plain _) rfl (by simp) hfinish
    (.cons (.cons hsent .nil) .nil) (.cons (takes_told hended) .nil)

/-- The table of all words is made, and goes where it is to go. -/
theorem takes_countLine_end (hplain : sink.Plain) (hwaiting : Waiting ws items) (hws : ws ≠ [])
    (hsink : sink.transform (.bytes (Text.encode (Json.ofCounts (tally ws)).print)) s w =
      (.ok [], s₁, w₁)) (hlast : sink.lastChunk s₁ w₁ = (.ok [], s₂, w₁)) :
    Takes (k + 1) k none (countLine k key sink s items true) w (countedLine k key sink s₂) w₁ := by
  have hheard : (!items.isEmpty) = true := by simpa [hwaiting.isEmpty] using hws
  have hcount :
      (wordCount (W := Workspace)).aggregator.transform (.batch items.reverse) ⟨[], true⟩ w =
        (.ok (Output.ofPayloads [.counts (tally ws)]), ⟨[], true⟩, w) := by
    obtain ⟨lists, rfl, -, rfl⟩ := hwaiting
    simp only [aggregator, wordCount, List.reverse_reverse, countAll_words]
    rfl
  have hgiven : (encoding (W := Workspace) (.json .counts)).transform (.counts (tally ws)) none w =
      (.ok (Output.ofPayloads []), some (Json.ofCounts (tally ws)), w) := rfl
  have hkept : Takes (k + 2) (k + 1) (some (.counts (tally ws)))
      [.link (encoderKey "count") (encoding (.json .counts)) (k + 1) [k + 3] none false false false,
       .link key sink (k + 2) [] s false false false] w
      [.link (encoderKey "count") (encoding (.json .counts)) (k + 1) [k + 3]
        (some (Json.ofCounts (tally ws))) true false false,
       .link key sink (k + 2) [] s false false false] w :=
    takes_link [[_]] (encoding_plain _) rfl hgiven .nil
  rw [countLine, hheard]
  exact takes_held_end [[_, _]] rfl (by simp) rfl hcount (.cons (.cons hkept .nil) .nil) rfl
    (.cons (takes_told (takes_table_end hplain hsink hlast)) .nil)

/-- Without words nothing is counted. -/
theorem takes_countLine_silent : Takes (k + 1) k none (countLine k key sink s [] true) w
    (countLine k key sink s [] true) w :=
  takes_held_silent [[_, _]] (aggregator_heldBack _) rfl

/-- What is left of a text when it ends. -/
theorem lastChunk_tokenizer (hqueue : Waiting ws items)
    (hws : ws.map Text.encode = (read [] (Text.encode text)).words.reverse) :
    ∃ more, (tokenizer (W := Workspace)).lastChunk (read [] (Text.encode text)).present w =
        (.ok (Output.ofPayloads (batch more)), [], w) ∧
      Waiting (Text.words text) (batch more ++ items) := by
  obtain ⟨more, hflush, hwords⟩ := flush_encode text
  rw [← hws, ← List.map_append] at hwords
  have hall := List.map_injective_iff.mpr Text.encode_injective hwords
  exact ⟨more, by simp only [tokenizer, hflush], hall ▸ hqueue.batch more⟩

/-- A text ends that has words. -/
theorem takes_wordLine_end (hplain : sink.Plain) (hfed : fed = false → Text.words text = [])
    (hqueue : Waiting ws items)
    (hws : ws.map Text.encode = (read [] (Text.encode text)).words.reverse)
    (hwords : Text.words text ≠ [])
    (hsink : sink.transform
      (.bytes (Text.encode (Json.ofCounts (tally (Text.words text))).print)) s w =
        (.ok [], s₁, w₁)) (hlast : sink.lastChunk s₁ w₁ = (.ok [], s₂, w₁)) :
    Takes k 0 none (wordLine k key sink s fed (read [] (Text.encode text)).present items true) w
      (.link "words" tokenizer 0 [k + 1] [] true true true :: countedLine k key sink s₂) w₁ := by
  obtain ⟨more, hrest, hall⟩ := lastChunk_tokenizer (w := w) hqueue hws
  cases fed with
  | false => exact absurd (hfed rfl) hwords
  | true =>
    exact takes_link_end [countLine k key sink s items false] tokenizer_plain rfl
      (by simp [countLine]) hrest pours_batch
      (.cons (told_countLine ▸ takes_countLine_end hplain hall hwords hsink hlast) .nil)

/-- A text ends that has no words. -/
theorem takes_wordLine_silent (hqueue : Waiting ws items)
    (hws : ws.map Text.encode = (read [] (Text.encode text)).words.reverse)
    (hwords : Text.words text = []) : ∃ present closed,
    Takes k 0 none (wordLine k key sink s fed (read [] (Text.encode text)).present items true) w
      (.link "words" tokenizer 0 [k + 1] present fed true closed ::
        countLine k key sink s [] closed) w := by
  obtain ⟨more, hrest, hall⟩ := lastChunk_tokenizer (w := w) hqueue hws
  have hnone := hall.isEmpty
  rw [hwords, List.isEmpty_nil, List.isEmpty_iff, List.append_eq_nil_iff] at hnone
  obtain ⟨hmore, rfl⟩ := hnone
  cases fed with
  | false => exact ⟨_, false, takes_silent [countLine k key sink s [] false] tokenizer_plain rfl⟩
  | true =>
    rw [hmore] at hrest
    exact ⟨_, true, takes_link_end [countLine k key sink s [] false] tokenizer_plain rfl
      (by simp [countLine]) hrest .nil
      (.cons (told_countLine ▸ takes_countLine_silent) .nil)⟩

/-- The line has taken in these bytes of a text. -/
def Counting (k : Nat) (key : String) (sink : Component Workspace) (s : sink.State) (front : Bytes)
    (block : List (Node Workspace)) : Prop :=
  ∃ fed ws items, block = wordLine k key sink s fed (read [] front).present items false ∧
    Waiting ws items ∧ ws.map Text.encode = (read [] front).words.reverse ∧
      (fed = false → front = [])

theorem counting_start (k : Nat) (key : String) (sink : Component Workspace) (s : sink.State) :
    Counting k key sink s [] (wordLine k key sink s false [] [] false) :=
  ⟨false, [], [], rfl, waiting_nil, rfl, fun _ => rfl⟩

theorem Counting.takes (h : Counting k key sink s front block)
    (hsplit : front ++ piece ++ back = Text.encode text) :
    ∃ block', Takes k 0 (some (.bytes piece)) block w block' w ∧
      Counting k key sink s (front ++ piece) block' := by
  obtain ⟨fed, ws, items, rfl, hqueue, hws, -⟩ := h
  obtain ⟨more, htakes, hmore⟩ := takes_wordLine hsplit
  refine ⟨_, htakes, true, ws ++ more, _, rfl, hqueue.batch more, ?_, fun h => nomatch h⟩
  rw [List.map_append, hws, hmore]

/-- The table of a text with words goes where it is to go. -/
theorem Counting.ends (h : Counting k key sink s (Text.encode text) block) (hplain : sink.Plain)
    (hwords : Text.words text ≠ [])
    (hsink : sink.transform (.bytes (Text.encode (Json.ofCounts (tally (Text.words text))).print))
      s w = (.ok [], s₁, w₁)) (hlast : sink.lastChunk s₁ w₁ = (.ok [], s₂, w₁)) :
    ∃ block', Takes k 0 none (told 0 block) w block' w₁ ∧
      ∀ {rest w₂ w'}, Shuts (.link key sink (k + 2) [] s₂ true true true :: rest) w₂ w' →
        Shuts (block' ++ rest) w₂ w' := by
  obtain ⟨fed, ws, items, rfl, hqueue, hws, hfed⟩ := h
  rw [told_wordLine]
  refine ⟨_, takes_wordLine_end hplain (fun h => ?_) hqueue hws hwords hsink hlast, fun hrest => ?_⟩
  · have hnone := Text.byteWords_encode text
    rw [hfed h] at hnone
    exact List.map_eq_nil_iff.mp hnone.symm
  · exact shuts_link rfl (shuts_link rfl (shuts_link rfl hrest))

/-- A text without words leaves the end of the line untouched. -/
theorem Counting.silent (h : Counting k key sink s (Text.encode text) block)
    (hwords : Text.words text = []) : ∃ block', Takes k 0 none (told 0 block) w block' w ∧
      ∀ {rest w₂ w'}, Shuts (.link key sink (k + 2) [] s false false false :: rest) w₂ w' →
        Shuts (block' ++ rest) w₂ w' := by
  obtain ⟨fed, ws, items, rfl, hqueue, hws, -⟩ := h
  obtain ⟨present, closed, htakes⟩ := takes_wordLine_silent hqueue hws hwords
  rw [told_wordLine]
  refine ⟨_, htakes, fun hrest => ?_⟩
  exact shuts_link rfl (shuts_link rfl (shuts_link rfl hrest))

end Words

/-! ## A run of bytes -/

/-- Bytes come to the lines piece by piece, in pieces with the property `G`. -/
theorem pours_pieces {P : Bytes → List (List (Node Workspace)) → Prop} {G : Bytes → Prop}
    {whole : Bytes} (hstep : ∀ {front piece back blocks}, front ++ piece ++ back = whole → G piece →
      P front blocks → ∃ blocks', Hands 0 (some (.bytes piece)) 1 blocks w blocks' w ∧
        P (front ++ piece) blocks') {pieces : List Bytes} (hpieces : ∀ piece ∈ pieces, G piece)
    {front : Bytes} {blocks : List (List (Node Workspace))}
    (hwhole : front ++ pieces.flatten = whole) (h : P front blocks) :
    ∃ blocks', Pours 0 (pieces.map .bytes) blocks w blocks' w ∧ P whole blocks' := by
  induction pieces generalizing front blocks with
  | nil =>
    rw [List.flatten_nil, List.append_nil] at hwhole
    exact ⟨blocks, .nil, hwhole ▸ h⟩
  | cons piece rest ih =>
    rw [List.forall_mem_cons] at hpieces
    rw [List.flatten_cons, ← List.append_assoc] at hwhole
    obtain ⟨blocks₁, hfirst, h₁⟩ := hstep hwhole hpieces.1 h
    obtain ⟨blocks', hothers, h'⟩ := ih hpieces.2 hwhole h₁
    exact ⟨blocks', .cons hfirst hothers, h'⟩

/-- Bytes come to one line piece by piece. -/
theorem pours_line {P : Bytes → List (Node Workspace) → Prop} {G : Bytes → Prop} {whole : Bytes}
    (hstep : ∀ {front piece back block}, front ++ piece ++ back = whole → G piece →
      P front block → ∃ block', Takes 1 0 (some (.bytes piece)) block w block' w ∧
        P (front ++ piece) block') {pieces : List Bytes} (hpieces : ∀ piece ∈ pieces, G piece)
    (hwhole : pieces.flatten = whole) {block : List (Node Workspace)} (h : P [] block) :
    ∃ block', Pours 0 (pieces.map .bytes) [block] w [block'] w ∧ P whole block' := by
  obtain ⟨_, hpours, block', rfl, h'⟩ := pours_pieces (w := w)
    (P := fun front blocks => ∃ block, blocks = [block] ∧ P front block)
    (fun hsplit hpiece hblocks => by
      obtain ⟨block, rfl, hblock⟩ := hblocks
      obtain ⟨block', htakes, hblock'⟩ := hstep hsplit hpiece hblock
      exact ⟨_, .cons htakes .nil, block', rfl, hblock'⟩)
    hpieces hwhole ⟨block, rfl, h⟩
  exact ⟨block', hpours, h'⟩

end FeatureGraph.Schema
