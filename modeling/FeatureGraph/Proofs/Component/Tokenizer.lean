-- What a tokenizer reads. Its state is what the bytes so far leave behind, so
-- it does not matter where the chunks were cut: of the pieces of a text it
-- puts out the words of the text, in order, and it fails at bytes that are no
-- text.
import FeatureGraph.Component.Tokenizer
import FeatureGraph.Proofs.Text.Words

namespace FeatureGraph.Component

namespace Tokenizer

/-! ## Readings -/

/-- All words that were read, as if the bytes ended here. -/
def Reading.closed (r : Reading) : List Bytes :=
  r.words.reverse ++ if r.present = [] then [] else [r.present.reverse]

theorem foldl_step (r : Reading) (bs : Bytes) :
    bs.foldl Reading.step r =
      ⟨(read r.present bs).words ++ r.words, (read r.present bs).present⟩ := by
  induction bs generalizing r with
  | nil => rfl
  | cons b rest ih =>
    rw [read, List.foldl_cons, List.foldl_cons, ih, ih (Reading.step ⟨[], r.present⟩ b)]
    unfold Reading.step
    split
    · split <;> simp
    · simp

theorem read_append (present bs more : Bytes) : read present (bs ++ more) =
    ⟨(read (read present bs).present more).words ++ (read present bs).words,
      (read (read present bs).present more).present⟩ := by
  rw [read, List.foldl_append]
  exact foldl_step (read present bs) more

theorem words_read_append (present bs more : Bytes) :
    (read present (bs ++ more)).words.reverse = (read present bs).words.reverse ++
      (read (read present bs).present more).words.reverse := by
  rw [read_append, List.reverse_append]

/-- The words that are read from a present word on. -/
theorem closed_read (present : Bytes) (h : ∀ b ∈ present, Text.isBlankByte b = false)
    (bs : Bytes) : (read present bs).closed = Text.byteWords (present.reverse ++ bs) := by
  induction bs generalizing present with
  | nil =>
    rw [Text.byteWords, runs, splitOnP_append fun b hb => h b (List.mem_reverse.mp hb)]
    cases present <;> simp [read, Reading.closed]
  | cons b rest ih =>
    rw [read, List.foldl_cons, foldl_step]
    by_cases hb : Text.isBlankByte b = true
    · have hrest := ih [] (by simp)
      rw [Text.byteWords, runs, splitOnP_append fun b hb => h b (List.mem_reverse.mp hb),
        List.splitOnP_cons_eq_if_modifyHead, if_pos hb, List.modifyHead_cons, List.append_nil,
        List.filter_cons]
      rw [Text.byteWords, runs, List.reverse_nil, List.nil_append] at hrest
      cases present <;> simp [Reading.step, hb, Reading.closed, ← hrest]
    · rw [Bool.not_eq_true] at hb
      have hrest := ih (b :: present) (List.forall_mem_cons.mpr ⟨hb, h⟩)
      simpa [Reading.step, hb, Reading.closed] using hrest

/-- The words of bytes and of those that come after them. -/
theorem closed_read_append (present bs more : Bytes) : (read present (bs ++ more)).closed =
    (read present bs).words.reverse ++ (read (read present bs).present more).closed := by
  rw [read_append, Reading.closed, Reading.closed, List.reverse_append, List.append_assoc]

theorem byteWords_eq (bs : Bytes) : Text.byteWords bs = (read [] bs).closed := by
  rw [closed_read [] (by simp), List.reverse_nil, List.nil_append]

/-! ## Texts -/

theorem wordTexts_encode (ws : List String) : wordTexts (ws.map Text.encode) = .ok ws := by
  induction ws with
  | nil => rfl
  | cons w rest ih => simp [wordTexts, wordText, ih, Except.map]

/-- What the tokenizer puts out for words: nothing, or one list of them. -/
def batch (ws : List String) : List Payload := if ws = [] then [] else [.words ws]

/-- A piece of a text completes words of the text. -/
theorem feed_encode {s : String} {front piece back : Bytes}
    (h : front ++ piece ++ back = Text.encode s) :
    ∃ ws, feed (read [] front).present piece =
        (.ok (Output.ofPayloads (batch ws)), (read [] (front ++ piece)).present) ∧
      (read [] (front ++ piece)).words.reverse =
        (read [] front).words.reverse ++ ws.map Text.encode := by
  -- the words that are complete now are words of the whole text
  have hwhole := byteWords_eq (Text.encode s)
  rw [Text.byteWords_encode, ← h, Reading.closed, words_read_append, words_read_append,
    List.append_assoc, List.append_assoc] at hwhole
  obtain ⟨before, rest, -, -, hrest⟩ := List.map_eq_append_iff.mp hwhole
  obtain ⟨ws, after, -, hws, -⟩ := List.map_eq_append_iff.mp hrest
  refine ⟨ws, ?_, by rw [words_read_append, hws]⟩
  rw [feed, ← hws, wordTexts_encode, read_append]
  cases ws <;> rfl

/-- The end of a text completes its last word. -/
theorem flush_encode (s : String) :
    ∃ ws, flush (read [] (Text.encode s)).present = .ok (Output.ofPayloads (batch ws)) ∧
      (Text.words s).map Text.encode =
        (read [] (Text.encode s)).words.reverse ++ ws.map Text.encode := by
  have hwhole := byteWords_eq (Text.encode s)
  rw [Text.byteWords_encode, Reading.closed] at hwhole
  obtain ⟨before, ws, -, -, hws⟩ := List.map_eq_append_iff.mp hwhole
  refine ⟨ws, ?_, by rw [hws, hwhole]⟩
  rw [flush]
  split at hws
  · rename_i hnone
    rw [List.map_eq_nil_iff.mp hws]
    simp [hnone, batch, Output.ofPayloads]
  · rename_i hsome
    obtain ⟨w, rfl, hw⟩ := List.map_eq_singleton_iff.mp hws
    simp [hsome, ← hw, wordText, Except.map, batch, Output.ofPayloads]

/-! ## Words that may be no text -/

theorem wordText_cases (word : Bytes) :
    (∃ s, wordText word = .ok s ∧ Text.encode s = word) ∨
      (∃ e, wordText word = .error e) ∧ ¬ Text.IsText word := by
  unfold wordText Text.decode
  cases h : Text.decode? word with
  | none => exact .inr ⟨⟨_, rfl⟩, Text.decode?_eq_none.mp h⟩
  | some s => exact .inl ⟨s, rfl, (Text.decode?_eq_some.mp h).symm⟩

theorem wordTexts_cases (ws : List Bytes) :
    (∃ texts, wordTexts ws = .ok texts ∧ texts.map Text.encode = ws) ∨
      (∃ e, wordTexts ws = .error e) ∧ ∃ word ∈ ws, ¬ Text.IsText word := by
  induction ws with
  | nil => exact .inl ⟨[], rfl, rfl⟩
  | cons word rest ih =>
    rcases wordText_cases word with ⟨s, hs, rfl⟩ | ⟨⟨e, he⟩, hword⟩
    · rcases ih with ⟨texts, htexts, hencode⟩ | ⟨⟨e, he⟩, bad, hbad, hnot⟩
      · exact .inl ⟨s :: texts, by simp [wordTexts, hs, htexts, Except.map], by simp [hencode]⟩
      · exact .inr ⟨⟨e, by simp [wordTexts, hs, he, Except.map]⟩, bad, List.mem_cons_of_mem _ hbad,
          hnot⟩
    · exact .inr ⟨⟨e, by simp [wordTexts, he]⟩, word, List.mem_cons_self, hword⟩

/-- The answer puts out these words, in lists of which none is empty; it is a failure if one of
them is no text. -/
def Tells (answer : Except ComponentError Output) (ws : List Bytes) : Prop :=
  (∃ batches : List (List String), answer = .ok (Output.ofPayloads (batches.map .words)) ∧
    [] ∉ batches ∧ batches.flatten.map Text.encode = ws) ∨
  (∃ e, answer = .error e) ∧ ∃ word ∈ ws, ¬ Text.IsText word

/-- What is told when bytes come in: the words that they complete. -/
theorem feed_tells (present more : Bytes) :
    Tells (feed present more).1 (read present more).words.reverse ∧
      (feed present more).2 = (read present more).present := by
  unfold feed
  dsimp only
  rcases wordTexts_cases (read present more).words.reverse with
    ⟨texts, htexts, hencode⟩ | ⟨⟨e, he⟩, hbad⟩
  · rw [htexts]
    cases texts with
    | nil => exact ⟨.inl ⟨[], rfl, by simp, hencode⟩, rfl⟩
    | cons s rest => exact ⟨.inl ⟨[s :: rest], rfl, by simp, by simpa using hencode⟩, rfl⟩
  · rw [he]
    exact ⟨.inr ⟨⟨e, rfl⟩, hbad⟩, rfl⟩

/-- What is told when the bytes end: the present word. -/
theorem flush_tells (present : Bytes) : Tells (flush present) (read present []).closed := by
  have hclosed : (read present []).closed = if present = [] then [] else [present.reverse] := rfl
  rw [hclosed, flush]
  cases present with
  | nil => exact .inl ⟨[], rfl, by simp, rfl⟩
  | cons b rest =>
    rw [if_neg (by simp), if_neg (by simp)]
    rcases wordText_cases (b :: rest).reverse with ⟨s, hs, hencode⟩ | ⟨⟨e, he⟩, hbad⟩
    · exact .inl ⟨[[s]], by rw [hs]; rfl, by simp, by simpa using hencode⟩
    · exact .inr ⟨⟨e, by rw [he]; rfl⟩, _, List.mem_singleton_self _, hbad⟩

end Tokenizer

/-! ## Chunks -/

/-- What a component answers when chunks come in one after the other and then end. It is called
on after an answer that is a failure. -/
def answers {W : Type} (c : Component W) :
    (chunks : List Payload) → c.State → W → List (Except ComponentError Output)
  | [], s, w => [(c.lastChunk s w).1]
  | chunk :: rest, s, w =>
    let (answer, s, w) := c.transform chunk s w
    answer :: c.answers rest s w

theorem answers_cons {W : Type} {c : Component W} {chunk : Payload}
    {answer : Except ComponentError Output} {s s' : c.State} {w w' : W}
    (h : c.transform chunk s w = (answer, s', w')) (rest : List Payload) :
    c.answers (chunk :: rest) s w = answer :: c.answers rest s' w' := by
  rw [answers, h]

namespace Tokenizer

variable {W : Type} {chunks : List Payload} {parts : List Bytes}

/-- The words that are told are those of the present word and the bytes that come in. -/
theorem answers_tell (h : chunks.map Payload.bytes? = parts.map some) (present : Bytes) (w : W) :
    ∃ told, List.Forall₂ Tells (tokenizer.answers chunks present w) told ∧
      told.flatten = (read present parts.flatten).closed := by
  induction chunks generalizing parts present w with
  | nil =>
    obtain rfl : parts = [] := List.map_eq_nil_iff.mp h.symm
    exact ⟨_, .cons (flush_tells present) .nil, by simp⟩
  | cons chunk rest ih =>
    obtain ⟨part, parts, rfl, hpart, hrest⟩ := List.map_eq_cons_iff.mp h.symm
    obtain ⟨htells, hpresent⟩ := feed_tells present part
    obtain ⟨told, hall, htold⟩ := ih hrest.symm (read present part).present w
    have hcall : (tokenizer (W := W)).transform chunk present w =
        ((feed present part).1, (read present part).present, w) := by
      simp only [tokenizer, ← hpart, ← hpresent]
    refine ⟨(read present part).words.reverse :: told, ?_, ?_⟩
    · exact answers_cons hcall rest ▸ .cons htells hall
    · rw [List.flatten_cons, htold, List.flatten_cons, closed_read_append]

/-- An answer that is a failure tells of a word that is no text, and the other way round. -/
theorem failure_iff {answered : List (Except ComponentError Output)} {told : List (List Bytes)}
    (h : List.Forall₂ Tells answered told) :
    (∃ e, .error e ∈ answered) ↔ ∃ word ∈ told.flatten, ¬ Text.IsText word := by
  induction h with
  | nil => simp
  | @cons answer ws _ _ htells _ ih =>
    have hanswer : (∃ e, answer = .error e) ↔ ∃ word ∈ ws, ¬ Text.IsText word := by
      rcases htells with ⟨batches, rfl, -, rfl⟩ | ⟨he, hbad⟩
      · refine iff_of_false (by simp) ?_
        rintro ⟨word, hword, hnot⟩
        obtain ⟨s, -, rfl⟩ := List.mem_map.mp hword
        exact hnot (Text.isText_encode s)
      · exact iff_of_true he hbad
    simp only [List.mem_cons, List.flatten_cons, List.mem_append, exists_or, or_and_right, ih,
      eq_comm (b := answer), hanswer]

/-- Answers none of which is a failure put out all the words that they tell. -/
theorem batches_of_tells {answered : List (Except ComponentError Output)} {told : List (List Bytes)}
    (h : List.Forall₂ Tells answered told) (hsound : ∀ word ∈ told.flatten, Text.IsText word) :
    ∃ (outs : List Output) (batches : List (List String)), answered = outs.map .ok ∧
      outs.flatten = Output.ofPayloads (batches.map .words) ∧ [] ∉ batches ∧
      batches.flatten.map Text.encode = told.flatten := by
  induction h with
  | nil => exact ⟨[], [], rfl, rfl, by simp, rfl⟩
  | cons htells _ ih =>
    rw [List.flatten_cons, List.forall_mem_append] at hsound
    obtain ⟨outs, batches, rfl, houts, hfull, hwords⟩ := ih hsound.2
    rcases htells with ⟨first, rfl, hfirst, rfl⟩ | ⟨-, word, hword, hnot⟩
    · refine ⟨_ :: outs, first ++ batches, rfl, ?_, ?_, ?_⟩
      · simp [houts, Output.ofPayloads]
      · simp [hfirst, hfull]
      · simp [hwords]
    · exact absurd (hsound.1 word hword) hnot

/-- However bytes are cut into chunks, empty ones and cuts within a word or a character included: a
tokenizer fails at some chunk, or at the end, exactly if the bytes are not UTF-8. Otherwise the
lists of words that it puts out are together the words of the bytes, in order, and none of the lists
is empty. -/
theorem words_do_not_show_cuts (h : chunks.map Payload.bytes? = parts.map some) (w : W) :
    ((∃ e, .error e ∈ tokenizer.answers chunks tokenizer.start w) ↔
      Text.decode? parts.flatten = none) ∧
    (Text.decode? parts.flatten ≠ none → ∃ (outs : List Output) (batches : List (List String)),
      tokenizer.answers chunks tokenizer.start w = outs.map .ok ∧
      outs.flatten = Output.ofPayloads (batches.map .words) ∧ [] ∉ batches ∧
      batches.flatten.map Text.encode = Text.byteWords parts.flatten) := by
  obtain ⟨told, htells, htold⟩ := answers_tell h [] w
  rw [← byteWords_eq] at htold
  have hsound : Text.IsText parts.flatten ↔ ∀ word ∈ told.flatten, Text.IsText word :=
    htold ▸ Text.isText_iff_byteWords parts.flatten
  constructor
  · refine (failure_iff htells).trans ?_
    rw [Text.decode?_eq_none, hsound]
    simp only [not_forall, exists_prop]
  · intro htext
    rw [ne_eq, Text.decode?_eq_none, not_not, hsound] at htext
    rw [← htold]
    exact batches_of_tells htells htext

/-- The second letter is cut, and one of the chunks is empty. -/
theorem cut_letter_does_not_show : ∃ (outs : List Output) (batches : List (List String)),
    tokenizer.answers [.bytes [0x61, 0xC3], .text "", .buffer [0xA9, 0x20], .literal " b"]
      tokenizer.start () = outs.map .ok ∧
    outs.flatten = Output.ofPayloads (batches.map .words) ∧ [] ∉ batches ∧
    batches.flatten.map Text.encode = [Text.encode "aé", Text.encode "b"] := by
  have hparts : ([.bytes [0x61, 0xC3], .text "", .buffer [0xA9, 0x20], .literal " b"] :
      List Payload).map Payload.bytes? =
        [[0x61, 0xC3], [], [0xA9, 0x20], [0x20, 0x62]].map some := by decide +kernel
  have htext : Text.decode? (List.flatten [[0x61, 0xC3], [], [0xA9, 0x20], [0x20, 0x62]]) ≠ none :=
    by decide +kernel
  obtain ⟨outs, batches, hall, houts, hfull, hwords⟩ :=
    (words_do_not_show_cuts hparts ()).2 htext
  refine ⟨outs, batches, hall, houts, hfull, hwords.trans ?_⟩
  decide +kernel

end Tokenizer

end FeatureGraph.Component
