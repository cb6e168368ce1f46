-- Concatenations of stored features. One that is not stored itself is worked
-- out again when it is read: it is the parts as they are read, one after the
-- other, unless one of them is empty.
import FeatureGraph.Proofs.Graph.Rejoining
import FeatureGraph.Proofs.Schema.Availability

namespace FeatureGraph

open Component

namespace Schema

/-! ## Features that join stored ones -/

/-- The feature joins the bytes of others. They are stored, and it is not. None of them has the
key of a node that is added to work it out again. -/
structure JoinsStored (s : Schema) (cat : Feature) : Prop where
  declared : cat ∈ s.features.values
  component : cat.component = concatenate.aggregator
  encoder : cat.encoder = .identity
  decoder : ∃ size, cat.decoder = .raw size
  unstored : cat.isStored = false
  some_need : cat.needs ≠ []
  distinct : cat.needs.Nodup
  parts : ∀ key ∈ cat.needs, ∃ f size, s.features.get? key = some f ∧ f.isStored = true ∧
    f.decoder = .raw size
  free : ∀ key ∈ [encoderKey cat.key, captureKey cat.key], key ∉ cat.needs

/-- The features of these keys are stored for the entity, and this is what they are read as. -/
def ReadAs (s : Schema) (w : Workspace) (id : String) (keys : List String) (data : String → Bytes) :
    Prop :=
  ∀ key ∈ keys, s.isStored w id key = .ok true ∧
    ((Entity.new id).get s key w).1 = .ok (.bytes (data key))

section Rejoins

variable {s : Schema} {w : Workspace} {id key : String} {cat f : Feature} {data : String → Bytes}

/-- What is read of a stored feature is what its source gives. -/
theorem source_of_read {size : Nat} {bs : Bytes} (hf : s.features.get? f.key = some f)
    (hdeclared : f.isStored = true) (hdecoder : f.decoder = .raw size)
    (hstored : isStoredFor s.scheme w id f.key = .ok true)
    (hread : (s.read w id f.key).1 = .ok (.bytes bs)) :
    ∃ source, w.read (s.scheme.build id f.key) = .ok source ∧ source.Lasts ∧ source.rest = bs := by
  rw [read, feature, hf] at hread
  dsimp only at hread
  rw [if_pos hdeclared, hstored] at hread
  dsimp only at hread
  rw [readStored, hdecoder] at hread
  cases hsource : w.read (s.scheme.build id f.key) with
  | error e =>
    rw [hsource] at hread
    cases hread
  | ok source =>
    rw [hsource] at hread
    refine ⟨source, rfl, ByteSource.lasts_of_readAll ?_⟩
    cases hall : source.readAll with
    | error e =>
      simp [Decoder.raw, Decoder.allBytes, hall, Except.map, Except.mapError] at hread
    | ok bytes =>
      simpa [Decoder.raw, Decoder.allBytes, hall, Except.map, Except.mapError] using hread

/-- Sources that can be opened wait for the roots, in the order of their keys. -/
theorem openSources_ok (s : Schema) (id : String) {keys : List String}
    {source : String → ByteSource} (inputs : Inputs) (hnodup : keys.Nodup)
    (hread : ∀ key ∈ keys, w.read (s.scheme.build id key) = .ok (source key)) :
    ∃ inputs' w', s.openSources id keys inputs w = (.ok inputs', w') ∧
      w'.streams = w.streams ++ keys.map (fun key => some (source key)) ∧
      w'.captures = w.captures ∧ ∀ key, inputs'.get? key =
        if key ∈ keys then some (.stored (w.streams.length + keys.idxOf key))
        else inputs.get? key := by
  induction keys generalizing inputs w with
  | nil => exact ⟨inputs, w, rfl, by simp, rfl, fun key => by simp⟩
  | cons first rest ih =>
    obtain ⟨hfirst, hrest⟩ := List.forall_mem_cons.mp hread
    obtain ⟨hnew, hnodup⟩ := List.nodup_cons.mp hnodup
    obtain ⟨inputs', w', hopen, hstreams, hcaptures, hinputs⟩ :=
      ih (w := (w.holdStream (source first)).2)
        (inputs.insert first (w.holdStream (source first)).1) hnodup hrest
    refine ⟨inputs', w', ?_, ?_, hcaptures, fun key => ?_⟩
    · rw [openSources, hfirst]
      exact hopen
    · rw [hstreams]
      simp [Workspace.holdStream]
    · rw [hinputs, Dictionary.get?_insert]
      by_cases hkey : key = first
      · subst hkey
        simp [hnew, Workspace.holdStream]
      · have hne : first ≠ key := fun h => hkey h.symm
        simp only [Workspace.holdStream, List.length_append, List.length_singleton, List.mem_cons,
          hkey, false_or, if_false, List.idxOf_cons_ne _ hne]
        split
        · congr 2
          omega
        · rfl

/-- What is worked out again is what the run leaves in the capture, decoded. -/
theorem recompute_eq {plan : PartialGraph} {inputs : Inputs} {w' w'' : Workspace}
    (hplan : partialGraph s.name s.features s.scheme w.newCapture.2 id f.key w.newCapture.1 =
      .ok plan)
    (hopen : s.openSources id plan.sources Dictionary.empty w.newCapture.2 = (.ok inputs, w'))
    (hrun : (plan.graph.process inputs w').2 = (w'', .ok ())) :
    s.recompute w id f = ((f.decoder.decode
      (ByteSource.ofBytes (w''.captured w.newCapture.1))).mapError .codec, w'') := by
  simp only [recompute, hplan, hopen]
  generalize plan.graph.process inputs w' = answer at hrun
  obtain ⟨g, w₁, result⟩ := answer
  cases hrun
  rfl

variable (haccepted : Accepted s.features) (hjoins : s.JoinsStored cat)
  (hstored : ∀ key ∈ cat.needs, isStoredFor s.scheme w id key = .ok true)

include haccepted hjoins

theorem isStoredFor_part (hread : s.ReadAs w id cat.needs data) (hkey : key ∈ cat.needs) :
    isStoredFor s.scheme w id key = .ok true := by
  obtain ⟨f, -, hf, -⟩ := hjoins.parts key hkey
  have hflag := (hread key hkey).1
  rw [isStored, feature, hf] at hflag
  rwa [← haccepted.keyed hf]

/-- The sources of the parts give what the parts are read as. -/
theorem source_of_part (hread : s.ReadAs w id cat.needs data) (hkey : key ∈ cat.needs) :
    ∃ source, w.read (s.scheme.build id key) = .ok source ∧ source.Lasts ∧
      source.rest = data key := by
  obtain ⟨f, size, hf, hdeclared, hdecoder⟩ := hjoins.parts key hkey
  obtain rfl := haccepted.keyed hf
  have hget := (hread f.key hkey).2
  rw [get_new] at hget
  exact source_of_read hf hdeclared hdecoder (isStoredFor_part haccepted hjoins hread hkey) hget

/-- It can be worked out again, since its parts are stored. -/
theorem canCompute_joined : cat.canCompute s.features = true :=
  (canCompute_iff haccepted).mpr (Or.inr ⟨hjoins.some_need, fun key hkey => by
    obtain ⟨f, size, hf, hdeclared, -⟩ := hjoins.parts key hkey
    exact ⟨f, hf, (canCompute_iff haccepted).mpr (Or.inl hdeclared)⟩⟩)

theorem part_ne (hkey : key ∈ cat.needs) : key ≠ cat.key := by
  rintro rfl
  obtain ⟨f, size, hf, hdeclared, -⟩ := hjoins.parts _ hkey
  rw [haccepted.keyed.get?_key hjoins.declared] at hf
  cases hf
  rw [hjoins.unstored] at hdeclared
  cases hdeclared

include hstored

/-- What is reached is the feature and its parts. -/
theorem reached_iff : Reached s.features s.scheme w id cat.key key ↔
    key = cat.key ∨ key ∈ cat.needs := by
  constructor
  · intro hreached
    induction hreached with
    | target => exact Or.inl rfl
    | @need f key hf _ habsent hkey ih =>
      have hsame : f.key = cat.key → key ∈ cat.needs := fun heq =>
        haccepted.keyed.eq_of_key_eq hf hjoins.declared heq ▸ hkey
      rcases ih with heq | hpart
      · exact Or.inr (hsame heq)
      · rcases habsent with heq | habsent
        · exact Or.inr (hsame heq)
        · rw [hstored _ hpart] at habsent
          cases habsent
  · rintro (rfl | hkey)
    · exact .target
    · exact .need hjoins.declared .target (Or.inl rfl) hkey

theorem readBack_iff : Reached s.features s.scheme w id cat.key key ∧
    ReadBack s.scheme w id cat.key key ↔ key ∈ cat.needs := by
  rw [reached_iff haccepted hjoins hstored]
  constructor
  · rintro ⟨hreached, hne, -⟩
    exact hreached.resolve_left hne
  · exact fun hkey => ⟨Or.inr hkey, part_ne haccepted hjoins hkey, hstored key hkey⟩

/-- There is a partial graph. -/
theorem exists_plan (slot : Nat) :
    ∃ plan, partialGraph s.name s.features s.scheme w id cat.key slot = .ok plan ∧
      Retraces s.features s.scheme w id cat slot plan := by
  have hreached : ∀ {key}, Reached s.features s.scheme w id cat.key key → _ :=
    fun h => (reached_iff haccepted hjoins hstored).mp h
  have htelling : Telling s.features s.scheme w id cat.key := fun f _ hf hne =>
    ⟨true, hstored _ ((hreached hf).resolve_left hne)⟩
  rcases partialGraph_cases haccepted htelling hjoins.declared s.name slot with
    ⟨g, hmissing, -⟩ | ⟨-, hplan | ⟨key, hkey, -, hclash, -⟩⟩
  · rcases hreached hmissing.reached with heq | hpart
    · obtain rfl := haccepted.keyed.eq_of_key_eq hmissing.declared hjoins.declared heq
      exact absurd hmissing.root hjoins.some_need
    · exact absurd ⟨part_ne haccepted hjoins hpart, hstored _ hpart⟩ (not_readBack hmissing.absent)
  · exact hplan
  · rcases hreached hclash with heq | hpart
    · rcases List.mem_pair.mp hkey with rfl | rfl
      · exact absurd heq (encoderKey_ne_self _)
      · exact absurd heq (append_ne_self (by decide))
    · exact absurd hpart (hjoins.free key hkey)

/-- It reads the parts back, joins them, and keeps what it has joined. -/
theorem rejoining_of_retraces {slot : Nat} {plan : PartialGraph} {size : String → Nat}
    (hsize : ∀ key ∈ cat.needs, ∃ f, s.features.get? key = some f ∧ f.decoder = .raw (size key))
    (h : Retraces s.features s.scheme w id cat slot plan) :
    Nonempty (plan.graph.Rejoining cat.needs size slot) := by
  obtain ⟨keeper, encoder, ⟨joint, ⟨us, hjoint, hneeds⟩, hencoder⟩, hkeeper⟩ := h.captures
  have hready := h.whole.1.ready
  have hpart : ∀ key ∈ cat.needs, ∃ m : Nat, (sitesOf plan.graph.nodes)[m]? =
      some ⟨key, replay (.raw (size key)), []⟩ := fun key hkey => by
    obtain ⟨f, hf, hdecoder⟩ := hsize key hkey
    obtain ⟨hreached, hback⟩ := (readBack_iff haccepted hjoins hstored).mpr hkey
    obtain rfl := haccepted.keyed hf
    exact hdecoder ▸ h.readBack f (Dictionary.mem_values.mpr ⟨_, hf⟩) hreached hback
  have hreads : List.Forall₂ (fun u key =>
      (sitesOf plan.graph.nodes)[u]? = some ⟨key, replay (.raw (size key)), []⟩) us cat.needs := by
    have hboth := (List.forall₂_and_left _ _).mpr ⟨hpart, hneeds.flip⟩
    refine (hboth.imp fun key u ⟨⟨m, hm⟩, p, hp, hu⟩ => ?_).flip
    rw [haccepted.keyed hp] at hu
    exact Stands.unique hready hu ⟨_, hm, rfl⟩ ▸ hm
  refine ⟨us, joint, encoder, keeper, h.whole.1, h.whole.2, hjoins.some_need, hjoins.distinct,
    hreads, ⟨_, hjoins.component ▸ hjoint⟩, ⟨_, hjoins.encoder ▸ hencoder⟩, ⟨_, hkeeper⟩,
    fun m hm => ?_⟩
  obtain ⟨site, hsite⟩ : ∃ site, (sitesOf plan.graph.nodes)[m]? = some site :=
    ⟨_, List.getElem?_eq_getElem (by rwa [sitesOf, List.length_map])⟩
  have hat : ∀ {u key c needs}, (sitesOf plan.graph.nodes)[u]? = some ⟨key, c, needs⟩ →
      site.key = key → m = u := fun hu hkey =>
    Stands.unique hready ⟨_, hsite, hkey⟩ ⟨_, hu, rfl⟩
  rcases (h.keys _).mp (List.mem_map_of_mem (List.mem_of_getElem? hsite)) with
    hreached | hkey | hkey
  · rcases (reached_iff haccepted hjoins hstored).mp hreached with hkey | hpart
    · exact Or.inr (Or.inl (hat hjoint hkey))
    · obtain ⟨u, hu, husite⟩ := exists_of_forall₂ hreads.flip hpart
      exact Or.inl (hat husite rfl ▸ hu)
  · exact Or.inr (Or.inr (Or.inl (hat hencoder hkey)))
  · exact Or.inr (Or.inr (Or.inr (hat hkeeper hkey)))

omit haccepted hjoins hstored in
/-- What is opened feeds the roots. -/
theorem fed_of_openSources {keys : List String} {sources : List String} {inputs : Inputs}
    {w' : Workspace} {source : String → ByteSource} (hkeys : ∀ key ∈ keys, key ∈ sources)
    (hsource : ∀ key ∈ keys, (source key).Lasts ∧ (source key).rest = data key)
    (hstreams : w'.streams = w.streams ++ sources.map fun key => some (source key))
    (hinputs : ∀ key ∈ keys, inputs.get? key =
      some (.stored (w.streams.length + sources.idxOf key))) :
    Fed keys data inputs w' := by
  refine ⟨fun key hkey => ⟨_, source key, hinputs key hkey, ?_, hsource key hkey⟩,
    fun key hkey key' hkey' heq => ?_⟩
  · rw [hstreams, List.getElem?_append_right (Nat.le_add_right ..), Nat.add_sub_cancel_left,
      List.getElem?_map, List.getElem?_idxOf (hkeys key hkey)]
    rfl
  · rw [hinputs key hkey, hinputs key' hkey', Option.some.injEq, Payload.stored.injEq,
      Nat.add_left_cancel_iff] at heq
    exact (List.idxOf_inj (hkeys key hkey)).mp heq

end Rejoins

/-- A concatenation of stored features that is worked out again is the parts, one after the other,
unless one of the parts is empty: then it is empty, whatever the others are. -/
theorem joined_again_unless_empty {name : String} {scheme : KeyScheme} {idSource : IdSource}
    {declarations : List Feature} {s : Schema} {w : Workspace} {id : String} {cat : Feature}
    {data : String → Bytes} (hbuild : build name scheme idSource declarations = .ok s)
    (hjoins : s.JoinsStored cat) (hread : s.ReadAs w id cat.needs data) :
    ((Entity.new id).get s cat.key w).1 = .ok (.bytes
      (if [] ∈ cat.needs.map data then [] else (cat.needs.map data).flatten)) := by
  have haccepted := accepted_build hbuild
  have hstored : ∀ key ∈ cat.needs, isStoredFor s.scheme w id key = .ok true := fun _ =>
    isStoredFor_part haccepted hjoins hread
  have hsource : ∀ key ∈ cat.needs, ∃ source, w.read (s.scheme.build id key) = .ok source ∧
      source.Lasts ∧ source.rest = data key := fun _ => source_of_part haccepted hjoins hread
  have hsize : ∀ key ∈ cat.needs, ∃ size f, s.features.get? key = some f ∧ f.decoder = .raw size :=
    fun key hkey => by
      obtain ⟨f, size, hf, -, hdecoder⟩ := hjoins.parts key hkey
      exact ⟨size, f, hf, hdecoder⟩
  have : Nonempty ByteSource := ⟨.ofBytes []⟩
  choose! source hopened hlasts using hsource
  choose! size hsize using hsize
  -- the graph is drafted in a workspace with a new capture, which the store does not see
  obtain ⟨plan, hplan, hretraces⟩ := exists_plan (w := w.newCapture.2) haccepted hjoins hstored
    w.newCapture.1
  obtain ⟨L⟩ := rejoining_of_retraces (w := w.newCapture.2) haccepted hjoins hstored hsize hretraces
  have hsources : ∀ key, key ∈ plan.sources ↔ key ∈ cat.needs := fun key =>
    (hretraces.sources key).trans
      (readBack_iff (w := w.newCapture.2) haccepted hjoins hstored)
  obtain ⟨inputs, w', hopen, hstreams, hcaptures, hinputs⟩ := openSources_ok s id
    (w := w.newCapture.2) Dictionary.empty hretraces.sourcesOnce
    fun key hkey => hopened key ((hsources key).mp hkey)
  have hfed : Fed cat.needs data inputs w' :=
    fed_of_openSources (fun key hkey => (hsources key).mpr hkey) hlasts hstreams fun key hkey => by
      rw [hinputs, if_pos ((hsources key).mpr hkey)]
  obtain ⟨w'', hrun, hcaptured⟩ := L.process hfed (by simp [hcaptures, Workspace.newCapture])
    (by simp [Workspace.captured, hcaptures, Workspace.newCapture])
  obtain ⟨_, hdecoder⟩ := hjoins.decoder
  rw [get_new, Schema.read, feature, haccepted.keyed.get?_key hjoins.declared]
  dsimp only
  rw [hjoins.unstored, if_neg Bool.false_ne_true]
  dsimp only
  rw [if_pos (canCompute_joined haccepted hjoins), recompute_eq hplan hopen hrun, hdecoder,
    hcaptured]
  simp [Decoder.raw, Decoder.allBytes, ByteSource.readAll_of_sound, ByteSource.ofBytes, Except.map,
    Except.mapError]

/-! ## Two parts -/

/-- A feature that is given from outside, and stored as it is. -/
def part (key : String) : Feature :=
  { Feature.new key (.stateless fun data => .ok [.ok data]) with isStored := true }

def joint : Feature :=
  { Feature.new "cat" concatenate.aggregator with needs := ["s1", "s2"] }

def jointly : Schema :=
  ⟨"s", .delimited ":", .input "id",
    ((Dictionary.empty.insert "s1" (part "s1")).insert "s2" (part "s2")).insert "cat" joint⟩

theorem joint_joinsStored : jointly.JoinsStored joint where
  declared := List.mem_cons_self
  component := rfl
  encoder := rfl
  decoder := ⟨_, rfl⟩
  unstored := rfl
  some_need := List.cons_ne_nil _ _
  distinct := by decide
  parts key hkey := by
    rcases List.mem_pair.mp hkey with rfl | rfl
    · exact ⟨part "s1", _, rfl, rfl, rfl⟩
    · exact ⟨part "s2", _, rfl, rfl, rfl⟩
  free := by decide +kernel

/-- The entity `e` with these two parts. -/
def parted (first second : String) : Workspace :=
  (jointly.process (((Dictionary.empty.insert "s1" (.text first)).insert "s2" (.text second)).insert
    "id" (.text "e")) blank).2

def partBytes (first second key : String) : Bytes :=
  Text.encode (if key = "s1" then first else second)

/-- Two parts that are not empty are joined. -/
theorem parts_are_joined :
    build "s" (.delimited ":") (.input "id") [part "s1", part "s2", joint] = .ok jointly ∧
      jointly.JoinsStored joint ∧
      jointly.ReadAs (parted "ab" "c") "e" joint.needs (partBytes "ab" "c") ∧
      ((Entity.new "e").get jointly "cat" (parted "ab" "c")).1 =
        .ok (.bytes (Text.encode "abc")) := by
  have hbuild : build "s" (.delimited ":") (.input "id") [part "s1", part "s2", joint] =
      .ok jointly := rfl
  have hread : jointly.ReadAs (parted "ab" "c") "e" joint.needs (partBytes "ab" "c") := by
    intro key hkey
    rcases List.mem_pair.mp hkey with rfl | rfl
    · exact ⟨by decide +kernel, eq_of_bytesRead? (by decide +kernel)⟩
    · exact ⟨by decide +kernel, eq_of_bytesRead? (by decide +kernel)⟩
  refine ⟨hbuild, joint_joinsStored, hread,
    (joined_again_unless_empty hbuild joint_joinsStored hread).trans ?_⟩
  exact congrArg (Except.ok ∘ Payload.bytes) (by decide +kernel)

/-- An empty part empties the whole, though the other part is not empty. -/
theorem empty_part_empties :
    build "s" (.delimited ":") (.input "id") [part "s1", part "s2", joint] = .ok jointly ∧
      jointly.JoinsStored joint ∧
      jointly.ReadAs (parted "" "abc") "e" joint.needs (partBytes "" "abc") ∧
      (joint.needs.map (partBytes "" "abc")).flatten = Text.encode "abc" ∧
      ((Entity.new "e").get jointly "cat" (parted "" "abc")).1 = .ok (.bytes []) := by
  refine ⟨rfl, joint_joinsStored, fun key hkey => ?_, by decide +kernel,
    eq_of_bytesRead? (by decide +kernel)⟩
  rcases List.mem_pair.mp hkey with rfl | rfl
  · exact ⟨by decide +kernel, eq_of_bytesRead? (by decide +kernel)⟩
  · exact ⟨by decide +kernel, eq_of_bytesRead? (by decide +kernel)⟩

end Schema

end FeatureGraph
