-- Graphs that work a concatenation out again. They read the parts back, join
-- them, and keep what is joined. A run comes to its end, and the capture then
-- holds the parts, one after the other, unless one of them is empty: an empty
-- part is read back in no chunk at all, so nothing is joined.
import FeatureGraph.Proofs.ByteSource
import FeatureGraph.Proofs.Component.Recalling
import FeatureGraph.Proofs.Graph.Joining
import FeatureGraph.Proofs.Schema.Compile

namespace FeatureGraph

open Component Run

/-! ## Reading back in chunks -/

/-- Streams wait for the roots of these keys, each its own, with the bytes of its key. -/
structure Fed (keys : List String) (data : String → Bytes) (inputs : Inputs) (w : Workspace) :
    Prop where
  waits : ∀ key ∈ keys, ∃ stream source, inputs.get? key = some (.stored stream) ∧
    w.streams[stream]? = some (some source) ∧ source.Lasts ∧ source.rest = data key
  distinct : ∀ key ∈ keys, ∀ key' ∈ keys, inputs.get? key = inputs.get? key' → key = key'

/-- The chunks in which these bytes are read back. -/
def chunksOf (size : Nat) (bs : Bytes) : List Payload := (Bytes.pieces size bs).map .bytes

theorem chunksOf_eq_nil {size : Nat} {bs : Bytes} : chunksOf size bs = [] ↔ bs = [] := by
  cases bs <;> simp [chunksOf, Bytes.pieces]

theorem joined_chunksOf (size : Nat) (bs : Bytes) : Payload.joined (chunksOf size bs) = bs := by
  rw [Payload.joined, chunksOf, List.flatMap_map]
  exact List.flatMap_id.trans (Bytes.flatten_pieces size bs)

theorem byteLike_chunksOf {size : Nat} {bs : Bytes} :
    ∀ chunk ∈ chunksOf size bs, ByteLike chunk := by
  simp [chunksOf, ByteLike, Payload.bytes?]

/-- A stored stream that lasts is read back in chunks. -/
theorem raw_stream {source : ByteSource} (h : source.Lasts) (size : Nat) :
    (Decoder.raw size).stream source = .ok (Output.ofPayloads (chunksOf size source.rest)) := by
  simp [Decoder.raw, Output.ofReads, Output.ofPayloads, ByteSource.pieces_of_lasts h, chunksOf,
    Function.comp_def]

namespace Graph

/-- A graph that reads the features of these keys back, joins their bytes, and keeps what it has
joined in a capture. -/
structure Rejoining (g : Graph Workspace) (keys : List String) (size : String → Nat) (slot : Nat)
    where
  sources : List Nat
  joint : Nat
  encoder : Nat
  keeper : Nat
  built : g.Built
  intact : (wiringOf g.nodes).Intact
  some_key : keys ≠ []
  distinct : keys.Nodup
  reads : List.Forall₂ (fun u key =>
    (sitesOf g.nodes)[u]? = some ⟨key, replay (.raw (size key)), []⟩) sources keys
  joins : ∃ key, (sitesOf g.nodes)[joint]? = some ⟨key, concatenate.aggregator, sources⟩
  encodes : ∃ key, (sitesOf g.nodes)[encoder]? = some ⟨key, encoding .identity, [joint]⟩
  keeps : ∃ key, (sitesOf g.nodes)[keeper]? = some ⟨key, capture slot, [encoder]⟩
  whole : ∀ m < g.nodes.length, m ∈ sources ∨ m = joint ∨ m = encoder ∨ m = keeper

theorem node_of_site {g : Graph Workspace} {m : Nat} {key : String} {c : Component Workspace}
    {needs : List Nat} (h : (sitesOf g.nodes)[m]? = some ⟨key, c, needs⟩) :
    ∃ n, g.nodes[m]? = some n ∧ n.key = key ∧ n.component = c ∧ n.needs = needs := by
  obtain ⟨n, hn, hsite⟩ := sitesOf_getElem?.mp h
  cases hsite
  exact ⟨n, hn, rfl, rfl, rfl⟩

namespace Rejoining

variable {g : Graph Workspace} {keys : List String} {size : String → Nat} {slot m : Nat}
  {n : Node Workspace} (L : g.Rejoining keys size slot)

include L

theorem joint_node : ∃ n, g.nodes[L.joint]? = some n ∧ n.component = concatenate.aggregator ∧
    n.needs = L.sources := by
  obtain ⟨key, hsite⟩ := L.joins
  obtain ⟨n, hn, -, hc, hneeds⟩ := node_of_site hsite
  exact ⟨n, hn, hc, hneeds⟩

theorem encoder_node : ∃ n, g.nodes[L.encoder]? = some n ∧ n.component = encoding .identity ∧
    n.needs = [L.joint] := by
  obtain ⟨key, hsite⟩ := L.encodes
  obtain ⟨n, hn, -, hc, hneeds⟩ := node_of_site hsite
  exact ⟨n, hn, hc, hneeds⟩

theorem keeper_node : ∃ n, g.nodes[L.keeper]? = some n ∧ n.component = capture slot ∧
    n.needs = [L.encoder] := by
  obtain ⟨key, hsite⟩ := L.keeps
  obtain ⟨n, hn, -, hc, hneeds⟩ := node_of_site hsite
  exact ⟨n, hn, hc, hneeds⟩

theorem sources_ne_nil : L.sources ≠ [] := fun h => by
  have hreads := L.reads
  rw [h] at hreads
  exact L.some_key (List.forall₂_nil_left_iff.mp hreads)

theorem live (hn : g.nodes[m]? = some n) : n.pruned = false := by
  simpa [wiringOf, hn] using (L.intact m).2

/-- What each node is there for. -/
theorem cases (hn : g.nodes[m]? = some n) :
    (n.key ∈ keys ∧ n.component = replay (.raw (size n.key)) ∧ n.needs = []) ∨
      n.needs ≠ [] ∧ (n.component = concatenate.aggregator ∨ n.component = encoding .identity ∨
        m = L.keeper ∧ n.component = capture slot) := by
  rcases L.whole m (List.getElem?_eq_some_iff.mp hn).1 with hm | rfl | rfl | rfl
  · obtain ⟨key, hkey, hsite⟩ := exists_of_forall₂ L.reads hm
    obtain ⟨n', hn', rfl, hc, hneeds⟩ := node_of_site hsite
    cases hn.symm.trans hn'
    exact Or.inl ⟨hkey, hc, hneeds⟩
  · obtain ⟨n', hn', hc, hneeds⟩ := L.joint_node
    cases hn.symm.trans hn'
    exact Or.inr ⟨hneeds ▸ L.sources_ne_nil, Or.inl hc⟩
  · obtain ⟨n', hn', hc, hneeds⟩ := L.encoder_node
    cases hn.symm.trans hn'
    exact Or.inr ⟨by simp [hneeds], Or.inr (Or.inl hc)⟩
  · obtain ⟨n', hn', hc, hneeds⟩ := L.keeper_node
    cases hn.symm.trans hn'
    exact Or.inr ⟨by simp [hneeds], Or.inr (Or.inr ⟨rfl, hc⟩)⟩

/-- Every node has a role: a root reads its feature back, and the others take what is like
bytes. -/
theorem roles : ∃ roles : Nat → Role Workspace ByteLike, g.Cast roles ∧
    ∀ (m : Nat) n, g.nodes[m]? = some n →
      (n.needs = [] → roles m = replaying (.raw (size n.key))) ∧
      (n.needs ≠ [] → ∀ {data}, ByteLike data → (roles m).Takes data) := by
  have hroles : ∀ m : Nat, ∃ role : Role Workspace ByteLike,
      role.Ready role.component.start Cache.empty ∧ role.component.Bare ∧
        ∀ n, g.nodes[m]? = some n → n.component = role.component ∧
          (n.needs = [] → role = replaying (.raw (size n.key))) ∧
          (n.needs ≠ [] → ∀ {data}, ByteLike data → role.Takes data) := by
    intro m
    cases hn : g.nodes[m]? with
    | none =>
      exact ⟨capturing slot, (fun _ h => nomatch h), capturing_bare slot, fun _ h => nomatch h⟩
    | some n =>
      rcases L.cases hn with ⟨-, hc, hroot⟩ | ⟨hneeds, hc | hc | ⟨-, hc⟩⟩
      · refine ⟨replaying (.raw (size n.key)), (fun _ h => nomatch h), replaying_bare _, ?_⟩
        rintro _ ⟨⟩
        exact ⟨hc, fun _ => rfl, fun hneeds => absurd hroot hneeds⟩
      · refine ⟨concatenating, fun chunk h => absurd h List.not_mem_nil, concatenating_bare, ?_⟩
        rintro _ ⟨⟩
        exact ⟨hc, fun hroot => absurd hroot hneeds, fun _ _ h => h⟩
      · refine ⟨copying, (fun _ h => nomatch h), copying_bare, ?_⟩
        rintro _ ⟨⟩
        exact ⟨hc, fun hroot => absurd hroot hneeds, fun _ _ h => h⟩
      · refine ⟨capturing slot, (fun _ h => nomatch h), capturing_bare slot, ?_⟩
        rintro _ ⟨⟩
        exact ⟨hc, fun hroot => absurd hroot hneeds, fun _ _ h => h⟩
  choose roles hready hbare hnodes using hroles
  exact ⟨roles, ⟨fun m n hn => (hnodes m n hn).1, hready, hbare⟩, fun m n hn => (hnodes m n hn).2⟩

/-- What a root puts out: the bytes of its key, in chunks. -/
def out (size : String → Nat) (data : String → Bytes) (g : Graph Workspace) (m : Nat) :
    List Payload :=
  (g.nodes[m]?.map fun n => chunksOf (size n.key) (data n.key)).getD []

omit L in
theorem out_eq {data : String → Bytes} (hn : g.nodes[m]? = some n) :
    out size data g m = chunksOf (size n.key) (data n.key) := by simp [out, hn]

omit L in
theorem byteLike_out {data : String → Bytes} : ∀ chunk ∈ out size data g m, ByteLike chunk := by
  unfold out
  cases g.nodes[m]? with
  | none => exact fun chunk h => absurd h List.not_mem_nil
  | some n => exact byteLike_chunksOf

variable {data : String → Bytes} {inputs : Inputs} {w : Workspace}

theorem key_of_root (hn : g.nodes[m]? = some n) (hroot : n.needs = []) : n.key ∈ keys := by
  rcases L.cases hn with ⟨hkey, -⟩ | ⟨hneeds, -⟩
  · exact hkey
  · exact absurd hroot hneeds

theorem inputs_suffice (h : Fed keys data inputs w) :
    (g.roots.all fun (key, _) => inputs.contains key) = true := by
  refine List.all_eq_true.mpr fun ⟨key, id⟩ hmem => ?_
  obtain ⟨n, hn, rfl, hroot⟩ := (mem_roots L.built.ready.distinct).mp hmem
  obtain ⟨stream, source, hinput, -⟩ := h.waits _ (L.key_of_root hn (List.isEmpty_iff.mp hroot))
  simp [Dictionary.contains, hinput]

theorem awaits (h : Fed keys data inputs w) {roles : Nat → Role Workspace ByteLike}
    (hroles : ∀ (m : Nat) n, g.nodes[m]? = some n → n.needs = [] →
      roles m = replaying (.raw (size n.key))) :
    Awaits roles (out size data g) (g.driven inputs) w := by
  have hready := L.built.ready
  refine ⟨?_, fun ⟨m, value⟩ hmem => ?_⟩
  · refine (nodup_driven hready inputs).of_map.map_on fun ⟨m, value⟩ hm ⟨m', value'⟩ hm' heq => ?_
    obtain rfl : value = value' := heq
    obtain ⟨n, hn, hroot, -, hinput⟩ := (mem_driven hready).mp hm
    obtain ⟨n', hn', hroot', -, hinput'⟩ := (mem_driven hready).mp hm'
    have hkey : n.key = n'.key := h.distinct _ (L.key_of_root hn (List.isEmpty_iff.mp hroot)) _
      (L.key_of_root hn' (List.isEmpty_iff.mp hroot')) (hinput.trans hinput'.symm)
    have hlt : m < (g.nodes.map (·.key)).length := by
      simpa using (List.getElem?_eq_some_iff.mp hn).1
    obtain rfl : m = m' := (List.getElem?_inj hlt hready.distinct).mp (by simp [hn, hn', hkey])
    rfl
  · obtain ⟨n, hn, hroot, -, hinput⟩ := (mem_driven hready).mp hmem
    have hroot := List.isEmpty_iff.mp hroot
    obtain ⟨stream, source, hinput', hsource, hlasts, hbytes⟩ := h.waits _ (L.key_of_root hn hroot)
    refine ⟨_, stream, source, hroles m n hn hroot, ?_, hsource, ?_⟩
    · exact Option.some.inj (hinput.symm.trans hinput')
    · rw [out_eq hn, raw_stream hlasts, hbytes]

/-- The run comes to its end, and every root puts out the bytes of its key. -/
theorem runs (h : Fed keys data inputs w) : (g.run inputs w).2 = .ok () ∧
    ∀ (m : Nat) n, g.nodes[m]? = some n → n.needs = [] →
      ∃ value, puttingOut m value (out size data g m) ∈ g.journal inputs w := by
  have hready := L.built.ready
  obtain ⟨roles, hcast, hroles⟩ := L.roles
  have hedges : ∀ {u m : Nat}, m ∈ (wiringOf g.nodes).listeners u → ∀ {chunk}, ByteLike chunk →
      (roles m).Takes chunk := fun {u m} hm {chunk} hchunk => by
    have hroot := hready.wired.not_root hm
    cases hn : g.nodes[m]? with
    | none => exact absurd (by simp [Wiring.Root, wiringOf, hn]) hroot
    | some n =>
      refine (hroles m n hn).2 (fun hneeds => hroot ?_) hchunk
      simp [Wiring.Root, wiringOf, hn, hneeds]
  obtain ⟨hok, hputs⟩ := hcast.runs hready (L.inputs_suffice h) hedges
    (fun _ _ _ _ _ hawaits hplays => hawaits.begins hplays) (fun _ _ => byteLike_out)
    (L.awaits h fun m n hn => (hroles m n hn).1)
  refine ⟨hok, fun m n hn hroot => ?_⟩
  obtain ⟨stream, source, hinput, -⟩ := h.waits _ (L.key_of_root hn hroot)
  exact ⟨_, hputs (m, .stored stream) ((mem_driven hready).mpr
    ⟨n, hn, List.isEmpty_iff.mpr hroot, L.live hn, hinput⟩)⟩

theorem nodup_sources : L.sources.Nodup := by
  have hkeys : List.Forall₂ (· = ·)
      (L.sources.map fun u => ((sitesOf g.nodes)[u]?.map (·.key)).getD "") keys :=
    List.forall₂_map_left_iff.mpr (L.reads.imp fun u key hsite => by simp [hsite])
  rw [List.forall₂_eq_eq_eq] at hkeys
  exact (hkeys ▸ L.distinct : (L.sources.map _).Nodup).of_map

/-! ## What the capture keeps -/

omit L in
/-- The chunks that were read back, joined. -/
theorem joined_chunks {us : List Nat} {sent : Nat → List Payload}
    (h : List.Forall₂ (fun u key => sent u = chunksOf (size key) (data key)) us keys) :
    Payload.joined (us.flatMap sent) = (keys.map data).flatten := by
  induction h with
  | nil => rfl
  | @cons u key us keys hu _ ih =>
    rw [List.flatMap_cons, Payload.joined, List.flatMap_append, ← Payload.joined, ← Payload.joined,
      hu, joined_chunksOf, ih]
    rfl

section Course

variable {all : Bool} {r₁ r₂ r₃ : Run Workspace} (h : g.Course w (.ok ()) all r₁ r₂ r₃)
  (hputs : ∀ (m : Nat) n, g.nodes[m]? = some n → n.needs = [] →
    ∃ value, puttingOut m value (out size data g m) ∈ r₃.journal.reverse)

include h hputs

/-- The sources have ended, and each has sent the bytes of its key. -/
theorem sent : List.Forall₂ (fun u key => Ended r₂.journal.reverse u ∧
    sentBy r₂.journal.reverse u = chunksOf (size key) (data key)) L.sources keys := by
  refine L.reads.imp fun u key hsite => ?_
  obtain ⟨n, hn, rfl, hc, hneeds⟩ := node_of_site hsite
  obtain ⟨value, hmem⟩ := hputs u n hn hneeds
  rw [out_eq hn] at hmem
  have hlast : ∀ c, c = replay (.raw (size n.key)) → ∀ s w, (c.lastChunk s w).1 = .ok [] := by
    rintro _ rfl s w
    rfl
  exact h.sent_of_root hn (List.isEmpty_iff.mpr hneeds) (L.live hn) (hlast _ hc)
    (h.mem_acts (mem_actsAt hmem) fun _ h => nomatch h)

/-- The parts are joined unless one of them is empty. -/
theorem joint_ended : Ended r₂.journal.reverse L.joint ↔ [] ∉ keys.map data := by
  obtain ⟨n, hn, -, hneeds⟩ := L.joint_node
  have hsent := L.sent h hputs
  rw [h.ended_iff L.built.ready hn (L.live hn) (L.intact _).1, hneeds]
  constructor
  · intro hall hempty
    obtain ⟨key, hkey, hnil⟩ := List.mem_map.mp hempty
    obtain ⟨u, hu, -, hchunks⟩ := exists_of_forall₂ (.flip hsent) hkey
    exact (hall u hu).2 (hchunks.trans (chunksOf_eq_nil.mpr hnil))
  · intro hnot u hu
    obtain ⟨key, hkey, hended, hchunks⟩ := exists_of_forall₂ hsent hu
    refine ⟨hended, fun hnil => hnot (List.mem_map.mpr ⟨key, hkey, ?_⟩)⟩
    exact chunksOf_eq_nil.mp (hchunks.symm.trans hnil)

theorem kept_nothing (hempty : [] ∈ keys.map data) :
    (r₂.acts L.keeper).flatMap Act.written = [] := by
  have hready := L.built.ready
  obtain ⟨n, hn, hc, hneeds⟩ := L.joint_node
  obtain ⟨n', hn', hc', hneeds'⟩ := L.encoder_node
  obtain ⟨n'', hn'', hc'', hneeds''⟩ := L.keeper_node
  have hjoint : sentBy r₂.journal.reverse L.joint = [] :=
    h.joins_nothing hready hn hc (hneeds ▸ L.sources_ne_nil)
      fun hended => (L.joint_ended h hputs).mp hended hempty
  have hencoder := (h.silent_of_silent hready hn' (hc' ▸ encoding_plain _) hneeds' (L.intact _).1
    (L.live hn') hjoint).2
  have hkeeper := (h.silent_of_silent hready hn'' (hc'' ▸ capture_plain _) hneeds'' (L.intact _).1
    (L.live hn'') hencoder).1
  refine List.flatMap_eq_nil_iff.mpr fun act hact => ?_
  cases act with
  | transform data result => exact absurd hact (hkeeper data result)
  | acquire | enqueue | dequeue | lastChunk | emit | release => rfl

theorem kept_all (hfull : [] ∉ keys.map data) :
    (r₂.acts L.keeper).flatMap Act.written = (keys.map data).flatten := by
  have hready := L.built.ready
  obtain ⟨n, hn, hc, hneeds⟩ := L.joint_node
  obtain ⟨n', hn', hc', hneeds'⟩ := L.encoder_node
  obtain ⟨n'', hn'', hc'', hneeds''⟩ := L.keeper_node
  have hended := (L.joint_ended h hputs).mpr hfull
  obtain ⟨-, hjoint⟩ :=
    h.joins hready hn hc (hneeds ▸ L.sources_ne_nil) (hneeds ▸ L.nodup_sources) hended
  rw [hneeds, joined_chunks ((L.sent h hputs).imp fun _ _ h => h.2)] at hjoint
  have hended' : Ended r₂.journal.reverse L.encoder := by
    rw [h.ended_iff hready hn' (L.live hn') (L.intact _).1, hneeds']
    simp [hended, hjoint]
  have hneeded : L.encoder ∈ (wiringOf g.nodes).needs L.keeper := by
    simp [Course.needs_eq hn'', hneeds'']
  obtain ⟨runs, hencoder, hruns⟩ := h.encoded hready hn' hc' hneeds'
    (h.sealed_of_ended hneeded (L.intact _).1 hended')
  rw [hjoint] at hruns
  cases hruns
  have hended'' : Ended r₂.journal.reverse L.keeper := by
    rw [h.ended_iff hready hn'' (L.live hn'') (L.intact _).1, hneeds'']
    simp [hended', hencoder]
  have hworked : (r₂.acts L.keeper).filterMap Act.worked? = _ :=
    h.worked_at_rest hready hn'' (hc'' ▸ capture_plain _) hneeds'' (L.intact _).1
  rw [flatMap_written (h.smooth_of_ended hended''), hworked, hencoder]
  simp [Payload.bytes?]

end Course

theorem gentle {k : Component Workspace} (hm : m ≠ L.keeper)
    (hk : (g.nodes.map (·.component))[m]? = some k) : k.Gentle SameCaptures := by
  rw [List.getElem?_map] at hk
  obtain ⟨n, hn, rfl⟩ := Option.map_eq_some_iff.mp hk
  rcases L.cases hn with ⟨-, hc, -⟩ | ⟨-, hc | hc | ⟨rfl, -⟩⟩
  · exact hc ▸ replay_gentle _
  · exact hc ▸ concatenate_gentle
  · exact hc ▸ encoding_gentle _
  · exact absurd rfl hm

/-- When the driving is over, the capture holds what its node has written. -/
theorem held {all : Bool} {r₁ r₂ r₃ : Run Workspace} {roles : Nat → Role Workspace ByteLike}
    (h : g.Course w (.ok ()) all r₁ r₂ r₃) (hcast : g.Cast roles)
    (hslot : slot < w.captures.length) (hempty : w.captured slot = []) :
    Holding slot L.keeper (g.nodes.map (·.component)) r₂ := by
  have hworld : r₁.world = w := (Acquires.of_bare h.opens hcast.bare_node).2
  have hfirst : Holding slot L.keeper (g.nodes.map (·.component)) r₁ := by
    refine ⟨h.opens.components, hworld ▸ hslot, ?_⟩
    rw [hworld, hempty, eq_comm, List.flatMap_eq_nil_iff]
    intro act hact
    have hbracket : act.isBracket = true := h.opens.silent L.keeper act hact
    cases act with
    | acquire | release => rfl
    | enqueue | dequeue | transform | lastChunk | emit => cases hbracket
  obtain ⟨n, hn, hc, -⟩ := L.keeper_node
  exact holding_steps h.steps (by simp [hn, hc]) (fun m k => L.gentle) hfirst

omit L in
/-- Nothing is stored, so releasing the nodes leaves the surroundings as they are. -/
theorem released {all : Bool} {r₁ r₂ r₃ : Run Workspace} {roles : Nat → Role Workspace ByteLike}
    (h : g.Course w (.ok ()) all r₁ r₂ r₃) (hcast : g.Cast roles)
    (hcomponents : r₂.nodes.map (·.component) = g.nodes.map (·.component)) :
    r₃.world = r₂.world := by
  refine (h.releases.of_bare fun m k hk => ?_).1
  have hcomponent : (g.nodes.map (·.component))[m]? = some k.component := by
    rw [← hcomponents, List.getElem?_map, hk]
    rfl
  rw [List.getElem?_map] at hcomponent
  obtain ⟨k', hk', heq⟩ := Option.map_eq_some_iff.mp hcomponent
  exact heq ▸ hcast.bare_node m k' hk'

/-- The run comes to its end, and the capture holds the parts, one after the other, unless one of
them is empty. -/
theorem process (hfed : Fed keys data inputs w) (hslot : slot < w.captures.length)
    (hempty : w.captured slot = []) : ∃ w', (g.process inputs w).2 = (w', .ok ()) ∧
      w'.captured slot = if [] ∈ keys.map data then [] else (keys.map data).flatten := by
  have hready := L.built.ready
  obtain ⟨roles, hcast, -⟩ := L.roles
  obtain ⟨hok, hputs⟩ := L.runs hfed
  obtain ⟨all, r₁, r₂, r₃, hcourse, hrun⟩ := course hready w (L.inputs_suffice hfed)
  rw [hok] at hcourse
  rw [journal, hrun] at hputs
  refine ⟨r₃.world, by simp only [Graph.process, hrun, hok], ?_⟩
  have hheld := L.held hcourse hcast hslot hempty
  rw [released hcourse hcast hheld.components, hheld.holds]
  split
  · rename_i hnil
    exact L.kept_nothing hcourse hputs hnil
  · rename_i hfull
    exact L.kept_all hcourse hputs hfull

end Rejoining

end Graph

end FeatureGraph
