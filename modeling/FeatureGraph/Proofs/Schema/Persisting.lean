-- What an ingestion that succeeds persists. A node ends only after all that it
-- needs has ended and has sent something, so a stored feature is persisted
-- exactly if every feature that it is worked out from has emitted a chunk, and
-- its encoder has too. In the other cases it is absent, and nothing says so.
import FeatureGraph.Proofs.Graph.Ending
import FeatureGraph.Proofs.Graph.Pruning
import FeatureGraph.Proofs.Schema.Replacing
import Mathlib.Logic.Relation

namespace FeatureGraph

/-- Storage keys of one entity are different for different features. -/
def KeyScheme.Separates (scheme : KeyScheme) : Prop :=
  ∀ id f f', scheme.build id f = scheme.build id f' → f = f'

theorem KeyScheme.delimited_separates (sep : String) : (delimited sep).Separates := by
  intro id f f' h
  have hlists : (id ++ sep ++ f).toList = (id ++ sep ++ f').toList := congrArg String.toList h
  simp only [String.toList_append, List.append_cancel_left_eq] at hlists
  exact String.toList_injective hlists

/-! ## Encoders that put out something -/

/-- The encoders that features come with. -/
inductive Encoder.BuiltIn : Encoder → Prop
  | identity : BuiltIn Encoder.identity
  | text : BuiltIn Encoder.text
  | json (kind : DocumentKind) : BuiltIn (Encoder.json kind)
  | array (t : Dtype) : BuiltIn (Encoder.array t)

namespace Encoder

variable {e : Encoder} {chunk : Payload} {rest : List Payload} {s : e.State} {runs : List Bytes}

theorem runsOf_cons_eq_ok (h : e.runsOf (chunk :: rest) s = .ok runs) :
    ∃ first s' others, e.encode chunk s = (.ok first, s') ∧ e.runsOf rest s' = .ok others ∧
      runs = first ++ others := by
  rw [runsOf] at h
  split at h
  · rename_i first s' heq
    cases hothers : e.runsOf rest s' with
    | error cause =>
      rw [hothers] at h
      cases h
    | ok others =>
      rw [hothers] at h
      cases h
      exact ⟨first, s', others, heq, hothers, rfl⟩
  · cases h

/-- A document is written at the end if there was one. -/
theorem json_writes {kind : DocumentKind} {latest : Option Json} {chunks : List Payload}
    {runs : List Bytes} (h : (json kind).runsOf chunks latest = .ok runs)
    (hsome : chunks ≠ [] ∨ latest ≠ none) : runs ≠ [] := by
  induction chunks generalizing latest runs with
  | nil =>
    cases h
    obtain ⟨doc, rfl⟩ := Option.ne_none_iff_exists'.mp (hsome.resolve_left fun h => h rfl)
    exact List.cons_ne_nil _ _
  | cons chunk rest ih =>
    obtain ⟨first, latest', others, hencode, hothers, rfl⟩ := runsOf_cons_eq_ok h
    have hlatest : latest' ≠ none := by
      simp only [json, document] at hencode
      split at hencode
      · cases hencode
        exact Option.some_ne_none _
      · cases hencode
    exact fun hnil => ih hothers (Or.inr hlatest) (List.append_eq_nil_iff.mp hnil).2

/-- Every encoder that features come with puts out something if it was given something. -/
theorem BuiltIn.writes (h : e.BuiltIn) {chunks : List Payload} (hchunks : chunks ≠ [])
    (hruns : e.runsOf chunks e.start = .ok runs) : runs ≠ [] := by
  obtain ⟨chunk, rest, rfl⟩ := List.exists_cons_of_ne_nil hchunks
  have hfirst : (∀ first s', e.encode chunk e.start = (.ok first, s') → first ≠ []) → runs ≠ [] :=
    fun hall hnil => by
      obtain ⟨first, s', others, hencode, -, rfl⟩ := runsOf_cons_eq_ok hruns
      exact hall first s' hencode (List.append_eq_nil_iff.mp hnil).1
  cases h with
  | identity =>
    refine hfirst fun first s' hencode => ?_
    simp only [Encoder.identity] at hencode
    split at hencode
    · cases hencode
      exact List.cons_ne_nil _ _
    · cases hencode
  | text =>
    refine hfirst fun first s' hencode => ?_
    simp only [Encoder.text] at hencode
    cases hbytes : textBytes chunk with
    | error cause =>
      rw [hbytes] at hencode
      cases hencode
    | ok bs =>
      rw [hbytes] at hencode
      cases hencode
      exact List.cons_ne_nil _ _
  | json kind => exact json_writes hruns (Or.inl hchunks)
  | array t =>
    -- without axes of a chunk before it, a chunk that is taken puts out a header
    refine hfirst fun first s' hencode => ?_
    simp only [Encoder.array, ArrayFormat.encodeChunk] at hencode
    split at hencode
    · split at hencode
      · cases hencode
      · split at hencode
        · cases hencode
        · split at hencode
          · cases hencode
            exact List.cons_ne_nil _ _
          · cases hencode
    · cases hencode

end Encoder

namespace Schema

/-! ## Accepted schemas -/

/-- Every feature stands under its own key. -/
def Keyed (features : Dictionary Feature) : Prop :=
  ∀ ⦃key f⦄, features.get? key = some f → f.key = key

/-- What holds of every feature whose key can be stored holds of all that were taken in. -/
theorem collect_keeps {I : String → Feature → Prop} {scheme : KeyScheme}
    {features features' : Dictionary Feature} {declarations : List Feature}
    (hnew : ∀ {f : Feature}, scheme.validate f.key = .ok () → I f.key f)
    (h : ∀ {key f}, features.get? key = some f → I key f)
    (hcollect : collect scheme features declarations = .ok features') {key : String} {f : Feature}
    (hf : features'.get? key = some f) : I key f := by
  induction declarations generalizing features with
  | nil =>
    cases hcollect
    exact h hf
  | cons g rest ih =>
    rw [collect] at hcollect
    split at hcollect
    · cases hcollect
    · split at hcollect
      · cases hcollect
      · rename_i hvalid
        refine ih (fun {key k} hk => ?_) hcollect
        rw [Dictionary.get?_insert] at hk
        split at hk
        · rename_i heq
          cases hk
          exact heq ▸ hnew hvalid
        · exact h hk

/-- What is taken in is put in, one after the other. -/
theorem collect_eq_ok {scheme : KeyScheme} {features features' : Dictionary Feature}
    {fs : List Feature} (h : collect scheme features fs = .ok features') :
    features' = fs.foldl (fun d f => d.insert f.key f) features := by
  induction fs generalizing features with
  | nil =>
    cases h
    rfl
  | cons f rest ih =>
    rw [collect] at h
    split at h
    · cases h
    · split at h
      · cases h
      · exact ih h

section Build

variable {name : String} {scheme : KeyScheme} {idSource : IdSource} {declarations : List Feature}
  {s : Schema}

theorem build_eq_ok (h : build name scheme idSource declarations = .ok s) :
    ∃ features, collect scheme Dictionary.empty declarations = .ok features ∧
      s = ⟨name, scheme, idSource, features⟩ := by
  unfold build at h
  split at h
  · cases h
  · split at h
    · cases h
    · rename_i features hcollect
      split at h
      · cases h
      · split at h
        · cases h
        · cases h
          exact ⟨features, hcollect, rfl⟩

theorem keyed_build (h : build name scheme idSource declarations = .ok s) : Keyed s.features := by
  obtain ⟨features, hcollect, rfl⟩ := build_eq_ok h
  exact fun key f hf => collect_keeps (I := fun key f => f.key = key) (fun _ => rfl)
    (fun h => by cases h) hcollect hf

/-- The key of every feature can be stored. -/
theorem validate_build (h : build name scheme idSource declarations = .ok s) {f : Feature}
    (hf : f ∈ s.features.values) : s.scheme.validate f.key = .ok () := by
  obtain ⟨features, hcollect, rfl⟩ := build_eq_ok h
  obtain ⟨key, hkey⟩ := Dictionary.mem_values.mp hf
  exact collect_keeps (I := fun _ f => scheme.validate f.key = .ok ()) (fun h => h)
    (fun h => by cases h) hcollect hkey

end Build

section Graph

variable {features : Dictionary Feature} {scheme : KeyScheme} {id : String} {g : Graph Workspace}
  {f : Feature} {m u v : Nat} {n : Node Workspace} {key : String}

theorem Keyed.get?_key (h : Keyed features) (hf : f ∈ features.values) :
    features.get? f.key = some f := by
  obtain ⟨key, hkey⟩ := Dictionary.mem_values.mp hf
  exact h hkey ▸ hkey

theorem Keyed.eq_of_key_eq (h : Keyed features) {f' : Feature} (hf : f ∈ features.values)
    (hf' : f' ∈ features.values) (hkey : f.key = f'.key) : f = f' :=
  Option.some.inj ((h.get?_key hf).symm.trans (hkey ▸ h.get?_key hf'))

theorem Keyed.needsOf_key (h : Keyed features) (hf : f ∈ features.values) :
    needsOf features f.key = f.needs := by
  rw [needsOf, h.get?_key hf]

/-! ## The nodes of a pruned graph -/

/-- A key is the key of one node. -/
theorem Stands.unique (hready : g.Ready) (h : Stands (sitesOf g.nodes) key m)
    (h' : Stands (sitesOf g.nodes) key u) : m = u := by
  have hplace : ∀ {k}, Stands (sitesOf g.nodes) key k → (g.nodes.map (·.key))[k]? = some key := by
    rintro k ⟨site, hsite, rfl⟩
    obtain ⟨n, hn, rfl⟩ := sitesOf_getElem?.mp hsite
    rw [List.getElem?_map, hn]
    rfl
  have hm := hplace h
  exact (List.getElem?_inj (List.getElem?_eq_some_iff.mp hm).1 hready.distinct).mp
    (hm.trans (hplace h').symm)

/-- The node of a feature's key is the one that works the feature out. -/
theorem Compiled.worksOut_of_stands (h : Compiled features scheme id g) (hkeyed : Keyed features)
    (hf : f ∈ features.values) (hm : Stands (sitesOf g.nodes) f.key m) :
    WorksOut features (sitesOf g.nodes) f m := by
  obtain ⟨u, f', hf', hkey, hworks, -⟩ := h.supplied f hf
  rw [hkeyed.eq_of_key_eq hf' hf hkey] at hworks
  exact Stands.unique h.built.ready hworks.stands hm ▸ hworks

/-- The providers of a feature's node work out what the feature needs. -/
theorem Compiled.providers (h : Compiled features scheme id g) (hkeyed : Keyed features)
    (hm : WorksOut features (sitesOf g.nodes) f m) (hn : g.nodes[m]? = some n) :
    List.Forall₂ (fun u key => ∃ p, features.get? key = some p ∧
      WorksOut features (sitesOf g.nodes) p u) n.needs f.needs := by
  obtain ⟨needs, hsite, hneeds⟩ := hm
  obtain ⟨n', hn', -, rfl⟩ := node_of_site hsite
  rw [hn] at hn'
  cases hn'
  refine hneeds.imp fun u key ⟨p, hp, hu⟩ => ⟨p, hp, ?_⟩
  exact h.worksOut_of_stands hkeyed (Dictionary.mem_values.mpr ⟨key, hp⟩) hu

/-- What is left of a full graph once it is pruned: a node that is left is left with all that it
needs, and every writer is left. -/
structure Spared (features : Dictionary Feature) (scheme : KeyScheme) (id : String)
    (g : Graph Workspace) : Prop extends Compiled features scheme id g where
  linked : ∀ {m}, g.keeps m = true → (wiringOf g.nodes).Linked m
  needs : ∀ {m n u}, g.nodes[m]? = some n → u ∈ n.needs → g.keeps m = true → g.keeps u = true
  writers : ∀ {f m}, f ∈ features.values → f.isStored = true →
    Writes features scheme id (sitesOf g.nodes) f m → g.keeps m = true

/-- A writer is no candidate, as it is no node of a feature. -/
theorem spared_prune {schema : String} (hkeyed : Keyed features)
    (hdetached : ∀ f ∈ features.values, f.component.Detached Workspace.SameStored)
    (hfull : fullGraph schema features scheme id = .ok g) :
    Spared features scheme id (g.prune (candidates features)).1 := by
  obtain ⟨hlaid, -⟩ := fullGraph_eq_ok hfull
  have hready := hlaid.built.ready
  have htrims := hready.trims_prune (candidates features)
  have hcompiled := compiled_prune hfull (candidates features)
  refine ⟨hcompiled, fun hm => htrims.linked (hlaid.intact _).1 hm, fun {m n u} hn hu hm => ?_,
    fun {f m} hf hstored hwrites => ?_⟩
  · have hsite := sitesOf_getElem?.mpr ⟨n, hn, rfl⟩
    rw [Graph.sitesOf_prune] at hsite
    obtain ⟨n', hn', -, hneeds⟩ := node_of_site hsite
    exact htrims.keeps_needs hlaid.intact hn' (hneeds ▸ hu) hm
  · obtain ⟨u, -, hsite⟩ := hwrites
    obtain ⟨n, hn, heq⟩ := sitesOf_getElem?.mp hsite
    have hkey : n.key = writerKey f.key := congrArg Site.key heq
    rw [Graph.keeps_eq hn, Bool.not_eq_true', Bool.eq_false_iff]
    intro hpruned
    have hmem := Graph.candidate_of_pruned (fun m => (hlaid.intact m).2) hn hpruned
    obtain ⟨f', hf', hcandidate⟩ := List.mem_map.mp hmem
    have hworks : WorksOut features (sitesOf (g.prune (candidates features)).1.nodes) f' m :=
      hcompiled.worksOut_of_stands hkeyed hf'
        ⟨_, hsite, hkey.symm.trans (congrArg Prod.fst hcandidate).symm⟩
    obtain ⟨needs, hsite', -⟩ := hworks
    rw [hsite] at hsite'
    have hcomponent : Component.storing (destination scheme id f) = f'.component :=
      congrArg Site.component (Option.some.inj hsite')
    exact Component.storing_not_detached _ (hcomponent ▸ hdetached f' hf')

/-! ## Which writers end -/

/-- What a feature is worked out from, at once or through others. -/
abbrev Needs (features : Dictionary Feature) : String → String → Prop :=
  Relation.ReflTransGen fun key need => need ∈ needsOf features key

/-- The node of a key has sent a chunk. -/
def Sends (g : Graph Workspace) (j : List JournalEntry) (key : String) : Prop :=
  ∃ m, Stands (sitesOf g.nodes) key m ∧ sentBy j m ≠ []

theorem Sends.of_stands {j : List JournalEntry} (hready : g.Ready)
    (hm : Stands (sitesOf g.nodes) key m) : Sends g j key ↔ sentBy j m ≠ [] := by
  refine ⟨fun ⟨u, hu, hsent⟩ => ?_, fun hsent => ⟨m, hm, hsent⟩⟩
  exact Stands.unique hready hu hm ▸ hsent

section Course

variable {w : Workspace} {all : Bool} {r₁ r₂ r₃ : Run Workspace}

/-- In a run that comes to its end the node of a feature has ended and has sent something exactly
if the nodes of all that the feature is worked out from have sent something. -/
theorem Spared.flows_iff (h : Spared features scheme id g) (hkeyed : Keyed features)
    (hcourse : g.Course w (.ok ()) all r₁ r₂ r₃) (hf : f ∈ features.values)
    (hm : WorksOut features (sitesOf g.nodes) f m) (hkept : g.keeps m = true) :
    Ended r₂.journal.reverse m ∧ sentBy r₂.journal.reverse m ≠ [] ↔
      ∀ key, Needs features f.key key → Sends g r₂.journal.reverse key := by
  have hready := h.built.ready
  induction m using Nat.strongRecOn generalizing f with
  | ind m ih =>
    have hworks := hm
    obtain ⟨needs, hsite, -⟩ := hm
    obtain ⟨n, hn, -⟩ := node_of_site hsite
    have hlive : n.pruned = false := by simpa [Graph.keeps_eq hn] using hkept
    have hproviders := h.providers hkeyed hworks hn
    have hprovider : ∀ {u key p}, u ∈ n.needs → features.get? key = some p →
        WorksOut features (sitesOf g.nodes) p u →
        (Ended r₂.journal.reverse u ∧ sentBy r₂.journal.reverse u ≠ [] ↔
          ∀ k, Needs features key k → Sends g r₂.journal.reverse k) := fun hu hp hpu => by
      rw [← hkeyed hp]
      refine ih _ ?_ (Dictionary.mem_values.mpr ⟨_, hp⟩) hpu (h.needs hn hu hkept)
      exact hready.wired.earlier (by simpa [wiringOf, hn] using hu)
    rw [hcourse.ended_iff hready hn hlive (h.linked hkept), ← Sends.of_stands hready hworks.stands]
    constructor
    · rintro ⟨hall, hsends⟩ key hneeds
      rcases Relation.ReflTransGen.cases_head hneeds with rfl | ⟨need, hneed, hrest⟩
      · exact hsends
      · rw [hkeyed.needsOf_key hf] at hneed
        obtain ⟨u, hu, p, hp, hpu⟩ := exists_of_forall₂ (.flip hproviders) hneed
        exact (hprovider hu hp hpu).mp (hall u hu) key hrest
    · refine fun hall => ⟨fun u hu => ?_, hall f.key .refl⟩
      obtain ⟨need, hneed, p, hp, hpu⟩ := exists_of_forall₂ hproviders hu
      refine (hprovider hu hp hpu).mpr fun key hneeds => hall key (.head ?_ hneeds)
      rwa [hkeyed.needsOf_key hf]

/-- A stored feature's chain is left whole: its node, its encoder and its writer. -/
theorem Spared.chain (h : Spared features scheme id g) (hf : f ∈ features.values)
    (hstored : f.isStored = true) (hm : Writes features scheme id (sitesOf g.nodes) f m) :
    ∃ u v nm nu, g.nodes[m]? = some nm ∧ nm.needs = [u] ∧ g.keeps m = true ∧
      g.nodes[u]? = some nu ∧ nu.component = Component.encoding f.encoder ∧ nu.needs = [v] ∧
      g.keeps u = true ∧ Stands (sitesOf g.nodes) (encoderKey f.key) u ∧
      WorksOut features (sitesOf g.nodes) f v ∧ g.keeps v = true := by
  have hkept := h.writers hf hstored hm
  obtain ⟨u, ⟨v, hworks, hencoder⟩, hwriter⟩ := hm
  obtain ⟨nm, hnm, -, hneeds⟩ := node_of_site hwriter
  obtain ⟨nu, hnu, hcomponent, hneedsu⟩ := node_of_site hencoder
  have hkeptu := h.needs hnm (u := u) (by simp [hneeds]) hkept
  exact ⟨u, v, nm, nu, hnm, hneeds, hkept, hnu, hcomponent, hneedsu, hkeptu, ⟨_, hencoder, rfl⟩,
    hworks, h.needs hnu (by simp [hneedsu]) hkeptu⟩

/-- The writer of a feature ends exactly if all that the feature is worked out from has sent
something, and its encoder has. -/
theorem Spared.writer_ended_iff (h : Spared features scheme id g) (hkeyed : Keyed features)
    (hcourse : g.Course w (.ok ()) all r₁ r₂ r₃) (hf : f ∈ features.values)
    (hstored : f.isStored = true) (hm : Writes features scheme id (sitesOf g.nodes) f m) :
    Ended r₂.journal.reverse m ↔
      (∀ key, Needs features f.key key → Sends g r₂.journal.reverse key) ∧
        Sends g r₂.journal.reverse (encoderKey f.key) := by
  have hready := h.built.ready
  obtain ⟨u, v, nm, nu, hnm, hneeds, hkept, hnu, -, hneedsu, hkeptu, hstands, hworks, hkeptv⟩ :=
    h.chain hf hstored hm
  rw [hcourse.ended_iff hready hnm (by simpa [Graph.keeps_eq hnm] using hkept) (h.linked hkept),
    hneeds, List.forall_mem_singleton, Sends.of_stands hready hstands,
    hcourse.ended_iff hready hnu (by simpa [Graph.keeps_eq hnu] using hkeptu) (h.linked hkeptu),
    hneedsu, List.forall_mem_singleton, h.flows_iff hkeyed hcourse hf hworks hkeptv]

/-- An encoder that features come with sends something as soon as its feature has ended. -/
theorem Spared.encoder_sends (h : Spared features scheme id g) (hkeyed : Keyed features)
    (hcourse : g.Course w (.ok ()) all r₁ r₂ r₃) (hf : f ∈ features.values)
    (hstored : f.isStored = true) (hencoder : f.encoder.BuiltIn)
    (hsends : ∀ key, Needs features f.key key → Sends g r₂.journal.reverse key) :
    Sends g r₂.journal.reverse (encoderKey f.key) := by
  have hready := h.built.ready
  obtain ⟨k, f', hf', hkey, -, hwritten⟩ := h.supplied f hf
  cases hkeyed.eq_of_key_eq hf' hf hkey
  obtain ⟨m, hm⟩ := hwritten hstored
  obtain ⟨u, v, nm, nu, hnm, hneeds, hkept, hnu, hcomponent, hneedsu, hkeptu, hstands, hworks,
    hkeptv⟩ := h.chain hf hstored hm
  have hgiven := (h.flows_iff hkeyed hcourse hf hworks hkeptv).mpr hsends
  have hended : Ended r₂.journal.reverse u := by
    rw [hcourse.ended_iff hready hnu (by simpa [Graph.keeps_eq hnu] using hkeptu)
      (h.linked hkeptu), hneedsu, List.forall_mem_singleton]
    exact hgiven
  have hsealed := hcourse.sealed_of_ended (m := m) (by simp [wiringOf, hnm, hneeds])
    (h.linked hkept) hended
  obtain ⟨runs, hsent, hruns⟩ := hcourse.encoded hready hnu hcomponent hneedsu hsealed
  refine (Sends.of_stands hready hstands).mpr ?_
  rw [hsent, ne_eq, List.map_eq_nil_iff]
  exact hencoder.writes hgiven.2 hruns

/-- What a run that answers has stored under a key that was free: the value of a feature whose
writer has ended. -/
theorem Spared.held_iff (h : Spared features scheme id g) (hkeyed : Keyed features)
    (hdetached : ∀ f ∈ features.values, f.component.Detached Workspace.SameStored)
    (hcourse : g.Course w (.ok ()) all r₁ r₂ r₃) (hlog : ¬ w.KeepsLogAt key)
    (hnone : w.held? key = none) :
    (r₃.world.held? key).isSome = true ↔ ∃ f ∈ features.values, scheme.build id f.key = key ∧
      f.isStored = true ∧ (∀ k, Needs features f.key k → Sends g r₂.journal.reverse k) ∧
        Sends g r₂.journal.reverse (encoderKey f.key) := by
  have hcompiled := h.toCompiled
  constructor
  · intro hsome
    rcases hcompiled.stored hdetached hcourse hlog with
      ⟨-, hheld⟩ | ⟨before, m, after, value, hids, hcommits, -, -⟩
    · rw [hheld, hnone] at hsome
      cases hsome
    · obtain ⟨f, data, released, hdelivers, hkey, -⟩ :=
        hcompiled.delivers_of_commits hdetached hcourse (by simp [hids]) hcommits
      obtain ⟨last, hlast⟩ := hdelivers.ended
      have hended : Ended r₂.journal.reverse m := ⟨last, hcourse.mem_acts hlast (by simp)⟩
      exact ⟨f, hdelivers.declared, hkey.symm, hdelivers.isStored,
        (h.writer_ended_iff hkeyed hcourse hdelivers.declared hdelivers.isStored
          hdelivers.writes).mp hended⟩
  · rintro ⟨f, hf, rfl, hstored, hsends⟩
    obtain ⟨k, f', hf', hkey, -, hwritten⟩ := h.supplied f hf
    cases hkeyed.eq_of_key_eq hf' hf hkey
    obtain ⟨m, hm⟩ := hwritten hstored
    have hended := (h.writer_ended_iff hkeyed hcourse hf hstored hm).mpr hsends
    obtain ⟨u, v, nm, nu, hnm, -, hkept, -⟩ := h.chain hf hstored hm
    obtain ⟨n₂, hn₂, hacquired, hacts⟩ :=
      hcourse.answered h.built.ready hnm (by simpa [Graph.keeps_eq hnm] using hkept)
    obtain ⟨s, writer, hsession, hwriter, hfinished⟩ :=
      hcompiled.session hcourse hm hn₂ hacquired
    have hdone := hfinished.mpr hended
    obtain ⟨hplace, -⟩ :=
      hcompiled.whole hcourse hm hn₂ hacquired hsession hwriter hdone
    have hcommits : Run.Commits r₂ r₃ m (scheme.build id f.key)
        (r₂.world.kept writer.contentType writer.data) :=
      ⟨n₂, s, writer, .ok (), hn₂, hsession, hwriter, hdone, hplace, rfl, hacts, by simp⟩
    rcases hcompiled.stored hdetached hcourse hlog with
      ⟨hnot, -⟩ | ⟨before, k, after, value, -, -, -, hheld⟩
    · exact absurd hcommits (hnot m (Run.mem_idsOf.mpr ⟨n₂, hn₂, hacquired⟩) _)
    · rw [hheld]
      rfl

end Course

end Graph

/-! ## What an ingestion persists -/

section Process

variable {s : Schema} {inputs : Inputs} {w : Workspace} {id key : String} {g : Graph Workspace}
  {f : Feature}

/-- In the course of an ingestion the node of a key sends a chunk, from its work or at its end. -/
def Emits (s : Schema) (inputs : Inputs) (w : Workspace) (key : String) : Prop :=
  ∃ id g, s.Starts inputs w id g ∧ Sends g (g.journal inputs (w.newId s.idSource inputs).2) key

theorem Starts.emits_iff (h : s.Starts inputs w id g) : s.Emits inputs w key ↔
    Sends g (g.journal inputs (w.newId s.idSource inputs).2) key := by
  refine ⟨fun ⟨id', g', hstarts, hsends⟩ => ?_, fun hsends => ⟨id, g, h, hsends⟩⟩
  obtain ⟨rfl, rfl⟩ := h.unique hstarts
  exact hsends

/-- A feature comes to be persisted: it is stored, every feature that it is worked out from, and
itself, has emitted a chunk, and its encoder has. -/
def Persists (s : Schema) (inputs : Inputs) (w : Workspace) (f : Feature) : Prop :=
  f.isStored = true ∧ (∀ key, Needs s.features f.key key → s.Emits inputs w key) ∧
    s.Emits inputs w (encoderKey f.key)

/-- An ingestion that answers, as a run of what is left of the full graph. -/
theorem course_of_process_eq_ok (hkeyed : Keyed s.features)
    (hdetached : ∀ f ∈ s.features.values, f.component.Detached Workspace.SameStored)
    (hok : (s.process inputs w).1 = .ok id) :
    ∃ g all r₁ r₂ r₃, Spared s.features s.scheme id g ∧
      g.Course (w.newId s.idSource inputs).2 (.ok ()) all r₁ r₂ r₃ ∧
      (s.process inputs w).2 = r₃.world ∧
      ∀ key, s.Emits inputs w key ↔ Sends g r₂.journal.reverse key := by
  obtain ⟨g, hstarts, hrun⟩ := process_eq_ok.mp hok
  have hspared : Spared s.features s.scheme id g := by
    obtain ⟨-, full, hfull, rfl⟩ := hstarts
    exact spared_prune hkeyed hdetached hfull
  obtain ⟨all, r₁, r₂, r₃, ends, hcourse, hworld, hjournal, hbracket⟩ :=
    Graph.course_of_ok hspared.built.ready hrun
  refine ⟨g, all, r₁, r₂, r₃, hspared, hcourse, ?_, fun key => ?_⟩
  · rw [hstarts.world]
    exact hworld
  · rw [hstarts.emits_iff, hjournal]
    simp only [Sends, sentBy_append hbracket]

/-- What an ingestion that answers has persisted for the new entity: under a storage key that was
free there is a value exactly if a feature of that key comes to be persisted. If the scheme gives
different features different keys, that is the feature itself. And an encoder that features come
with emits something as soon as it is given something. -/
theorem ingestion_persists_iff {name : String} {scheme : KeyScheme} {idSource : IdSource}
    {declarations : List Feature} (hbuild : build name scheme idSource declarations = .ok s)
    (hdetached : ∀ f ∈ s.features.values, f.component.Detached Workspace.SameStored)
    (hok : (s.process inputs w).1 = .ok id) (hf : f ∈ s.features.values)
    (hlog : ¬ w.KeepsLogAt (s.scheme.build id f.key))
    (hnone : w.held? (s.scheme.build id f.key) = none) :
    (((s.process inputs w).2.held? (s.scheme.build id f.key)).isSome = true ↔
        ∃ f' ∈ s.features.values, s.scheme.build id f'.key = s.scheme.build id f.key ∧
          s.Persists inputs w f') ∧
      (s.scheme.Separates →
        (((s.process inputs w).2.held? (s.scheme.build id f.key)).isSome = true ↔
          s.Persists inputs w f)) ∧
      (f.encoder.BuiltIn → (s.Persists inputs w f ↔
        f.isStored = true ∧ ∀ key, Needs s.features f.key key → s.Emits inputs w key)) := by
  have hkeyed := keyed_build hbuild
  have hnew := Workspace.untouched_newId w s.idSource inputs
  obtain ⟨g, all, r₁, r₂, r₃, hspared, hcourse, hworld, hemits⟩ :=
    course_of_process_eq_ok hkeyed hdetached hok
  have hpersists : ∀ f, s.Persists inputs w f ↔ f.isStored = true ∧
      (∀ k, Needs s.features f.key k → Sends g r₂.journal.reverse k) ∧
        Sends g r₂.journal.reverse (encoderKey f.key) := fun f => by
    simp only [Persists, hemits]
  have hheld := hspared.held_iff hkeyed hdetached hcourse
    (mt (Workspace.keepsLogAt_congr hnew.layout).mp hlog) ((hnew.held _).trans hnone)
  simp only [← hpersists, ← hworld] at hheld
  refine ⟨hheld, fun hseparates => hheld.trans ⟨?_, fun h => ⟨f, hf, rfl, h⟩⟩, fun hencoder => ?_⟩
  · rintro ⟨f', hf', hsame, h⟩
    exact hkeyed.eq_of_key_eq hf' hf (hseparates id _ _ hsame) ▸ h
  · rw [hpersists]
    simp only [hemits]
    refine ⟨fun h => ⟨h.1, h.2.1⟩, fun ⟨hstored, hsends⟩ => ⟨hstored, hsends, ?_⟩⟩
    exact hspared.encoder_sends hkeyed hcourse hf hstored hencoder hsends

end Process

/-! ## A feature that says nothing -/

/-- It is worked out of the text, and puts out nothing. -/
def mute : Feature :=
  { Feature.new "b" (.stateless fun _ => .ok []) with needs := ["a"], isStored := true }

def muted : Schema := ⟨"s", .delimited ":", .input "id", texts.features.insert "b" mute⟩

theorem muted_detached :
    ∀ f ∈ muted.features.values, f.component.Detached Workspace.SameStored := by
  intro f hf
  rcases List.mem_pair.mp (show f ∈ [text, mute] from hf) with rfl | rfl
  · exact Component.byteStream_detached .refl 1
  · exact Component.stateless_detached .refl _

/-- The ingestion answers, and the text is persisted. The other feature is absent. -/
theorem mute_is_absent :
    build "s" (.delimited ":") (.input "id") [text, mute] = .ok muted ∧
      (muted.process (textInputs "x") blank).1 = .ok "e" ∧
      (∀ f ∈ muted.features.values, ¬ blank.KeepsLogAt (muted.scheme.build "e" f.key) ∧
        blank.held? (muted.scheme.build "e" f.key) = none) ∧
      muted.Persists (textInputs "x") blank text ∧ ¬ muted.Persists (textInputs "x") blank mute := by
  have hbuild : build "s" (.delimited ":") (.input "id") [text, mute] = .ok muted := rfl
  have hok : (muted.process (textInputs "x") blank).1 = .ok "e" := by decide +kernel
  have htext := (ingestion_persists_iff hbuild muted_detached hok (f := text)
    (by exact List.mem_cons_self) (blank_keeps_no_log _) rfl).2.1 (KeyScheme.delimited_separates _)
  have hmute := (ingestion_persists_iff hbuild muted_detached hok (f := mute)
    (by exact List.mem_cons_of_mem _ List.mem_cons_self) (blank_keeps_no_log _) rfl).2.1
    (KeyScheme.delimited_separates _)
  refine ⟨hbuild, hok, fun f _ => ⟨blank_keeps_no_log _, rfl⟩, htext.mp ?_, fun h => ?_⟩
  · decide +kernel
  · have habsent : ¬ ((muted.process (textInputs "x") blank).2.held?
        (muted.scheme.build "e" mute.key)).isSome = true := by decide +kernel
    exact habsent (hmute.mpr h)

end Schema

end FeatureGraph
