-- Which accepted schemas compile. The graph of a schema has nodes of its own
-- beside those of the features: an encoder and a writer for each feature that
-- is stored. Their keys may be keys of features, which building a schema does
-- not refuse. Then, and only then, a node is refused, and there is no graph.
import FeatureGraph.Proofs.Schema.Retracing
import Mathlib.Data.List.Pairwise

namespace FeatureGraph.Schema

open Procedure

/-- The keys of the nodes that store a feature. -/
def storingKeys (f : Feature) : List String :=
  if f.isStored then [encoderKey f.key, writerKey f.key] else []

theorem mem_storingKeys {f : Feature} {key : String} : key ∈ storingKeys f ↔
    f.isStored = true ∧ (key = encoderKey f.key ∨ key = writerKey f.key) := by
  unfold storingKeys
  split <;> simp [*]

/-- A feature has the key of a node that stores a feature. -/
def Clashes (features : Dictionary Feature) (key : String) : Prop :=
  key ∈ features.keys ∧ ∃ f ∈ features.values, key ∈ storingKeys f

/-- The keys of the nodes of a feature. -/
def nodeKeys (features : Dictionary Feature) (key : String) : List String :=
  key :: ((features.get? key).map storingKeys).getD []

section Full

variable {features : Dictionary Feature} {scheme : KeyScheme} {id : String} {d d' : Draft}
  {f : Feature} {rank : String → Nat} {depth m : Nat} {p : String → Prop}

theorem nodeKeys_key (hkeyed : Keyed features) (hf : f ∈ features.values) :
    nodeKeys features f.key = f.key :: storingKeys f := by
  rw [nodeKeys, hkeyed.get?_key hf]
  rfl

/-! ## Drafts of full graphs -/

/-- What holds of the draft of a full graph: its nodes are those of the features that were
met. -/
structure Filled (features : Dictionary Feature) (d : Draft) : Prop extends d.Whole where
  placed : ∀ key m, (key, m) ∈ d.placed → Stands d.sites key m
  declared : ∀ key ∈ d.placed.map Prod.fst, key ∈ features.keys
  keys : keysOf d.sites = d.placed.reverse.flatMap fun e => nodeKeys features e.1

theorem Filled.mem_keys (h : Filled features d) {key : String} (hkey : key ∈ keysOf d.sites) :
    ∃ k ∈ d.placed.map Prod.fst, key ∈ nodeKeys features k := by
  rw [h.keys, List.mem_flatMap] at hkey
  obtain ⟨e, he, hkey⟩ := hkey
  exact ⟨e.1, List.mem_map_of_mem (List.mem_reverse.mp he), hkey⟩

/-- The failure of a node that is refused because a feature has its key, or it that of a
feature. -/
def Refused (features : Dictionary Feature) (e : Failure) : Prop :=
  ∃ key, Clashes features key ∧ e = .graph (.duplicateNode key)

/-- A new node of a feature is refused only in a clash. -/
theorem Filled.clashes (h : Filled features d) (hkeyed : Keyed features) (hf : f ∈ features.values)
    (hnew : f.key ∉ d.placed.map Prod.fst) {key : String} (hkey : key ∈ f.key :: storingKeys f)
    (hmem : key ∈ keysOf d.sites) : Clashes features key := by
  obtain ⟨k, hk, hnode⟩ := h.mem_keys hmem
  obtain ⟨g, hget⟩ := Dictionary.mem_keys.mp (h.declared k hk)
  obtain rfl : g.key = k := hkeyed hget
  have hg : g ∈ features.values := Dictionary.mem_values.mpr ⟨_, hget⟩
  have hne : f.key ≠ g.key := fun heq => hnew (heq ▸ hk)
  rw [nodeKeys_key hkeyed hg] at hnode
  rcases List.mem_cons.mp hkey with rfl | hstoring
  · rcases List.mem_cons.mp hnode with heq | hstoring
    · exact absurd heq hne
    · exact ⟨Dictionary.mem_keys.mpr ⟨f, hkeyed.get?_key hf⟩, g, hg, hstoring⟩
  · rcases List.mem_cons.mp hnode with rfl | hother
    · exact ⟨h.declared _ hk, f, hf, hstoring⟩
    · obtain ⟨-, rfl | rfl⟩ := mem_storingKeys.mp hstoring
      · obtain ⟨-, heq | heq⟩ := mem_storingKeys.mp hother
        · exact absurd (encoderKey_inj.mp heq) hne
        · exact absurd heq (encoderKey_ne_writerKey _ _)
      · obtain ⟨-, heq | heq⟩ := mem_storingKeys.mp hother
        · exact absurd heq.symm (encoderKey_ne_writerKey _ _)
        · exact absurd (writerKey_inj.mp heq) hne

/-- The encoder and the writer of a feature are added, unless there is a node of the key of
one. -/
theorem yields_addWriter (h : d.Whole) (hm : m < d.sites.length) :
    (addWriter scheme id f m).Yields d
      (fun _ d' => d'.Whole ∧ d.sites <+: d'.sites ∧ d'.placed = d.placed ∧
        keysOf d'.sites = keysOf d.sites ++ [encoderKey f.key, writerKey f.key])
      fun e => ∃ key, (key = encoderKey f.key ∨ key = writerKey f.key) ∧ key ∈ keysOf d.sites ∧
        e = .graph (.duplicateNode key) := by
  refine (yields_chain (encoderKey_ne_writerKey _ _).symm h hm).mono ?_ ?_
  · rintro - d' ⟨hwhole, hsites, hplaced, -⟩
    refine ⟨hwhole, ?_, hplaced, ?_⟩
    · rw [hsites]
      exact List.prefix_append ..
    · rw [hsites, keysOf_append]
      rfl
  · rintro e ⟨key, hkey, hmem, rfl⟩
    exact ⟨key, by simpa using hkey, hmem, rfl⟩

/-- The nodes that store a feature are added if it is stored, and the work goes on. -/
theorem yields_storing {α : Type} {k : Unit → Drafting α} {good : α → Draft → Prop}
    {wrong : Failure → Prop} (h : d.Whole) (hm : m < d.sites.length)
    (hgood : ∀ d', d'.Whole → d.sites <+: d'.sites → d'.placed = d.placed →
      keysOf d'.sites = keysOf d.sites ++ storingKeys f → (k ()).Yields d' good wrong)
    (hwrong : ∀ key ∈ storingKeys f, key ∈ keysOf d.sites → wrong (.graph (.duplicateNode key))) :
    (if f.isStored then addWriter scheme id f m >>= k else k ()).Yields d good wrong := by
  unfold storingKeys at hgood hwrong
  split
  · rename_i hstored
    rw [if_pos hstored] at hwrong
    refine yields_bind ((yields_addWriter h hm).mono ?_ ?_)
    · rintro - d' ⟨hwhole, hmore, hplaced, hkeys⟩
      exact hgood d' hwhole hmore hplaced (by rw [hkeys, if_pos hstored])
    · rintro e ⟨key, hkey, hmem, rfl⟩
      exact hwrong key (by simpa using hkey) hmem
  · rename_i hnot
    exact hgood d h List.prefix_rfl rfl (by rw [if_neg hnot, List.append_nil])

/-- With the nodes of one feature more, and with that feature remembered, the draft is as it was. -/
theorem Filled.settle (h : Filled features d) (hkeyed : Keyed features) (hf : f ∈ features.values)
    (hwhole : d'.Whole) (hsites : d.sites <+: d'.sites) (hnode : Stands d'.sites f.key m)
    (hplaced : d'.placed = (f.key, m) :: d.placed)
    (hkeys : keysOf d'.sites = keysOf d.sites ++ f.key :: storingKeys f) : Filled features d' := by
  refine ⟨hwhole, fun key m hmem => ?_, ?_, ?_⟩
  · rw [hplaced] at hmem
    rcases List.mem_cons.mp hmem with heq | hmem
    · cases heq
      exact hnode
    · exact (h.placed key m hmem).mono hsites
  · rw [hplaced]
    exact List.forall_mem_cons.mpr
      ⟨Dictionary.mem_keys.mpr ⟨f, hkeyed.get?_key hf⟩, h.declared⟩
  · rw [hkeys, hplaced, h.keys, List.reverse_cons, List.flatMap_append, List.flatMap_singleton,
      nodeKeys_key hkeyed hf]

/-- Once all that it needs is there, the nodes of a feature are added. -/
theorem yields_settle (hkeyed : Keyed features) (h : Filled features d) (hf : f ∈ features.values)
    (hnew : f.key ∉ d.placed.map Prod.fst) {needs : List Nat}
    (hneeds : ∀ u ∈ needs, u < d.sites.length) :
    (do
      let node ← Draft.addNode f.key f.component needs
      Draft.place f.key node
      if f.isStored then addWriter scheme id f node else pure ()
      pure node : Drafting Nat).Yields d
        (fun m d' => Filled features d' ∧ d.Meets (· = f.key) d' ∧ (f.key, m) ∈ d'.placed)
        (Refused features) := by
  refine yields_bind ((yields_addNode h.toWhole hneeds).mono ?_ ?_)
  · rintro _ d₁ ⟨rfl, hadded⟩
    have hkeys : keysOf d₁.sites = keysOf d.sites ++ [f.key] := by
      rw [hadded.sites, keysOf_append]
      rfl
    have hnode : Stands d₁.sites f.key d.sites.length := by
      rw [hadded.sites]
      exact stands_concat.mpr (Or.inl ⟨rfl, rfl⟩)
    have hwhole : ({ d₁ with placed := (f.key, d.sites.length) :: d₁.placed } : Draft).Whole :=
      ⟨hadded.whole.built, hadded.whole.intact⟩
    refine yields_bind (yields_place (yields_storing hwhole hnode.lt ?_ ?_))
    · intro d₂ hwhole₂ hmore hplaced hkeys₂
      have hplaced : d₂.placed = (f.key, d.sites.length) :: d.placed := by
        rw [hplaced, hadded.placed]
      have hmore : d₁.sites <+: d₂.sites := hmore
      have hall : d.sites <+: d₂.sites := by
        rw [hadded.sites] at hmore
        exact (List.prefix_append ..).trans hmore
      have hsame : keysOf d₂.sites = keysOf d₁.sites ++ storingKeys f := hkeys₂
      rw [hkeys, List.append_assoc, List.singleton_append] at hsame
      refine yields_pure ⟨h.settle hkeyed hf hwhole₂ hall (hnode.mono hmore) hplaced hsame,
        Draft.meets_place hall hplaced, ?_⟩
      rw [hplaced]
      exact List.mem_cons_self
    · intro key hstoring hmem
      have hmem : key ∈ keysOf d₁.sites := hmem
      rw [hkeys, List.mem_append, List.mem_singleton] at hmem
      rcases hmem with hmem | rfl
      · exact ⟨key, h.clashes hkeyed hf hnew (List.mem_cons_of_mem _ hstoring) hmem, rfl⟩
      · obtain ⟨-, heq | heq⟩ := mem_storingKeys.mp hstoring
        · exact absurd heq.symm (encoderKey_ne_self _)
        · exact absurd heq.symm (writerKey_ne_self _)
  · rintro e ⟨hkey, rfl⟩
    exact ⟨_, h.clashes hkeyed hf hnew List.mem_cons_self hkey, rfl⟩

/-- A feature is added with all that it needs. The features that are met on the way have no higher
rank. -/
theorem yields_addFeature (haccepted : Accepted features) (hrank : Ranking features rank)
    (hf : f ∈ features.values) (hdepth : rank f.key < depth) (h : Filled features d) :
    (addFeature features scheme id depth f).Yields d
      (fun m d' => Filled features d' ∧ d.Meets (rank · ≤ rank f.key) d' ∧ (f.key, m) ∈ d'.placed)
      (Refused features) := by
  induction depth generalizing f d with
  | zero => exact absurd hdepth (Nat.not_lt_zero _)
  | succ depth ih =>
    rw [addFeature]
    refine yields_bind (yields_placed (fun m hm => yields_pure ⟨h, .refl _ _, hm⟩) fun hnew => ?_)
    have hcollect := yields_needs haccepted hrank hf (I := Filled features)
      (addFeature features scheme id depth) (Refused features)
      (fun h hplaced => h.placed _ _ hplaced)
      (fun p hp hneed d h => ih hp (Nat.lt_of_lt_of_le (hrank.lt hf hneed) (by omega)) h) h hnew
    refine yields_bind (hcollect.mono ?_ fun _ h => h)
    rintro needs d₁ ⟨h₁, hmeets, hstill, hneeds⟩
    have hrange : ∀ u ∈ needs, u < d₁.sites.length := fun u hu => by
      obtain ⟨_, -, _, -, hstands⟩ := exists_of_forall₂ hneeds hu
      exact hstands.lt
    refine (yields_settle haccepted.keyed h₁ hf hstill hrange).mono ?_ fun _ h => h
    rintro m d₂ ⟨h₂, hmeets₂, hplaced⟩
    refine ⟨h₂, (hmeets.mono fun _ hlt => Nat.le_of_lt hlt).trans (hmeets₂.mono ?_), hplaced⟩
    rintro _ rfl
    exact Nat.le_refl _

/-- All features of an accepted schema are added. -/
theorem yields_addAll (scheme : KeyScheme) (id : String) (haccepted : Accepted features)
    (name : String) :
    (each (fun f => do
        let _ ← addFeature features scheme id (features.size + 1) f
        pure ()) features.values : Drafting Unit).Yields (Draft.empty name)
      (fun _ d' => Filled features d' ∧ ∀ f ∈ features.values, f.key ∈ d'.placed.map Prod.fst)
      (Refused features) := by
  obtain ⟨rank, hrank⟩ := haccepted.ranked
  have hempty : Filled features (Draft.empty name) :=
    ⟨Draft.whole_empty name, by simp [Draft.empty], by simp [Draft.empty], rfl⟩
  have hnone : ∀ f ∈ ([] : List Feature), f.key ∈ (Draft.empty name).placed.map Prod.fst := by simp
  refine (yields_each (I := fun done d => Filled features d ∧
    ∀ f ∈ done, f.key ∈ d.placed.map Prod.fst) features.values ?_
    ⟨hempty, hnone⟩).mono (fun _ d h => by simpa using h) fun _ h => h
  rintro f hf done d ⟨h, hdone⟩
  refine yields_bind ((yields_addFeature haccepted hrank hf
    (Nat.lt_succ_of_lt (hrank.lt_size hf)) h).mono ?_ fun _ h => h)
  rintro m d' ⟨h', hmeets, hplaced⟩
  refine yields_pure ⟨h', fun g hg => ?_⟩
  rcases List.mem_append.mp hg with hg | hg
  · exact List.map_subset _ hmeets.placed (hdone g hg)
  · rw [List.mem_singleton.mp hg]
    exact List.mem_map_of_mem hplaced

/-- No two nodes have one key, so where all features are met there is no clash. -/
theorem Filled.not_clashes (h : Filled features d) (hkeyed : Keyed features)
    (hall : ∀ f ∈ features.values, f.key ∈ d.placed.map Prod.fst) (key : String) :
    ¬ Clashes features key := by
  rintro ⟨hkey, f, hf, hstoring⟩
  obtain ⟨g, hget⟩ := Dictionary.mem_keys.mp hkey
  obtain rfl : g.key = key := hkeyed hget
  have hg : g ∈ features.values := Dictionary.mem_values.mpr ⟨_, hget⟩
  have hmeets : ∀ g ∈ features.values, ∃ e ∈ d.placed.reverse, e.1 = g.key := fun g hg => by
    simpa using hall g hg
  obtain ⟨e, he, hfkey⟩ := hmeets f hf
  obtain ⟨e', he', hgkey⟩ := hmeets g hg
  have hne : e ≠ e' := by
    rintro rfl
    obtain ⟨-, heq | heq⟩ := mem_storingKeys.mp hstoring
    · exact encoderKey_ne_self f.key (heq.symm.trans (hgkey.symm.trans hfkey))
    · exact writerKey_ne_self f.key (heq.symm.trans (hgkey.symm.trans hfkey))
  have hnodup := h.nodup
  rw [h.keys, List.nodup_flatMap] at hnodup
  have : Std.Symm (Function.onFun List.Disjoint fun e : String × Nat => nodeKeys features e.1) :=
    ⟨fun _ _ h _ hb ha => h ha hb⟩
  have hapart : (nodeKeys features e.1).Disjoint (nodeKeys features e'.1) :=
    hnodup.2.forall he he' hne
  rw [hfkey, hgkey, nodeKeys_key hkeyed hf] at hapart
  exact hapart (List.mem_cons_of_mem _ hstoring) List.mem_cons_self

/-- The draft of a full graph comes to its end, unless a node of a feature is refused. -/
theorem fullGraph_drafts (scheme : KeyScheme) (id : String) (haccepted : Accepted features)
    (schema : String) :
    (∃ d, fullGraph schema features scheme id = .ok d.graph ∧ Filled features d ∧
      ∀ f ∈ features.values, f.key ∈ d.placed.map Prod.fst) ∨
      ∃ key, Clashes features key ∧
        fullGraph schema features scheme id = .error (.graph (.duplicateNode key)) := by
  have hdraft := yields_addAll scheme id haccepted (schema ++ ":" ++ id)
  unfold Yields at hdraft
  unfold fullGraph
  dsimp only
  split at hdraft
  · rename_i heq
    rw [heq]
    exact Or.inl ⟨_, rfl, hdraft⟩
  · rename_i heq
    rw [heq]
    obtain ⟨key, hkey, rfl⟩ := hdraft
    exact Or.inr ⟨key, hkey, rfl⟩

/-- The features of an accepted schema make a full graph, unless a feature has the key of a node
that stores one. -/
theorem fullGraph_cases (scheme : KeyScheme) (id : String) (haccepted : Accepted features)
    (schema : String) :
    (∃ g, fullGraph schema features scheme id = .ok g ∧ ∀ key, ¬ Clashes features key) ∨
      ∃ key, Clashes features key ∧
        fullGraph schema features scheme id = .error (.graph (.duplicateNode key)) := by
  refine (fullGraph_drafts scheme id haccepted schema).imp_left ?_
  rintro ⟨d, hd, hfilled, hall⟩
  exact ⟨d.graph, hd, hfilled.not_clashes haccepted.keyed hall⟩

end Full

/-! ## Schemas that compile -/

section Compiles

variable {features : Dictionary Feature} {scheme : KeyScheme} {w : Workspace} {id target : String}

/-- A store in memory answers every lookup. -/
theorem telling_memory {table : Dictionary Stored} (h : w.store = .memory table) :
    Telling features scheme w id target := by
  intro f _ _ _
  rw [isStoredFor, Workspace.contains, h]
  exact ⟨_, rfl⟩

/-- An accepted schema compiles for every entity, and each of its features can be worked out again
or is not available, unless a feature has the key of a node that is added for another: what encodes
or writes a feature that is stored, or what encodes or keeps the target. Then this node is
refused, and nothing else is. -/
theorem compiles_unless_keys_clash {name : String} {idSource : IdSource}
    {declarations : List Feature} {s : Schema}
    (hbuild : build name scheme idSource declarations = .ok s) :
    (∀ id, (∃ g, fullGraph s.name s.features s.scheme id = .ok g) ↔
      ∀ key, ¬ Clashes s.features key) ∧
    (∀ id e, fullGraph s.name s.features s.scheme id = .error e →
      ∃ key, Clashes s.features key ∧ e = .graph (.duplicateNode key)) ∧
    ∀ w table id slot, w.store = .memory table → ∀ f ∈ s.features.values,
      (∃ plan, partialGraph s.name s.features s.scheme w id f.key slot = .ok plan) ∨
      (∃ feature reason, partialGraph s.name s.features s.scheme w id f.key slot =
        .error (.unavailable feature reason)) ∨
      ∃ key ∈ [encoderKey f.key, captureKey f.key], key ∈ s.features.keys ∧
        partialGraph s.name s.features s.scheme w id f.key slot =
          .error (.graph (.duplicateNode key)) := by
  have haccepted := accepted_build hbuild
  refine ⟨fun id => ?_, fun id e herror => ?_, fun w table id slot hstore f hf => ?_⟩
  · rcases fullGraph_cases s.scheme id haccepted s.name with
      ⟨g, hg, hnone⟩ | ⟨key, hkey, herror⟩
    · exact ⟨fun _ => hnone, fun _ => ⟨g, hg⟩⟩
    · refine ⟨fun ⟨g, hg⟩ => ?_, fun hnone => absurd hkey (hnone key)⟩
      rw [herror] at hg
      cases hg
  · rcases fullGraph_cases s.scheme id haccepted s.name with
      ⟨g, hg, -⟩ | ⟨key, hkey, herror'⟩
    · rw [hg] at herror
      cases herror
    · rw [herror'] at herror
      cases herror
      exact ⟨key, hkey, rfl⟩
  · rcases partialGraph_cases haccepted (telling_memory hstore) hf s.name slot with
      ⟨g, -, herror⟩ | ⟨-, ⟨plan, hplan, -⟩ | ⟨key, hkey, hmem, -, herror⟩⟩
    · exact Or.inr (Or.inl ⟨_, _, herror⟩)
    · exact Or.inl ⟨plan, hplan⟩
    · exact Or.inr (Or.inr ⟨key, hkey, hmem, herror⟩)

end Compiles

/-- The one feature that is stored needs a node for what encodes it, and another feature has its
key. -/
def shadow : Feature := Feature.new "a/encoder" (Component.byteStream 1)

def shadowed : Schema := { texts with features := texts.features.insert "a/encoder" shadow }

/-- The schema is accepted, and compiles for no entity. -/
theorem shadowed_compiles_for_none :
    build "s" (.delimited ":") (.input "id") [text, shadow] = .ok shadowed ∧
      ∀ id, ¬ ∃ g, fullGraph "s" shadowed.features shadowed.scheme id = .ok g := by
  have hbuild : build "s" (.delimited ":") (.input "id") [text, shadow] = .ok shadowed := rfl
  refine ⟨hbuild, fun id hfull => ?_⟩
  refine ((compiles_unless_keys_clash hbuild).1 id).mp hfull "a/encoder" ?_
  exact ⟨by decide +kernel, text, List.mem_cons_self, by decide +kernel⟩

/-- That there is no graph is found only when the first entity is processed. -/
theorem shadow_is_refused :
    build "s" (.delimited ":") (.input "id") [text, shadow] = .ok shadowed ∧
      fullGraph "s" shadowed.features shadowed.scheme "e" =
        .error (.graph (.duplicateNode "a/encoder")) ∧
      (shadowed.process ((textInputs "x").insert "a/encoder" (.text "y")) blank).1 =
        .error (.graph (.duplicateNode "a/encoder")) := by
  refine ⟨rfl, by rfl, by decide +kernel⟩

end FeatureGraph.Schema
