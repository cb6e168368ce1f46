-- The entities of a schema. Taking entities in adds to the keys of the store
-- just those under which a writer has committed, and each such key comes apart
-- into its entity and its feature. So of all keys with the separator the ids
-- are those of the entities of which something was committed.
import FeatureGraph.Proofs.Schema.Leaving
import FeatureGraph.Proofs.Schema.Persisting
import FeatureGraph.Proofs.Storage.Key
import FeatureGraph.Proofs.Storage.Listing

namespace FeatureGraph

/-! ## What is listed after the releases -/

namespace Run

variable {r r' : Run Workspace} {ids : List Nat} {id : Nat} {key : String}

theorem Orderly.layout {n : Node Workspace} (h : Orderly Workspace.SameListed n) (w : Workspace) :
    (n.release w).2.2.layout = w.layout := by
  rcases h with hdetached | ⟨s, writer, ⟨d, hholds⟩, -⟩
  · exact (hdetached.release n.state w).layout
  · rw [(hholds.release w).2, Component.layout_release]

/-- The release of one node adds a key if it stores a value under it. -/
theorem Orderly.lists {n : Node Workspace} (h : Orderly Workspace.SameListed n)
    (hn : r.nodes[id]? = some n) (hlog : ¬ r.world.KeepsLogAt key)
    (hacts : r'.acts id = r.acts id ++ [.release (n.release r.world).1]) :
    (n.release r.world).2.2.Lists key ↔
      r.world.Lists key ∨ ∃ value, Commits r r' id key value := by
  rcases h with hdetached | ⟨s, writer, hsession, hwriter⟩
  · have hnone := not_commits hdetached (·.toSameStored) hn hacts key
    have hsame := (hdetached.release n.state r.world).lists key
    exact hsame.trans (or_iff_left fun ⟨value, h⟩ => hnone value h).symm
  · have hopen := hsession
    obtain ⟨d, hholds⟩ := hopen
    obtain ⟨hresult, hworld⟩ := hholds.release r.world
    rw [hworld, Component.lists_release hwriter hlog, ← hresult]
    refine or_congr_right ⟨fun ⟨hfinished, hkey, hok⟩ => ?_, fun ⟨value, hcommits⟩ => ?_⟩
    · exact ⟨_, n, s, writer, _, hn, hsession, hwriter, hfinished, hkey, rfl, hacts, hok⟩
    · obtain ⟨s', writer', hsession', hwriter', hfinished, hkey, -, hok⟩ := hcommits.at hn hacts
      cases hsession.unique hsession'
      rw [hwriter] at hwriter'
      cases hwriter'
      exact ⟨hfinished, hkey, hok⟩

/-- The releases add the keys under which they store a value. -/
theorem Releases.lists (h : Releases ids r r') (hnodup : ids.Nodup)
    (horderly : ∀ id ∈ ids, ∀ n, r.nodes[id]? = some n → Orderly Workspace.SameListed n)
    (hlog : ¬ r.world.KeepsLogAt key) :
    r'.world.Lists key ↔ r.world.Lists key ∨ ∃ id ∈ ids, ∃ value, Commits r r' id key value := by
  induction h with
  | nil => simp
  | @cons r r' id rest n hn hrest ih =>
    obtain ⟨hid, hnodup⟩ := List.nodup_cons.mp hnodup
    have hone := horderly id List.mem_cons_self n hn
    have hlayout := hone.layout r.world
    have hlog' : ¬ (n.release r.world).2.2.KeepsLogAt key := fun h =>
      hlog ((Workspace.keepsLogAt_congr hlayout).mp h)
    have hothers : (∃ m ∈ rest, ∃ value, Commits (r.after id (.release (n.release r.world).1)
        (n.release r.world).2.1 (n.release r.world).2.2) r' m key value) ↔
        ∃ m ∈ rest, ∃ value, Commits r r' m key value :=
      exists_congr fun m => and_congr_right fun hm => exists_congr fun value =>
        hrest.commits_rest hid hm hlayout
    rw [ih hnodup (Run.forall_after hid horderly) hlog', hothers, List.exists_mem_cons_iff,
      ← or_assoc]
    exact or_congr_left (hone.lists hn hlog (hrest.acts_head hid))

end Run

namespace Schema

section Course

variable {features : Dictionary Feature} {scheme : KeyScheme} {id key : String}
  {g : Graph Workspace} {w : Workspace} {result : Except GraphError Unit} {all : Bool}
  {r₁ r₂ r₃ : Run Workspace}

/-- A run of a full graph adds the keys under which a value was delivered. -/
theorem Compiled.lists (h : Compiled features scheme id g)
    (hdetached : ∀ f ∈ features.values, f.component.Detached Workspace.SameListed)
    (hcourse : g.Course w result all r₁ r₂ r₃) (hlog : ¬ w.KeepsLogAt key) :
    r₃.world.Lists key ↔ w.Lists key ∨ ∃ f m data released,
      Delivers features scheme id g r₃.journal.reverse f m data released ∧
        scheme.build id f.key = key := by
  have hsame := h.keeps Workspace.SameListed.refl Workspace.SameListed.trans hdetached hcourse
  have hdetached' : ∀ f ∈ features.values, f.component.Detached Workspace.SameStored :=
    fun f hf => (hdetached f hf).mono (·.toSameStored)
  rw [hcourse.releases.lists (Run.nodup_idsOf ..)
    (h.orderly Workspace.SameListed.refl hdetached hcourse)
    (fun hkeeps => hlog ((Workspace.keepsLogAt_congr hsame.layout).mp hkeeps)), hsame.lists]
  refine or_congr_right ⟨fun ⟨m, hm, value, hcommits⟩ => ?_, ?_⟩
  · obtain ⟨f, data, released, hdelivers, hkey, -⟩ :=
      h.delivers_of_commits hdetached' hcourse hm hcommits
    exact ⟨f, m, data, released, hdelivers, hkey.symm⟩
  · rintro ⟨f, m, data, released, hdelivers, rfl⟩
    obtain ⟨hm, hcommits, -⟩ := h.commits_of_delivers hdetached' hcourse hdelivers
    exact ⟨m, hm, _, hcommits⟩

theorem Compiled.layout (h : Compiled features scheme id g)
    (hdetached : ∀ f ∈ features.values, f.component.Detached Workspace.SameListed)
    (hcourse : g.Course w result all r₁ r₂ r₃) : r₃.world.layout = w.layout := by
  have hsame := h.keeps Workspace.SameListed.refl Workspace.SameListed.trans hdetached hcourse
  have horderly := h.orderly Workspace.SameListed.refl hdetached hcourse
  refine hcourse.releases.world (Run.nodup_idsOf ..) (I := fun w' => w'.layout = w.layout)
    (fun m hm n hn w' hw' => ?_) hsame.layout
  rw [(horderly m hm n hn).layout, hw']

end Course

section Process

variable {s : Schema} {inputs : Inputs} {w : Workspace} {key : String}

/-- However it ends, taking an entity in leaves the store and its places. -/
theorem process_layout
    (hdetached : ∀ f ∈ s.features.values, f.component.Detached Workspace.SameListed) :
    (s.process inputs w).2.layout = w.layout := by
  have hnew := Workspace.sameListed_newId w s.idSource inputs
  rcases s.process_cases inputs w with
    ⟨id, g, result, all, r₁, r₂, r₃, -, hcompiled, hcourse, -, hworld⟩ | ⟨-, hworld⟩
  · rw [hworld, hcompiled.layout hdetached hcourse, hnew.layout]
  · rw [hworld, hnew.layout]

/-- However it ends, taking an entity in adds the keys under which a value was stored. -/
theorem process_lists
    (hdetached : ∀ f ∈ s.features.values, f.component.Detached Workspace.SameListed)
    (hlog : ¬ w.KeepsLogAt key) :
    (s.process inputs w).2.Lists key ↔
      w.Lists key ∨ ∃ f m data released, s.Stores inputs w f key m data released := by
  have hnew := Workspace.sameListed_newId w s.idSource inputs
  rcases s.process_cases inputs w with
    ⟨id, g, result, all, r₁, r₂, r₃, hstarts, hcompiled, hcourse, hjournal, hworld⟩ |
    ⟨hnone, hworld⟩
  · have hlog' : ¬ (w.newId s.idSource inputs).2.KeepsLogAt key := fun h =>
      hlog ((Workspace.keepsLogAt_congr hnew.layout).mp h)
    rw [hworld, hcompiled.lists hdetached hcourse hlog', hnew.lists]
    simp only [hstarts.stores_iff, hjournal, and_comm]
  · rw [hworld, hnew.lists]
    refine (or_iff_left ?_).symm
    rintro ⟨f, m, data, released, hstores⟩
    exact hnone f key m data released hstores

end Process

/-! ## Entities that were taken in -/

/-- An entity that was taken in: by which schema, from which inputs, and into which workspace. -/
structure Intake : Type 1 where
  schema : Schema
  inputs : Inputs
  world : Workspace

/-- A feature of the entity of this id was committed under this key. -/
def Committed (intakes : List Intake) (id key : String) : Prop :=
  ∃ i ∈ intakes, (i.world.newId i.schema.idSource i.inputs).1 = .ok id ∧
    ∃ f m data released, i.schema.Stores i.inputs i.world f key m data released

/-- The key of the log's file, if it is one of the store, has no separator. -/
def LogApart (sep : String) (w : Workspace) : Prop :=
  ∀ key, w.KeepsLogAt key → KeyScheme.occurs sep key = false

/-- The workspaces that come of a store without a key that has the separator, with the entities that
were taken in on the way. Anything else may happen to a workspace between two entities, as long as
it adds no key with the separator and takes none away. -/
inductive History (sep : String) : List Intake → Workspace → Prop
  | start {w : Workspace} : (∀ key, w.Lists key → KeyScheme.occurs sep key = false) →
      LogApart sep w → History sep [] w
  | process {intakes : List Intake} {w : Workspace} {name : String} {idSource : IdSource}
      {declarations : List Feature} {s : Schema} (inputs : Inputs) : History sep intakes w →
      build name (.delimited sep) idSource declarations = .ok s →
      (∀ f ∈ s.features.values, f.component.Detached Workspace.SameListed) →
      History sep (intakes ++ [⟨s, inputs, w⟩]) (s.process inputs w).2
  | other {intakes : List Intake} {w w' : Workspace} : History sep intakes w →
      (∀ key, KeyScheme.occurs sep key = true → (w'.Lists key ↔ w.Lists key)) →
      LogApart sep w' → History sep intakes w'

section History

variable {sep id key : String} {intakes more : List Intake} {w : Workspace}

theorem committed_append : Committed (intakes ++ more) id key ↔
    Committed intakes id key ∨ Committed more id key := by
  simp only [Committed, List.mem_append, or_and_right, exists_or]

theorem committed_one {s : Schema} {inputs : Inputs} : Committed [⟨s, inputs, w⟩] id key ↔
    (w.newId s.idSource inputs).1 = .ok id ∧
      ∃ f m data released, s.Stores inputs w f key m data released := by
  simp [Committed]

theorem named_of_stores {s : Schema} {inputs : Inputs} {f : Feature} {m : Nat} {data : Bytes}
    {released : Except ComponentError Unit} (h : s.Stores inputs w f key m data released) :
    ∃ id, (w.newId s.idSource inputs).1 = .ok id ∧ s.scheme.build id f.key = key ∧
      f ∈ s.features.values := by
  obtain ⟨id, g, hstarts, hkey, hdelivers⟩ := h
  exact ⟨id, hstarts.1, hkey, hdelivers.declared⟩

theorem History.apart (h : History sep intakes w) : LogApart sep w := by
  induction h with
  | start _ hlog | other _ _ hlog => exact hlog
  | process inputs _ _ hdetached ih =>
    intro key hkey
    exact ih key ((Workspace.keepsLogAt_congr (process_layout hdetached)).mp hkey)

/-- What was committed comes apart into the entity and a feature. -/
theorem History.decompose (h : History sep intakes w) (hsep : sep.length = 1)
    (hc : Committed intakes id key) :
    ∃ feature, (KeyScheme.delimited sep).decompose key = .ok (id, feature) := by
  induction h with
  | start => obtain ⟨i, hi, -⟩ := hc; cases hi
  | other _ _ _ ih => exact ih hc
  | process inputs _ hbuild _ ih =>
    rcases committed_append.mp hc with hc | hc
    · exact ih hc
    · obtain ⟨hid, f, m, data, released, hstores⟩ := committed_one.mp hc
      obtain ⟨id', hid', rfl, hf⟩ := named_of_stores hstores
      cases hid.symm.trans hid'
      have hvalid := validate_build hbuild hf
      obtain ⟨features, -, rfl⟩ := build_eq_ok hbuild
      have hfree : ¬ KeyScheme.Completes sep f.key := fun h =>
        KeyScheme.not_bordered_of_length_eq_one hsep h.bordered
      exact ⟨f.key, (KeyScheme.decompose_build_iff hvalid id).mpr hfree⟩

/-- The keys with the separator are those under which something was committed. -/
theorem History.lists (h : History sep intakes w) (hkey : KeyScheme.occurs sep key = true) :
    w.Lists key ↔ ∃ id, Committed intakes id key := by
  induction h with
  | start hnone =>
    refine iff_of_false (fun hlists => ?_) ?_
    · rw [hnone key hlists] at hkey
      cases hkey
    · rintro ⟨id, i, hi, -⟩
      cases hi
  | other _ hsame _ ih => exact (hsame key hkey).trans ih
  | @process intakes w name idSource declarations s inputs hhistory _ hdetached ih =>
    have hlog : ¬ w.KeepsLogAt key := fun h => by
      rw [hhistory.apart key h] at hkey
      cases hkey
    rw [process_lists hdetached hlog, ih]
    simp only [committed_append, committed_one, exists_or]
    refine or_congr_right ⟨fun ⟨f, m, data, released, hstores⟩ => ?_, fun ⟨id, _, h⟩ => h⟩
    obtain ⟨id, hid, -⟩ := named_of_stores hstores
    exact ⟨id, hid, f, m, data, released, hstores⟩

/-- A listed key of an entity is one under which something of it was committed. -/
theorem History.lists_of (h : History sep intakes w) (hsep : sep.length = 1) :
    (w.Lists key ∧ ∃ feature, (KeyScheme.delimited sep).decompose key = .ok (id, feature)) ↔
      Committed intakes id key := by
  constructor
  · rintro ⟨hlists, feature, hparts⟩
    obtain ⟨id', hc⟩ := (h.lists (KeyScheme.occurs_of_decompose hparts)).mp hlists
    obtain ⟨feature', hparts'⟩ := h.decompose hsep hc
    cases hparts.symm.trans hparts'
    exact hc
  · intro hc
    obtain ⟨feature, hparts⟩ := h.decompose hsep hc
    exact ⟨(h.lists (KeyScheme.occurs_of_decompose hparts)).mpr ⟨id, hc⟩, feature, hparts⟩

/-- A schema lists each entity of which something was committed, and no other, and none of them
twice. They stand in the order of their smallest keys: one that stands before another has a
committed key that is smaller than all committed keys of the other. -/
theorem entities_are_those_committed (h : History sep intakes w) (hsep : sep.length = 1)
    (s : Schema) (hs : s.scheme = .delimited sep) :
    (s.entities w).Nodup ∧ (∀ id, id ∈ s.entities w ↔ ∃ key, Committed intakes id key) ∧
      (s.entities w).Pairwise fun a b => ∃ key, Committed intakes a key ∧
        ∀ key', Committed intakes b key' → key < key' := by
  obtain ⟨idOf, hids, hidOf⟩ := w.store.ids_eq w.files (.delimited sep)
  rw [entities, hs, hids]
  refine ⟨Store.nodup_distinct .., fun id => ?_, ?_⟩
  · simp only [Store.mem_distinct, List.mem_filterMap, List.not_mem_nil, not_false_eq_true,
      and_true, ← h.lists_of hsep]
    exact exists_congr fun key => and_congr_right fun _ => hidOf key id
  · refine (Store.ordered_distinct (Store.sorted_keys ..) []).imp ?_
    rintro a b ⟨key, hkey, ha, hall⟩
    refine ⟨key, (h.lists_of hsep).mp ⟨hkey, (hidOf key a).mp ha⟩, fun key' hc => ?_⟩
    obtain ⟨hlists, hparts⟩ := (h.lists_of hsep).mpr hc
    exact hall key' hlists ((hidOf key' b).mpr hparts)

end History

/-! ## Ids that go on with the separator -/

/-- A second letter. -/
def sign : Feature := { letter with key := "c" }

def signed : Schema := ⟨"s", .delimited ":", .input "id", letters.insert "c" sign⟩

def signedInputs (id : String) : Inputs :=
  ((Dictionary.empty.insert "a" (.text "x")).insert "c" (.text "y")).insert "id" (.text id)

/-- A store with a key that is no entity's. -/
def noted : Workspace :=
  .new .empty (.memory (Dictionary.empty.insert "d" ⟨plainText, []⟩)) ⟨fun _ => 0, fun _ => 0, 0, 0⟩

def signedOnce : Workspace := (signed.process (signedInputs "e") noted).2

def signedTwice : Workspace := (signed.process (signedInputs "e:b") signedOnce).2

def signedHistory : List Intake :=
  [⟨signed, signedInputs "e", noted⟩, ⟨signed, signedInputs "e:b", signedOnce⟩]

theorem history_signed : History ":" signedHistory signedTwice := by
  have hbuild : build "s" (.delimited ":") (.input "id") [letter, sign] = .ok signed := rfl
  have hdetached : ∀ f ∈ signed.features.values, f.component.Detached Workspace.SameListed := by
    intro f hf
    rcases List.mem_pair.mp (show f ∈ [letter, sign] from hf) with rfl | rfl
    · exact letter_detached .refl
    · exact letter_detached .refl
  have hstart : ∀ key, noted.Lists key → KeyScheme.occurs ":" key = false := by
    intro key hkey
    rw [List.mem_singleton.mp (show key ∈ ["d"] from hkey)]
    decide
  have hlog : LogApart ":" noted := by
    rintro key ⟨root, ⟨⟩⟩
  have hone := (History.start hstart hlog).process (signedInputs "e") hbuild hdetached
  exact hone.process (signedInputs "e:b") hbuild hdetached

/-- The keys of `e:b` stand between those of `e`. Either entity is listed once. -/
theorem extended_id_is_listed_once :
    ":".length = 1 ∧ History ":" signedHistory signedTwice ∧
      signedTwice.store.keys signedTwice.files = ["d", "e:a", "e:b:a", "e:b:c", "e:c"] ∧
      signed.entities signedTwice = ["e", "e:b"] ∧
      (∃ key, Committed signedHistory "e:b" key) ∧ ¬ ∃ key, Committed signedHistory "d" key := by
  have hlength : ":".length = 1 := by decide
  obtain ⟨-, hmem, -⟩ := entities_are_those_committed history_signed hlength signed rfl
  have hids : signed.entities signedTwice = ["e", "e:b"] := by decide +kernel
  refine ⟨hlength, history_signed, by decide +kernel, hids, (hmem "e:b").mp ?_, ?_⟩
  · simp [hids]
  · rw [← hmem "d", hids]
    simp

end Schema

end FeatureGraph
