-- Workspaces that can be relied on: the store takes in what it is given and
-- gives it back, and the event log takes in what it is told. What such a
-- workspace does is then no longer a question of luck.
import FeatureGraph.Proofs.Workspace

namespace FeatureGraph.Workspace

variable {I : Workspace → Prop} {K : String → Prop} {w w' w'' : Workspace} {key : String}

/-- Two workspaces with the same files, the same store and the same log. -/
structure SameHoldings (w w' : Workspace) : Prop where
  files : w'.files = w.files
  store : w'.store = w.store
  faults : w'.faults = w.faults
  log : w'.log = w.log

theorem SameHoldings.refl (w : Workspace) : SameHoldings w w := ⟨rfl, rfl, rfl, rfl⟩

theorem SameHoldings.trans (h : SameHoldings w w') (h' : SameHoldings w' w'') :
    SameHoldings w w'' :=
  ⟨h'.files.trans h.files, h'.store.trans h.store, h'.faults.trans h.faults, h'.log.trans h.log⟩

theorem SameHoldings.held (h : SameHoldings w w') (key : String) : w'.held? key = w.held? key := by
  rw [held?, held?, h.store, h.files]

theorem sameHoldings_newId (w : Workspace) (source : IdSource) (inputs : Inputs) :
    SameHoldings w (w.newId source inputs).2 := by
  cases source <;> exact ⟨rfl, rfl, rfl, rfl⟩

/-- In a workspace of `I` the store can be relied on for the keys of `K`, and the event log too,
and the workspace stays one of `I`. -/
structure Reliable (I : Workspace → Prop) (K : String → Prop) : Prop where
  opens : ∀ {w key}, I w → K key → ∀ contentType,
    w.openWriter key contentType = .ok ⟨key, contentType, []⟩
  writes : ∀ {w writer bs}, I w → bs ≠ [] → w.writeTo writer bs = .ok (writer.add bs)
  commits : ∀ {w writer}, I w → K writer.key →
    (w.commit writer).1 = .ok () ∧ I (w.commit writer).2
  announces : ∀ {w}, I w → ∀ data, (w.announce data).1 = .ok () ∧ I (w.announce data).2
  reads : ∀ {w key value}, I w → K key → w.held? key = some value →
    w.read key = .ok (ByteSource.ofBytes value.1)
  contains : ∀ {w key}, I w → K key → w.contains key = .ok (w.held? key).isSome
  keepsNoLog : ∀ {w key}, I w → K key → ¬ w.KeepsLogAt key
  frame : ∀ {w w'}, I w → SameHoldings w w' → I w'

/-- What is committed lies under its key, and all else is as it was. -/
theorem Reliable.publishes (h : Reliable I K) (hw : I w) {writer : Writer} (hkey : K writer.key)
    (data : Json) : ∃ w', w.commit writer = (.ok (), w') ∧ (w'.announce data).1 = .ok () ∧
      I (w'.announce data).2 ∧
      ((w'.announce data).2.held? writer.key).map Prod.fst = some writer.data ∧
      ∀ key, K key → key ≠ writer.key → (w'.announce data).2.held? key = w.held? key := by
  obtain ⟨hok, hw'⟩ := h.commits hw hkey
  rcases w.commit_cases writer with ⟨e, heq⟩ | ⟨w', heq, -, -, hself, hother⟩
  · rw [heq] at hok
    cases hok
  · rw [heq] at hw'
    obtain ⟨htold, hafter⟩ := h.announces hw' data
    refine ⟨w', heq, htold, hafter, ?_, fun key hK hne => ?_⟩
    · rw [announce_held (h.keepsNoLog hw' hkey), hself]
      rfl
    · rw [announce_held (h.keepsNoLog hw' hK), hother key hne]

/-! ## A store in memory -/

/-- A store in memory that is not made to fail, with a log in memory or none. -/
structure InMemory (w : Workspace) : Prop where
  faults : w.faults = Faults.none
  store : ∃ table, w.store = .memory table
  log : ∀ log, w.log = some log → log.file = none ∧ log.Sends

theorem InMemory.announce (h : w.InMemory) (data : Json) :
    (w.announce data).1 = .ok () ∧ (w.announce data).2.InMemory := by
  obtain ⟨hfaults, ⟨table, hstore⟩, hlog⟩ := h
  obtain ⟨hstore', hfaults'⟩ := w.announce_store data
  have hkept : (w.announce data).2.faults = Faults.none ∧
      ∃ table, (w.announce data).2.store = .memory table :=
    ⟨hfaults'.trans hfaults, table, hstore'.trans hstore⟩
  rcases w.announce_log data with ⟨hnone, hnone'⟩ | ⟨log, log', hsome, hsome', hlater, hcases⟩
  · refine ⟨?_, hkept.1, hkept.2, fun log h => ?_⟩
    · rw [Workspace.announce, hnone]
    · rw [hnone'] at h
      cases h
  · obtain ⟨hfile, hsends⟩ := hlog log hsome
    refine ⟨?_, hkept.1, hkept.2, fun log'' h => ?_⟩
    · rcases hcases with ⟨-, hok⟩ | ⟨-, hfile', -⟩
      · exact hok hsends
      · exact absurd hfile hfile'
    · rw [hsome'] at h
      cases h
      exact ⟨hlater.file.trans hfile, hlater.sends hsends⟩

theorem reliable_inMemory : Reliable InMemory fun _ => True := by
  refine ⟨?_, ?_, ?_, fun hw => hw.announce, ?_, ?_, ?_, ?_⟩
  · rintro w key ⟨hfaults, ⟨table, hstore⟩, -⟩ - contentType
    simp [openWriter, hfaults, Faults.none, hstore, Store.write]
  · rintro w writer bs ⟨hfaults, -, -⟩ hbs
    simp [writeTo, hfaults, Faults.none, hbs]
  · rintro w writer ⟨hfaults, ⟨table, hstore⟩, hlog⟩ -
    simp only [commit, hfaults, Faults.none, hstore, Store.commit]
    exact ⟨trivial, rfl, ⟨_, rfl⟩, hlog⟩
  · rintro w key value ⟨hfaults, ⟨table, hstore⟩, -⟩ - hheld
    obtain ⟨stored, hget, rfl⟩ : ∃ stored, table.get? key = some stored ∧
        (stored.data, some stored.contentType) = value := by
      simpa [held?, hstore] using hheld
    simp [read, hfaults, Faults.none, hstore, Store.read, hget]
  · rintro w key ⟨-, ⟨table, hstore⟩, -⟩ -
    simp [Workspace.contains, hstore, Store.contains, Dictionary.contains, held?]
  · rintro w key ⟨-, ⟨table, hstore⟩, -⟩ - ⟨root, hlayout⟩
    simp [layout, hstore, Store.root?] at hlayout
  · rintro w w' ⟨hfaults, ⟨table, hstore⟩, hlog⟩ hsame
    exact ⟨hsame.faults.trans hfaults, ⟨table, hsame.store.trans hstore⟩,
      fun log h => hlog log (hsame.log ▸ h)⟩

end FeatureGraph.Workspace
