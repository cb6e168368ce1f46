-- What the releases tell the event log. Each writer whose value is committed
-- tells the log of it, in the order of the releases, whatever fails at other
-- writers and whether or not the events can be sent on. The log learns of
-- nothing else.
import FeatureGraph.Proofs.EventLog.Gaining
import FeatureGraph.Proofs.Run.Committing

namespace FeatureGraph

namespace Workspace

variable {w w' w'' : Workspace} {log : EventLog}

/-- The values and the event log are the same, and a log that could store events still can. -/
structure Undisturbed (w w' : Workspace) : Prop extends Untouched w w' where
  canStore : ∀ log, w.log = some log → log.CanStore w.files → log.CanStore w'.files

theorem Undisturbed.refl (w : Workspace) : Undisturbed w w := ⟨.refl w, fun _ _ h => h⟩

theorem Undisturbed.trans (h : Undisturbed w w') (h' : Undisturbed w' w'') : Undisturbed w w'' :=
  ⟨h.toUntouched.trans h'.toUntouched, fun log hlog hcan =>
    h'.canStore log (h.log.trans hlog) (h.canStore log hlog hcan)⟩

/-- A commit puts a file in the place of no folder, so the log can store events as before. -/
theorem commit_canStore {writer : Writer} (hcommit : w.commit writer = (.ok (), w'))
    (h : log.CanStore w.files) : log.CanStore w'.files := by
  obtain ⟨files, store, faults, log', streams, captures, supply, trace⟩ := w
  unfold commit at hcommit
  dsimp only at hcommit h
  split at hcommit
  · cases hcommit
  · cases store with
    | memory table =>
      cases hcommit
      exact h
    | folder root room =>
      simp only [Store.commit] at hcommit
      cases hpath : Store.filePath root writer.key with
      | error e =>
        rw [hpath] at hcommit
        cases hcommit
      | ok path =>
        rw [hpath] at hcommit
        cases hfiles : files.replaceFile root room writer.key writer.data with
        | error e =>
          rw [hfiles] at hcommit
          cases hcommit
        | ok files' =>
          rw [hfiles] at hcommit
          cases hcommit
          obtain ⟨hself, hother⟩ := FileTree.replaceFile_eq_ok hfiles
          rw [EventLog.canStore_iff] at h ⊢
          intro place hplace
          obtain ⟨hfree, htakes⟩ := h place hplace
          exact ⟨hfree, htakes.congr (FileTree.replaceFile_ne_folder hfiles) ⟨_, hself⟩ hother⟩

/-- What a log that can store is told it stores. -/
theorem announce_stores (hlog : w.log = some log) (h : log.CanStore w.files) (data : Json) :
    ∃ e log', e.data = data ∧ (w.announce data).2.log = some log' ∧ log.Stores e log' ∧
      log'.CanStore (w.announce data).2.files := by
  obtain ⟨files, store, faults, log', streams, captures, supply, trace⟩ := w
  obtain rfl : log' = some log := hlog
  obtain ⟨e, hdata, hstores, hcan⟩ :=
    h.append data (supply.clock supply.read) (supply.random supply.drawn)
  exact ⟨e, _, hdata, rfl, hstores, hcan⟩

end Workspace

namespace Run

variable {r r' : Run Workspace} {ids : List Nat} {id : Nat} {place : Nat → Component.Destination}
  {log : EventLog}

/-- A node that disturbs nothing, or an open writer for the place of its number. -/
def Posted (place : Nat → Component.Destination) (id : Nat) (n : Node Workspace) : Prop :=
  n.component.Detached Workspace.Undisturbed ∨
    ∃ s writer, Holds n (Component.storing (place id)) s ∧ s.writer = some writer

/-- The node has committed a value. -/
def Committed (r r' : Run Workspace) (id : Nat) : Prop := ∃ key value, Commits r r' id key value

/-- The release of one node tells the log of the value that was committed, if there is one. -/
theorem Posted.release {n : Node Workspace} (h : Posted place id n) (hn : r.nodes[id]? = some n)
    (hlog : r.world.log = some log) (hcan : log.CanStore r.world.files)
    (hacts : r'.acts id = r.acts id ++ [.release (n.release r.world).1]) :
    (n.release r.world).2.2.layout = r.world.layout ∧
      ((¬ Committed r r' id ∧ (n.release r.world).2.2.log = some log ∧
          log.CanStore (n.release r.world).2.2.files) ∨
        (Committed r r' id ∧ ∃ e log', e.data = (place id).announcement ∧
          (n.release r.world).2.2.log = some log' ∧ log.Stores e log' ∧
          log'.CanStore (n.release r.world).2.2.files)) := by
  rcases h with hdetached | ⟨s, writer, hholds, hwriter⟩
  · have hsame := hdetached.release n.state r.world
    refine ⟨hsame.layout, Or.inl ⟨?_, hsame.log.trans hlog, hsame.canStore log hlog hcan⟩⟩
    rintro ⟨key, value, hcommits⟩
    exact not_commits hdetached (fun h => h.toSameStored) hn hacts key value hcommits
  · rcases hholds.announces hwriter hn hacts with ⟨hnone, hworld⟩ |
      ⟨hcommits, w, hcommit, hannounce, -⟩
    · rw [hworld]
      exact ⟨rfl, Or.inl ⟨fun ⟨key, value, hc⟩ => hnone key value hc, hlog, hcan⟩⟩
    · obtain ⟨hlayout, hsame⟩ := Workspace.commit_layout hcommit
      rw [hannounce]
      refine ⟨(w.announce_layout _).trans hlayout, Or.inr ⟨hcommits, ?_⟩⟩
      exact Workspace.announce_stores (hsame.trans hlog) (Workspace.commit_canStore hcommit hcan) _

end Run

end FeatureGraph
