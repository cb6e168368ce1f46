-- Graphs whose components play roles. If nothing can go wrong when they are
-- acquired or released, and every root can begin, a run comes to its end.
import FeatureGraph.Proofs.Graph.Chains
import FeatureGraph.Proofs.Graph.Edges
import FeatureGraph.Proofs.Run.Roles
import FeatureGraph.Proofs.Run.Surroundings

namespace FeatureGraph

variable {W : Type} {Sends : Payload → Prop}

/-- A component with nothing to open or to close. -/
structure Component.Bare (c : Component W) : Prop where
  acquire : ∀ s w, c.acquire s w = (.ok (), s, w)
  release : ∀ s w, c.release s w = (.ok (), s, w)

namespace Run

variable {r r' : Run W} {ids : List Nat}

/-! ## Acquiring and releasing -/

theorem Alike.bare {n n' : Node W} (h : Alike n n') (hn : n.component.Bare) : n'.component.Bare :=
  h.component ▸ hn

theorem acquire_of_bare {n : Node W} (h : n.component.Bare) (w : W) :
    (n.acquire w).1 = .ok () ∧ (n.acquire w).2.2 = w := by
  rw [acquire_result, acquire_world, h.acquire]
  exact ⟨rfl, rfl⟩

/-- What holds of all components holds of them after a call. -/
theorem bare_after {id : Nat} {act : Act} {n n' : Node W} {w : W}
    (h : ∀ (m : Nat) k, r.nodes[m]? = some k → k.component.Bare) (hn : r.nodes[id]? = some n)
    (halike : Alike n n') (m : Nat) (k : Node W)
    (hk : (r.after id act n' w).nodes[m]? = some k) : k.component.Bare := by
  by_cases hm : id = m
  · subst hm
    rw [after_getElem?_self (List.getElem?_eq_some_iff.mp hn).1] at hk
    cases hk
    exact halike.bare (h id n hn)
  · rw [after_getElem?_ne hm] at hk
    exact h m k hk

theorem Acquires.of_bare {all : Bool} (h : Acquires all ids r r')
    (hbare : ∀ (m : Nat) n, r.nodes[m]? = some n → n.component.Bare) :
    all = true ∧ r'.world = r.world := by
  induction h with
  | nil => exact ⟨rfl, rfl⟩
  | @stop r id rest n e hn hresult =>
    rw [(acquire_of_bare (hbare id n hn) r.world).1] at hresult
    cases hresult
  | @cons r r' id rest n all hn _ _ ih =>
    obtain ⟨hall, hworld⟩ := ih (bare_after hbare hn (acquire_alike n r.world))
    exact ⟨hall, hworld.trans (acquire_of_bare (hbare id n hn) r.world).2⟩

theorem Releases.of_bare (h : Releases ids r r')
    (hbare : ∀ (m : Nat) n, r.nodes[m]? = some n → n.component.Bare) :
    r'.world = r.world ∧ ∃ ends : List JournalEntry,
      r'.journal.reverse = r.journal.reverse ++ ends ∧ ∀ e ∈ ends, e.act = .release (.ok ()) := by
  induction h with
  | nil => exact ⟨rfl, [], by simp⟩
  | @cons r r' id rest n hn _ ih =>
    have hrelease : (n.release r.world).1 = .ok () ∧ (n.release r.world).2.2 = r.world := by
      simp [Node.release, (hbare id n hn).release]
    obtain ⟨hworld, ends, hends, hall⟩ :=
      ih (bare_after hbare hn ⟨rfl, rfl, rfl, rfl, rfl⟩)
    refine ⟨hworld.trans hrelease.2, ⟨id, .release (.ok ())⟩ :: ends, ?_, ?_⟩
    · rw [hends, hrelease.1]
      simp [after]
    · exact List.forall_mem_cons.mpr ⟨rfl, hall⟩

theorem Played.bare {net : Wiring} {roles : Nat → Role W Sends} {past : List JournalEntry}
    (hbare : ∀ m, (roles m).component.Bare) (h : Played net roles past r) (m : Nat) (n : Node W)
    (hn : r.nodes[m]? = some n) : n.component.Bare := by
  obtain ⟨s, hholds, -⟩ := h.plays hn
  exact hholds.component ▸ hbare m

end Run

namespace Graph

variable {g : Graph W} {inputs : Inputs} {world : W} {roles : Nat → Role W Sends}
  {past : List JournalEntry}

/-- Every node of the graph is there for a role, and can begin to play it. -/
structure Cast (g : Graph W) (roles : Nat → Role W Sends) : Prop where
  component : ∀ (m : Nat) n, g.nodes[m]? = some n → n.component = (roles m).component
  ready : ∀ m, (roles m).Ready (roles m).component.start Cache.empty
  bare : ∀ m, (roles m).component.Bare

theorem Cast.bare_node (h : g.Cast roles) (m : Nat) (n : Node W) (hn : g.nodes[m]? = some n) :
    n.component.Bare := h.component m n hn ▸ h.bare m

/-- When all is acquired, every node plays its role. -/
theorem Cast.played (h : g.Cast roles) (hready : g.Ready) {all : Bool} {r₁ : Run W}
    (hopens : g.Opens world all r₁) : Run.Played (wiringOf g.nodes) roles [] r₁ := by
  refine ⟨(opening hready hopens).1, fun {m n₁} hn₁ => ?_, List.nil_subset _⟩
  cases hn : g.nodes[m]? with
  | none =>
    rw [(hopens.none hn).1] at hn₁
    cases hn₁
  | some n =>
    obtain ⟨n₁', hn₁', hopened⟩ := hopens.opened hn
    obtain rfl : n₁ = n₁' := Option.some.inj (hn₁.symm.trans hn₁')
    have hfresh := hready.fresh n (List.mem_of_getElem? hn)
    refine ⟨_, hopened.holds hfresh (h.component m n hn) fun s w => ?_, ?_⟩
    · rw [(h.bare m).acquire]
    · rw [hopened.cache, hfresh.cache]
      exact h.ready m

/-- Where the driving comes to its end the run does. -/
theorem Cast.ends (h : g.Cast roles) (hready : g.Ready)
    (hinputs : (g.roots.all fun (key, _) => inputs.contains key) = true)
    (hdrive : ∀ r₁, Run.Played (wiringOf g.nodes) roles [] r₁ → r₁.world = world →
      (Run.drive (Run.receive g.nodes.length) (g.driven inputs)).Ensures r₁
        (fun _ => Run.Played (wiringOf g.nodes) roles past) fun _ => False) :
    (g.run inputs world).2 = .ok () ∧ past ⊆ g.journal inputs world := by
  have hacquires := g.opens_acquireAll world
  obtain ⟨hall, hworld⟩ := Run.Acquires.of_bare hacquires h.bare_node
  rw [journal, run, if_pos hinputs, Run.whole]
  simp only [Procedure.bind_apply]
  generalize Run.acquireAll (Run.idsOf g.nodes fun n => !n.pruned) ⟨g.nodes, world, []⟩ = acquired
    at hacquires hall hworld ⊢
  obtain ⟨r₁, e | _⟩ := acquired
  · cases hall
  · have hdrive := hdrive r₁ (h.played hready hacquires) hworld
    unfold Procedure.Ensures at hdrive
    rcases hresult : Run.drive (Run.receive g.nodes.length) (g.driven inputs) r₁ with ⟨r₂, e | _⟩
    all_goals rw [hresult] at hdrive
    · exact hdrive.elim
    · obtain ⟨r₃, failure, heq, hreleases, ends', hends', hnone⟩ := Run.releases_held r₂
      obtain ⟨-, ends, hends, hsmooth⟩ := hreleases.of_bare (Run.Played.bare h.bare hdrive)
      obtain rfl : ends = ends' := List.append_cancel_left (hends.symm.trans hends')
      obtain rfl : failure = none := hnone.mpr hsmooth
      simp only [hresult, heq]
      refine ⟨trivial, fun e he => ?_⟩
      rw [hends]
      exact List.mem_append_left _ (List.mem_reverse.mpr (hdrive.past he))

/-- Where every node takes what is sent to it and every root works on its input at once, the run
comes to its end. -/
theorem Cast.runs (h : g.Cast roles) (hready : g.Ready)
    (hinputs : (g.roots.all fun (key, _) => inputs.contains key) = true)
    (hedges : ∀ {u m}, m ∈ (wiringOf g.nodes).listeners u → ∀ {data}, Sends data →
      (roles m).Takes data)
    {Pending : List (Nat × Payload) → W → Prop} {out : Nat → List Payload}
    (hstep : ∀ id data rest w n, Pending ((id, data) :: rest) w → (roles id).Plays n →
      ∃ n' w', Run.Begins n data w (out id) n' w' ∧ (roles id).Plays n' ∧ Pending rest w')
    (hsends : ∀ s ∈ g.driven inputs, ∀ chunk ∈ out s.1, Sends chunk)
    (hpending : Pending (g.driven inputs) world) :
    (g.run inputs world).2 = .ok () ∧ ∀ s ∈ g.driven inputs,
      Run.puttingOut s.1 s.2 (out s.1) ∈ g.journal inputs world := by
  have hruns : _ ∧ ((g.driven inputs).map fun s => Run.puttingOut s.1 s.2 (out s.1)) ⊆ _ :=
    h.ends hready hinputs fun r₁ hplayed hworld => by
      refine Run.ensures_drive (fun id data u hu hdata =>
        Run.fares_receive hedges g.nodes.length id data u hu hdata) ?_
      refine (Run.ensures_beginAll hstep hsends (drivable hready inputs).inRange hplayed
        (hworld ▸ hpending)).mono (fun streams r hbegun => ?_) fun _ h => h
      simpa using hbegun
  exact ⟨hruns.1, fun s hs => hruns.2 (List.mem_map_of_mem hs)⟩

end Graph

end FeatureGraph
