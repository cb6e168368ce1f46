-- The components of a graph that works a feature out again, and the roles that
-- they play. A replay reads back what is stored, in its first turn. A capture
-- holds the bytes that it has worked on, and nothing else touches it.
import FeatureGraph.Component.Storing
import FeatureGraph.Proofs.Component.Concatenate
import FeatureGraph.Proofs.Component.Storing
import FeatureGraph.Proofs.Graph.Chains
import FeatureGraph.Proofs.Graph.Playing

namespace FeatureGraph

open Component Run

/-- A chunk that consists of bytes, or is text. -/
def ByteLike (data : Payload) : Prop := data.bytes?.isSome = true

theorem putsOut_nothing : PutsOut ByteLike (.ok []) := ⟨[], rfl, by simp⟩

namespace Component

theorem replay_plain (d : Decoder) : (replay d).Plain := ⟨fun _ _ _ _ _ => rfl, fun _ _ _ _ => rfl⟩

theorem capture_plain (slot : Nat) : (capture slot).Plain :=
  ⟨fun _ _ _ _ _ => rfl, fun _ _ _ _ => rfl⟩

/-! ## Roles -/

/-- A replay takes nothing but the input of its first turn. -/
def replaying (d : Decoder) : Role Workspace ByteLike :=
  .plain (replay d) (replay_plain d) (fun _ => False) (fun h => h.elim)
    fun _ _ => putsOut_nothing

def capturing (slot : Nat) : Role Workspace ByteLike :=
  .plain (capture slot) (capture_plain slot) ByteLike
    (fun {data} hdata s w => by
      obtain ⟨bs, hbs⟩ := Option.isSome_iff_exists.mp hdata
      simpa [capture, hbs] using putsOut_nothing)
    fun _ _ => putsOut_nothing

def copying {W : Type} : Role W ByteLike :=
  .plain (encoding .identity) (encoding_plain .identity) ByteLike
    (fun {data} hdata s w => by
      obtain ⟨bs, hbs⟩ := Option.isSome_iff_exists.mp hdata
      exact ⟨[.bytes bs], by simp [encoding, Encoder.identity, hbs, Output.ofBytes,
        Output.ofPayloads], by simp [ByteLike, Payload.bytes?]⟩)
    fun _ _ => putsOut_nothing

theorem Concatenate.mem_push {data chunk : Payload} {input : Nat} {buffers : List (List Payload)}
    (h : chunk ∈ (push data input buffers).flatten) : chunk = data ∨ chunk ∈ buffers.flatten := by
  induction input generalizing buffers with
  | zero => cases buffers <;> simpa [push] using h
  | succ input ih =>
    cases buffers with
    | nil =>
      have hpush : chunk ∈ (push data input []).flatten := by simpa [push] using h
      simpa using ih hpush
    | cons buffer rest =>
      rw [push, List.flatten_cons, List.mem_append] at h
      rw [List.flatten_cons, List.mem_append]
      rcases h with h | h
      · exact Or.inr (Or.inl h)
      · exact (ih h).imp_right Or.inr

/-- A concatenation is ready as long as all that it holds back is like bytes. -/
def concatenating {W : Type} : Role W ByteLike where
  component := concatenate.aggregator
  Takes := ByteLike
  Ready s _ := ∀ chunk ∈ s.buffers.flatten, ByteLike chunk
  enqueue hs hdata input w := fun chunk hchunk =>
    (Concatenate.mem_push hchunk).elim (fun heq => heq ▸ hdata) (hs chunk)
  dequeue {s cache} hs finalized w := by
    obtain ⟨buffers, _ | _⟩ := s <;> cases finalized
    case false.true => exact fun chunk hchunk => absurd hchunk List.not_mem_nil
    all_goals exact hs
  transform {s cache data} hs finalized w w' hgot := by
    obtain ⟨buffers, _ | _⟩ := s <;> cases finalized
    case false.true =>
      cases hgot
      have hbuffered : ∀ chunk ∈ (buffers.map (·.reverse)).flatten, ByteLike chunk := by
        intro chunk hchunk
        obtain ⟨_, hbuffer, hchunk⟩ := List.mem_flatten.mp hchunk
        obtain ⟨buffer, hbuffer', rfl⟩ := List.mem_map.mp hbuffer
        exact hs chunk (List.mem_flatten.mpr ⟨buffer, hbuffer', List.mem_reverse.mp hchunk⟩)
      obtain ⟨bs, hbs⟩ := Concatenate.join_of_bytes hbuffered
      refine ⟨⟨[.bytes bs], ?_, by simp [ByteLike, Payload.bytes?]⟩,
        fun chunk hchunk => absurd hchunk List.not_mem_nil⟩
      change (Concatenate.join (buffers.map (·.reverse)).flatten).map _ = _
      rw [hbs]
      rfl
    all_goals cases hgot
  lastChunk hs w := ⟨putsOut_nothing, hs⟩

theorem replaying_bare (d : Decoder) : (replaying d).component.Bare :=
  ⟨fun _ _ => rfl, fun _ _ => rfl⟩

theorem capturing_bare (slot : Nat) : (capturing slot).component.Bare :=
  ⟨fun _ _ => rfl, fun _ _ => rfl⟩

theorem copying_bare {W : Type} : (copying (W := W)).component.Bare :=
  ⟨fun _ _ => rfl, fun _ _ => rfl⟩

theorem concatenating_bare {W : Type} : (concatenating (W := W)).component.Bare :=
  ⟨fun _ _ => rfl, fun _ _ => rfl⟩

end Component

/-! ## Reading back -/

variable {roles : Nat → Role Workspace ByteLike} {out : Nat → List Payload}
  {pending : List (Nat × Payload)} {w : Workspace}

/-- These roots read back streams that wait, each its own, and put out what is read. -/
structure Awaits (roles : Nat → Role Workspace ByteLike) (out : Nat → List Payload)
    (pending : List (Nat × Payload)) (w : Workspace) : Prop where
  distinct : (pending.map Prod.snd).Nodup
  waits : ∀ s ∈ pending, ∃ d stream source, roles s.1 = replaying d ∧ s.2 = .stored stream ∧
    w.streams[stream]? = some (some source) ∧ d.stream source = .ok (Output.ofPayloads (out s.1))

/-- In its first turn a root reads its stream back, and leaves the others. -/
theorem Awaits.begins {id : Nat} {data : Payload} {n : Node Workspace}
    (h : Awaits roles out ((id, data) :: pending) w) (hplays : (roles id).Plays n) :
    ∃ n' w', Begins n data w (out id) n' w' ∧ (roles id).Plays n' ∧
      Awaits roles out pending w' := by
  obtain ⟨hwaits, hrest⟩ := List.forall_mem_cons.mp h.waits
  obtain ⟨d, stream, source, hrole, rfl, hsource, hout⟩ := hwaits
  obtain ⟨hfresh, hdistinct⟩ := List.nodup_cons.mp h.distinct
  dsimp only at hrole hout hfresh
  rw [hrole] at hplays ⊢
  obtain ⟨key, component, state, cache, needs, listeners, finalized, enqueued, pruned, completed,
    acquired⟩ := n
  obtain ⟨_, ⟨rfl, hstate⟩, -⟩ := hplays
  cases hstate
  have hwork : Node.transform (.stored stream) ⟨key, replay d, (), Cache.empty, needs, listeners,
      finalized, enqueued, pruned, completed, acquired⟩ w =
        (.ok (Output.ofPayloads (out id)), ⟨key, replay d, (), Cache.empty, needs, listeners,
          finalized, enqueued, pruned, completed, acquired⟩, (w.takeStream stream).2) := by
    simp [Node.transform, replay, Workspace.takeStream, hsource, hout]
  refine ⟨_, (w.takeStream stream).2, .intro rfl rfl hwork, ⟨(), ⟨rfl, HEq.rfl⟩, ?_⟩,
    hdistinct, fun t ht => ?_⟩
  · rintro _ ⟨⟩
  · obtain ⟨d', stream', source', hrole', hdata', hsource', hout'⟩ := hrest t ht
    have hne : stream ≠ stream' := by
      rintro rfl
      exact hfresh (List.mem_map.mpr ⟨t, ht, hdata'⟩)
    refine ⟨d', stream', source', hrole', hdata', ?_, hout'⟩
    rw [Workspace.takeStream, List.getElem?_set_ne hne]
    exact hsource'

/-! ## Keeping -/

/-- The captures hold what they held. -/
def SameCaptures (w w' : Workspace) : Prop := w'.captures = w.captures

namespace Component

theorem replay_gentle (d : Decoder) : (replay d).Gentle SameCaptures where
  enqueue _ _ _ _ _ := rfl
  dequeue _ _ _ _ := rfl
  transform data s w := by
    unfold replay SameCaptures
    dsimp only
    cases data with
    | stored stream =>
      dsimp only [Workspace.takeStream]
      cases w.streams[stream]?.join with
      | none => rfl
      | some source =>
        dsimp only
        cases d.stream source <;> rfl
    | _ => rfl
  lastChunk _ _ := rfl
  acquire _ _ := rfl

theorem encoding_gentle (e : Encoder) : (encoding e).Gentle SameCaptures where
  enqueue _ _ _ _ _ := rfl
  dequeue _ _ _ _ := rfl
  transform data s w := by
    unfold encoding SameCaptures
    dsimp only
    split <;> rfl
  lastChunk s w := by
    unfold encoding SameCaptures
    dsimp only
    split <;> rfl
  acquire _ _ := rfl

theorem concatenate_gentle : (concatenate (W := Workspace)).aggregator.Gentle SameCaptures where
  enqueue _ _ _ _ _ := rfl
  dequeue finalized s _ _ := by
    obtain ⟨buffers, _ | _⟩ := s <;> cases finalized <;> rfl
  transform data _ _ := by cases data <;> rfl
  lastChunk _ _ := rfl
  acquire _ _ := rfl

end Component

variable {slot c : Nat}

theorem captured_capture (hslot : slot < w.captures.length) (bs : Bytes) :
    (w.capture slot bs).captured slot = w.captured slot ++ bs := by
  simp [Workspace.capture, Workspace.captured, List.getElem?_eq_getElem hslot]

/-- What a call of the capture adds to it. -/
theorem capture_call {n : Node Workspace} (hn : n.component = capture slot) (hook : Hook)
    (hslot : slot < w.captures.length) :
    slot < (hook.call n w).2.2.captures.length ∧
      (hook.call n w).2.2.captured slot = w.captured slot ++ (hook.call n w).1.written := by
  obtain ⟨key, component, state, cache, needs, listeners, finalized, enqueued, pruned, completed,
    acquired⟩ := n
  subst hn
  cases hook with
  | transform data =>
    cases hdata : data.bytes? with
    | none =>
      simpa [Hook.call, Node.transform, capture, hdata, Act.written] using hslot
    | some bs =>
      have hcaptured := captured_capture hslot bs
      simp only [Hook.call, Node.transform, capture, hdata, Act.written, Option.getD_some,
        hcaptured, and_true]
      simpa [Workspace.capture] using hslot
  | enqueueFrom | enqueueRoot | dequeue | lastChunk => exact ⟨hslot, (List.append_nil _).symm⟩

/-- What is true of a capture at every moment, where these are the components of the nodes: it has
room, and it holds what was worked on there. -/
structure Holding (slot c : Nat) (components : List (Component Workspace)) (r : Run Workspace) :
    Prop where
  components : r.nodes.map (·.component) = components
  room : slot < r.world.captures.length
  holds : r.world.captured slot = (r.acts c).flatMap Act.written

variable {components : List (Component Workspace)} {r r' : Run Workspace}

theorem holding_step (hstep : Step r r') (hc : components[c]? = some (capture slot))
    (hothers : ∀ (m : Nat) k, m ≠ c → components[m]? = some k → k.Gentle SameCaptures)
    (h : Holding slot c components r) : Holding slot c components r' := by
  have hcomponents := hstep.components.trans h.components
  cases hstep with
  | @call hook _ id n hn =>
    have hcomponent : components[id]? = some n.component := by
      rw [← h.components, List.getElem?_map, hn]
      rfl
    by_cases hid : id = c
    · subst hid
      obtain ⟨hroom, hadds⟩ :=
        capture_call (Option.some.inj (hcomponent.symm.trans hc)) hook h.room
      refine ⟨hcomponents, hroom, ?_⟩
      rw [acts_note, if_pos rfl, List.flatMap_append, ← acts, ← h.holds]
      simpa using hadds
    · have hsame : SameCaptures r.world (hook.call n r.world).2.2 :=
        hook.world (hothers id _ hid hcomponent) r.world
      refine ⟨hcomponents, hsame ▸ h.room, ?_⟩
      rw [acts_note, if_neg hid, List.append_nil, ← acts, ← h.holds]
      exact congrArg (fun captures => (captures[slot]?.getD []).reverse.flatten) hsame
  | emit _ id chunk =>
    refine ⟨hcomponents, h.room, ?_⟩
    rw [acts_note, List.flatMap_append, ← acts, ← h.holds]
    split <;> simp [Act.written]
  | finalize => exact ⟨hcomponents, h.room, h.holds⟩

/-- A capture holds all that was worked on there. -/
theorem holding_steps (hsteps : Steps r r') (hc : components[c]? = some (capture slot))
    (hothers : ∀ (m : Nat) k, m ≠ c → components[m]? = some k → k.Gentle SameCaptures)
    (h : Holding slot c components r) : Holding slot c components r' :=
  hsteps.keep h fun _ _ hstep => holding_step hstep hc hothers

end FeatureGraph
