-- Runs in which nothing fails. Each component plays a role: as long as it is
-- given what it can take, it does not fail, and puts out only what the nodes
-- that listen to it can take. Once every root has begun, a graph of such
-- components comes to its end.
import FeatureGraph.Proofs.Run.Halting
import FeatureGraph.Proofs.Run.Slot

namespace FeatureGraph

variable {W : Type} {Sends : Payload → Prop}

/-! ## Roles -/

/-- A call has put out chunks that all pass a test. -/
def PutsOut (Sends : Payload → Prop) (result : Except ComponentError Output) : Prop :=
  ∃ out, result = .ok (Output.ofPayloads out) ∧ ∀ chunk ∈ out, Sends chunk

/-- What a component can take, and when it is ready. Then its work does not fail, what it puts out
passes the test, and it stays ready. -/
structure Role (W : Type) (Sends : Payload → Prop) where
  component : Component W
  Takes : Payload → Prop
  Ready : component.State → Cache → Prop
  enqueue : ∀ {s cache data}, Ready s cache → Takes data → ∀ input w,
    Ready (component.enqueue data input s cache w).1 (component.enqueue data input s cache w).2.1
  dequeue : ∀ {s cache}, Ready s cache → ∀ finalized w,
    Ready (component.dequeue finalized s cache w).2.1 (component.dequeue finalized s cache w).2.2.1
  transform : ∀ {s cache data}, Ready s cache → ∀ finalized w w',
    (component.dequeue finalized s cache w).1 = some data →
    PutsOut Sends (component.transform data (component.dequeue finalized s cache w).2.1 w').1 ∧
      Ready (component.transform data (component.dequeue finalized s cache w).2.1 w').2.1
        (component.dequeue finalized s cache w).2.2.1
  lastChunk : ∀ {s cache}, Ready s cache → ∀ w,
    PutsOut Sends (component.lastChunk s w).1 ∧ Ready (component.lastChunk s w).2.1 cache

/-- The role of a component that leaves taking in and taking out to the cache: it can take what
it works on without fail, and is ready as long as its cache keeps nothing else. -/
def Role.plain (c : Component W) (hplain : c.Plain) (Takes : Payload → Prop)
    (htransform : ∀ {data}, Takes data → ∀ s w, PutsOut Sends (c.transform data s w).1)
    (hlast : ∀ s w, PutsOut Sends (c.lastChunk s w).1) : Role W Sends where
  component := c
  Takes := Takes
  Ready _ cache := ∀ data, cache.pending = some data → Takes data
  enqueue _ htakes input w := by
    rw [hplain.enqueue]
    rintro _ ⟨⟩
    exact htakes
  dequeue _ finalized w := by
    rw [hplain.dequeue]
    exact fun _ h => nomatch h
  transform h finalized w w' hgot := by
    rw [hplain.dequeue] at hgot ⊢
    exact ⟨htransform (h _ hgot) _ _, fun _ h => nomatch h⟩
  lastChunk h w := ⟨hlast _ _, h⟩

/-- The node plays the role. -/
def Role.Plays (role : Role W Sends) (n : Node W) : Prop :=
  ∃ s, Run.Holds n role.component s ∧ role.Ready s n.cache

namespace Role.Plays

variable {role : Role W Sends} {n : Node W} (h : role.Plays n)

include h

theorem finalize (provider : Nat) :
    role.Plays { n with finalized := n.finalized.insert provider } := by
  obtain ⟨s, hholds, hready⟩ := h
  exact ⟨s, ⟨hholds.component, hholds.state⟩, hready⟩

theorem enqueueFrom {data : Payload} (hdata : role.Takes data) (u : Nat) (w : W) :
    role.Plays (n.enqueueFrom u data w).2.1 := by
  obtain ⟨s, hholds, hready⟩ := h
  obtain ⟨n, rfl⟩ := hholds.exists_eq
  exact ⟨_, ⟨rfl, HEq.rfl⟩, role.enqueue hready hdata _ w⟩

theorem dequeue (w : W) : role.Plays (n.dequeue w).2.1 := by
  obtain ⟨s, hholds, hready⟩ := h
  obtain ⟨n, rfl⟩ := hholds.exists_eq
  exact ⟨_, ⟨rfl, HEq.rfl⟩, role.dequeue hready _ w⟩

theorem transform {data : Payload} {w : W} (hgot : (n.dequeue w).1 = some data) (w' : W) :
    PutsOut Sends ((n.dequeue w).2.1.transform data w').1 ∧
      role.Plays ((n.dequeue w).2.1.transform data w').2.1 := by
  obtain ⟨s, hholds, hready⟩ := h
  obtain ⟨n, rfl⟩ := hholds.exists_eq
  obtain ⟨hout, hready'⟩ := role.transform hready _ w w' hgot
  exact ⟨hout, _, ⟨rfl, HEq.rfl⟩, hready'⟩

theorem lastChunk (w : W) :
    PutsOut Sends (n.lastChunk w).1 ∧ role.Plays (n.lastChunk w).2.1 := by
  obtain ⟨s, hholds, hready⟩ := h
  obtain ⟨n, rfl⟩ := hholds.exists_eq
  obtain ⟨hout, hready'⟩ := role.lastChunk hready w
  exact ⟨hout, _, ⟨rfl, HEq.rfl⟩, hready'⟩

end Role.Plays

namespace Run

variable {net : Wiring} {roles : Nat → Role W Sends} {past : List JournalEntry}

/-- Every node of the run plays its role, and this has happened. -/
structure Played (net : Wiring) (roles : Nat → Role W Sends) (past : List JournalEntry)
    (r : Run W) : Prop where
  wiring : wiringOf r.nodes = net
  plays : ∀ {m n}, r.nodes[m]? = some n → (roles m).Plays n
  past : past ⊆ r.journal

/-- A stage that comes to its end, with an answer of which `P` holds. -/
def Fares {α : Type} (net : Wiring) (roles : Nat → Role W Sends) (past : List JournalEntry)
    (p : Stage W α) (P : α → Prop) : Prop :=
  ∀ r, Played net roles past r →
    p.Ensures r (fun a r' => Played net roles past r' ∧ P a) fun _ => False

/-! ## Rules -/

section Rules

variable {α β ι : Type} {id : Nat} {P : α → Prop} {Q : β → Prop} {r : Run W}

theorem fares_pure {a : α} (h : P a) : Fares net roles past (pure a) P :=
  fun _ hr => ⟨hr, h⟩

theorem fares_bind {p : Stage W α} {f : α → Stage W β} (hp : Fares net roles past p P)
    (hf : ∀ a, P a → Fares net roles past (f a) Q) :
    Fares net roles past (p >>= f) Q := fun r hr =>
  Procedure.ensures_bind <| (hp r hr).mono (fun a r' ⟨hr', ha⟩ => hf a ha r' hr') fun _ h => h

theorem fares_each {f : ι → Stage W Unit} (xs : List ι)
    (hf : ∀ x ∈ xs, Fares net roles past (f x) fun _ => True) :
    Fares net roles past (Procedure.each f xs) fun _ => True := by
  induction xs with
  | nil => exact fares_pure trivial
  | cons x rest ih =>
    obtain ⟨hx, hrest⟩ := List.forall_mem_cons.mp hf
    exact fares_bind hx fun _ _ => ih hrest

theorem fares_look (id : Nat) (absent : α) (f : Node W → α) :
    Fares net roles past (look id absent f) fun _ => True := fun _ hr => ⟨hr, trivial⟩

theorem fares_note (id : Nat) (act : Act) :
    Fares net roles past (note id act) fun _ => True := fun _ hr =>
  ⟨⟨hr.wiring, hr.plays, List.subset_cons_of_subset _ hr.past⟩, trivial⟩

theorem fares_finalize (provider listener : Nat) :
    Fares net roles past (finalize provider listener) fun _ => True := by
  intro r hr
  refine ⟨⟨(wiringOf_congr (List.length_modify ..) fun {m n} hn => ?_).trans hr.wiring,
    fun {m n} hn => ?_, hr.past⟩, trivial⟩
  · refine ⟨_, by rw [List.getElem?_modify, hn]; rfl, ?_⟩
    split <;> exact ⟨rfl, rfl, rfl, rfl, rfl⟩
  · rw [List.getElem?_modify] at hn
    obtain ⟨n', hn', rfl⟩ := Option.map_eq_some_iff.mp hn
    split
    · exact (hr.plays hn').finalize provider
    · exact hr.plays hn'

/-- A call that leaves the node in its role. -/
theorem Played.after (h : Played net roles past r) {n n' : Node W} (hn : r.nodes[id]? = some n)
    (halike : Alike n n') (hplays : (roles id).Plays n') (act : Act) (w : W) :
    Played net roles past (r.after id act n' w) := by
  refine ⟨(wiringOf_set hn halike).trans h.wiring, fun {m k} hk => ?_,
    List.subset_cons_of_subset _ h.past⟩
  by_cases hm : id = m
  · subst hm
    rw [after_getElem?_self (List.getElem?_eq_some_iff.mp hn).1] at hk
    cases hk
    exact hplays
  · rw [after_getElem?_ne hm] at hk
    exact h.plays hk

theorem fares_hook {absent : α} {call : Node W → W → α × Node W × W} {act : Node W → α → Act}
    (hook : Node W → Hook) (hcall : ∀ n w, (hook n).call n w = (act n (call n w).1, (call n w).2))
    (habsent : P absent)
    (hplays : ∀ n w, (roles id).Plays n → P (call n w).1 ∧ (roles id).Plays (call n w).2.1) :
    Fares net roles past (Run.hook id absent call act) P := by
  intro r hr
  unfold Procedure.Ensures
  cases hn : r.nodes[id]? with
  | none => simpa [Run.hook, hn] using ⟨hr, habsent⟩
  | some n =>
    have halike := ((hook n).alike n r.world).1
    rw [hcall] at halike
    obtain ⟨hgood, hplays'⟩ := hplays n r.world (hr.plays hn)
    rw [hook_apply hn]
    exact ⟨hr.after hn halike hplays' _ _, hgood⟩

/-- A call that puts out what it should, and what is done with it. -/
theorem fares_demand {f : Output → Stage W β} {result : Except ComponentError Output}
    (h : PutsOut Sends result)
    (hf : ∀ out : List Payload, (∀ chunk ∈ out, Sends chunk) →
      Fares net roles past (f (Output.ofPayloads out)) Q) :
    Fares net roles past (demand id result >>= f) Q := by
  obtain ⟨out, rfl, hout⟩ := h
  exact fares_bind (P := (· = Output.ofPayloads out)) (fares_pure rfl) fun a ha => ha ▸ hf out hout

end Rules

/-! ## Stages -/

section Stages

variable {receive : Receiver W}

/-- What a node works out may be nothing. -/
theorem fares_work (id : Nat) : Fares net roles past (work id) fun out =>
    ∃ chunks, out.getD [] = Output.ofPayloads chunks ∧ ∀ chunk ∈ chunks, Sends chunk := by
  intro r hr
  unfold Procedure.Ensures work
  cases hn : r.nodes[id]? with
  | none =>
    rw [Procedure.bind_apply]
    simp only [Run.hook, hn]
    exact ⟨hr, [], rfl, by simp⟩
  | some n =>
    have hplays := hr.plays hn
    have hr₁ := hr.after hn ((Hook.dequeue).alike n r.world).1 (hplays.dequeue r.world)
      (.dequeue n.isFinalized (n.dequeue r.world).1) (n.dequeue r.world).2.2
    rw [Procedure.bind_apply, hook_apply hn]
    cases hgot : (n.dequeue r.world).1 with
    | none =>
      rw [hgot] at hr₁
      exact ⟨hr₁, [], rfl, by simp⟩
    | some data =>
      rw [hgot] at hr₁
      have hn₁ : (r.after id (.dequeue n.isFinalized (some data)) (n.dequeue r.world).2.1
          (n.dequeue r.world).2.2).nodes[id]? = some (n.dequeue r.world).2.1 :=
        after_getElem?_self (List.getElem?_eq_some_iff.mp hn).1
      obtain ⟨⟨out, hout, hsends⟩, hplays'⟩ := hplays.transform hgot (n.dequeue r.world).2.2
      have hr₂ := hr₁.after hn₁
        ((Hook.transform data).alike (n.dequeue r.world).2.1 (n.dequeue r.world).2.2).1 hplays'
        (.transform data ((n.dequeue r.world).2.1.transform data (n.dequeue r.world).2.2).1)
        ((n.dequeue r.world).2.1.transform data (n.dequeue r.world).2.2).2.2
      dsimp only
      rw [Procedure.bind_apply, hook_apply hn₁]
      dsimp only [Run.after] at hout hr₂ ⊢
      rw [hout] at hr₂ ⊢
      exact ⟨hr₂, out, rfl, hsends⟩

variable (hedges : ∀ {u m}, m ∈ net.listeners u → ∀ {data}, Sends data → (roles m).Takes data)
  (hr : ∀ id data u, id ∈ net.listeners u → (∀ chunk, data = some chunk → Sends chunk) →
    Fares net roles past (receive id data u) fun _ => True)

include hr

theorem fares_push (id : Nat) (data : Option Payload)
    (hdata : ∀ chunk, data = some chunk → Sends chunk) :
    Fares net roles past (push receive id data) fun _ => True := by
  intro r hplayed
  refine Procedure.ensures_bind (Procedure.ensures_view ?_)
  have hlisteners : (r.nodes[id]?.map (·.listeners)).getD [] = net.listeners id := by
    rw [← hplayed.wiring]
    rfl
  rw [hlisteners]
  exact fares_each _ (fun l hl => hr l data id hl hdata) r hplayed

theorem fares_emit (id : Nat) {chunk : Payload} (hchunk : Sends chunk) :
    Fares net roles past (emit receive id (.ok chunk)) fun _ => True := by
  refine fares_bind (P := (· = chunk)) (fares_pure rfl) fun data hdata => ?_
  subst hdata
  refine fares_bind (fares_note _ _) fun _ _ => fares_push hr id _ fun chunk heq => ?_
  cases heq
  exact hchunk

theorem fares_emits (id : Nat) {out : List Payload} (hout : ∀ chunk ∈ out, Sends chunk) :
    Fares net roles past (Procedure.each (emit receive id) (Output.ofPayloads out))
      fun _ => True := by
  refine fares_each _ fun chunk hchunk => ?_
  obtain ⟨data, hdata, rfl⟩ := List.mem_map.mp hchunk
  exact fares_emit hr id (hout data hdata)

theorem fares_complete (id : Nat) : Fares net roles past (complete receive id) fun _ => True := by
  refine fares_bind (fares_look _ _ _) fun ended _ => ?_
  split
  · exact fares_pure trivial
  · refine fares_bind (fares_hook (P := PutsOut Sends) (fun _ => .lastChunk) (fun _ _ => rfl)
      ⟨[], rfl, by simp⟩ fun n w hplays => hplays.lastChunk w) fun result hresult => ?_
    refine fares_demand hresult fun out hout => ?_
    refine fares_bind (fares_emits hr id hout) fun _ _ => ?_
    refine fares_bind (fares_look _ _ _) fun listeners _ => ?_
    refine fares_bind (fares_each _ fun l _ => fares_finalize id l) fun _ _ => ?_
    exact fares_push hr id none fun _ h => nomatch h

include hedges

theorem fares_deliver (id : Nat) (data : Option Payload) (u : Nat) (hu : id ∈ net.listeners u)
    (hdata : ∀ chunk, data = some chunk → Sends chunk) :
    Fares net roles past (deliver receive id data u) fun _ => True := by
  rw [deliver_eq]
  refine fares_bind (fares_look _ _ _) fun closed _ => ?_
  split
  · exact fares_pure trivial
  · refine fares_bind (P := fun _ => True) ?_ fun _ _ =>
      fares_bind (fares_work id) fun out ⟨chunks, heq, hchunks⟩ => ?_
    · cases data with
      | none => exact fares_pure trivial
      | some data =>
        unfold takeIn
        exact fares_hook (fun _ => .enqueueFrom u data) (fun _ _ => rfl) trivial fun n w h =>
          ⟨trivial, h.enqueueFrom (hedges hu (hdata data rfl)) u w⟩
    · rw [heq]
      refine fares_bind (fares_emits hr id hchunks) fun _ _ => ?_
      refine fares_bind (fares_look _ _ _) fun finalized _ => ?_
      split
      · exact fares_complete hr id
      · exact fares_pure trivial

omit hr

theorem fares_receive (depth : Nat) (id : Nat) (data : Option Payload) (u : Nat)
    (hu : id ∈ net.listeners u) (hdata : ∀ chunk, data = some chunk → Sends chunk) :
    Fares net roles past (Run.receive (W := W) depth id data u) fun _ => True := by
  induction depth generalizing id data u with
  | zero => exact fares_pure trivial
  | succ depth ih => exact fares_deliver hedges ih id data u hu hdata

end Stages

/-! ## Turns of the roots -/

/-- What these roots still have to send passes the test. -/
def Streaming (Sends : Payload → Prop) (streams : List (Nat × Output)) : Prop :=
  ∀ s ∈ streams, ∃ chunks, s.2 = Output.ofPayloads chunks ∧ ∀ chunk ∈ chunks, Sends chunk

theorem mem_of_turn {rounds : Nat} {streams : List (Nat × Output)} {id : Nat}
    {chunk : Except ComponentError Payload} (h : (id, some chunk) ∈ turns rounds streams) :
    ∃ out, (id, out) ∈ streams ∧ chunk ∈ out := by
  induction rounds generalizing streams with
  | zero => cases h
  | succ rounds ih =>
    rcases List.mem_append.mp h with hround | hlater
    · obtain ⟨⟨v, out⟩, hmem, heq⟩ := List.mem_map.mp hround
      obtain ⟨rfl, hhead⟩ := Prod.mk.inj heq
      exact ⟨out, hmem, List.mem_of_mem_head? hhead⟩
    · obtain ⟨rest, hrest, hchunk⟩ := ih hlater
      obtain ⟨first, hmem⟩ := mem_leftOver.mp hrest
      exact ⟨first :: rest, hmem, List.mem_cons_of_mem _ hchunk⟩

/-- The first turn of a root that works on its input at once. -/
inductive Begins (n : Node W) (data : Payload) (w : W) (out : List Payload) : Node W → W → Prop
  | intro {n₁ n₂ n₃ : Node W} {w₁ w₂ w₃ : W} :
      n.enqueueRoot data w = ((), n₁, w₁) → n₁.dequeue w₁ = (some data, n₂, w₂) →
      n₂.transform data w₂ = (.ok (Output.ofPayloads out), n₃, w₃) → Begins n data w out n₃ w₃

theorem Alike.trans {n n' n'' : Node W} (h : Alike n n') (h' : Alike n' n'') : Alike n n'' :=
  ⟨h'.key.trans h.key, h'.component.trans h.component, h'.needs.trans h.needs,
    h'.listeners.trans h.listeners, h'.pruned.trans h.pruned⟩

/-- What a hook leaves of a node. -/
theorem Hook.alike_of_call {n n' : Node W} {w w' : W} {act : Act} (hook : Hook)
    (h : hook.call n w = (act, n', w')) : Alike n n' := by
  have := (hook.alike n w).1
  rwa [h] at this

theorem Begins.alike {n n' : Node W} {data : Payload} {w w' : W} {out : List Payload}
    (h : Begins n data w out n' w') : Alike n n' := by
  obtain ⟨htake, hgot, hwork⟩ := h
  have h₁ := (Hook.enqueueRoot data).alike_of_call (by rw [Hook.call, htake])
  have h₂ := Hook.dequeue.alike_of_call (by rw [Hook.call, hgot])
  have h₃ := (Hook.transform data).alike_of_call (by rw [Hook.call, hwork])
  exact (h₁.trans h₂).trans h₃

/-- The entry of the journal that says what a root has put out. -/
def puttingOut (id : Nat) (data : Payload) (out : List Payload) : JournalEntry :=
  ⟨id, .transform data (.ok (Output.ofPayloads out))⟩

theorem after_world {r : Run W} {id : Nat} {act : Act} {n : Node W} {w : W} :
    (r.after id act n w).world = w := rfl

section Turns

variable {receive : Receiver W} {r : Run W} {inputs : List (Nat × Payload)}

/-- A turn that works leaves the root in its role, and is on record. -/
theorem ensures_begin {id : Nat} {data : Payload} {n n' : Node W} {out : List Payload} {w' : W}
    (h : Played net roles past r) (hn : r.nodes[id]? = some n)
    (hbegins : Begins n data r.world out n' w') (hplays : (roles id).Plays n') :
    (begin receive id data).Ensures r (fun got r' => got = some (Output.ofPayloads out) ∧
      Played net roles (puttingOut id data out :: past) r' ∧ r'.world = w') fun _ => False := by
  have hlt := (List.getElem?_eq_some_iff.mp hn).1
  have hafter := h.after hn hbegins.alike hplays (.transform data (.ok (Output.ofPayloads out))) w'
  obtain ⟨htake, hgot, hwork⟩ := hbegins
  rename_i n₁ n₂ w₁ w₂
  have hn₁ : (r.after id (.enqueue 0 data) n₁ w₁).nodes[id]? = some n₁ := after_getElem?_self hlt
  have hn₂ : ((r.after id (.enqueue 0 data) n₁ w₁).after id (.dequeue n₁.isFinalized (some data))
      n₂ w₂).nodes[id]? = some n₂ := after_getElem?_self (by rwa [after_length])
  unfold Procedure.Ensures begin work
  simp only [Procedure.bind_apply, hook_apply hn, htake]
  simp only [hook_apply hn₁, after_world, hgot]
  simp only [Procedure.bind_apply, hook_apply hn₂, after_world, hwork]
  have hnodes : (((r.after id (.enqueue 0 data) n₁ w₁).after id
      (.dequeue n₁.isFinalized (some data)) n₂ w₂).after id
        (.transform data (.ok (Output.ofPayloads out))) n' w').nodes = r.nodes.set id n' := by
    simp only [after, List.set_set]
  refine ⟨rfl, ⟨hnodes ▸ hafter.wiring, fun hk => hafter.plays ?_, ?_⟩, rfl⟩
  · rwa [hnodes] at hk
  · exact List.cons_subset_cons _
      (List.subset_cons_of_subset _ (List.subset_cons_of_subset _ h.past))

theorem Played.mono {past' : List JournalEntry} (h : Played net roles past r)
    (hpast : past' ⊆ past) : Played net roles past' r :=
  ⟨h.wiring, h.plays, List.Subset.trans hpast h.past⟩

/-- The first turns of the roots, where `Pending` says what the surroundings still hold for the
roots that have not begun. -/
theorem ensures_beginAll {Pending : List (Nat × Payload) → W → Prop} {out : Nat → List Payload}
    (hstep : ∀ id data rest w n, Pending ((id, data) :: rest) w → (roles id).Plays n →
      ∃ n' w', Begins n data w (out id) n' w' ∧ (roles id).Plays n' ∧ Pending rest w')
    (hsends : ∀ s ∈ inputs, ∀ chunk ∈ out s.1, Sends chunk) (hsize : ∀ s ∈ inputs, s.1 < net.size)
    (h : Played net roles past r) (hpending : Pending inputs r.world) :
    (beginAll receive inputs).Ensures r (fun streams r' =>
      Played net roles (past ++ inputs.map fun s => puttingOut s.1 s.2 (out s.1)) r' ∧
        Streaming Sends streams) fun _ => False := by
  induction inputs generalizing past r with
  | nil =>
    refine Procedure.ensures_pure ⟨by simpa using h, ?_⟩
    simp [Streaming]
  | cons s rest ih =>
    obtain ⟨id, data⟩ := s
    obtain ⟨hhead, htail⟩ := List.forall_mem_cons.mp hsends
    obtain ⟨hid, hsize⟩ := List.forall_mem_cons.mp hsize
    have hlt : id < r.nodes.length := by
      rw [← h.wiring] at hid
      exact hid
    have hn := List.getElem?_eq_getElem hlt
    obtain ⟨n', w', hbegins, hplays, hrest⟩ := hstep id data rest r.world _ hpending (h.plays hn)
    rw [beginAll]
    refine Procedure.ensures_bind ((ensures_begin h hn hbegins hplays).mono ?_ fun _ h => h)
    rintro _ r₁ ⟨rfl, hplayed, rfl⟩
    refine Procedure.ensures_bind ((ih htail hsize hplayed hrest).mono ?_ fun _ h => h)
    rintro streams r₂ ⟨hplayed₂, hstreams⟩
    refine Procedure.ensures_pure ⟨hplayed₂.mono fun e he => ?_, ?_⟩
    · rw [List.map_cons] at he
      exact List.perm_middle.mem_iff.mp he
    · exact List.forall_mem_cons.mpr ⟨⟨_, rfl, hhead⟩, hstreams⟩

variable (hr : ∀ id data u, id ∈ net.listeners u → (∀ chunk, data = some chunk → Sends chunk) →
    Fares net roles past (receive id data u) fun _ => True)

include hr

theorem fares_turns (rounds : Nat) {streams : List (Nat × Output)}
    (h : Streaming Sends streams) :
    Fares net roles past (Procedure.each (take receive) (turns rounds streams)) fun _ => True := by
  refine fares_each _ fun turn hturn => ?_
  obtain ⟨id, _ | chunk⟩ := turn
  · exact fares_complete hr id
  · obtain ⟨out, hout, hchunk⟩ := mem_of_turn hturn
    obtain ⟨chunks, rfl, hchunks⟩ := h _ hout
    obtain ⟨data, hdata, rfl⟩ := List.mem_map.mp hchunk
    exact fares_emit hr id (hchunks data hdata)

/-- Once every root has begun, the driving comes to its end. -/
theorem ensures_drive (hbegin : (beginAll receive inputs).Ensures r
      (fun streams r' => Played net roles past r' ∧ Streaming Sends streams) fun _ => False) :
    (drive receive inputs).Ensures r (fun _ => Played net roles past) fun _ => False := by
  refine Procedure.ensures_bind (hbegin.mono ?_ fun _ h => h)
  rintro streams r' ⟨hplayed, hstreams⟩
  exact ((fares_turns hr _ hstreams) r' hplayed).mono (fun _ _ h => h.1) fun _ h => h

end Turns

end Run

end FeatureGraph
