-- Whole runs that come to their end. The nodes are acquired, the root of a
-- tree is driven, and the nodes are released. What each node does at that
-- says what the run leaves.
import FeatureGraph.Proofs.Run.Slot
import FeatureGraph.Proofs.Run.Trees

namespace FeatureGraph

variable {W : Type}

namespace Run

/-! ## Driving one root -/

/-- One root sends its chunks in order, and ends. -/
theorem turns_root (u : Nat) (out : Output) :
    turns (roundsFor [(u, out)]) [(u, out)] =
      out.map (fun chunk => (u, some chunk)) ++ [(u, none)] := by
  have hturns : ∀ out : Output, turns (out.length + 1) [(u, out)] =
      out.map (fun chunk => (u, some chunk)) ++ [(u, none)] := by
    intro out
    induction out with
    | nil => rfl
    | cons chunk rest ih =>
      rw [List.length_cons, turns]
      simpa using ih
  simpa [roundsFor] using hturns out

section Root

variable {u depth : Nat} {data got : Payload} {front back : List (Node W)}
  {blocks blocks₁ blocks' : List (List (Node W))} {w w₁ w₂ w₃ w₄ w' : W}
  {n n₁ n₂ n₃ n' : Node W} {out : List Payload}

/-- The first turn of a root that works on what it is given. -/
theorem leads_beginAll {rest : List (Node W)} {out : Output} (hu : front.length = u)
    (hin : n.enqueueRoot data w = ((), n₁, w₁)) (hgot : n₁.dequeue w₁ = (some got, n₂, w₂))
    (hout : n₂.transform got w₂ = (.ok out, n₃, w₃)) :
    Leads (beginAll (receive depth) [(u, data)]) (front ++ n :: rest) w [(u, out)]
      (front ++ n₃ :: rest) w₃ := by
  have hbegin : Leads (begin (receive depth) u data) (front ++ n :: rest) w (some out)
      (front ++ n₃ :: rest) w₃ := by
    refine (leads_hook hu hin).bind (Leads.bind (a := some out) ?_ (leads_pure _))
    exact (leads_hook hu hgot).bind ((leads_hook hu hout).bind ((leads_demand _ _).bind
      (leads_pure _)))
  intro journal
  obtain ⟨journal', h⟩ := hbegin journal
  exact ⟨journal', by simp [beginAll, Procedure.bind_apply, h]⟩

/-- A root that has begun sends what it puts out, and ends. -/
theorem leads_drive (hu : front.length = u)
    (hbegins : Leads (beginAll (receive depth) [(u, data)]) (front ++ n :: (blocks.flatten ++ back))
      w [(u, Output.ofPayloads out)] (front ++ n₃ :: (blocks.flatten ++ back)) w₃)
    (hlisteners : n₃.listeners = heads (u + 1) blocks) (hfull : 0 ∉ blocks.map List.length)
    (hdepth : blocks.flatten.length ≤ depth) (hpours : Pours u out blocks w₃ blocks₁ w₄)
    (hends : Ends u n₃ blocks₁ w₄ n' blocks' w') :
    Leads (drive (receive depth) [(u, data)]) (front ++ n :: (blocks.flatten ++ back)) w ()
      (front ++ n' :: (blocks'.flatten ++ back)) w' := by
  have hlengths := hpours.lengths
  have hdepth₁ : blocks₁.flatten.length ≤ depth := by
    rwa [List.length_flatten, hlengths, ← List.length_flatten]
  have hcomplete := leads_complete back hu (hlisteners.trans (heads_congr hlengths).symm) hdepth₁
    (hlengths ▸ hfull) hends
  have hemits := leads_emits back hu hlisteners hdepth hpours
  refine hbegins.bind ?_
  rw [turns_root, Procedure.each_append, Procedure.each_map]
  exact hemits.bind (leads_each_cons hcomplete (leads_pure ()))

end Root

/-! ## Acquiring and releasing -/

/-- The node is acquired, and the surroundings stay as they are. A pruned node is passed over. -/
def Opens (w : W) (n n' : Node W) : Prop :=
  if n.pruned then n' = n else n.acquire w = (.ok (), n', w)

/-- The nodes that are acquired are released one after the other. -/
inductive Closes : List (Node W) → W → List (Node W) → W → Prop
  | nil {w : W} : Closes [] w [] w
  | idle {n : Node W} {rest rest' : List (Node W)} {w w' : W} (hn : n.acquired = false)
      (others : Closes rest w rest' w') : Closes (n :: rest) w (n :: rest') w'
  | release {n n' : Node W} {rest rest' : List (Node W)} {w w₁ w' : W} (hn : n.acquired = true)
      (first : n.release w = (.ok (), n', w₁)) (others : Closes rest w₁ rest' w') :
      Closes (n :: rest) w (n' :: rest') w'

/-- The nodes can be released, and leave the surroundings like this. -/
def Shuts (nodes : List (Node W)) (w w' : W) : Prop := ∃ nodes', Closes nodes w nodes' w'

/-- Nodes that are pruned are passed over. -/
theorem opens_pruned {nodes : List (Node W)} {w : W} (h : ∀ n ∈ nodes, n.pruned = true) :
    List.Forall₂ (Opens w) nodes nodes :=
  List.forall₂_same.mpr fun n hn => by simp [Opens, h n hn]

theorem shuts_idle {nodes : List (Node W)} {w : W} (h : ∀ n ∈ nodes, n.acquired = false) :
    Shuts nodes w w := by
  induction nodes with
  | nil => exact ⟨[], .nil⟩
  | cons n rest ih =>
    obtain ⟨hn, hrest⟩ := List.forall_mem_cons.mp h
    obtain ⟨rest', hcloses⟩ := ih hrest
    exact ⟨n :: rest', .idle hn hcloses⟩

section Bracket

variable {front nodes nodes' nodes₁ nodes₂ : List (Node W)} {w w' : W}

/-- The numbers of the nodes that pass a test, from a number on. -/
def idsFrom (k : Nat) (nodes : List (Node W)) (p : Node W → Bool) : List Nat :=
  (nodes.zipIdx k).filterMap fun (n, id) => if p n then some id else none

theorem idsFrom_cons (k : Nat) (n : Node W) (rest : List (Node W)) (p : Node W → Bool) :
    idsFrom k (n :: rest) p = (if p n then [k] else []) ++ idsFrom (k + 1) rest p := by
  rw [idsFrom, List.zipIdx_cons, List.filterMap_cons]
  by_cases h : p n = true <;> simp [h, idsFrom]

variable (front) in
theorem leads_acquireAll (h : List.Forall₂ (Opens w) nodes nodes') :
    Leads (acquireAll (idsFrom front.length nodes fun n => !n.pruned)) (front ++ nodes) w ()
      (front ++ nodes') w := by
  induction h generalizing front with
  | nil => exact leads_pure ()
  | @cons n n' rest rest' hopens _ ih =>
    have hothers := ih (front ++ [n'])
    simp only [List.append_assoc, List.singleton_append, List.length_append, List.length_singleton]
      at hothers
    rw [idsFrom_cons]
    unfold Opens at hopens
    split at hopens
    · rename_i hpruned
      subst hopens
      simpa [hpruned] using hothers
    · rename_i hlive
      simp only [hlive, Bool.not_false, if_true, List.singleton_append]
      exact leads_each_cons ((leads_hook rfl hopens).bind (leads_demand _ _)) hothers

variable (front) in
theorem leads_releaseAll (h : Closes nodes w nodes' w') :
    Leads (releaseAll (idsFrom front.length nodes (·.acquired))) (front ++ nodes) w none
      (front ++ nodes') w' := by
  induction h generalizing front with
  | nil => exact leads_pure none
  | @idle n rest rest' w w' hn _ ih =>
    have hothers := ih (front ++ [n])
    simp only [List.append_assoc, List.singleton_append, List.length_append, List.length_singleton]
      at hothers
    rw [idsFrom_cons]
    simpa [hn] using hothers
  | @release n n' rest rest' w w₁ w' hn first _ ih =>
    have hothers := ih (front ++ [n'])
    simp only [List.append_assoc, List.singleton_append, List.length_append, List.length_singleton]
      at hothers
    rw [idsFrom_cons]
    simp only [hn, if_true, List.singleton_append]
    exact (leads_hook rfl first).bind ((leads_look rfl _ _).bind (hothers.bind (leads_pure _)))

/-- Between the acquiring and the releases of all nodes a run goes as the driving of its roots
goes, to its end or not. -/
theorem whole_of_drive {inputs : List (Nat × Payload)} {result : Except GraphError Unit} {w'' : W}
    (hopens : List.Forall₂ (Opens w) nodes nodes₁) (hcloses : Closes nodes₂ w' nodes' w'')
    (hdrive : ∀ journal, ∃ journal', drive (receive nodes.length) inputs ⟨nodes₁, w, journal⟩ =
      (⟨nodes₂, w', journal'⟩, result)) (journal : List JournalEntry) :
    ∃ journal', whole inputs ⟨nodes, w, journal⟩ = (⟨nodes', w'', journal'⟩, result) := by
  obtain ⟨j₁, hacquire⟩ := leads_acquireAll [] hopens journal
  obtain ⟨j₂, hdrive⟩ := hdrive j₁
  obtain ⟨j₃, hrelease⟩ := leads_releaseAll [] hcloses j₂
  refine ⟨j₃, ?_⟩
  have hids : ∀ (nodes : List (Node W)) p, idsOf nodes p = idsFrom 0 nodes p := fun _ _ => rfl
  simp only [List.nil_append, List.length_nil] at hacquire hrelease
  simp only [whole, Procedure.bind_apply, hids, hacquire, hdrive, hrelease]
  cases result <;> rfl

/-- A run whose parts come to their end comes to its end. -/
theorem leads_whole {inputs : List (Nat × Payload)} (hopens : List.Forall₂ (Opens w) nodes nodes₁)
    (hdrive : Leads (drive (receive nodes.length) inputs) nodes₁ w () nodes₂ w')
    {w'' : W} (hcloses : Closes nodes₂ w' nodes' w'') :
    Leads (whole inputs) nodes w () nodes' w'' := whole_of_drive hopens hcloses hdrive

end Bracket

end Run

/-- The first node of a tree in the course of a run. -/
def Node.root (key : String) (c : Component W) (listeners : List Nat) (s : c.State) (ended : Bool) :
    Node W :=
  { Node.new key c [] with listeners, state := s, completed := ended, acquired := true }

namespace Run

section Tree

variable {key : String} {c : Component W} {listeners : List Nat} {depth : Nat} {data : Payload}
  {s s' s'' : c.State} {w w₁ w₂ w' : W} {blocks blocks₁ blocks' : List (List (Node W))}
  {out : List Payload}

theorem opens_root (h : c.acquire c.start w = (.ok (), s, w)) :
    Opens w { Node.new key c [] with listeners } (.root key c listeners s false) := by
  simp [Opens, Node.acquire, Node.new, Node.root, h]

theorem release_root {ended : Bool} (h : c.release s w = (.ok (), s', w')) :
    (Node.root key c listeners s ended).release w =
      (.ok (), { Node.root key c listeners s' ended with acquired := false }, w') := by
  simp only [Node.release, Node.root, Node.new, h]

/-- The root of a tree puts out what it makes of its input. -/
theorem begins_root {out : Output} (key : String) (listeners : List Nat) (rest : List (Node W))
    (hplain : c.Plain) (hout : c.transform data s w = (.ok out, s', w₁)) :
    Leads (beginAll (receive depth) [(0, data)]) (.root key c listeners s false :: rest) w
      [(0, out)] (.root key c listeners s' false :: rest) w₁ := by
  have hin : Node.enqueueRoot data (.root key c listeners s false) w =
      ((), { Node.root key c listeners s false with cache := ⟨some data⟩ }, w) := by
    simp only [Node.enqueueRoot, Node.root, Node.new, hplain.enqueue, Cache.replace]
  have hgot : Node.dequeue { Node.root key c listeners s false with cache := ⟨some data⟩ } w =
      (some data, .root key c listeners s false, w) := by
    simp only [Node.dequeue, Node.root, Node.new, hplain.dequeue, Cache.take]
  have hwork : (Node.root key c listeners s false).transform data w =
      (.ok out, .root key c listeners s' false, w₁) := by
    simp only [Node.transform, Node.root, Node.new, hout]
  have hplace : ([] : List (Node W)).length = 0 := rfl
  exact leads_beginAll hplace hin hgot hwork

/-- The root of a tree that works on every chunk at once. -/
theorem leads_root (key : String) (back : List (Node W)) (hplain : c.Plain)
    (hfull : 0 ∉ blocks.map List.length)
    (hdepth : blocks.flatten.length ≤ depth)
    (hout : c.transform data s w = (.ok (Output.ofPayloads out), s', w₁))
    (hpours : Pours 0 out blocks w₁ blocks₁ w₂) (hlast : c.lastChunk s' w₂ = (.ok [], s'', w₂))
    (hhands : Hands 0 none 1 (blocks₁.map (told 0)) w₂ blocks' w') :
    Leads (drive (receive depth) [(0, data)])
      (.root key c (heads 1 blocks) s false :: (blocks.flatten ++ back)) w ()
      (.root key c (heads 1 blocks) s'' true :: (blocks'.flatten ++ back)) w' := by
  have hcall : (Node.root key c (heads 1 blocks) s' false).lastChunk w₂ =
      (.ok [], .root key c (heads 1 blocks) s'' true, w₂) := by
    simp only [Node.lastChunk, Node.root, Node.new, hlast]
  have hplace : ([] : List (Node W)).length = 0 := rfl
  exact leads_drive hplace (begins_root key _ _ hplain hout) rfl hfull hdepth hpours
    ⟨rfl, [], w₂, blocks₁, w₂, hcall, .nil, hhands⟩

end Tree

end Run

namespace Graph

variable {g : Graph W} {inputs : Inputs} {nodes' : List (Node W)} {w w' : W}

theorem process_of_leads
    (hinputs : (g.roots.all fun (key, _) => inputs.contains key) = true)
    (h : Run.Leads (Run.whole (g.driven inputs)) g.nodes w () nodes' w') :
    g.process inputs w = ({ g with nodes := nodes' }, w', .ok ()) := by
  obtain ⟨journal, h⟩ := h []
  simp only [process, run, hinputs, if_true, h]

/-- With an input for its one root, the graph drives this root. -/
theorem driven_root {key : String} {c : Component W} {listeners : List Nat} {nodes : List (Node W)}
    (data : Payload) (hnodes : g.nodes = { Node.new key c [] with listeners } :: nodes)
    (hroots : g.roots = [(key, 0)]) :
    (g.roots.all fun (k, _) => (Dictionary.empty.insert key data).contains k) = true ∧
      g.driven (Dictionary.empty.insert key data) = [(0, data)] := by
  constructor
  · simp [hroots, Dictionary.contains]
  · simp [driven, hroots, hnodes, Node.new]

/-- The run of a tree whose root works on every chunk at once. -/
theorem process_of_root {key : String} {c : Component W} {data : Payload} {s s' s'' s₃ : c.State}
    {nodes back : List (Node W)} {w₁ w₂ w₃ w₄ : W} (blocks : List (List (Node W)))
    {blocks₁ blocks' : List (List (Node W))} {out : List Payload} (hplain : c.Plain)
    (hnodes : g.nodes = { Node.new key c [] with listeners := Run.heads 1 blocks } :: nodes)
    (hroots : g.roots = [(key, 0)]) (hacquire : c.acquire c.start w = (.ok (), s, w))
    (hopens : List.Forall₂ (Run.Opens w) nodes (blocks.flatten ++ back))
    (hfull : 0 ∉ blocks.map List.length)
    (hout : c.transform data s w = (.ok (Output.ofPayloads out), s', w₁))
    (hpours : Run.Pours 0 out blocks w₁ blocks₁ w₂) (hlast : c.lastChunk s' w₂ = (.ok [], s'', w₂))
    (hhands : Run.Hands 0 none 1 (blocks₁.map (Run.told 0)) w₂ blocks' w₃)
    (hrelease : c.release s'' w₃ = (.ok (), s₃, w₄))
    (hshuts : Run.Shuts (blocks'.flatten ++ back) w₄ w') :
    (g.process (Dictionary.empty.insert key data) w).2 = (w', .ok ()) := by
  obtain ⟨nodes', hcloses⟩ := hshuts
  obtain ⟨hinputs, hdriven⟩ := driven_root data hnodes hroots
  have hsize : blocks.flatten.length ≤ g.nodes.length := by
    have hsame := hopens.length_eq
    rw [hnodes, List.length_cons, hsame, List.length_append]
    omega
  have hdrive := Run.leads_root key back hplain hfull hsize hout hpours hlast hhands
  have hall := hnodes ▸ List.Forall₂.cons (Run.opens_root hacquire) hopens
  have hwhole := Run.leads_whole hall hdrive (.release rfl (Run.release_root hrelease) hcloses)
  rw [process_of_leads hinputs (hdriven ▸ hwhole)]

end Graph

end FeatureGraph
