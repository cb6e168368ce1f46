-- Runs of trees that stop. A chunk that the first node of a block cannot work
-- on stops all that is under way, and the failure that is answered is that of
-- this node. What was acquired is still released, with what it has at that
-- moment.
import FeatureGraph.Proofs.Run.Links

namespace FeatureGraph

variable {W : Type}

namespace Run

/-! ## Stages that stop -/

/-- From these nodes and surroundings the stage stops with this failure, whatever the journal
holds. -/
def Breaks {α : Type} (p : Stage W α) (nodes : List (Node W)) (w : W) (e : GraphError)
    (nodes' : List (Node W)) (w' : W) : Prop :=
  ∀ journal, ∃ journal', p ⟨nodes, w, journal⟩ = (⟨nodes', w', journal'⟩, .error e)

section Breaks

variable {α β ι : Type} {p : Stage W α} {f : α → Stage W β} {g : ι → Stage W Unit} {x : ι}
  {nodes nodes' nodes'' : List (Node W)} {w w' w'' : W} {a : α} {e : GraphError}

theorem Breaks.bind (h : Breaks p nodes w e nodes' w') : Breaks (p >>= f) nodes w e nodes' w' := by
  intro journal
  obtain ⟨journal', hp⟩ := h journal
  exact ⟨journal', by rw [Procedure.bind_apply, hp]⟩

theorem Leads.breaks (h : Leads p nodes w a nodes' w')
    (h' : Breaks (f a) nodes' w' e nodes'' w'') : Breaks (p >>= f) nodes w e nodes'' w'' := by
  intro journal
  obtain ⟨journal', hp⟩ := h journal
  obtain ⟨journal'', hf⟩ := h' journal'
  exact ⟨journal'', by rw [Procedure.bind_apply, hp, ← hf]⟩

/-- One item stops the work, after those before it came to their end. -/
theorem breaks_each {before : List ι} (rest : List ι)
    (h : Leads (Procedure.each g before) nodes w () nodes' w')
    (h' : Breaks (g x) nodes' w' e nodes'' w'') :
    Breaks (Procedure.each g (before ++ x :: rest)) nodes w e nodes'' w'' := by
  rw [Procedure.each_append]
  exact h.breaks h'.bind

end Breaks

/-! ## Blocks that stop a run -/

/-- What comes to the first node of a block, which has this number, stops the run with this failure,
and leaves the block and the surroundings like this. -/
structure Refuses (id u : Nat) (data : Option Payload) (block : List (Node W)) (w : W)
    (e : GraphError) (block' : List (Node W)) (w' : W) : Prop where
  length : block'.length = block.length
  breaks : ∀ (front back : List (Node W)) (depth : Nat), front.length = id → block.length ≤ depth →
    Breaks (receive depth id data u) (front ++ (block ++ back)) w e (front ++ (block' ++ back)) w'

section Blocks

variable {α : Type} {id u depth : Nat} {data : Option Payload} {cause : ComponentError}
  {e : GraphError} {front rest back tail block block' : List (Node W)} {w w' w₁ w₂ : W}
  {n n₁ n₂ n₃ : Node W}

theorem breaks_stop (rest : List (Node W)) (hid : front.length = id) (cause : ComponentError) :
    Breaks (stop id cause : Stage W α) (front ++ n :: rest) w (.failed n.key cause)
      (front ++ n :: rest) w :=
  (leads_look hid "" (·.key)).breaks fun journal => ⟨journal, rfl⟩

/-- A node stops the run if it cannot work on what it takes out. -/
theorem breaks_work {got : Payload} (rest : List (Node W)) (hid : front.length = id)
    (hgot : n.dequeue w = (some got, n₁, w₁)) (hfail : n₁.transform got w₁ = (.error cause, n₂, w₂)) :
    Breaks (work id) (front ++ n :: rest) w (.failed n₂.key cause) (front ++ n₂ :: rest) w₂ :=
  (leads_hook hid hgot).breaks ((leads_hook hid hfail).breaks (breaks_stop rest hid cause).bind)

/-- So does the block that begins with it. -/
theorem refuses_first {got : Payload} (hopen : n.pruned = false ∧ n.completed = false)
    (hin : n.takeIn u data w = (n₁, w₁)) (hgot : n₁.dequeue w₁ = (some got, n₂, w₂))
    (hfail : n₂.transform got w₂ = (.error cause, n₃, w')) :
    Refuses id u data (n :: tail) w (.failed n₃.key cause) (n₃ :: tail) w' := by
  refine ⟨rfl, fun front back depth hid hdepth => ?_⟩
  obtain ⟨depth, rfl⟩ := Nat.exists_eq_succ_of_ne_zero (n := depth) (by simp at hdepth; omega)
  rw [receive, deliver_eq]
  refine (leads_look hid true fun n => n.pruned || n.completed).breaks ?_
  rw [hopen.1, hopen.2]
  exact (leads_takeIn hid hin).breaks (breaks_work _ hid hgot hfail).bind

/-- A node with one provider, which it is to work for at once. -/
theorem refuses_link {key : String} {c : Component W} {listeners : List Nat} {s s' : c.State}
    {heard : Bool} {x : Payload} (hplain : c.Plain) (hfail : c.transform x s w = (.error cause, s', w')) :
    Refuses id u (some x) (Node.link key c u listeners s heard false false :: tail) w
      (.failed key cause) (Node.link key c u listeners s' true false false :: tail) w' := by
  have hwork : (Node.link key c u listeners s true false false).transform x w =
      (.error cause, Node.link key c u listeners s' true false false, w') := by
    simp only [Node.transform, Node.link, Node.new, hfail]
  exact refuses_first ⟨rfl, rfl⟩ (takeIn_link hplain) (dequeue_link hplain) hwork

variable (back) in
/-- A chunk is sent to a block that refuses it. -/
theorem breaks_emit {chunk : Payload} {others : List Nat} (hu : front.length = u)
    (hlisteners : n.listeners = (u + 1) :: others) (hdepth : block.length ≤ depth)
    (h : Refuses (u + 1) u (some chunk) block w e block' w') :
    Breaks (emit (receive depth) u (.ok chunk)) (front ++ n :: (block ++ back)) w e
      (front ++ n :: (block' ++ back)) w' := by
  have hplace : (front ++ [n]).length = u + 1 := by simp [hu]
  have hrefused := h.breaks (front ++ [n]) back depth hplace hdepth
  simp only [List.append_assoc, List.singleton_append] at hrefused
  refine (leads_demand _ _).breaks ((leads_note _ _).breaks ?_)
  refine (leads_look hu [] (·.listeners)).breaks ?_
  rw [hlisteners]
  exact hrefused.bind

variable (back) in
/-- A root sends its chunks up to the first that is refused. -/
theorem breaks_drive {data chunk : Payload} {chunks others : List Payload} {block₁ : List (Node W)}
    (hu : front.length = u)
    (hbegins : Leads (beginAll (receive depth) [(u, data)]) (front ++ n :: (block ++ back)) w
      [(u, Output.ofPayloads (chunks ++ chunk :: others))] (front ++ n₁ :: (block ++ back)) w₁)
    (hlisteners : n₁.listeners = [u + 1]) (hdepth : block.length ≤ depth)
    (hpours : Pours u chunks [block] w₁ [block₁] w₂)
    (hrefuses : Refuses (u + 1) u (some chunk) block₁ w₂ e block' w') :
    Breaks (drive (receive depth) [(u, data)]) (front ++ n :: (block ++ back)) w e
      (front ++ n₁ :: (block' ++ back)) w' := by
  have hlength : block₁.length = block.length := by simpa using hpours.lengths
  have hheads : n₁.listeners = heads (u + 1) [block] := hlisteners
  have hemits := leads_emits back hu hheads (by simpa using hdepth) hpours
  simp only [List.flatten_singleton] at hemits
  have hemit := breaks_emit back hu hlisteners (hlength ▸ hdepth) hrefuses
  refine hbegins.breaks ?_
  rw [turns_root, Output.ofPayloads, List.map_append, List.map_cons, List.map_append, List.map_cons,
    List.append_assoc, List.cons_append]
  refine breaks_each _ ?_ hemit
  rw [Procedure.each_map]
  exact hemits

/-! ## Whole runs -/

/-- A run that is stopped while the root is driven releases what it has acquired. -/
theorem breaks_whole {inputs : List (Nat × Payload)} {nodes nodes' nodes₁ nodes₂ : List (Node W)}
    {w'' : W} (hopens : List.Forall₂ (Opens w) nodes nodes₁)
    (hdrive : Breaks (drive (receive nodes.length) inputs) nodes₁ w e nodes₂ w')
    (hcloses : Closes nodes₂ w' nodes' w'') : Breaks (whole inputs) nodes w e nodes' w'' :=
  whole_of_drive hopens hcloses hdrive

end Blocks

end Run

namespace Graph

variable {g : Graph W} {w : W}

/-- The run of a tree whose root sends a chunk that is refused. -/
theorem process_of_refusal {key : String} {c : Component W} {data chunk : Payload}
    {s s' s₃ : c.State} {nodes block block₁ block₂ back : List (Node W)}
    {chunks others : List Payload} {e : GraphError} {w₁ w₂ w₃ w₄ w' : W} (hplain : c.Plain)
    (hnodes : g.nodes = { Node.new key c [] with listeners := [1] } :: nodes)
    (hroots : g.roots = [(key, 0)]) (hacquire : c.acquire c.start w = (.ok (), s, w))
    (hopens : List.Forall₂ (Run.Opens w) nodes (block ++ back))
    (hout : c.transform data s w =
      (.ok (Output.ofPayloads (chunks ++ chunk :: others)), s', w₁))
    (hpours : Run.Pours 0 chunks [block] w₁ [block₁] w₂)
    (hrefuses : Run.Refuses 1 0 (some chunk) block₁ w₂ e block₂ w₃)
    (hrelease : c.release s' w₃ = (.ok (), s₃, w₄)) (hshuts : Run.Shuts (block₂ ++ back) w₄ w') :
    (g.process (Dictionary.empty.insert key data) w).2 = (w', .error e) := by
  obtain ⟨nodes', hcloses⟩ := hshuts
  obtain ⟨hinputs, hdriven⟩ := driven_root data hnodes hroots
  have hsize : block.length ≤ g.nodes.length := by
    have hsame := hopens.length_eq
    rw [hnodes, List.length_cons, hsame, List.length_append]
    omega
  have hplace : ([] : List (Node W)).length = 0 := rfl
  have hdrive := Run.breaks_drive back hplace
    (Run.begins_root key [1] (block ++ back) hplain hout) rfl hsize hpours hrefuses
  have hall := hnodes ▸ List.Forall₂.cons (Run.opens_root hacquire) hopens
  have hwhole := Run.breaks_whole hall hdrive (.release rfl (Run.release_root hrelease) hcloses)
  obtain ⟨journal, h⟩ := hwhole []
  simp only [process, run, hinputs, if_true, hdriven, h]

end Graph

end FeatureGraph
