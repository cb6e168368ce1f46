-- Runs of trees. In a graph that is a tree, with its nodes in the order that
-- a walk from the root down meets them, each subtree is a block of the nodes.
-- What comes to a block changes nothing but the block and the surroundings,
-- so the run of a tree is put together from what its blocks take in. These
-- laws say that a run comes to its end, and in which state.
import FeatureGraph.Proofs.Run.Steps

namespace FeatureGraph

variable {W : Type}

/-! ## What one node does -/

namespace Node

/-- Takes in data from a provider, or the sign that one has ended. -/
def takeIn (u : Nat) (data : Option Payload) (n : Node W) (w : W) : Node W × W :=
  match data with
  | some data => (n.enqueueFrom u data w).2
  | none => (n, w)

/-- A node takes out what it can work on, and turns it into these chunks; if it can work on
nothing there are none. -/
inductive Works (n : Node W) (w : W) : List Payload → Node W → W → Prop
  | waits {n' : Node W} {w' : W} (h : n.dequeue w = (none, n', w')) : Works n w [] n' w'
  | works {data : Payload} {out : List Payload} {n₁ n' : Node W} {w₁ w' : W}
      (hgot : n.dequeue w = (some data, n₁, w₁))
      (hout : n₁.transform data w₁ = (.ok (Output.ofPayloads out), n', w')) : Works n w out n' w'

end Node

namespace Run

/-! ## Stages that come to their end -/

/-- From these nodes and surroundings the stage comes to its end, whatever the journal holds. -/
def Leads {α : Type} (p : Stage W α) (nodes : List (Node W)) (w : W) (a : α)
    (nodes' : List (Node W)) (w' : W) : Prop :=
  ∀ journal, ∃ journal', p ⟨nodes, w, journal⟩ = (⟨nodes', w', journal'⟩, .ok a)

section Leads

variable {α β ι : Type} {nodes nodes' nodes'' : List (Node W)} {w w' w'' : W} {a : α}

theorem leads_pure (a : α) : Leads (pure a : Stage W α) nodes w a nodes w := fun journal =>
  ⟨journal, rfl⟩

theorem Leads.bind {p : Stage W α} {f : α → Stage W β} {b : β} (h : Leads p nodes w a nodes' w')
    (h' : Leads (f a) nodes' w' b nodes'' w'') : Leads (p >>= f) nodes w b nodes'' w'' := by
  intro journal
  obtain ⟨journal', hp⟩ := h journal
  obtain ⟨journal'', hf⟩ := h' journal'
  exact ⟨journal'', by rw [Procedure.bind_apply, hp, ← hf]⟩

theorem leads_demand (id : Nat) (a : α) :
    Leads (demand id (.ok a) : Stage W α) nodes w a nodes w := leads_pure a

theorem leads_note (id : Nat) (act : Act) : Leads (note id act : Stage W Unit) nodes w () nodes w :=
  fun _ => ⟨_, rfl⟩

theorem leads_each_cons {f : ι → Stage W Unit} {x : ι} {xs : List ι}
    (h : Leads (f x) nodes w () nodes' w')
    (h' : Leads (Procedure.each f xs) nodes' w' () nodes'' w'') :
    Leads (Procedure.each f (x :: xs)) nodes w () nodes'' w'' := h.bind h'

end Leads

/-! ## The stages of one node -/

section Node

variable {α : Type} {front rest : List (Node W)} {w w' : W} {n n' : Node W} {u id : Nat}
  (hid : front.length = id)

include hid

theorem leads_look (absent : α) (f : Node W → α) :
    Leads (look id absent f) (front ++ n :: rest) w (f n) (front ++ n :: rest) w := fun journal =>
  ⟨journal, by simp [look, Procedure.view, ← hid]⟩

theorem leads_hook {a absent : α} {call : Node W → W → α × Node W × W} {act : Node W → α → Act}
    (hcall : call n w = (a, n', w')) :
    Leads (hook id absent call act) (front ++ n :: rest) w a (front ++ n' :: rest) w' :=
  fun journal => ⟨⟨id, act n a⟩ :: journal, by simp [hook, ← hid, hcall]⟩

theorem leads_takeIn {data : Option Payload} (h : n.takeIn u data w = (n', w')) :
    Leads (takeIn id u data) (front ++ n :: rest) w () (front ++ n' :: rest) w' := by
  cases data with
  | none =>
    cases h
    exact leads_pure ()
  | some data =>
    have hcall : n.enqueueFrom u data w = ((), n', w') := Prod.ext rfl h
    unfold takeIn
    exact leads_hook hid hcall

variable (rest) in
/-- A node that works on nothing goes on as if it had put out no chunks. -/
theorem leads_work {out : List Payload} (h : n.Works w out n' w') :
    ∃ got : Option Output,
      Leads (work id) (front ++ n :: rest) w got (front ++ n' :: rest) w' ∧
        got.getD [] = Output.ofPayloads out := by
  cases h with
  | waits h => exact ⟨none, (leads_hook hid h).bind (leads_pure _), rfl⟩
  | works hgot hout =>
    refine ⟨some (Output.ofPayloads out), (leads_hook hid hgot).bind ?_, rfl⟩
    exact (leads_hook hid hout).bind ((leads_pure _).bind (leads_pure _))

end Node

/-! ## Blocks -/

/-- What comes to the first node of a block, which has this number, leaves the block and the
surroundings like this, and nothing else is changed. -/
structure Takes (id u : Nat) (data : Option Payload) (block : List (Node W)) (w : W)
    (block' : List (Node W)) (w' : W) : Prop where
  length : block'.length = block.length
  leads : ∀ (front back : List (Node W)) (depth : Nat), front.length = id → block.length ≤ depth →
    Leads (receive depth id data u) (front ++ (block ++ back)) w () (front ++ (block' ++ back)) w'

/-- The numbers of the first nodes of blocks that stand one after the other from a number on. -/
def heads (id : Nat) : List (List (Node W)) → List Nat
  | [] => []
  | block :: rest => id :: heads (id + block.length) rest

/-- What a node sends comes to all blocks below it. -/
inductive Hands (u : Nat) (data : Option Payload) :
    Nat → List (List (Node W)) → W → List (List (Node W)) → W → Prop
  | nil {id : Nat} {w : W} : Hands u data id [] w [] w
  | cons {id : Nat} {block block' : List (Node W)} {rest rest' : List (List (Node W))}
      {w w₁ w' : W} (first : Takes id u data block w block' w₁)
      (others : Hands u data (id + block.length) rest w₁ rest' w') :
      Hands u data id (block :: rest) w (block' :: rest') w'

/-- A node sends these chunks to the blocks below it. -/
inductive Pours (u : Nat) :
    List Payload → List (List (Node W)) → W → List (List (Node W)) → W → Prop
  | nil {blocks : List (List (Node W))} {w : W} : Pours u [] blocks w blocks w
  | cons {chunk : Payload} {rest : List Payload} {blocks blocks₁ blocks' : List (List (Node W))}
      {w w₁ w' : W} (first : Hands u (some chunk) (u + 1) blocks w blocks₁ w₁)
      (others : Pours u rest blocks₁ w₁ blocks' w') : Pours u (chunk :: rest) blocks w blocks' w'

/-- The first node of a block knows that its provider has ended. -/
def told (u : Nat) : List (Node W) → List (Node W)
  | [] => []
  | n :: rest => { n with finalized := n.finalized.insert u } :: rest

/-- A node ends: it puts out what is left, and the blocks below it learn that it has ended. -/
structure Ends (u : Nat) (n : Node W) (blocks : List (List (Node W))) (w : W) (n' : Node W)
    (blocks' : List (List (Node W))) (w' : W) : Prop where
  still : n.completed = false
  ends : ∃ out w₁ blocks₁ w₂, n.lastChunk w = (.ok (Output.ofPayloads out), n', w₁) ∧
    Pours u out blocks w₁ blocks₁ w₂ ∧ Hands u none (u + 1) (blocks₁.map (told u)) w₂ blocks' w'

section Blocks

variable {u id depth : Nat} {data : Option Payload} {front back nodes' : List (Node W)}
  {blocks blocks' : List (List (Node W))} {w w' : W} {n n' : Node W} {out : List Payload}

theorem heads_congr (h : blocks'.map List.length = blocks.map List.length) :
    heads id blocks' = heads id blocks := by
  induction blocks generalizing id blocks' with
  | nil => rw [List.map_eq_nil_iff.mp h]
  | cons block rest ih =>
    obtain ⟨block', rest', rfl, hblock, hrest⟩ := List.map_eq_cons_iff.mp h
    rw [heads, heads, ih hrest, hblock]

theorem Hands.lengths (h : Hands u data id blocks w blocks' w') :
    blocks'.map List.length = blocks.map List.length := by
  induction h with
  | nil => rfl
  | cons first _ ih => rw [List.map_cons, List.map_cons, first.length, ih]

theorem hands_pair {id' : Nat} {b₁ b₁' b₂ b₂' : List (Node W)} {w₁ : W}
    (first : Takes id u data b₁ w b₁' w₁) (hplace : id + b₁.length = id')
    (second : Takes id' u data b₂ w₁ b₂' w') : Hands u data id [b₁, b₂] w [b₁', b₂'] w' := by
  subst hplace
  exact .cons first (.cons second .nil)

theorem Pours.lengths (h : Pours u out blocks w blocks' w') :
    blocks'.map List.length = blocks.map List.length := by
  induction h with
  | nil => rfl
  | cons first _ ih => rw [ih, first.lengths]

theorem length_told (block : List (Node W)) : (told u block).length = block.length := by
  cases block <;> rfl

theorem lengths_told : (blocks.map (told u)).map List.length = blocks.map List.length := by
  rw [List.map_map]
  exact List.map_congr_left fun block _ => length_told block

theorem Ends.lengths (h : Ends u n blocks w n' blocks' w') :
    blocks'.map List.length = blocks.map List.length := by
  obtain ⟨-, out, w₁, blocks₁, w₂, -, hpours, hhands⟩ := h
  rw [hhands.lengths, lengths_told, hpours.lengths]

variable (back) in
theorem leads_hands (h : Hands u data id blocks w blocks' w') (hid : front.length = id)
    (hdepth : blocks.flatten.length ≤ depth) :
    Leads (Procedure.each (fun l => receive depth l data u) (heads id blocks))
      (front ++ (blocks.flatten ++ back)) w () (front ++ (blocks'.flatten ++ back)) w' := by
  induction h generalizing front with
  | nil => exact leads_pure ()
  | @cons id block block' rest rest' w w₁ w' first _ ih =>
    rw [List.flatten_cons, List.length_append] at hdepth
    have hfirst := first.leads front (rest.flatten ++ back) depth hid (by omega)
    have hplace : (front ++ block').length = id + block.length := by simp [first.length, hid]
    have hothers := ih hplace (by omega)
    simp only [List.flatten_cons, List.append_assoc] at hfirst hothers ⊢
    exact leads_each_cons hfirst hothers

variable (back) in
theorem leads_told (hfull : 0 ∉ blocks.map List.length) (hid : front.length = id) :
    Leads (Procedure.each (finalize u) (heads id blocks)) (front ++ (blocks.flatten ++ back)) w ()
      (front ++ ((blocks.map (told u)).flatten ++ back)) w := by
  induction blocks generalizing id front with
  | nil => exact leads_pure ()
  | cons block rest ih =>
    rw [List.map_cons, List.mem_cons, not_or] at hfull
    obtain ⟨n, tail, rfl⟩ := List.exists_cons_of_length_pos (Nat.pos_of_ne_zero (Ne.symm hfull.1))
    have hfirst : Leads (finalize u id) (front ++ n :: (tail ++ (rest.flatten ++ back))) w ()
        (front ++ { n with finalized := n.finalized.insert u } :: (tail ++ (rest.flatten ++ back)))
        w := fun journal => ⟨journal, by
          simp [finalize, Procedure.change, ← hid, List.modify_eq_set_getElem?]⟩
    have hplace : (front ++ told u (n :: tail)).length = id + (n :: tail).length := by
      simp [told, hid]
    have hothers := ih hfull.2 hplace
    simp only [List.map_cons, List.flatten_cons, told, List.cons_append, List.append_assoc]
      at hfirst hothers ⊢
    exact leads_each_cons hfirst hothers

/-! ## The law of a block -/

section Block

variable (hu : front.length = u) (hlisteners : n.listeners = heads (u + 1) blocks)
  (hdepth : blocks.flatten.length ≤ depth)

include hu hlisteners hdepth

theorem leads_push (h : Hands u data (u + 1) blocks w blocks' w') :
    Leads (push (receive depth) u data) (front ++ n :: (blocks.flatten ++ back)) w ()
      (front ++ n :: (blocks'.flatten ++ back)) w' := by
  have hplace : (front ++ [n]).length = u + 1 := by simp [hu]
  have hhands := leads_hands back h hplace hdepth
  rw [← hlisteners] at hhands
  simp only [List.append_assoc, List.singleton_append] at hhands
  exact (leads_look hu [] (·.listeners)).bind hhands

variable (back) in
/-- The chunks that the first node of a block sends come to the blocks below it. -/
theorem leads_emits (h : Pours u out blocks w blocks' w') :
    Leads (Procedure.each (emit (receive depth) u) (Output.ofPayloads out))
      (front ++ n :: (blocks.flatten ++ back)) w ()
      (front ++ n :: (blocks'.flatten ++ back)) w' := by
  induction h with
  | nil => exact leads_pure ()
  | @cons chunk rest blocks blocks₁ blocks' w w₁ w' first others ih =>
    have hlengths := first.lengths
    have hothers := ih (by rw [hlisteners, heads_congr hlengths])
      (by rwa [List.length_flatten, hlengths, ← List.length_flatten])
    rw [Output.ofPayloads, List.map_cons]
    exact leads_each_cons ((leads_demand _ _).bind ((leads_note _ _).bind
      (leads_push hu hlisteners hdepth first))) hothers

variable (back) in
theorem leads_complete (hfull : 0 ∉ blocks.map List.length)
    (h : Ends u n blocks w n' blocks' w') :
    Leads (complete (receive depth) u) (front ++ n :: (blocks.flatten ++ back)) w ()
      (front ++ n' :: (blocks'.flatten ++ back)) w' := by
  obtain ⟨hstill, out, w₁, blocks₁, w₂, hlast, hpours, hhands⟩ := h
  have hlisteners' : n'.listeners = heads (u + 1) blocks := by
    rw [← hlisteners, show n' = (n.lastChunk w).2.1 by rw [hlast]]
    rfl
  have hlengths := hpours.lengths
  have hsame : (blocks₁.map (told u)).map List.length = blocks.map List.length :=
    lengths_told.trans hlengths
  have hplace : (front ++ [n']).length = u + 1 := by simp [hu]
  have htold := leads_told (u := u) (w := w₂) back (hlengths ▸ hfull) hplace
  simp only [List.append_assoc, List.singleton_append] at htold
  refine (leads_look hu true (·.completed)).bind ?_
  rw [hstill]
  refine (leads_hook hu hlast).bind ((leads_demand _ _).bind ?_)
  refine (leads_emits back hu hlisteners' hdepth hpours).bind ?_
  refine (leads_look hu [] (·.listeners)).bind ?_
  rw [hlisteners', ← heads_congr hlengths]
  refine htold.bind (leads_push hu (hlisteners'.trans (heads_congr hsame).symm) ?_ hhands)
  rwa [List.length_flatten, hsame, ← List.length_flatten]

end Block

section Takes

variable {n₁ n₂ : Node W} {w₁ w₂ w₃ : W} {blocks₁ : List (List (Node W))}
  (hopen : n.pruned = false ∧ n.completed = false) (hin : n.takeIn u data w = (n₁, w₁))
  (hworks : n₁.Works w₁ out n₂ w₂) (hlisteners : n₂.listeners = heads (id + 1) blocks)
  (hpours : Pours id out blocks w₂ blocks₁ w₃)

include hopen hin hworks hlisteners hpours

/-- A delivery up to the question whether the node ends. -/
theorem leads_deliver (hid : front.length = id)
    (hdepth : blocks.flatten.length ≤ depth)
    (hmore : Leads (do
      let finalized ← look id false (·.isFinalized)
      if finalized then complete (receive depth) id else pure () : Stage W Unit)
      (front ++ n₂ :: (blocks₁.flatten ++ back)) w₃ () nodes' w') :
    Leads (receive (depth + 1) id data u) (front ++ n :: (blocks.flatten ++ back)) w ()
      nodes' w' := by
  obtain ⟨got, hwork, hgot⟩ := leads_work (blocks.flatten ++ back) hid hworks
  rw [receive, deliver_eq]
  refine (leads_look hid true fun n => n.pruned || n.completed).bind ?_
  rw [hopen.1, hopen.2]
  refine (leads_takeIn hid hin).bind (hwork.bind ?_)
  rw [hgot]
  exact (leads_emits _ hid hlisteners hdepth hpours).bind hmore

/-- A block takes in data, or a sign, that does not end its first node. -/
theorem takes_going (hfinal : n₂.isFinalized = false) :
    Takes id u data (n :: blocks.flatten) w (n₂ :: blocks₁.flatten) w₃ := by
  have hlengths := hpours.lengths
  refine ⟨?_, fun front back depth hid hdepth => ?_⟩
  · simp only [List.length_cons, List.length_flatten, hlengths]
  · obtain ⟨depth, rfl⟩ := Nat.exists_eq_succ_of_ne_zero (n := depth) (by simp at hdepth; omega)
    refine leads_deliver hopen hin hworks hlisteners hpours hid
      (by simpa using hdepth) ((leads_look hid false (·.isFinalized)).bind ?_)
    rw [hfinal]
    exact leads_pure ()

/-- A block takes in data, or a sign, that ends its first node. -/
theorem takes_last {n₃ : Node W} {w₄ : W} {blocks₂ : List (List (Node W))}
    (hfinal : n₂.isFinalized = true) (hfull : 0 ∉ blocks.map List.length)
    (hends : Ends id n₂ blocks₁ w₃ n₃ blocks₂ w₄) :
    Takes id u data (n :: blocks.flatten) w (n₃ :: blocks₂.flatten) w₄ := by
  have hlengths := hpours.lengths
  refine ⟨?_, fun front back depth hid hdepth => ?_⟩
  · simp only [List.length_cons, List.length_flatten, hends.lengths, hlengths]
  · obtain ⟨depth, rfl⟩ := Nat.exists_eq_succ_of_ne_zero (n := depth) (by simp at hdepth; omega)
    refine leads_deliver hopen hin hworks hlisteners hpours hid
      (by simpa using hdepth) ((leads_look hid false (·.isFinalized)).bind ?_)
    rw [hfinal]
    refine leads_complete _ hid (hlisteners.trans (heads_congr hlengths).symm) ?_ (hlengths ▸ hfull)
      hends
    simpa [hlengths] using hdepth

end Takes

end Blocks

end Run

end FeatureGraph
