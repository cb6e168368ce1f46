-- Runs of a graph. The roots are driven in turn, one chunk at a time, and a
-- chunk goes down the graph at once, depth first. A node whose providers
-- have all sent something and ended puts out what is left, and ends too.
-- Every node is acquired before the run, and released on every way out of
-- it. A journal keeps each call and each chunk.
import FeatureGraph.Graph.Basic
import FeatureGraph.Procedure

namespace FeatureGraph

/-! ## The journal -/

/-- What happens at a node during a run. -/
inductive Act where
  | acquire (result : Except ComponentError Unit)
  /-- Data from the provider at a position of the needs. -/
  | enqueue (input : Nat) (data : Payload)
  /-- What was taken out, and whether all input had come. -/
  | dequeue (finalized : Bool) (got : Option Payload)
  | transform (data : Payload) (result : Except ComponentError Output)
  | lastChunk (result : Except ComponentError Output)
  /-- A chunk goes out to the listeners. -/
  | emit (chunk : Payload)
  | release (result : Except ComponentError Unit)

/-- An entry of the journal. -/
structure JournalEntry where
  node : Nat
  act : Act

/-- A run: the nodes and their surroundings as they are now, and what has happened, latest
first. -/
structure Run (W : Type) : Type 1 where
  nodes : List (Node W)
  world : W
  journal : List JournalEntry

/-! ## The hooks of a node -/

namespace Node

variable {W : Type}

/-- Takes in data from a provider, at the position of the provider. -/
def enqueueFrom (source : Nat) (data : Payload) (n : Node W) (w : W) : Unit × Node W × W :=
  let (state, cache, w) := n.component.enqueue data (n.inputOf source) n.state n.cache w
  ((), { n with state, cache, enqueued := n.enqueued.insert source }, w)

/-- Takes in the input of a root. -/
def enqueueRoot (data : Payload) (n : Node W) (w : W) : Unit × Node W × W :=
  let (state, cache, w) := n.component.enqueue data 0 n.state n.cache w
  ((), { n with state, cache }, w)

/-- Takes out what is to be worked on next. -/
def dequeue (n : Node W) (w : W) : Option Payload × Node W × W :=
  let (got, state, cache, w) := n.component.dequeue n.isFinalized n.state n.cache w
  (got, { n with state, cache }, w)

/-- Turns what was taken out into chunks. -/
def transform (data : Payload) (n : Node W) (w : W) : Except ComponentError Output × Node W × W :=
  let (result, state, w) := n.component.transform data n.state w
  (result, { n with state }, w)

/-- Ends the node, and gives the chunks that are left. -/
def lastChunk (n : Node W) (w : W) : Except ComponentError Output × Node W × W :=
  let (result, state, w) := n.component.lastChunk n.state w
  (result, { n with state, completed := true }, w)

/-- Acquires the node; a failure leaves it as not acquired. -/
def acquire (n : Node W) (w : W) : Except ComponentError Unit × Node W × W :=
  let (result, state, w) := n.component.acquire n.state w
  match result with
  | .ok () => (result, { n with state, acquired := true }, w)
  | .error _ => (result, { n with state }, w)

/-- Releases the node. -/
def release (n : Node W) (w : W) : Except ComponentError Unit × Node W × W :=
  let (result, state, w) := n.component.release n.state w
  (result, { n with state, acquired := false }, w)

end Node

namespace Run

variable {W : Type}

/-- The parts of a run. -/
abbrev Stage (W : Type) (α : Type) := Procedure (Run W) GraphError α

/-- What is seen of a node, or `absent` without one. -/
def look {α : Type} (id : Nat) (absent : α) (f : Node W → α) : Stage W α :=
  Procedure.view fun r => (r.nodes[id]?.map f).getD absent

/-- Writes into the journal. -/
def note (id : Nat) (act : Act) : Stage W Unit :=
  Procedure.change fun r => { r with journal := ⟨id, act⟩ :: r.journal }

/-- Calls a hook of a node, and writes it into the journal; answers `absent` without the
node. -/
def hook {α : Type} (id : Nat) (absent : α) (call : Node W → W → α × Node W × W)
    (act : Node W → α → Act) : Stage W α := fun r =>
  match r.nodes[id]? with
  | none => (r, .ok absent)
  | some n =>
    let (a, n', world) := call n r.world
    ({ nodes := r.nodes.set id n', world, journal := ⟨id, act n a⟩ :: r.journal }, .ok a)

/-- Stops with the failure of a node's component. -/
def stop {α : Type} (id : Nat) (cause : ComponentError) : Stage W α := do
  let key ← look id "" (·.key)
  Procedure.fail (.failed key cause)

/-- The answer of a hook, or the failure of the node. -/
def demand {α : Type} (id : Nat) : Except ComponentError α → Stage W α
  | .ok a => pure a
  | .error e => stop id e

/-! ## Chunks on their way -/

/-- Takes out what is to be worked on next at a node and turns it into chunks, if there is
enough. -/
def work (id : Nat) : Stage W (Option Output) := do
  let got ← hook id none Node.dequeue fun n got => .dequeue n.isFinalized got
  match got with
  | none => pure none
  | some data =>
    let result ← hook id (.ok []) (Node.transform data) fun _ result => .transform data result
    let out ← demand id result
    pure (some out)

/-- How a node receives: which node, the data or none as the sign of an end, and from where. -/
abbrev Receiver (W : Type) := Nat → Option Payload → Nat → Stage W Unit

/-- Sends data, or the sign of the end, from a node to each of its listeners. -/
def push (receive : Receiver W) (id : Nat) (data : Option Payload) : Stage W Unit := do
  let listeners ← look id [] (·.listeners)
  Procedure.each (fun l => receive l data id) listeners

/-- Sends one chunk of a node's output, or stops at a failure. -/
def emit (receive : Receiver W) (id : Nat) (chunk : Except ComponentError Payload) :
    Stage W Unit := do
  let data ← demand id chunk
  note id (.emit data)
  push receive id (some data)

/-- Tells a node that one of its providers has ended. -/
def finalize (provider : Nat) (listener : Nat) : Stage W Unit :=
  Procedure.change fun r =>
    { r with
      nodes := r.nodes.modify listener fun n =>
        { n with finalized := n.finalized.insert provider } }

/-- Ends a node: sends what is left, tells the listeners, and sends the sign of the end. A
node ends once. -/
def complete (receive : Receiver W) (id : Nat) : Stage W Unit := do
  let ended ← look id true (·.completed)
  if ended then pure ()
  else
    let result ← hook id (.ok []) Node.lastChunk fun _ result => .lastChunk result
    let out ← demand id result
    Procedure.each (emit receive id) out
    let listeners ← look id [] (·.listeners)
    Procedure.each (finalize id) listeners
    push receive id none

/-- A delivery at a node. Data is taken in; then the node works if it can; and if every
provider has sent something and ended, the node ends. -/
def deliver (receive : Receiver W) : Receiver W := fun id data source => do
  let closed ← look id true fun n => n.pruned || n.completed
  if closed then pure ()
  else
    match data with
    | some data =>
      hook id () (Node.enqueueFrom source data) fun n _ => .enqueue (n.inputOf source) data
    | none => pure ()
    match ← work id with
    | some out => Procedure.each (emit receive id) out
    | none => pure ()
    let finalized ← look id false (·.isFinalized)
    if finalized then complete receive id else pure ()

/-- A delivery that may go so many nodes deep. -/
def receive : (depth : Nat) → Receiver W
  | 0 => fun _ _ _ => pure ()
  | depth + 1 => deliver (receive depth)

/-! ## Roots -/

/-- The first turn of a root: it takes in its input and works; if it has too little it
ends. -/
def begin (receive : Receiver W) (id : Nat) (data : Payload) : Stage W (Option Output) := do
  hook id () (Node.enqueueRoot data) fun _ _ => .enqueue 0 data
  match ← work id with
  | some out => pure (some out)
  | none => do
    complete receive id
    pure none

/-- The first turn of every root, in order; gives the output of those that have one. -/
def beginAll (receive : Receiver W) : List (Nat × Payload) → Stage W (List (Nat × Output))
  | [] => pure []
  | (id, data) :: rest => do
    let out ← begin receive id data
    let others ← beginAll receive rest
    match out with
    | some out => pure ((id, out) :: others)
    | none => pure others

/-- A later turn of a root: it sends its next chunk, or ends. -/
abbrev Turn := Nat × Option (Except ComponentError Payload)

/-- The turns of roots with these outputs: round after round, each root that is not done
sends a chunk, and ends in the round after its last. -/
def turns : (rounds : Nat) → List (Nat × Output) → List Turn
  | 0, _ => []
  | rounds + 1, streams =>
    (streams.map fun (id, out) => (id, out.head?))
      ++ turns rounds (streams.filterMap fun (id, out) =>
        match out with
        | [] => none
        | _ :: rest => some (id, rest))

/-- The number of rounds until each of these outputs has ended. -/
def roundsFor (streams : List (Nat × Output)) : Nat :=
  streams.foldl (fun n stream => max n (stream.2.length + 1)) 0

/-- Takes a turn. -/
def take (receive : Receiver W) : Turn → Stage W Unit
  | (id, some chunk) => emit receive id chunk
  | (id, none) => complete receive id

/-- Drives the roots until all have ended. -/
def drive (receive : Receiver W) (inputs : List (Nat × Payload)) : Stage W Unit := do
  let streams ← beginAll receive inputs
  Procedure.each (take receive) (turns (roundsFor streams) streams)

/-! ## Acquiring and releasing -/

/-- Acquires nodes in order, up to the first that fails. -/
def acquireAll (ids : List Nat) : Stage W Unit :=
  Procedure.each
    (fun id => do
      let result ← hook id (.ok ()) Node.acquire fun _ result => .acquire result
      demand id result)
    ids

/-- Releases nodes in order, also after one has failed; answers the first failure. -/
def releaseAll : List Nat → Stage W (Option GraphError)
  | [] => pure none
  | id :: rest => do
    let result ← hook id (.ok ()) Node.release fun _ result => .release result
    let key ← look id "" (·.key)
    let others ← releaseAll rest
    match result with
    | .ok () => pure others
    | .error e => pure (some (.failed key e))

/-- The numbers of the nodes that pass a test, in order. -/
def idsOf (nodes : List (Node W)) (p : Node W → Bool) : List Nat :=
  nodes.zipIdx.filterMap fun (n, id) => if p n then some id else none

/-- Acquires the nodes, drives the roots, and releases what was acquired. The failure that
stops the run comes first, then the first failure of a release. -/
def whole (inputs : List (Nat × Payload)) : Stage W Unit := fun r =>
  let run : Stage W Unit := do
    acquireAll (idsOf r.nodes fun n => !n.pruned)
    drive (receive r.nodes.length) inputs
  let (r, result) := run r
  let (r, released) := releaseAll (idsOf r.nodes (·.acquired)) r
  match result, released with
  | .error e, _ => (r, .error e)
  | .ok (), .ok (some e) => (r, .error e)
  | .ok (), .ok none => (r, .ok ())
  | .ok (), .error e => (r, .error e)

end Run

namespace Graph

variable {W : Type}

/-- The roots that are run, with their inputs, in the order of their keys. -/
def driven (g : Graph W) (inputs : Inputs) : List (Nat × Payload) :=
  g.roots.filterMap fun (key, id) =>
    if (g.nodes[id]?.map (·.pruned)).getD true then none
    else (inputs.get? key).map fun data => (id, data)

/-- A run of the graph with an input for every root: the graph and the surroundings after it,
the journal in order, and the failure if there is one. Without an input for every root
nothing is run. -/
def run (g : Graph W) (inputs : Inputs) (world : W) :
    (Graph W × W × List JournalEntry) × Except GraphError Unit :=
  if g.roots.all fun (key, _) => inputs.contains key then
    let (r, result) := Run.whole (g.driven inputs) ⟨g.nodes, world, []⟩
    (({ g with nodes := r.nodes }, r.world, r.journal.reverse), result)
  else
    ((g, world, []), .error (.missingRootInputs (g.roots.map (·.1)) inputs.keys))

/-- A run of the graph without its journal. -/
def process (g : Graph W) (inputs : Inputs) (world : W) :
    Graph W × W × Except GraphError Unit :=
  let ((g, world, _), result) := g.run inputs world
  (g, world, result)

end Graph

end FeatureGraph
