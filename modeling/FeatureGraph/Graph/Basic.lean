-- Graphs of components. The nodes stand in the order they were added and
-- are known by their numbers; a node may need only nodes that were added
-- before it. The nodes that it needs are its providers, and it listens to
-- them.
import FeatureGraph.Component.Basic
import FeatureGraph.Dictionary
import FeatureGraph.Graph.Error

namespace FeatureGraph

/-- A node of a graph: a component and how it is joined to the others. -/
structure Node (W : Type) : Type 1 where
  key : String
  component : Component W
  state : component.State
  cache : Cache
  /-- The nodes whose chunks it takes in; one may stand more than once. -/
  needs : List Nat
  /-- The nodes that take in its chunks, once for each time they need it. -/
  listeners : List Nat
  /-- The providers that have ended. -/
  finalized : List Nat
  /-- The providers that have sent a chunk. -/
  enqueued : List Nat
  /-- Taken out of every run. -/
  pruned : Bool
  /-- Ended: no call follows but the release. -/
  completed : Bool
  /-- Acquired, and not yet released. -/
  acquired : Bool

namespace Node

variable {W : Type}

/-- A node as it is when it is added. -/
def new (key : String) (component : Component W) (needs : List Nat) : Node W :=
  { key, component, state := component.start, cache := Cache.empty, needs, listeners := [],
    finalized := [], enqueued := [], pruned := false, completed := false, acquired := false }

/-- How many different nodes it needs. -/
def dependencyCount (n : Node W) : Nat := n.needs.eraseDups.length

/-- Whether every provider has sent a chunk and has ended. -/
def isFinalized (n : Node W) : Bool :=
  n.dependencyCount ≤ n.finalized.length && n.dependencyCount ≤ n.enqueued.length

def isRoot (n : Node W) : Bool := n.needs.isEmpty

def isLeaf (n : Node W) : Bool := n.listeners.isEmpty

/-- The position of a provider among the needs: the first, if it stands there more than
once. -/
def inputOf (n : Node W) (source : Nat) : Nat := n.needs.idxOf source

end Node

/-- A graph of components. -/
structure Graph (W : Type) : Type 1 where
  name : String
  nodes : List (Node W)

namespace Graph

variable {W : Type}

/-- A graph without nodes. -/
def empty (name : String) : Graph W := ⟨name, []⟩

/-- The keys of the nodes, with their numbers, in the order of the keys. -/
def index (g : Graph W) : Dictionary Nat :=
  Dictionary.ofList (g.nodes.zipIdx.map fun (n, id) => (n.key, id))

/-- The number of the node with a key. -/
def find? (g : Graph W) (key : String) : Option Nat := g.nodes.findIdx? (·.key == key)

/-- The node of a number. -/
def node (g : Graph W) (id : Nat) : Except GraphError (Node W) :=
  match g.nodes[id]? with
  | some n => .ok n
  | none => .error (.unknownNode id)

/-- The keys and numbers of the nodes that pass a test, in the order of the keys. -/
def select (g : Graph W) (p : Node W → Bool) : List (String × Nat) :=
  g.index.toList.filter fun (_, id) => (g.nodes[id]?.map p).getD false

/-- The nodes that need no others. Pruned ones are among them: they are not run, but their
input is asked for. -/
def roots (g : Graph W) : List (String × Nat) := g.select (·.isRoot)

/-- The nodes that no others listen to. -/
def leaves (g : Graph W) : List (String × Nat) := g.select (·.isLeaf)

/-! ## Building -/

/-- Makes a node a listener of another, one time more. -/
def listen (listener : Nat) (nodes : List (Node W)) (provider : Nat) : List (Node W) :=
  nodes.modify provider fun n => { n with listeners := n.listeners ++ [listener] }

/-- Adds a node that needs others, and makes it a listener of each. -/
def add (g : Graph W) (key : String) (component : Component W) (needs : List Nat) :
    Except GraphError (Nat × Graph W) :=
  if (g.find? key).isSome then .error (.duplicateNode key)
  else
    match needs.find? (g.nodes.length ≤ ·) with
    | some unknown => .error (.unknownNode unknown)
    | none =>
      let id := g.nodes.length
      .ok (id, { g with
        nodes := needs.foldl (listen id) g.nodes ++ [Node.new key component needs] })

/-- Takes a node off the listeners of the nodes that it needs. -/
def unlink (g : Graph W) (id : Nat) (needs : List Nat) : Graph W :=
  { g with
    nodes := needs.foldl
      (fun nodes provider =>
        nodes.modify provider fun n => { n with listeners := n.listeners.filter (· ≠ id) })
      g.nodes }

/-- Cuts a node off from the nodes that it needs. -/
def disconnect (g : Graph W) (id : Nat) : Except GraphError (Graph W) :=
  match g.nodes[id]? with
  | none => .error (.unknownNode id)
  | some n => .ok (g.unlink id n.needs)

/-! ## Pruning -/

/-- A node that may be pruned: its key, and whether it is stored. -/
abbrev Candidate := String × Bool

/-- Prunes the node of a candidate if it is not stored and nothing listens to it; gives its
key. -/
def pruneOne (g : Graph W) (c : Candidate) : Graph W × List String :=
  match g.find? c.1 with
  | none => (g, [])
  | some id =>
    match g.nodes[id]? with
    | none => (g, [])
    | some n =>
      if c.2 || n.pruned || !n.isLeaf then (g, [])
      else
        let cut := g.unlink id n.needs
        ({ cut with nodes := cut.nodes.modify id fun n => { n with pruned := true } }, [c.1])

/-- One round over the candidates. -/
def pruneRound (g : Graph W) : List Candidate → Graph W × List String
  | [] => (g, [])
  | c :: rest =>
    let (g, first) := g.pruneOne c
    let (g, others) := g.pruneRound rest
    (g, first ++ others)

/-- Rounds over the candidates until one prunes nothing. -/
def pruneRounds (candidates : List Candidate) : (fuel : Nat) → Graph W → Graph W × List String
  | 0, g => (g, [])
  | fuel + 1, g =>
    match g.pruneRound candidates with
    | (g, []) => (g, [])
    | (g, key :: keys) =>
      let (g, others) := pruneRounds candidates fuel g
      (g, key :: keys ++ others)

/-- Prunes the candidates that are not stored and whose chunks nobody takes in, again and
again, so that whole branches go. Gives the pruned keys in order. Each round but the last
prunes a node, so there are at most one more rounds than nodes. -/
def prune (g : Graph W) (candidates : List Candidate) : Graph W × List String :=
  pruneRounds candidates (g.nodes.length + 1) g

end Graph

end FeatureGraph
