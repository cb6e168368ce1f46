-- Components: the work of one node. A component takes in chunks, decides
-- when it holds enough of them to work on, and turns what it takes out into
-- chunks of its own. It has a state of its own and may use the surroundings
-- that it runs in.
import FeatureGraph.Component.Output

namespace FeatureGraph

/-! ## The cache -/

/-- The cache of a node: room for one payload. -/
structure Cache where
  pending : Option Payload

namespace Cache

def empty : Cache := ⟨none⟩

/-- Puts a payload in, instead of the one that is there. -/
def replace (_ : Cache) (data : Payload) : Cache := ⟨some data⟩

/-- Takes the payload out, if there is one. -/
def take (c : Cache) : Option Payload × Cache := (c.pending, empty)

def isEmpty (c : Cache) : Bool := c.pending.isNone

end Cache

/-! ## Components -/

/-- The work of one node, in surroundings of type `W`. Each hook gives the component's new
state and the surroundings after it. -/
structure Component (W : Type) : Type 1 where
  State : Type
  start : State
  /-- Takes in a chunk from the provider at a position of the node's needs. -/
  enqueue : Payload → (input : Nat) → State → Cache → W → State × Cache × W :=
    fun data _ s cache w => (s, cache.replace data, w)
  /-- Takes out what is to be worked on next, unless there is not enough yet. `finalized`
  says that every provider has sent something and has ended. -/
  dequeue : (finalized : Bool) → State → Cache → W → Option Payload × State × Cache × W :=
    fun _ s cache w => (cache.take.1, s, cache.take.2, w)
  /-- Turns what was taken out into chunks. -/
  transform : Payload → State → W → Except ComponentError Output × State × W
  /-- The chunks that are left when no input follows. -/
  lastChunk : State → W → Except ComponentError Output × State × W :=
    fun s w => (.ok [], s, w)
  /-- Opens what the component needs for a run. -/
  acquire : State → W → Except ComponentError Unit × State × W :=
    fun s w => (.ok (), s, w)
  /-- Closes it again; called on every way out of a run. -/
  release : State → W → Except ComponentError Unit × State × W :=
    fun s w => (.ok (), s, w)

namespace Component

variable {W : Type}

/-- A component without a state that only turns chunks into chunks. -/
def stateless (transform : Payload → Except ComponentError Output) : Component W where
  State := Unit
  start := ()
  transform data s w := (transform data, s, w)

/-- Holds a component back until all of its input is there. -/
def aggregator (c : Component W) : Component W :=
  { c with
    dequeue := fun finalized s cache w =>
      if finalized then c.dequeue finalized s cache w else (none, s, cache, w) }

end Component

end FeatureGraph
