-- Channels: how new events reach those who listen. A channel keeps only its
-- latest events; who lags further behind misses the older ones.
import FeatureGraph.EventLog.Error
import FeatureGraph.EventLog.Event

namespace FeatureGraph

/-- How new events reach those who listen. -/
inductive Channel where
  /-- Every event that was sent, oldest first, of which the last `capacity` are kept, and
  whether more may come. -/
  | broadcast (capacity : Nat) (sent : List Event) (isOpen : Bool)
  /-- A channel that fails: which events it refuses, and how it refuses a listener. -/
  | failing (refusal : Event → Option IoError) (listening : IoError)

/-- One who listens to a channel. -/
inductive Listener where
  /-- Waits for the event of this number. -/
  | following (next : Nat)
  /-- Was refused, and is yet to learn it. -/
  | refused (e : EventLogError)
  | ended
deriving DecidableEq, Repr

/-- What a listener is given when it asks for an event. -/
inductive Poll where
  | event (e : Event)
  | failure (e : EventLogError)
  /-- There is no event now. -/
  | pending
  /-- There will be no event any more. -/
  | ended

namespace Channel

/-- A new channel. It keeps a power of two of events, at least as many as asked for. -/
def new (capacity : Nat) : Channel := .broadcast (max 1 capacity).nextPowerOfTwo [] true

/-- A channel that refuses every event. -/
def broken (publishing listening : IoError) : Channel := .failing (fun _ => some publishing) listening

/-- How many events a channel keeps, unless another number is chosen. -/
def defaultCapacity : Nat := 1024

/-- Sends an event to all who listen. -/
def publish (c : Channel) (e : Event) : Except EventLogError Channel :=
  match c with
  | .broadcast capacity sent isOpen => .ok (.broadcast capacity (sent ++ [e]) isOpen)
  | .failing refusal listening =>
    match refusal e with
    | some fault => .error (.io fault)
    | none => .ok (.failing refusal listening)

/-- Begins to listen: to all events that are sent from now on. -/
def listen : Channel → Listener
  | .broadcast _ sent _ => .following sent.length
  | .failing _ listening => .refused (.io listening)

/-- No events will be sent any more. -/
def close : Channel → Channel
  | .broadcast capacity sent _ => .broadcast capacity sent false
  | .failing refusal listening => .failing refusal listening

/-- Every event that was sent to those who listen, oldest first. -/
def sent : Channel → List Event
  | .broadcast _ sent _ => sent
  | .failing _ _ => []

end Channel

/-- Asks for the next event. A listener that lags behind goes on with the oldest event that
is kept. -/
def Listener.poll (c : Channel) : Listener → Poll × Listener
  | .refused e => (.failure e, .ended)
  | .ended => (.ended, .ended)
  | .following next =>
    match c with
    | .failing _ _ => (.ended, .ended)
    | .broadcast capacity sent isOpen =>
      let reached := max next (sent.length - capacity)
      match sent[reached]? with
      | some e => (.event e, .following (reached + 1))
      | none => (if isOpen then .pending else .ended, .following reached)

end FeatureGraph
