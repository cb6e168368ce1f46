-- Subscriptions: first the stored events after a place in the log, then the
-- new ones as they come. An event that was replayed is not given again.
import FeatureGraph.EventLog.Basic

namespace FeatureGraph

/-- A reader of the log that replays, then follows. -/
structure Subscription where
  /-- The stored events still to be replayed. -/
  backlog : List Event
  /-- The greatest id so far. -/
  cursor : String
  live : Listener

/-- Begins to listen, and then looks up the events after a place in the log, so that an event
between the two comes twice rather than never. -/
def EventLog.subscribe (log : EventLog) (after : Option String) : Subscription :=
  ⟨log.since after, after.getD "", log.channel.listen⟩

namespace Subscription

/-- Asks the channel for the next event after the cursor; each event that is passed over
moves the listener on. -/
def follow (c : Channel) (cursor : String) : (fuel : Nat) → Listener → Poll × String × Listener
  | 0, live => (.pending, cursor, live)
  | fuel + 1, live =>
    match live.poll c with
    | (.event e, live) =>
      if cursor < e.id then (.event e, e.id, live) else follow c cursor fuel live
    | (other, live) => (other, cursor, live)

/-- Asks for the next event. -/
def poll (c : Channel) (s : Subscription) : Poll × Subscription :=
  match s.backlog with
  | e :: rest => (.event e, { s with backlog := rest, cursor := e.id })
  | [] =>
    let (answer, cursor, live) := follow c s.cursor (c.sent.length + 1) s.live
    (answer, { s with cursor := cursor, live := live })

end Subscription

end FeatureGraph
