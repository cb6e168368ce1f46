-- Entities: how one is taken in, and how its features are read. A feature
-- that is stored is read from the store; any other is worked out again from
-- those that are.
import FeatureGraph.Schema.Compile

namespace FeatureGraph

namespace Schema

/-! ## Taking an entity in -/

/-- The features as candidates for pruning, in the order of their keys. -/
def candidates (features : Dictionary Feature) : List Graph.Candidate :=
  features.values.map fun f => (f.key, f.isStored)

/-- Takes an entity in: names it, and works out its features from the inputs. -/
def process (s : Schema) (inputs : Inputs) (w : Workspace) : Except Failure String × Workspace :=
  match w.newId s.idSource inputs with
  | (.error e, w) => (.error (.id e), w)
  | (.ok id, w) =>
    match fullGraph s.name s.features s.scheme id with
    | .error e => (.error e, w)
    | .ok graph =>
      let (graph, _) := graph.prune (candidates s.features)
      match graph.process inputs w with
      | (_, w, .ok ()) => (.ok id, w)
      | (_, w, .error e) => (.error (.graph e), w)

/-- Takes an entity in that has one input, for a schema with one root. -/
def ingest (s : Schema) (value : Payload) (w : Workspace) : Except Failure String × Workspace :=
  match s.roots with
  | [root] => s.process (Dictionary.empty.insert root value) w
  | [] => (.error (.schema (.noRoot s.name)), w)
  | roots => (.error (.schema (.multipleRoots s.name roots)), w)

/-- The ids of the entities that have a stored feature. -/
def entities (s : Schema) (w : Workspace) : List String := w.store.ids w.files s.scheme

/-! ## Reading an entity -/

/-- The feature under a key. -/
def feature (s : Schema) (key : String) : Except Failure Feature :=
  match s.features.get? key with
  | some f => .ok f
  | none => .error (.unknownFeature key)

/-- Whether a feature is stored for an entity. -/
def isStored (s : Schema) (w : Workspace) (id key : String) : Except Failure Bool :=
  match s.feature key with
  | .ok f => isStoredFor s.scheme w id f.key
  | .error e => .error e

/-- Opens the stored streams of features, as inputs for the roots that read them back. -/
def openSources (s : Schema) (id : String) :
    List String → Inputs → Workspace → Except Failure Inputs × Workspace
  | [], inputs, w => (.ok inputs, w)
  | key :: rest, inputs, w =>
    match w.read (s.scheme.build id key) with
    | .error e => (.error (.storage e), w)
    | .ok source =>
      let (payload, w) := w.holdStream source
      openSources s id rest (inputs.insert key payload) w

/-- Works a feature out again from the stored ones. -/
def recompute (s : Schema) (w : Workspace) (id : String) (f : Feature) :
    Except Failure Payload × Workspace :=
  let (slot, w) := w.newCapture
  match partialGraph s.name s.features s.scheme w id f.key slot with
  | .error e => (.error e, w)
  | .ok plan =>
    match s.openSources id plan.sources Dictionary.empty w with
    | (.error e, w) => (.error e, w)
    | (.ok inputs, w) =>
      match plan.graph.process inputs w with
      | (_, w, .error e) => (.error (.graph e), w)
      | (_, w, .ok ()) =>
        ((f.decoder.decode (ByteSource.ofBytes (w.captured slot))).mapError .codec, w)

/-- Reads a stored feature. -/
def readStored (s : Schema) (w : Workspace) (id : String) (f : Feature) : Except Failure Payload :=
  match w.read (s.scheme.build id f.key) with
  | .error e => .error (.storage e)
  | .ok source => (f.decoder.decode source).mapError .codec

/-- The value of a feature of an entity. -/
def read (s : Schema) (w : Workspace) (id key : String) : Except Failure Payload × Workspace :=
  match s.feature key with
  | .error e => (.error e, w)
  | .ok f =>
    match if f.isStored then isStoredFor s.scheme w id f.key else .ok false with
    | .error e => (.error e, w)
    | .ok true => (s.readStored w id f, w)
    | .ok false =>
      if f.canCompute s.features then s.recompute w id f
      else (.error (.unavailable key .notDerivable), w)

end Schema

/-- A handle for the features of one entity. It remembers what it has read. -/
structure Entity where
  id : String
  known : Dictionary Payload

namespace Entity

/-- A handle that has read nothing yet. -/
def new (id : String) : Entity := ⟨id, Dictionary.empty⟩

/-- The value of a feature; read once, it stays. -/
def get (e : Entity) (s : Schema) (key : String) (w : Workspace) :
    Except Failure Payload × Entity × Workspace :=
  match e.known.get? key with
  | some value => (.ok value, e, w)
  | none =>
    match s.read w e.id key with
    | (.ok value, w) => (.ok value, { e with known := e.known.insert key value }, w)
    | (.error failure, w) => (.error failure, e, w)

/-- The value of a feature, if it is of the type that is asked for. -/
def getAs (e : Entity) (s : Schema) (key : String) (fits : Payload → Bool) (w : Workspace) :
    Except Failure Payload × Entity × Workspace :=
  match e.get s key w with
  | (.ok value, e, w) => (if fits value then .ok value else .error (.typeMismatch key), e, w)
  | (.error failure, e, w) => (.error failure, e, w)

end Entity

end FeatureGraph
