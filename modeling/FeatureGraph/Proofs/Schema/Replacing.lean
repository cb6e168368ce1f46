-- What a second ingestion of an entity leaves of the first. Each writer
-- replaces its value only if its own branch has ended, so what the second
-- ingestion stores is what it would have stored alone; where it stores
-- nothing, the old value stays.
import FeatureGraph.Proofs.Differing
import FeatureGraph.Proofs.Run.Abreast
import FeatureGraph.Proofs.Schema.Leaving

namespace FeatureGraph

namespace Schema

variable {s : Schema} {place : Option Path} {id : String}

/-- The storage keys of an entity. -/
def KeyOf (scheme : KeyScheme) (id : String) (key : String) : Prop :=
  ∃ feature, key = scheme.build id feature

/-- Every node of a full graph keeps what its features keep: so two workspaces that differ only
in what is stored for the entity stay so, and what is stored is stored in both. -/
theorem Compiled.respects {features : Dictionary Feature} {scheme : KeyScheme}
    {g : Graph Workspace} (h : Compiled features scheme id g) {keys : String → Prop}
    {old new : Workspace}
    (hdetached : ∀ f ∈ features.values, f.component.Detached Workspace.SameStored)
    (hrespects : ∀ f ∈ features.values, f.component.Respects (Workspace.SameBut place keys))
    {m : Nat} {n : Node Workspace} (hn : g.nodes[m]? = some n) :
    n.component.Respects (Workspace.Mixes place keys old new) := by
  obtain ⟨f, hf, ⟨needs, hsite, -⟩ | ⟨-, ⟨u, -, hsite⟩ | ⟨u, -, hsite⟩⟩⟩ :=
    h.serves m (List.getElem?_eq_some_iff.mp hn).1
  · rw [component_of_site hn hsite]
    exact (hrespects f hf).mixes (hdetached f hf)
  · rw [component_of_site hn hsite]
    exact Component.encoding_respects _ f.encoder
  · rw [component_of_site hn hsite]
    exact Component.storing_respects _

/-- Without its store the workspace is as good as with it: an ingestion under an id that is
given answers in both, and under each key of the entity both hold what was stored, or what they
held before. -/
theorem process_mixes {field : String} (hsource : s.idSource = .input field)
    (hdetached : ∀ f ∈ s.features.values, f.component.Detached Workspace.SameStored)
    (hrespects : ∀ f ∈ s.features.values,
      f.component.Respects (Workspace.SameBut place (KeyOf s.scheme id)))
    {inputs : Inputs} {w w' : Workspace}
    (hsame : Workspace.SameBut place (KeyOf s.scheme id) w w')
    (hok : (s.process inputs w).1 = .ok id) :
    (s.process inputs w').1 = .ok id ∧ Workspace.Mixes place (KeyOf s.scheme id) w w'
      (s.process inputs w).2 (s.process inputs w').2 := by
  have hnew : ∀ w : Workspace, w.newId s.idSource inputs = (IdSource.fromInput field inputs, w) :=
    fun w => by rw [hsource]; rfl
  obtain ⟨g, hstarts, hrun⟩ := process_eq_ok.mp hok
  have hstarts' : s.Starts inputs w' id g := by
    unfold Starts at hstarts ⊢
    rwa [hnew] at hstarts ⊢
  have hcompiled : Compiled s.features s.scheme id g := by
    obtain ⟨-, full, hfull, rfl⟩ := hstarts
    exact compiled_prune hfull _
  rw [hnew] at hrun
  obtain ⟨hrun', -, hmixes⟩ := Graph.runs_alike
    (fun hn => hcompiled.respects hdetached hrespects hn) inputs
    (⟨hsame, fun _ _ => Or.inr ⟨rfl, rfl⟩⟩ : Workspace.Mixes place _ w w' w w')
  refine ⟨process_eq_ok.mpr ⟨g, hstarts', by rw [hnew, hrun', hrun]⟩, ?_⟩
  rw [hstarts.world, hstarts'.world, hnew, hnew]
  exact hmixes

/-- What a second ingestion under an id leaves of the first. It answers also where nothing is
stored under the keys of that id, and whatever it stores there alone it leaves, too. Where alone
it stores nothing, what was there before it stays: what the first ingestion stored, or what was
there before that. -/
theorem second_ingestion_leaves {field : String} (hsource : s.idSource = .input field)
    (hdetached : ∀ f ∈ s.features.values, f.component.Detached Workspace.SameStored)
    (hrespects : ∀ f ∈ s.features.values,
      f.component.Respects (Workspace.SameBut place (KeyOf s.scheme id)))
    (first second : Inputs) (w : Workspace) {alone : Workspace}
    (halone : Workspace.SameBut place (KeyOf s.scheme id) (s.process first w).2 alone)
    (hnone : ∀ feature, alone.held? (s.scheme.build id feature) = none)
    (hsecond : (s.process second (s.process first w).2).1 = .ok id) :
    (s.process second alone).1 = .ok id ∧
      ∀ feature, (s.process second (s.process first w).2).2.held? (s.scheme.build id feature) =
        ((s.process second alone).2.held? (s.scheme.build id feature)).or
          ((s.process first w).2.held? (s.scheme.build id feature)) := by
  obtain ⟨hok, hmixes⟩ := process_mixes hsource hdetached hrespects halone hsecond
  refine ⟨hok, fun feature => ?_⟩
  rcases hmixes.stored _ ⟨feature, rfl⟩ with ⟨value, hvalue, hvalue'⟩ | ⟨hold, hnew⟩
  · rw [hvalue, hvalue', Option.some_or]
  · rw [hold, hnew, hnone, Option.none_or]

/-! ## A text that is taken in again without its bytes -/

/-- A text, stored byte by byte. -/
def text : Feature :=
  { Feature.new "a" (Component.byteStream 1) with isStored := true }

def texts : Schema := ⟨"s", .delimited ":", .input "id", Dictionary.empty.insert "a" text⟩

/-- The entity `e` with this text. -/
def textInputs (content : String) : Inputs :=
  (Dictionary.empty.insert "a" (.text content)).insert "id" (.text "e")

/-- What taking the text in leaves behind. -/
def written : Workspace := (texts.process (textInputs "x") blank).2

/-- The same without what is stored. -/
def erased : Workspace := { written with store := .inMemory }

theorem text_detached : ∀ f ∈ texts.features.values, f.component.Detached Workspace.SameStored := by
  intro f hf
  rw [List.mem_singleton.mp (show f ∈ [text] from hf)]
  exact Component.byteStream_detached .refl 1

/-- A store in memory has no files, so a stream reads the same from the same path. -/
theorem text_respects (keys : String → Prop) :
    ∀ f ∈ texts.features.values, f.component.Respects (Workspace.SameBut none keys) := by
  intro f hf
  rw [List.mem_singleton.mp (show f ∈ [text] from hf)]
  refine Component.byteStream_respects (fun h p => h.files p ?_) 1
  rintro ⟨_, _, ⟨⟩, -⟩

/-- Alone, the text without bytes stores nothing. So where a text was stored before, that
stays. -/
theorem old_text_stays :
    build "s" (.delimited ":") (.input "id") [text] = .ok texts ∧
      (∀ f ∈ texts.features.values, f.component.Detached Workspace.SameStored) ∧
      (∀ f ∈ texts.features.values,
        f.component.Respects (Workspace.SameBut none (KeyOf texts.scheme "e"))) ∧
      (∀ key, blank.held? key = none) ∧
      (texts.process (textInputs "x") blank).1 = .ok "e" ∧
      (texts.process (textInputs "") (texts.process (textInputs "x") blank).2).1 = .ok "e" ∧
      (texts.process (textInputs "") blank).1 = .ok "e" ∧
      (texts.process (textInputs "") blank).2.held? "e:a" = none ∧
      (texts.process (textInputs "") (texts.process (textInputs "x") blank).2).2.held? "e:a" =
        some (Text.encode "x", some octetStream) := by
  refine ⟨rfl, text_detached, text_respects _, fun _ => rfl, ?_, ?_, ?_, ?_, ?_⟩
  all_goals decide +kernel

/-- Only the text is stored, and in memory, so nothing else is left when it is gone. -/
theorem erased_sameBut : Workspace.SameBut none (KeyOf texts.scheme "e") written erased := by
  have hroot : written.store.root? = none := by decide +kernel
  have hlog : written.logFile? = none := by decide +kernel
  have hkeys : written.store.keys written.files = ["e:a"] := by decide +kernel
  rw [erased]
  generalize written = w at hroot hlog hkeys ⊢
  refine ⟨hroot, ?_, ⟨_, _, rfl⟩, fun _ _ => rfl, fun _ => Iff.rfl, fun file hfile => ?_⟩
  · generalize w.store = store at hroot hkeys
    cases store with
    | memory t =>
      refine .memory fun key hkey => ?_
      rcases hget : t.get? key with _ | stored
      · rfl
      · have hmem : key ∈ t.keys :=
          List.mem_map_of_mem (f := Prod.fst) (Dictionary.get?_eq_some.mp hget)
        rw [show t.keys = ["e:a"] from hkeys, List.mem_singleton] at hmem
        exact absurd ⟨"a", hmem⟩ hkey
    | folder root room => cases hroot
  · rw [hlog] at hfile
    cases hfile

/-- So after the second ingestion the old text is there: nothing was stored in its place. -/
theorem text_is_left :
    texts.idSource = .input "id" ∧
      (∀ f ∈ texts.features.values, f.component.Detached Workspace.SameStored) ∧
      (∀ f ∈ texts.features.values,
        f.component.Respects (Workspace.SameBut none (KeyOf texts.scheme "e"))) ∧
      Workspace.SameBut none (KeyOf texts.scheme "e") written erased ∧
      (texts.process (textInputs "") written).1 = .ok "e" ∧
      (texts.process (textInputs "") erased).1 = .ok "e" ∧
      (texts.process (textInputs "") written).2.held? "e:a" =
        some (Text.encode "x", some octetStream) := by
  have hsecond : (texts.process (textInputs "") written).1 = .ok "e" := by decide +kernel
  obtain ⟨hok, hleft⟩ := second_ingestion_leaves rfl text_detached (text_respects _)
    (textInputs "x") (textInputs "") blank erased_sameBut (fun _ => rfl) hsecond
  refine ⟨rfl, text_detached, text_respects _, erased_sameBut, hsecond, hok,
    (hleft "a").trans ?_⟩
  decide +kernel

end Schema

end FeatureGraph
