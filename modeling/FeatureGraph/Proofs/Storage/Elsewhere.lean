-- Workspaces that are the same to whoever looks away from some keys. What is
-- stored under these keys may differ, and so may the events of the log and
-- what is left of time and chance. Under all other keys the same is read.
import FeatureGraph.Proofs.Differing

namespace FeatureGraph

namespace Store.SameBut

variable {keys : String → Prop} {s s' s'' : Store}

theorem refl (s : Store) : s.SameBut keys s := by
  cases s with
  | memory t => exact .memory fun _ _ => rfl
  | folder root room => exact .folder root room

theorem trans (h : s.SameBut keys s') (h' : s'.SameBut keys s'') : s.SameBut keys s'' := by
  cases h with
  | folder => exact h'
  | memory hsame =>
    cases h' with
    | memory hsame' => exact .memory fun key hkey => (hsame' key hkey).trans (hsame key hkey)

theorem root (h : s.SameBut keys s') : s'.root? = s.root? := by
  cases h with
  | memory => rfl
  | folder => rfl

end Store.SameBut

namespace Workspace

/-- The same but for what is stored under these keys, the events of the log with its file, what
comes from outside, and the trace. -/
structure SameElsewhere (keys : String → Prop) (w w' : Workspace) : Prop where
  store : w.store.SameBut keys w'.store
  faults : w'.faults = w.faults
  logFile : w'.logFile? = w.logFile?
  streams : w'.streams = w.streams
  captures : w'.captures = w.captures
  files : ∀ p, ¬ Within w.store.root? keys p → w.logFile? ≠ some p →
    w'.files.lookup p = w.files.lookup p

variable {keys : String → Prop} {w w' w'' : Workspace} {key : String}

theorem SameElsewhere.refl (w : Workspace) : w.SameElsewhere keys w :=
  ⟨.refl _, rfl, rfl, rfl, rfl, fun _ _ _ => rfl⟩

theorem SameElsewhere.trans (h : w.SameElsewhere keys w') (h' : w'.SameElsewhere keys w'') :
    w.SameElsewhere keys w'' := by
  refine ⟨h.store.trans h'.store, h'.faults.trans h.faults, h'.logFile.trans h.logFile,
    h'.streams.trans h.streams, h'.captures.trans h.captures, fun p hp hlog => ?_⟩
  rw [h'.files p (h.store.root ▸ hp) (h.logFile ▸ hlog), h.files p hp hlog]

/-! ## What changes nothing elsewhere -/

/-- A commit under one of the keys. -/
theorem sameElsewhere_commit {writer : Writer} (hkey : keys writer.key) (w : Workspace) :
    w.SameElsewhere keys (w.commit writer).2 := by
  unfold commit
  cases w.faults.committing writer.key with
  | some e => exact .refl w
  | none =>
    obtain ⟨files, store, faults, log, streams, captures, supply, trace⟩ := w
    cases store with
    | memory t =>
      refine ⟨.memory fun key hnot => ?_, rfl, rfl, rfl, rfl, fun _ _ _ => rfl⟩
      have hne : key ≠ writer.key := fun heq => hnot (heq ▸ hkey)
      rw [Dictionary.get?_insert, if_neg hne]
    | folder root room =>
      simp only [Store.commit]
      cases Store.filePath root writer.key with
      | error e => exact .refl _
      | ok path =>
        simp only
        cases hfiles : files.replaceFile root room writer.key writer.data with
        | error e => exact .refl _
        | ok files' =>
          refine ⟨.refl _, rfl, rfl, rfl, rfl, fun p hp _ => ?_⟩
          refine (FileTree.replaceFile_eq_ok hfiles).2 p fun heq => hp ?_
          exact ⟨root, writer.key, rfl, hkey, heq⟩

/-- An event. -/
theorem sameElsewhere_announce (w : Workspace) (data : Json) :
    w.SameElsewhere keys (w.announce data).2 := by
  obtain ⟨files, store, faults, log, streams, captures, supply, trace⟩ := w
  cases log with
  | none => exact .refl _
  | some log =>
    refine ⟨.refl _, rfl, ?_, rfl, rfl, fun p _ hlog => ?_⟩
    · simp only [announce, logFile?, now, random, Option.bind_some]
      exact EventLog.append_frame.1
    · simp only [announce, now, random]
      exact EventLog.append_frame.2 p hlog

/-- The naming of a new entity. -/
theorem sameElsewhere_newId (w : Workspace) (source : IdSource) (inputs : Inputs) :
    w.SameElsewhere keys (w.newId source inputs).2 := by
  cases source with
  | input key => exact .refl w
  | random => exact ⟨.refl _, rfl, rfl, rfl, rfl, fun _ _ _ => rfl⟩

/-- The release of a writer for one of the keys. -/
theorem sameElsewhere_release {d : Component.Destination} {s : Component.Session}
    {writer : Writer} (hwriter : s.writer = some writer) (hkey : keys writer.key) (w : Workspace) :
    w.SameElsewhere keys ((Component.storing d).release s w).2.2 := by
  cases hfinished : s.finished with
  | false =>
    rw [Component.storing_discard hfinished]
    exact .refl w
  | true =>
    have hcommit := sameElsewhere_commit hkey w
    rcases Component.storing_commit (d := d) (w := w) hwriter hfinished with
      ⟨e, heq⟩ | ⟨w', heq, hworld, -⟩
    · rw [heq]
      exact .refl w
    · rw [heq] at hcommit
      rw [hworld]
      exact hcommit.trans (sameElsewhere_announce w' _)

/-! ## What is read elsewhere -/

section Read

variable (h : w.SameElsewhere keys w')

include h

theorem SameElsewhere.place (hkey : ¬ keys key) (hlog : ¬ w.KeepsLogAt key) {root : Path}
    (hroot : w.store.root? = some root) :
    w'.files.lookup (root ++ [key]) = w.files.lookup (root ++ [key]) := by
  refine h.files _ ?_ fun hfile => hlog ⟨root, by rw [layout, hroot, hfile]⟩
  rintro ⟨root', key', hroot', hkeys, heq⟩
  rw [hroot] at hroot'
  cases hroot'
  obtain rfl : key = key' := by simpa using heq
  exact hkey hkeys

/-- The store holds, finds and reads the same under any other key. -/
theorem SameElsewhere.stored (hkey : ¬ keys key) (hlog : ¬ w.KeepsLogAt key) :
    w'.held? key = w.held? key ∧ w'.contains key = w.contains key ∧
      w'.store.read w'.files key = w.store.read w.files key := by
  have hplace : ∀ {root}, w.store.root? = some root →
      w'.files.lookup (root ++ [key]) = w.files.lookup (root ++ [key]) := h.place hkey hlog
  obtain ⟨hstore, -, -, -, -, -⟩ := h
  unfold held? Workspace.contains
  revert hplace
  generalize w.store = store at hstore
  generalize w'.store = store' at hstore
  intro hplace
  cases hstore with
  | memory hsame =>
    simp only [Store.contains, Store.read, Dictionary.contains, hsame key hkey, and_self]
  | folder root room =>
    have hfile := hplace rfl
    refine ⟨by simp only [hfile], ?_⟩
    simp only [Store.contains, Store.read]
    rcases hpath : Store.filePath root key with e | path
    · exact ⟨rfl, rfl⟩
    · obtain rfl : root ++ [key] = path := by
        unfold Store.filePath at hpath
        split at hpath
        · exact Except.ok.inj hpath
        · cases hpath
      have hsame : w'.files.isFile (root ++ [key]) = w.files.isFile (root ++ [key]) := by
        rw [FileTree.isFile, FileTree.isFile, hfile]
      have hopened : w'.files.openFile (root ++ [key]) = w.files.openFile (root ++ [key]) := by
        rw [FileTree.openFile, FileTree.openFile, hfile]
      simp only [Except.map, hsame, hopened, and_self]

theorem SameElsewhere.read (hkey : ¬ keys key) (hlog : ¬ w.KeepsLogAt key) :
    w'.read key = w.read key := by
  unfold Workspace.read
  rw [(h.stored hkey hlog).2.2, h.faults]

/-! ## Streams and captures -/

theorem SameElsewhere.newCapture : w'.newCapture.1 = w.newCapture.1 ∧
    w.newCapture.2.SameElsewhere keys w'.newCapture.2 := by
  refine ⟨congrArg List.length h.captures, h.store, h.faults, h.logFile, h.streams, ?_, h.files⟩
  exact congrArg (· ++ [[]]) h.captures

theorem SameElsewhere.holdStream (source : ByteSource) :
    (w'.holdStream source).1 = (w.holdStream source).1 ∧
      (w.holdStream source).2.SameElsewhere keys (w'.holdStream source).2 := by
  refine ⟨?_, h.store, h.faults, h.logFile, ?_, h.captures, h.files⟩
  · exact congrArg (fun n => Payload.stored n) (congrArg List.length h.streams)
  · exact congrArg (· ++ [some source]) h.streams

theorem SameElsewhere.takeStream (stream : Nat) :
    (w'.takeStream stream).1 = (w.takeStream stream).1 ∧
      (w.takeStream stream).2.SameElsewhere keys (w'.takeStream stream).2 := by
  refine ⟨congrArg (·[stream]?.join) h.streams, h.store, h.faults, h.logFile, ?_, h.captures,
    h.files⟩
  exact congrArg (List.set · stream none) h.streams

theorem SameElsewhere.capture (slot : Nat) (bs : Bytes) :
    (w.capture slot bs).SameElsewhere keys (w'.capture slot bs) :=
  ⟨h.store, h.faults, h.logFile, h.streams, congrArg (List.modify · slot _) h.captures, h.files⟩

theorem SameElsewhere.captured (slot : Nat) : w'.captured slot = w.captured slot := by
  rw [Workspace.captured, Workspace.captured, h.captures]

end Read

end Workspace

namespace Component

variable {keys : String → Prop}

theorem replay_respects (d : Decoder) : (replay d).Respects (Workspace.SameElsewhere keys) where
  enqueue _ _ _ _ h := ⟨_, h, rfl⟩
  dequeue _ _ _ h := ⟨_, h, rfl⟩
  transform {w w'} data s h := by
    unfold replay
    dsimp only
    cases data with
    | stored stream =>
      obtain ⟨htaken, hleft⟩ := h.takeStream stream
      dsimp only
      rcases heq : w.takeStream stream with ⟨source, w₁⟩
      rcases heq' : w'.takeStream stream with ⟨source', w₁'⟩
      rw [heq, heq'] at htaken hleft
      dsimp only at htaken hleft
      subst htaken
      cases source' with
      | none => exact ⟨_, hleft, rfl⟩
      | some source =>
        dsimp only
        cases d.stream source with
        | error e => exact ⟨_, hleft, rfl⟩
        | ok out => exact ⟨_, hleft, rfl⟩
    | _ => exact ⟨_, h, rfl⟩
  lastChunk _ h := ⟨_, h, rfl⟩
  acquire _ h := ⟨_, h, rfl⟩
  release _ h := ⟨_, h, rfl⟩

theorem capture_respects (slot : Nat) :
    (capture slot).Respects (Workspace.SameElsewhere keys) where
  enqueue _ _ _ _ h := ⟨_, h, rfl⟩
  dequeue _ _ _ h := ⟨_, h, rfl⟩
  transform {w w'} data s h := by
    unfold capture
    dsimp only
    cases data.bytes? with
    | none => exact ⟨_, h, rfl⟩
    | some bs => exact ⟨_, h.capture slot bs, rfl⟩
  lastChunk _ h := ⟨_, h, rfl⟩
  acquire _ h := ⟨_, h, rfl⟩
  release _ h := ⟨_, h, rfl⟩

end Component

end FeatureGraph
