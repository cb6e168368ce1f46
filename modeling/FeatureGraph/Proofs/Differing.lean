-- Workspaces that differ in what is stored under some keys, and in nothing
-- else. Whoever does not look at these values cannot tell them apart: a
-- writer opens, writes, commits and tells the event log in the one as in the
-- other, and what it has stored is then the same in both.
import FeatureGraph.Component.ByteStream
import FeatureGraph.Proofs.Component.Storing
import FeatureGraph.Proofs.Run.Shadow

namespace FeatureGraph

/-! ## Files -/

namespace FileTree

variable {t t' : FileTree} {p q : Path}

theorem lookup_put (h : t.lookup q ≠ some .folder) (e : FileEntry) :
    (t.put q e).lookup p = if p = q then some e else t.lookup p := by
  split
  · rename_i heq
    exact heq ▸ lookup_put_self h e
  · rename_i hne
    exact lookup_put_ne hne e

/-- A file that is put where no folder stands is put there in both trees. -/
theorem put_alike (hfolders : ∀ p, t'.lookup p = some .folder ↔ t.lookup p = some .folder)
    (hplain : t.lookup q ≠ some .folder) (e : FileEntry) :
    (∀ p, t'.lookup p = t.lookup p → (t'.put q e).lookup p = (t.put q e).lookup p) ∧
      ∀ p, (t'.put q e).lookup p = some .folder ↔ (t.put q e).lookup p = some .folder := by
  have hplain' : t'.lookup q ≠ some .folder := fun h => hplain ((hfolders q).mp h)
  refine ⟨fun p hp => ?_, fun p => ?_⟩
  · rw [lookup_put hplain, lookup_put hplain', hp]
  · rw [lookup_put hplain, lookup_put hplain']
    split
    · exact Iff.rfl
    · exact hfolders p

/-- Where the same folders stand, a file takes its name in both trees or in neither. -/
theorem replaceFile_alike (hfolders : ∀ p, t'.lookup p = some .folder ↔ t.lookup p = some .folder)
    (folder : Path) (room : Nat) (name : String) (content : Bytes) :
    (∃ e, t.replaceFile folder room name content = .error e ∧
        t'.replaceFile folder room name content = .error e) ∨
      (t.lookup (folder ++ [name]) ≠ some .folder ∧
        t.replaceFile folder room name content = .ok (t.put (folder ++ [name]) (.file content)) ∧
        t'.replaceFile folder room name content =
          .ok (t'.put (folder ++ [name]) (.file content))) := by
  unfold replaceFile
  cases renameFault? room name with
  | some e => exact Or.inl ⟨e, rfl, rfl⟩
  | none =>
    by_cases hfolder : t.lookup (folder ++ [name]) = some .folder
    · rw [hfolder, (hfolders _).mpr hfolder]
      exact Or.inl ⟨_, rfl, rfl⟩
    · have hfolder' : t'.lookup (folder ++ [name]) ≠ some .folder := fun h =>
        hfolder ((hfolders _).mp h)
      refine Or.inr ⟨hfolder, ?_, ?_⟩
      · rcases hentry : t.lookup (folder ++ [name]) with _ | ⟨_⟩ | _
        · rfl
        · rfl
        · exact absurd hentry hfolder
      · rcases hentry : t'.lookup (folder ++ [name]) with _ | ⟨_⟩ | _
        · rfl
        · rfl
        · exact absurd hentry hfolder'

/-- Where the same stands at a place and above it, bytes are added there in both trees or in
neither. -/
theorem append_alike (hplace : t'.lookup p = t.lookup p)
    (habove : t'.lookup p.dropLast = t.lookup p.dropLast) (more : Bytes) :
    (∃ e, t.append p more = .error e ∧ t'.append p more = .error e) ∨
      ∃ content, t.lookup p ≠ some .folder ∧ t.append p more = .ok (t.put p (.file content)) ∧
        t'.append p more = .ok (t'.put p (.file content)) := by
  unfold append
  rw [hplace, habove]
  rcases t.lookup p with _ | ⟨content⟩ | _
  · rcases t.lookup p.dropLast with _ | ⟨_⟩ | _
    · exact Or.inl ⟨_, rfl, rfl⟩
    · exact Or.inl ⟨_, rfl, rfl⟩
    · exact Or.inr ⟨more, by simp, rfl, rfl⟩
  · exact Or.inr ⟨content ++ more, by simp, rfl, rfl⟩
  · exact Or.inl ⟨_, rfl, rfl⟩

theorem walk_congr (h : ∀ p, t'.lookup p = t.lookup p) (names : List String) (p : Path) :
    t'.walk p names = t.walk p names := by
  induction names generalizing p with
  | nil => rfl
  | cons name rest ih => simp only [walk, h, ih]

/-- A path finds the same file in trees where the same stands everywhere. -/
theorem openText_congr (h : ∀ p, t'.lookup p = t.lookup p) (text : String) :
    t'.openText text = t.openText text := by
  have hfile : ∀ p, t'.isFile p = t.isFile p := fun p => by unfold isFile; rw [h]
  have hopen : ∀ p, t'.openFile p = t.openFile p := fun p => by unfold openFile; rw [h]
  simp only [openText, resolve, walk_congr h, hfile, hopen]

end FileTree

theorem EventLog.write_alike (log : EventLog) {files files' : FileTree} {place : Path}
    (hplace : files'.lookup place = files.lookup place)
    (habove : files'.lookup place.dropLast = files.lookup place.dropLast) (more : Bytes) :
    (∃ e, log.write files place more = .error e ∧ log.write files' place more = .error e) ∨
      ∃ content, files.lookup place ≠ some .folder ∧
        log.write files place more = .ok (files.put place (.file content)) ∧
        log.write files' place more = .ok (files'.put place (.file content)) := by
  unfold write
  cases log.barred with
  | some e => exact Or.inl ⟨e, rfl, rfl⟩
  | none => exact FileTree.append_alike hplace habove more

/-- Where the same stands at the place of a log and above it, the log takes an event in the same
way, and adds the same to its file. -/
theorem EventLog.append_alike (log : EventLog) {files files' : FileTree}
    (h : ∀ place, log.file = some place → files'.lookup place = files.lookup place ∧
      files'.lookup place.dropLast = files.lookup place.dropLast)
    (data : Json) (now : Int) (suffix : Nat) :
    ∃ result log', (log.append files data now suffix = (result, log', files) ∧
        log.append files' data now suffix = (result, log', files')) ∨
      ∃ place content, log.file = some place ∧ files.lookup place ≠ some .folder ∧
        log.append files data now suffix = (result, log', files.put place (.file content)) ∧
        log.append files' data now suffix = (result, log', files'.put place (.file content)) := by
  unfold append store
  cases hfile : log.file with
  | none =>
    simp only
    split
    · exact ⟨_, _, Or.inl ⟨rfl, rfl⟩⟩
    · exact ⟨_, _, Or.inl ⟨rfl, rfl⟩⟩
  | some place =>
    obtain ⟨hplace, habove⟩ := h place hfile
    simp only
    generalize Text.encode _ = more
    rcases log.write_alike hplace habove more with
      ⟨e, heq, heq'⟩ | ⟨content, hfolder, heq, heq'⟩
    · simp only [heq, heq']
      exact ⟨_, _, Or.inl ⟨rfl, rfl⟩⟩
    · simp only [heq, heq']
      split
      · exact ⟨_, _, Or.inr ⟨place, content, rfl, hfolder, rfl, rfl⟩⟩
      · exact ⟨_, _, Or.inr ⟨place, content, rfl, hfolder, rfl, rfl⟩⟩

/-! ## Workspaces -/

/-- The file of one of these keys, in the folder of a store that has one. -/
def Within (place : Option Path) (keys : String → Prop) (p : Path) : Prop :=
  ∃ root key, place = some root ∧ keys key ∧ p = root ++ [key]

/-- Stores of one kind that hold the same under all other keys, if they are in memory. -/
inductive Store.SameBut (keys : String → Prop) : Store → Store → Prop
  | memory {t t' : Dictionary Stored} :
      (∀ key, ¬ keys key → t'.get? key = t.get? key) → SameBut keys (.memory t) (.memory t')
  | folder (root : Path) (room : Nat) : SameBut keys (.folder root room) (.folder root room)

namespace Workspace

/-- Workspaces that differ at most in the values under these keys, in a store of this place. The
event log is kept apart from them. -/
structure SameBut (place : Option Path) (keys : String → Prop) (w w' : Workspace) : Prop where
  root : w.store.root? = place
  store : w.store.SameBut keys w'.store
  rest : ∃ files store, w' = { w with files, store }
  files : ∀ p, ¬ Within place keys p → w'.files.lookup p = w.files.lookup p
  folders : ∀ p, w'.files.lookup p = some .folder ↔ w.files.lookup p = some .folder
  apart : ∀ file, w.logFile? = some file →
    ¬ Within place keys file ∧ ¬ Within place keys file.dropLast

variable {place : Option Path} {keys : String → Prop} {w w' : Workspace}

theorem SameBut.held (h : SameBut place keys w w') {key : String} (hkey : ¬ keys key) :
    w'.held? key = w.held? key := by
  obtain ⟨hplace, hstore, -, hfiles, -, -⟩ := h
  unfold held?
  revert hplace
  generalize w.store = store at hstore
  generalize w'.store = store' at hstore
  intro hplace
  cases hstore with
  | memory hsame => simp only [hsame key hkey]
  | folder root room =>
    have hout : ¬ Within place keys (root ++ [key]) := by
      rintro ⟨root', key', hroot, hkeys, heq⟩
      rw [← hplace] at hroot
      cases hroot
      simp only [List.append_cancel_left_eq, List.cons.injEq, and_true] at heq
      exact hkey (heq ▸ hkeys)
    simp only [hfiles _ hout]

/-- A writer opens in the same way in both. -/
theorem SameBut.openWriter (h : SameBut place keys w w') (key contentType : String) :
    w'.openWriter key contentType = w.openWriter key contentType := by
  obtain ⟨-, hstore, ⟨files', store', rfl⟩, -, -, -⟩ := h
  obtain ⟨files, store, faults, log, streams, captures, supply, trace⟩ := w
  cases hstore with
  | memory => rfl
  | folder => rfl

/-- A commit goes the same way in both. -/
theorem SameBut.commit (h : SameBut place keys w w') (writer : Writer) :
    (w'.commit writer).1 = (w.commit writer).1 ∧
      SameBut place keys (w.commit writer).2 (w'.commit writer).2 := by
  have hall := h
  obtain ⟨hplace, hstore, ⟨files', store', rfl⟩, hfiles, hfolders, hapart⟩ := h
  unfold Workspace.commit
  dsimp only
  cases w.faults.committing writer.key with
  | some e => exact ⟨rfl, hall⟩
  | none =>
    obtain ⟨files, store, faults, log, streams, captures, supply, trace⟩ := w
    cases hstore with
    | @memory t t' hsame =>
      refine ⟨rfl, hplace, .memory fun key hkey => ?_, ⟨_, _, rfl⟩, hfiles, hfolders, hapart⟩
      rw [Dictionary.get?_insert, Dictionary.get?_insert, hsame key hkey]
    | folder root room =>
      simp only [Store.commit]
      cases Store.filePath root writer.key with
      | error e => exact ⟨rfl, hall⟩
      | ok path =>
        rcases FileTree.replaceFile_alike hfolders root room writer.key writer.data with
          ⟨e, heq, heq'⟩ | ⟨hfolder, heq, heq'⟩
        · simp only [heq, heq']
          exact ⟨trivial, hall⟩
        · simp only [heq, heq']
          obtain ⟨hput, hput'⟩ := FileTree.put_alike hfolders hfolder (.file writer.data)
          exact ⟨trivial, hplace, .folder root room, ⟨_, _, rfl⟩, fun p hp => hput p (hfiles p hp),
            hput', hapart⟩

/-- The event log is told the same in both. -/
theorem SameBut.announce (h : SameBut place keys w w') (data : Json) :
    (w'.announce data).1 = (w.announce data).1 ∧
      SameBut place keys (w.announce data).2 (w'.announce data).2 := by
  have hall := h
  obtain ⟨hplace, hstore, ⟨files', store', rfl⟩, hfiles, hfolders, hapart⟩ := h
  obtain ⟨files, store, faults, log, streams, captures, supply, trace⟩ := w
  cases log with
  | none => exact ⟨rfl, hall⟩
  | some log =>
    simp only [Workspace.announce, now, random]
    have hout := hapart
    have hfile : (log.append files data (supply.clock supply.read)
        (supply.random supply.drawn)).2.1.file = log.file := EventLog.append_frame.1
    obtain ⟨result, log', ⟨heq, heq'⟩ | ⟨file, content, hplaced, hfolder, heq, heq'⟩⟩ :=
      log.append_alike
        (fun file hfile => ⟨hfiles _ (hout file hfile).1, hfiles _ (hout file hfile).2⟩) data
        (supply.clock supply.read) (supply.random supply.drawn)
    · rw [heq] at hfile
      simp only [heq, heq']
      exact ⟨trivial, hplace, hstore, ⟨_, _, rfl⟩, hfiles, hfolders, fun f hf =>
        hapart f (hfile.symm.trans hf)⟩
    · rw [heq] at hfile
      simp only [heq, heq']
      obtain ⟨hput, hput'⟩ := FileTree.put_alike hfolders hfolder (.file content)
      exact ⟨trivial, hplace, hstore, ⟨_, _, rfl⟩, fun p hp => hput p (hfiles p hp), hput',
        fun f hf => hapart f (hfile.symm.trans hf)⟩

theorem SameBut.layout (h : SameBut place keys w w') : w'.layout = w.layout := by
  obtain ⟨-, hstore, ⟨files', store', rfl⟩, -, -, -⟩ := h
  obtain ⟨files, store, faults, log, streams, captures, supply, trace⟩ := w
  cases hstore with
  | memory => rfl
  | folder => rfl

theorem SameBut.keepsNoLog (h : SameBut place keys w w') {key : String} (hkey : keys key) :
    ¬ w.KeepsLogAt key := by
  rintro ⟨root, hlayout⟩
  have hroot : w.store.root? = some root := congrArg Prod.fst hlayout
  have hfile : w.logFile? = some (root ++ [key]) := congrArg Prod.snd hlayout
  exact (h.apart _ hfile).1 ⟨root, key, h.root.symm.trans hroot, hkey, rfl⟩

/-! ## What is stored in both -/

/-- Since they were `old` and `new`, the same was stored in both under each of these keys, or
nothing was. -/
structure Mixes (place : Option Path) (keys : String → Prop) (old new w w' : Workspace) : Prop
    extends SameBut place keys w w' where
  stored : ∀ key, keys key → (∃ value, w.held? key = some value ∧ w'.held? key = some value) ∨
    (w.held? key = old.held? key ∧ w'.held? key = new.held? key)

variable {old new : Workspace}

theorem Mixes.commit (h : Mixes place keys old new w w') (writer : Writer) :
    (w'.commit writer).1 = (w.commit writer).1 ∧
      Mixes place keys old new (w.commit writer).2 (w'.commit writer).2 := by
  obtain ⟨hresult, hsame⟩ := h.toSameBut.commit writer
  refine ⟨hresult, hsame, fun key hkey => ?_⟩
  have hkept : w'.kept writer.contentType writer.data = w.kept writer.contentType writer.data := by
    rw [kept, kept, h.layout]
  rcases w.commit_cases writer with ⟨e, heq⟩ | ⟨w₁, heq, -, -, hself, hother⟩
  · rcases w'.commit_cases writer with ⟨e', heq'⟩ | ⟨w₁', heq', -⟩
    · rw [heq, heq']
      exact h.stored key hkey
    · rw [heq, heq'] at hresult
      cases hresult
  · rcases w'.commit_cases writer with ⟨e', heq'⟩ | ⟨w₁', heq', -, -, hself', hother'⟩
    · rw [heq, heq'] at hresult
      cases hresult
    · rw [heq, heq']
      by_cases hk : key = writer.key
      · subst hk
        exact Or.inl ⟨_, hself, hkept ▸ hself'⟩
      · rw [hother key hk, hother' key hk]
        exact h.stored key hkey

theorem Mixes.announce (h : Mixes place keys old new w w') (data : Json) :
    (w'.announce data).1 = (w.announce data).1 ∧
      Mixes place keys old new (w.announce data).2 (w'.announce data).2 := by
  obtain ⟨hresult, hsame⟩ := h.toSameBut.announce data
  refine ⟨hresult, hsame, fun key hkey => ?_⟩
  have hlog := h.keepsNoLog hkey
  have hlog' := (not_congr (keepsLogAt_congr h.layout)).mpr hlog
  rw [announce_held hlog, announce_held hlog']
  exact h.stored key hkey

end Workspace

/-! ## What components make of it -/

section Components

open Workspace

variable {place : Option Path} {keys : String → Prop} {old new : Workspace}

theorem Component.encoding_respects {W : Type} (same : W → W → Prop) (e : Encoder) :
    (encoding (W := W) e).Respects same where
  enqueue _ _ _ _ h := ⟨_, h, rfl⟩
  dequeue _ _ _ h := ⟨_, h, rfl⟩
  transform data s h := by
    simp only [encoding]
    split
    · exact ⟨_, h, rfl⟩
    · exact ⟨_, h, rfl⟩
  lastChunk s h := by
    simp only [encoding]
    split
    · exact ⟨_, h, rfl⟩
    · exact ⟨_, h, rfl⟩
  acquire _ h := ⟨_, h, rfl⟩
  release _ h := ⟨_, h, rfl⟩

/-- A writer cannot tell the two apart, and what it stores is the same in both. -/
theorem Component.storing_respects (d : Destination) :
    (storing d).Respects (Mixes place keys old new) where
  enqueue _ _ _ _ h := ⟨_, h, rfl⟩
  dequeue _ _ _ h := ⟨_, h, rfl⟩
  transform {w w'} data s h := by
    have hwrite : w'.writeTo = w.writeTo := by
      obtain ⟨files', store', rfl⟩ := h.rest
      rfl
    simp only [storing, hwrite]
    split
    · exact ⟨_, h, rfl⟩
    · split
      · exact ⟨_, h, rfl⟩
      · split
        · exact ⟨_, h, rfl⟩
        · exact ⟨_, h, rfl⟩
  lastChunk _ h := ⟨_, h, rfl⟩
  acquire {w w'} s h := by
    simp only [storing, h.openWriter]
    split
    · exact ⟨_, h, rfl⟩
    · exact ⟨_, h, rfl⟩
  release {w w'} s h := by
    simp only [storing]
    cases s.writer with
    | none => exact ⟨_, h, rfl⟩
    | some writer =>
      cases s.finished with
      | false => exact ⟨_, h, rfl⟩
      | true =>
        obtain ⟨hcommit, hmixes⟩ := h.commit writer
        rcases heq : w.commit writer with ⟨e | _, w₁⟩
        all_goals
          rcases heq' : w'.commit writer with ⟨result, w₁'⟩
          rw [heq, heq'] at hcommit hmixes
          cases hcommit
        · simp only [heq, heq']
          exact ⟨_, hmixes, rfl⟩
        · obtain ⟨hannounce, hmixes'⟩ := hmixes.announce d.announcement
          rcases htold : w₁.announce d.announcement with ⟨e | _, w₂⟩
          all_goals
            rcases htold' : w₁'.announce d.announcement with ⟨result, w₂'⟩
            rw [htold, htold'] at hannounce hmixes'
            cases hannounce
            simp only [heq, heq', htold, htold']
            exact ⟨_, hmixes', rfl⟩

/-- A byte stream changes nothing of its surroundings. -/
theorem Component.byteStream_detached {P : Workspace → Workspace → Prop} (hrefl : ∀ w, P w w)
    (size : Nat) : (byteStream size).Detached P where
  enqueue _ _ _ _ w := hrefl w
  dequeue _ _ _ w := hrefl w
  transform data s w := by
    simp only [byteStream]
    split
    · split
      · exact hrefl w
      · exact hrefl w
    · split
      · exact hrefl w
      · exact hrefl w
  lastChunk _ w := hrefl w
  acquire _ w := hrefl w
  release _ w := hrefl w

/-- A byte stream reads the same from the same files. -/
theorem Component.byteStream_respects {same : Workspace → Workspace → Prop}
    (hfiles : ∀ {w w'}, same w w' → ∀ p, w'.files.lookup p = w.files.lookup p) (size : Nat) :
    (byteStream size).Respects same where
  enqueue _ _ _ _ h := ⟨_, h, rfl⟩
  dequeue _ _ _ h := ⟨_, h, rfl⟩
  transform data s h := by
    simp only [byteStream, FileTree.openText_congr (hfiles h)]
    split
    · split
      · exact ⟨_, h, rfl⟩
      · exact ⟨_, h, rfl⟩
    · split
      · exact ⟨_, h, rfl⟩
      · exact ⟨_, h, rfl⟩
  lastChunk _ h := ⟨_, h, rfl⟩
  acquire _ h := ⟨_, h, rfl⟩
  release _ h := ⟨_, h, rfl⟩

/-- What respects the stored values and leaves them alone, leaves what is stored in both. -/
theorem Component.Respects.mixes {c : Component Workspace}
    (h : c.Respects (SameBut place keys)) (hdetached : c.Detached SameStored) :
    c.Respects (Mixes place keys old new) := by
  have hstored : ∀ {w w' w₁ w₁'}, Mixes place keys old new w w' → SameStored w w₁ →
      SameStored w' w₁' → SameBut place keys w₁ w₁' → Mixes place keys old new w₁ w₁' := by
    intro w w' w₁ w₁' hmixes hsame hsame' hbut
    refine ⟨hbut, fun key hkey => ?_⟩
    rw [hsame.held, hsame'.held]
    exact hmixes.stored key hkey
  refine ⟨fun {w w'} data input s cache hm => ?_, fun {w w'} finalized s cache hm => ?_,
    fun {w w'} data s hm => ?_, fun {w w'} s hm => ?_, fun {w w'} s hm => ?_,
    fun {w w'} s hm => ?_⟩
  · obtain ⟨w₁', hbut, heq⟩ := h.enqueue data input s cache hm.toSameBut
    have hsame := hdetached.enqueue data input s cache w'
    rw [heq] at hsame
    exact ⟨w₁', hstored hm (hdetached.enqueue ..) hsame hbut, heq⟩
  · obtain ⟨w₁', hbut, heq⟩ := h.dequeue finalized s cache hm.toSameBut
    have hsame := hdetached.dequeue finalized s cache w'
    rw [heq] at hsame
    exact ⟨w₁', hstored hm (hdetached.dequeue ..) hsame hbut, heq⟩
  · obtain ⟨w₁', hbut, heq⟩ := h.transform data s hm.toSameBut
    have hsame := hdetached.transform data s w'
    rw [heq] at hsame
    exact ⟨w₁', hstored hm (hdetached.transform ..) hsame hbut, heq⟩
  · obtain ⟨w₁', hbut, heq⟩ := h.lastChunk s hm.toSameBut
    have hsame := hdetached.lastChunk s w'
    rw [heq] at hsame
    exact ⟨w₁', hstored hm (hdetached.lastChunk ..) hsame hbut, heq⟩
  · obtain ⟨w₁', hbut, heq⟩ := h.acquire s hm.toSameBut
    have hsame := hdetached.acquire s w'
    rw [heq] at hsame
    exact ⟨w₁', hstored hm (hdetached.acquire ..) hsame hbut, heq⟩
  · obtain ⟨w₁', hbut, heq⟩ := h.release s hm.toSameBut
    have hsame := hdetached.release s w'
    rw [heq] at hsame
    exact ⟨w₁', hstored hm (hdetached.release ..) hsame hbut, heq⟩

end Components

end FeatureGraph
