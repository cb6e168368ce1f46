-- The keys that a store lists. A commit adds the key of its writer to them, and
-- nothing else does. Of the ids in a list of keys each is kept once, at the
-- first of its keys.
import FeatureGraph.Proofs.Component.Storing
import FeatureGraph.Proofs.Storage.View

namespace FeatureGraph

/-! ## The first of equal ids -/

namespace Store

variable {seen l keys : List String} {id : String}

theorem mem_distinct : id ∈ distinct seen l ↔ id ∈ l ∧ id ∉ seen := by
  induction l generalizing seen with
  | nil => simp [distinct]
  | cons x rest ih =>
    rw [distinct]
    split
    · rename_i hx
      rw [ih, List.mem_cons]
      exact ⟨fun h => ⟨Or.inr h.1, h.2⟩,
        fun h => ⟨h.1.resolve_left fun heq => h.2 (heq ▸ hx), h.2⟩⟩
    · rename_i hx
      rw [List.mem_cons, List.mem_cons, ih, List.mem_cons]
      by_cases hid : id = x
      · simp [hid, hx]
      · simp [hid]

theorem nodup_distinct (seen l : List String) : (distinct seen l).Nodup := by
  induction l generalizing seen with
  | nil => exact List.nodup_nil
  | cons x rest ih =>
    rw [distinct]
    split
    · exact ih seen
    · refine List.nodup_cons.mpr ⟨fun hmem => ?_, ih _⟩
      exact (mem_distinct.mp hmem).2 List.mem_cons_self

/-- Of keys in order, an id stands before another if it has a key before all keys of the other. -/
theorem ordered_distinct {idOf : String → Option String} (hsorted : keys.Pairwise (· < ·))
    (seen : List String) : (distinct seen (keys.filterMap idOf)).Pairwise fun a b =>
      ∃ key ∈ keys, idOf key = some a ∧ ∀ key' ∈ keys, idOf key' = some b → key < key' := by
  induction keys generalizing seen with
  | nil => exact List.Pairwise.nil
  | cons key rest ih =>
    obtain ⟨hfirst, hsorted⟩ := List.pairwise_cons.mp hsorted
    -- an id that the first key does not have is ordered by the keys after it
    have hrest : ∀ seen, (∀ x, idOf key = some x → x ∈ seen) →
        (distinct seen (rest.filterMap idOf)).Pairwise fun a b =>
          ∃ k ∈ key :: rest, idOf k = some a ∧
            ∀ key' ∈ key :: rest, idOf key' = some b → k < key' := by
      intro seen hseen
      refine (ih hsorted seen).imp_of_mem fun {a b} _ hb ⟨k, hk, hid, hall⟩ =>
        ⟨k, List.mem_cons_of_mem _ hk, hid, List.forall_mem_cons.mpr ⟨fun hkey => ?_, hall⟩⟩
      exact absurd (hseen b hkey) (mem_distinct.mp hb).2
    cases hkey : idOf key with
    | none =>
      rw [List.filterMap_cons_none hkey]
      exact hrest seen fun x hx => by rw [hkey] at hx; cases hx
    | some x =>
      have hx : ∀ y, idOf key = some y → y = x := fun y hy => Option.some.inj (hy.symm.trans hkey)
      rw [List.filterMap_cons_some hkey, distinct]
      split
      · rename_i hold
        exact hrest seen fun y hy => hx y hy ▸ hold
      · refine List.pairwise_cons.mpr ⟨fun b hb => ?_, hrest _ fun y hy => by simp [hx y hy]⟩
        refine ⟨key, List.mem_cons_self, hkey, List.forall_mem_cons.mpr ⟨fun heq => ?_, ?_⟩⟩
        · exact absurd (by simp [hx b heq]) (mem_distinct.mp hb).2
        · exact fun key' hkey' _ => hfirst key' hkey'

theorem sorted_keys (s : Store) (files : FileTree) : (s.keys files).Pairwise (· < ·) := by
  cases s with
  | memory table => exact table.sorted_keys
  | folder root room => exact Dictionary.sorted_keys _

/-- A store lists the first parts of the keys that come apart. -/
theorem ids_eq (s : Store) (files : FileTree) (scheme : KeyScheme) :
    ∃ idOf : String → Option String,
      s.ids files scheme = distinct [] ((s.keys files).filterMap idOf) ∧
        ∀ key id, idOf key = some id ↔ ∃ feature, scheme.decompose key = .ok (id, feature) := by
  refine ⟨_, rfl, fun key id => ?_⟩
  rcases scheme.decompose key with e | ⟨id', feature⟩ <;> simp

end Store

/-! ## What is listed -/

namespace Workspace

variable {w w' : Workspace} {key : String}

/-- The store lists the key. -/
def Lists (w : Workspace) (key : String) : Prop := key ∈ w.store.keys w.files

/-- The values are the same, and so are the keys that are listed. -/
structure SameListed (w w' : Workspace) : Prop extends SameStored w w' where
  lists : ∀ key, w'.Lists key ↔ w.Lists key

theorem SameListed.refl (w : Workspace) : SameListed w w := ⟨.refl w, fun _ => Iff.rfl⟩

theorem SameListed.trans {w'' : Workspace} (h : SameListed w w') (h' : SameListed w' w'') :
    SameListed w w'' :=
  ⟨h.toSameStored.trans h'.toSameStored, fun key => (h'.lists key).trans (h.lists key)⟩

theorem sameListed_newId (w : Workspace) (source : IdSource) (inputs : Inputs) :
    SameListed w (w.newId source inputs).2 := by
  cases source with
  | input key => exact .refl w
  | random => exact ⟨⟨rfl, fun _ => rfl⟩, fun _ => Iff.rfl⟩

/-- A commit adds the key of its writer to what is listed. -/
theorem lists_commit {writer : Writer} (h : w.commit writer = (.ok (), w')) :
    w'.Lists key ↔ w.Lists key ∨ key = writer.key := by
  unfold commit at h
  cases hfault : w.faults.committing writer.key with
  | some e =>
    rw [hfault] at h
    cases h
  | none =>
    rw [hfault] at h
    obtain ⟨files, store, faults, log, streams, captures, supply, trace⟩ := w
    cases store with
    | memory table =>
      cases h
      simp only [Lists, Store.keys, Dictionary.mem_keys, Dictionary.get?_insert]
      by_cases hkey : key = writer.key <;> simp [hkey]
    | folder root room =>
      simp only [Store.commit, Store.filePath] at h
      by_cases hfile : Store.isFileKey writer.key = true
      · rw [if_pos hfile] at h
        cases hreplace : files.replaceFile root room writer.key writer.data with
        | error e =>
          rw [hreplace] at h
          cases h
        | ok files' =>
          rw [hreplace] at h
          cases h
          simp only [Lists, Store.mem_keys_folder, FileTree.replaceFile_eq_put hreplace,
            FileTree.mem_put]
          by_cases hkey : key = writer.key
          · simp [hkey, Store.not_hidden_of_isFileKey hfile]
          · simp [hkey]
      · rw [if_neg hfile] at h
        cases h

/-- What the log is told adds no key but that of its own file. -/
theorem lists_announce (h : ¬ w.KeepsLogAt key) (data : Json) :
    (w.announce data).2.Lists key ↔ w.Lists key := by
  obtain ⟨files, store, faults, log, streams, captures, supply, trace⟩ := w
  cases log with
  | none => rfl
  | some log =>
    cases store with
    | memory table => rfl
    | folder root room =>
      simp only [announce, Lists, now, random, Store.mem_keys_folder]
      rcases (log.append_files files data (supply.clock supply.read)
        (supply.random supply.drawn)).2 with hsame | ⟨place, content, hplace, hput⟩
      · rw [hsame]
      · have hne : root ++ [key] ≠ place := fun heq =>
          h ⟨root, by simp [layout, Store.root?, logFile?, hplace, heq]⟩
        rw [hput]
        simp only [FileTree.mem_put, hne, false_and, false_or, ne_eq, not_false_eq_true, true_and]

end Workspace

namespace Component

variable {d : Destination} {s : Session} {writer : Writer} {w : Workspace} {key : String}

theorem layout_release (d : Destination) (s : Session) (w : Workspace) :
    ((storing d).release s w).2.2.layout = w.layout := by
  cases hfinished : s.finished with
  | false => rw [storing_discard hfinished]
  | true =>
    cases hwriter : s.writer with
    | none => simp only [storing, hwriter]
    | some writer =>
      rcases storing_commit (d := d) (w := w) hwriter hfinished with
        ⟨e, hrefused⟩ | ⟨w', hcommit, hworld, -⟩
      · rw [hrefused]
      · rw [hworld, Workspace.announce_layout, (Workspace.commit_layout hcommit).1]

/-- The release of a writer adds its key to what is listed if it commits. -/
theorem lists_release (hwriter : s.writer = some writer) (hlog : ¬ w.KeepsLogAt key) :
    ((storing d).release s w).2.2.Lists key ↔ w.Lists key ∨ (s.finished = true ∧
      writer.key = key ∧ ∀ e, ((storing d).release s w).1 ≠ .error (.storage e)) := by
  cases hfinished : s.finished with
  | false =>
    rw [storing_discard hfinished]
    simp
  | true =>
    rcases storing_commit (d := d) (w := w) hwriter hfinished with
      ⟨e, hrefused⟩ | ⟨w', hcommit, hworld, hresult, -⟩
    · rw [hrefused]
      simp
    · have hlog' : ¬ w'.KeepsLogAt key := fun h =>
        hlog ((Workspace.keepsLogAt_congr (Workspace.commit_layout hcommit).1).mp h)
      rw [hworld, Workspace.lists_announce hlog', Workspace.lists_commit hcommit]
      simp only [hresult, eq_comm, ne_eq, not_false_eq_true, implies_true, and_true, true_and]

end Component

end FeatureGraph
