-- What a store shows. A view says for each key which bytes a read of it
-- gives. A store in memory and a store in a folder that have one view answer
-- every question alike, and a commit changes the view of both at one key.
import FeatureGraph.Proofs.ByteSource
import FeatureGraph.Proofs.Dictionary
import FeatureGraph.Proofs.Files
import FeatureGraph.Proofs.Lists
import FeatureGraph.Storage.Store
import Mathlib.Logic.Function.Basic

namespace FeatureGraph

/-! ## The keys of a dictionary -/

namespace Dictionary

variable {α : Type} {d : Dictionary α} {key : String} {l : List (String × α)}

theorem mem_keys_foldl_insert :
    key ∈ (l.foldl (fun d e => d.insert e.1 e.2) d).keys ↔ key ∈ d.keys ∨ key ∈ l.map Prod.fst := by
  induction l generalizing d with
  | nil => simp
  | cons e rest ih =>
    have hinsert : key ∈ (d.insert e.1 e.2).keys ↔ key ∈ d.keys ∨ key = e.1 := by
      rw [mem_keys, mem_keys]
      by_cases hkey : key = e.1
      · simp [hkey]
      · simp [get?_insert, hkey]
    rw [List.foldl_cons, ih, hinsert, List.map_cons, List.mem_cons, or_assoc]

theorem mem_keys_ofList : key ∈ (ofList l).keys ↔ key ∈ l.map Prod.fst := by
  have hempty : key ∉ (empty : Dictionary α).keys := List.not_mem_nil
  rw [ofList, mem_keys_foldl_insert]
  exact or_iff_right hempty

theorem sorted_keys (d : Dictionary α) : d.keys.Pairwise (· < ·) := by
  rw [keys, List.pairwise_map]
  exact d.sorted

end Dictionary

/-! ## Files by name -/

namespace FileTree

variable {t : FileTree} {folder : Path} {name : String} {e : FileEntry}

theorem mem_put {p q : Path} {e' : FileEntry} :
    (q, e') ∈ (t.put p e).entries ↔ (q = p ∧ e' = e) ∨ (q ≠ p ∧ (q, e') ∈ t.entries) := by
  simp [put, and_comm]

theorem mem_fileNames :
    name ∈ t.fileNames folder ↔ ∃ content, (folder ++ [name], .file content) ∈ t.entries := by
  rw [fileNames, List.mem_filterMap]
  constructor
  · rintro ⟨⟨p, entry⟩, hmem, hname⟩
    cases entry with
    | folder => cases hname
    | file content =>
      dsimp only at hname
      split at hname
      · split at hname
        · rename_i hplace
          cases hname
          exact ⟨content, hplace ▸ hmem⟩
        · cases hname
      · cases hname
  · rintro ⟨content, hmem⟩
    exact ⟨_, hmem, by simp⟩

end FileTree

namespace Store

variable {room : Nat} {root : Path} {files files' : FileTree} {key : String}
  {view : String → Option Bytes} {s : Store}

/-! ## Keys that can be the names of files -/

theorem not_hidden_of_isFileKey (h : isFileKey key = true) : key.startsWith "." = false := by
  simp only [isFileKey, Bool.and_eq_true, Bool.not_eq_true'] at h
  exact h.1.2

/-- The keys of a folder are the names of its files, but for those that are hidden. -/
theorem mem_keys_folder : key ∈ (Store.folder root room).keys files ↔
    key.startsWith "." = false ∧ ∃ content, (root ++ [key], .file content) ∈ files.entries := by
  simp only [keys, Dictionary.mem_keys_ofList, List.map_map, Function.comp_def, List.map_id',
    List.mem_filter, FileTree.mem_fileNames, Bool.not_eq_true', and_comm]

/-- A key that a folder with room for so long names takes. -/
structure Fit (room : Nat) (key : String) : Prop where
  fileKey : isFileKey key = true
  accepted : FileTree.textFault? room key = none

namespace Fit

variable (h : Fit room key)

include h

theorem not_hidden : key.startsWith "." = false := not_hidden_of_isFileKey h.fileKey

theorem filePath_eq : filePath root key = .ok (root ++ [key]) := if_pos h.fileKey

theorem renameFault_eq : FileTree.renameFault? room key = none := by
  have haccepted := h.accepted
  unfold FileTree.textFault? at haccepted
  unfold FileTree.renameFault?
  split at haccepted
  · cases haccepted
  · rename_i hnul
    rw [if_neg hnul]
    exact h.accepted

theorem lookup_eq : files.lookup (root ++ [key]) = files.entries.lookup (root ++ [key]) := by
  refine if_neg ?_
  rw [Bool.or_eq_true, decide_eq_true_iff]
  rintro (habove | hroot)
  · have hdots : key = ".." := by simpa using List.all_eq_true.mp habove key (by simp)
    have hhidden := h.not_hidden
    rw [hdots, show "..".startsWith "." = true by decide +kernel] at hhidden
    cases hhidden
  · have hlast := congrArg List.getLast? hroot
    have hslash : key = "/" := by simpa using hlast
    have hkey := h.fileKey
    rw [hslash, show isFileKey "/" = false by decide +kernel] at hkey
    cases hkey

end Fit

/-! ## Views -/

/-- The store shows these bytes under these keys, and nothing under others. In a folder there may
be hidden files besides. -/
def Shows (files : FileTree) (view : String → Option Bytes) : Store → Prop
  | .memory table => ∀ key, (table.get? key).map (·.data) = view key
  | .folder root _ => ∀ name e, name.startsWith "." = false →
    ((root ++ [name], e) ∈ files.entries ↔ ∃ bs, view name = some bs ∧ e = .file bs)

/-- The keys of a store in memory may be any; those of a folder are names of files. -/
def Takes (key : String) : Store → Prop
  | .memory _ => True
  | .folder _ room => Fit room key

theorem lookup_of_shows (h : (Store.folder root room).Shows files view) (hkey : Fit room key) :
    files.lookup (root ++ [key]) = (view key).map .file := by
  have hentry := fun e => h key e hkey.not_hidden
  rw [hkey.lookup_eq]
  cases hlookup : files.entries.lookup (root ++ [key]) with
  | none =>
    cases hview : view key with
    | none => rfl
    | some bs =>
      have hmem := (hentry (.file bs)).mpr ⟨bs, hview, rfl⟩
      have hne := List.lookup_eq_none_iff.mp hlookup _ hmem
      simp at hne
  | some e =>
    obtain ⟨l₁, l₂, hsplit, -⟩ := List.lookup_eq_some_iff.mp hlookup
    obtain ⟨bs, hview, rfl⟩ := (hentry e).mp (by simp [hsplit])
    rw [hview]
    rfl

/-- A read gives the bytes that are shown, and finds nothing where none are. -/
theorem read_of_shows (h : s.Shows files view) (hkey : s.Takes key) :
    s.read files key = match view key with
      | some bs => .ok (ByteSource.ofBytes bs)
      | none => .error (.notFound key) := by
  cases s with
  | memory table =>
    rw [← h key, read]
    cases table.get? key <;> rfl
  | folder root room =>
    have hfit : Fit room key := hkey
    have hlookup := lookup_of_shows h hfit
    simp only [read, hfit.filePath_eq, hfit.accepted, FileTree.openFile, hlookup]
    cases view key <;> rfl

theorem contains_of_shows (h : s.Shows files view) (hkey : s.Takes key) :
    s.contains files key = .ok (view key).isSome := by
  cases s with
  | memory table =>
    rw [← h key, contains, Dictionary.contains, Option.isSome_map]
  | folder root room =>
    have hfit : Fit room key := hkey
    have hlookup := lookup_of_shows h hfit
    simp only [contains, hfit.filePath_eq, Except.map, hfit.accepted, FileTree.isFile, hlookup]
    cases view key <;> rfl

theorem write_of_takes (hkey : s.Takes key) (contentType : String) :
    s.write key contentType = .ok ⟨key, contentType, []⟩ := by
  cases s with
  | memory table => rfl
  | folder root room =>
    have hfit : Fit room key := hkey
    rw [write, hfit.filePath_eq]
    rfl

/-- The keys of a view, in order. -/
structure Listed (view : String → Option Bytes) (l : List String) : Prop where
  sorted : l.Pairwise (· < ·)
  mem : ∀ key, key ∈ l ↔ (view key).isSome = true

theorem Listed.unique {l l' : List String} (h : Listed view l) (h' : Listed view l') : l = l' :=
  eq_of_ordered (fun _ _ => String.lt_asymm) h.sorted h'.sorted fun key =>
    (h.mem key).trans (h'.mem key).symm

theorem listed_keys (h : s.Shows files view)
    (hall : ∀ key, (view key).isSome = true → s.Takes key) :
    Listed view (s.keys files) := by
  cases s with
  | memory table =>
    refine ⟨table.sorted_keys, fun key => ?_⟩
    rw [keys, Dictionary.mem_keys, ← h key, Option.isSome_map, Option.isSome_iff_exists]
  | folder root room =>
    refine ⟨Dictionary.sorted_keys _, fun key => ?_⟩
    rw [mem_keys_folder]
    constructor
    · rintro ⟨hshown, content, hmem⟩
      obtain ⟨bs, hview, -⟩ := (h key _ hshown).mp hmem
      rw [hview]
      rfl
    · intro hsome
      have hfit : Fit room key := hall key hsome
      obtain ⟨bs, hview⟩ := Option.isSome_iff_exists.mp hsome
      exact ⟨hfit.not_hidden, bs, (h key _ hfit.not_hidden).mpr ⟨bs, hview, rfl⟩⟩

/-! ## Commits -/

/-- A commit in memory puts the bytes of the writer under its key. -/
theorem shows_insert {table : Dictionary Stored} (h : (Store.memory table).Shows files view)
    (w : Writer) :
    (Store.memory (table.insert w.key ⟨w.contentType, w.data⟩)).Shows files'
      (Function.update view w.key (some w.data)) := by
  intro key
  rw [Dictionary.get?_insert, Function.update_apply]
  by_cases hself : key = w.key
  · simp [hself]
  · simpa [hself] using h key

/-- And so does one in a folder. -/
theorem shows_put (h : (Store.folder root room).Shows files view) (key : String) (bs : Bytes) :
    (Store.folder root room).Shows (files.put (root ++ [key]) (.file bs))
      (Function.update view key (some bs)) := by
  intro name e hname
  rw [FileTree.mem_put, Function.update_apply]
  by_cases hself : name = key
  · subst hself
    simp
  · have hother := h name e hname
    simp [hself, hother]

theorem commit_folder (h : (Store.folder root room).Shows files view) {w : Writer}
    (hfit : Fit room w.key) :
    (Store.folder root room).commit files w =
      .ok (.folder root room, files.put (root ++ [w.key]) (.file w.data)) := by
  have hlookup := lookup_of_shows h hfit
  have hreplace : files.replaceFile root room w.key w.data =
      .ok (files.put (root ++ [w.key]) (.file w.data)) := by
    rw [FileTree.replaceFile, hfit.renameFault_eq, hlookup]
    cases view w.key <;> rfl
  rw [commit, hfit.filePath_eq]
  dsimp only
  rw [hreplace]

end Store

end FeatureGraph
