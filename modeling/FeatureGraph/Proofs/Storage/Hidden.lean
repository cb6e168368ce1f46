-- The hidden files of a folder. What a writer was given is in a hidden file
-- with a name of its own as long as the writer is open. A commit gives that
-- file the name of its key, and a writer that is dropped takes it along.
-- Nothing of this is shown.
import FeatureGraph.Proofs.Storage.View

namespace FeatureGraph

/-! ## A change at one place -/

namespace FileTree

variable {t t' : FileTree} {p : Path}

/-- Takes away what stands at a place. -/
def remove (t : FileTree) (p : Path) : FileTree := ⟨t.entries.filter (·.1 ≠ p)⟩

theorem lookup_remove_self (h : t.lookup p ≠ some .folder) : (t.remove p).lookup p = none := by
  unfold lookup at h ⊢
  split at h
  · exact absurd rfl h
  · rename_i hplain
    rw [if_neg hplain, remove, List.lookup_eq_none_iff]
    intro e he
    have hne : e.1 ≠ p := of_decide_eq_true (List.mem_filter.mp he).2
    exact bne_iff_ne.mpr hne.symm

/-- All that stands elsewhere than at a place is as it was. -/
structure ChangedAt (p : Path) (t t' : FileTree) : Prop where
  entries : ∀ q ≠ p, ∀ e, (q, e) ∈ t'.entries ↔ (q, e) ∈ t.entries
  lookup : ∀ q ≠ p, t'.lookup q = t.lookup q

theorem changedAt_put (t : FileTree) (p : Path) (e : FileEntry) : t.ChangedAt p (t.put p e) where
  entries q hq e' := by simp [mem_put, hq]
  lookup _ hq := lookup_put_ne hq e

theorem changedAt_remove (t : FileTree) (p : Path) : t.ChangedAt p (t.remove p) where
  entries q hq e := by simp [remove, hq]
  lookup q hq := by rw [lookup, remove, lookup_filter_ne hq, lookup]

/-- A file in a folder can be added to, also if there is none yet. -/
theorem append_eq_ok {content : Option Bytes} (h : t.lookup p = content.map .file)
    (hfolder : t.lookup p.dropLast = some .folder) (more : Bytes) :
    t.append p more = .ok (t.put p (.file (content.getD [] ++ more))) := by
  cases content with
  | none =>
    have hnone : t.lookup p = none := h
    simp only [append, hnone, hfolder]
    rfl
  | some content =>
    have hfile : t.lookup p = some (.file content) := h
    simp only [append, hfile]
    rfl

end FileTree

namespace Store

variable {s : Store} {files files' : FileTree} {path : String} {root : Path} {room : Nat}
  {view : String → Option Bytes} {temp : Nat → String} {count n : Nat} {held : Nat → Option Bytes}

/-! ## What writers do to the folder -/

/-- Gives bytes to a writer: adds them to its hidden file, which is made if there is none. -/
def jot (s : Store) (files : FileTree) (name : String) (bs : Bytes) :
    Except StorageError FileTree :=
  match s with
  | .memory _ => .ok files
  | .folder root room =>
    match FileTree.textFault? room name with
    | some e => .error (.io e)
    | none =>
      match files.append (root ++ [name]) bs with
      | .ok files => .ok files
      | .error e => .error (.io e)

/-- What a commit of the writer puts under its key: in a folder, what is in its hidden file. -/
def gather (s : Store) (files : FileTree) (name : String) (w : Writer) : Writer :=
  match s with
  | .memory _ => w
  | .folder root _ => { w with parts := [files.contentAt (root ++ [name])] }

/-- Takes the hidden file of a writer away. -/
def discard (s : Store) (files : FileTree) (name : String) : FileTree :=
  match s with
  | .memory _ => files
  | .folder root _ => files.remove (root ++ [name])

/-! ## The hidden files there are -/

/-- The first so many writers have hidden names of their own. In the file of that name is what the
writer was given, if it is open; else there is no such file. -/
structure Backed (temp : Nat → String) (count : Nat) (root : Path) (room : Nat) (files : FileTree)
    (held : Nat → Option Bytes) : Prop where
  hidden : ∀ n < count, (temp n).startsWith "." = true
  accepted : ∀ n < count, FileTree.textFault? room (temp n) = none
  distinct : ∀ m < count, ∀ n < count, temp m = temp n → m = n
  held : ∀ n < count, files.lookup (root ++ [temp n]) = (held n).map .file

/-- A store in memory has no hidden files. -/
def Backs (temp : Nat → String) (count : Nat) (files : FileTree) (held : Nat → Option Bytes) :
    Store → Prop
  | .memory _ => True
  | .folder root room => Backed temp count root room files held

theorem Backed.place_ne (h : Backed temp count root room files held) {m : Nat} (hm : m < count)
    (hn : n < count) (hne : m ≠ n) : root ++ [temp m] ≠ root ++ [temp n] := by
  intro heq
  exact hne (h.distinct m hm n hn (by simpa using heq))

/-- Where only the hidden file of one writer has changed. -/
theorem Backed.update (h : Backed temp count root room files held) (hn : n < count)
    (hchanged : files.ChangedAt (root ++ [temp n]) files') {content : Option Bytes}
    (hcontent : files'.lookup (root ++ [temp n]) = content.map .file) :
    Backed temp count root room files' (Function.update held n content) where
  hidden := h.hidden
  accepted := h.accepted
  distinct := h.distinct
  held m hm := by
    rw [Function.update_apply]
    split
    · rename_i heq
      rw [heq]
      exact hcontent
    · rename_i hne
      rw [hchanged.lookup _ (h.place_ne hm hn hne), h.held m hm]

theorem Backed.not_folder (h : Backed temp count root room files held) (hn : n < count) :
    files.lookup (root ++ [temp n]) ≠ some .folder := by
  rw [h.held n hn]
  cases held n with
  | none => nofun
  | some content => nofun

/-! ## A store and its hidden files -/

/-- Opening the folder of the store again finds it as it is, whatever files are added. -/
def Anchored (path : String) (files : FileTree) : Store → Prop
  | .memory _ => True
  | .folder root room => room = FileTree.roomIn path ∧ ∀ u : FileTree,
    (∀ q, files.lookup q = some .folder → u.lookup q = some .folder) →
      u.makeFolder path = (.ok root, u)

/-- The store shows this view, its folder can be opened anew, and its writers hold these bytes. -/
structure Stands (path : String) (temp : Nat → String) (count : Nat) (files : FileTree)
    (view : String → Option Bytes) (held : Nat → Option Bytes) (s : Store) : Prop where
  shows : s.Shows files view
  anchored : s.Anchored path files
  backs : s.Backs temp count files held

/-- A change of the hidden file of one writer is seen by nobody else. -/
theorem Stands.update (h : (Store.folder root room).Stands path temp count files view held)
    (hn : n < count) (hchanged : files.ChangedAt (root ++ [temp n]) files')
    {content : Option Bytes}
    (hcontent : files'.lookup (root ++ [temp n]) = content.map .file) :
    (Store.folder root room).Stands path temp count files' view
      (Function.update held n content) where
  shows name e hname := by
    have hne : root ++ [name] ≠ root ++ [temp n] := by
      intro heq
      obtain rfl : name = temp n := by simpa using heq
      rw [h.backs.hidden n hn] at hname
      cases hname
    rw [hchanged.entries _ hne]
    exact h.shows name e hname
  anchored := by
    refine ⟨h.anchored.1, fun u hu => h.anchored.2 u fun q hq => hu q ?_⟩
    have hne : q ≠ root ++ [temp n] := by
      rintro rfl
      exact h.backs.not_folder hn hq
    rw [hchanged.lookup q hne]
    exact hq
  backs := h.backs.update hn hchanged hcontent

/-- A writer takes all bytes, and nothing that is shown changes. -/
theorem Stands.jot (h : s.Stands path temp count files view held) (hn : n < count) (bs : Bytes) :
    ∃ files', s.jot files (temp n) bs = .ok files' ∧
      s.Stands path temp count files' view
        (Function.update held n (some ((held n).getD [] ++ bs))) := by
  cases s with
  | memory table => exact ⟨files, rfl, h.shows, trivial, trivial⟩
  | folder root room =>
    have hfolder : files.lookup (root ++ [temp n]).dropLast = some .folder := by
      rw [List.dropLast_concat]
      exact (FileTree.makeFolder_eq_ok (h.anchored.2 files fun _ hq => hq)).1
    have happend := FileTree.append_eq_ok (h.backs.held n hn) hfolder bs
    have hjot : (Store.folder root room).jot files (temp n) bs =
        .ok (files.put (root ++ [temp n]) (.file ((held n).getD [] ++ bs))) := by
      simp only [Store.jot, h.backs.accepted n hn, happend]
    refine ⟨_, hjot, h.update hn (FileTree.changedAt_put ..) ?_⟩
    exact FileTree.lookup_put_self (h.backs.not_folder hn) _

theorem Stands.discard (h : s.Stands path temp count files view held) (hn : n < count) :
    s.Stands path temp count (s.discard files (temp n)) view (Function.update held n none) := by
  cases s with
  | memory table => exact ⟨h.shows, trivial, trivial⟩
  | folder root room =>
    refine h.update hn (FileTree.changedAt_remove ..) ?_
    exact FileTree.lookup_remove_self (h.backs.not_folder hn)

/-- A file under a key that is shown leaves the hidden files and all folders as they are. -/
theorem Stands.put (h : (Store.folder root room).Stands path temp count files view held)
    {key : String} (hfit : Fit room key) (bs : Bytes) :
    (Store.folder root room).Stands path temp count (files.put (root ++ [key]) (.file bs))
      (Function.update view key (some bs)) held where
  shows := shows_put h.shows key bs
  anchored := by
    refine ⟨h.anchored.1, fun u hu => h.anchored.2 u fun q hq => hu q ?_⟩
    have hne : q ≠ root ++ [key] := by
      rintro rfl
      rw [lookup_of_shows h.shows hfit] at hq
      cases hview : view key <;> rw [hview] at hq <;> cases hq
    rw [FileTree.lookup_put_ne hne]
    exact hq
  backs := by
    refine ⟨h.backs.hidden, h.backs.accepted, h.backs.distinct, fun n hn => ?_⟩
    have hne : root ++ [temp n] ≠ root ++ [key] := by
      intro heq
      obtain rfl : temp n = key := by simpa using heq
      have hhidden := h.backs.hidden n hn
      rw [hfit.not_hidden] at hhidden
      cases hhidden
    rw [FileTree.lookup_put_ne hne, h.backs.held n hn]

/-- A commit puts under the key what the writer was given, and takes its hidden file away. -/
theorem Stands.commit (h : s.Stands path temp count files view held) (hn : n < count)
    {w : Writer} (hkey : s.Takes w.key) (hheld : held n = some w.data) :
    ∃ s' files',
      s.commit (s.discard files (temp n)) (s.gather files (temp n) w) = .ok (s', files') ∧
      s'.Stands path temp count files' (Function.update view w.key (some w.data))
        (Function.update held n none) ∧
      ∀ key, s.Takes key → s'.Takes key := by
  have hstands := h.discard hn
  cases s with
  | memory table =>
    exact ⟨_, _, rfl, ⟨shows_insert hstands.shows w, trivial, trivial⟩, fun _ htakes => htakes⟩
  | folder root room =>
    have hgathered : ((Store.folder root room).gather files (temp n) w).data = w.data := by
      have hfile := h.backs.held n hn
      rw [hheld] at hfile
      simp [gather, Writer.data, FileTree.contentAt, hfile]
    have hcommit := commit_folder hstands.shows
      (w := (Store.folder root room).gather files (temp n) w) hkey
    rw [hgathered] at hcommit
    exact ⟨_, _, hcommit, hstands.put hkey w.data, fun _ htakes => htakes⟩

end Store

end FeatureGraph
