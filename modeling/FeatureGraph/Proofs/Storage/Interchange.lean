-- Stores behind a desk. The desk serves one request after another. What it
-- replies is what the transcript until then says, whether its store is in
-- memory or in a folder with the hidden files of its writers, so that all
-- stores reply alike.
import FeatureGraph.Proofs.Storage.Hidden
import FeatureGraph.Proofs.Storage.Transcript

namespace FeatureGraph.Store

/-- A store, the files it may be kept in, and its writers by number: those that are open. -/
structure Desk where
  store : Store
  files : FileTree
  writers : List (Option Writer)

namespace Desk

/-- Opens the store anew. One in memory is the same as before. -/
def reopen (path : String) (d : Desk) : Reply × Desk :=
  match d.store with
  | .memory _ => (.done, d)
  | .folder _ _ =>
    match openFolder d.files path with
    | (.ok store, files) => (.done, { d with store, files })
    | (.error e, files) => (.failed e, { d with files })

/-- Serves a request. The folder of a store that has one is at `path`, and the hidden file of a
writer there has the name that `temp` gives to its number. -/
def serve (path : String) (temp : Nat → String) (d : Desk) : Request → Reply × Desk
  | .openWriter key contentType =>
    match d.store.write key contentType with
    | .error e => (.failed e, d)
    | .ok w =>
      match d.store.jot d.files (temp d.writers.length) [] with
      | .ok files => (.writer d.writers.length, { d with files, writers := d.writers ++ [some w] })
      | .error e => (.failed e, d)
  | .give n bs =>
    match d.writers[n]?.join with
    | some w =>
      match d.store.jot d.files (temp n) bs with
      | .ok files => (.done, { d with files, writers := d.writers.set n (some (w.add bs)) })
      | .error e => (.failed e, d)
    | none => (.notOpen, d)
  | .commit n =>
    match d.writers[n]?.join with
    | some w =>
      let files := d.store.discard d.files (temp n)
      let writers := d.writers.set n none
      match d.store.commit files (d.store.gather d.files (temp n) w) with
      | .ok (store, files) => (.done, ⟨store, files, writers⟩)
      | .error e => (.failed e, { d with files, writers })
    | none => (.notOpen, d)
  | .drop n =>
    match d.writers[n]?.join with
    | some _ =>
      (.done, { d with
        files := d.store.discard d.files (temp n), writers := d.writers.set n none })
    | none => (.notOpen, d)
  | .read key =>
    match d.store.read d.files key with
    | .error e => (.failed e, d)
    | .ok source =>
      match source.readAll with
      | .ok bs => (.bytes bs, d)
      | .error e => (.failed (.io e), d)
  | .contains key =>
    match d.store.contains d.files key with
    | .ok answer => (.whether answer, d)
    | .error e => (.failed e, d)
  | .keys => (.texts (d.store.keys d.files), d)
  | .ids scheme => (.texts (d.store.ids d.files scheme), d)
  | .reopen => d.reopen path

/-- Serves requests in order, and writes down each with its reply. -/
def attend (path : String) (temp : Nat → String) (d : Desk) :
    List Request → List (Request × Reply)
  | [] => []
  | r :: rest => (r, (d.serve path temp r).1) :: (d.serve path temp r).2.attend path temp rest

/-! ## What open writers hold -/

/-- What a writer was given, if it is open. -/
def held (writers : List (Option Writer)) (n : Nat) : Option Bytes :=
  writers[n]?.join.map Writer.data

variable {writers : List (Option Writer)} {n : Nat}

theorem held_set (hn : n < writers.length) (o : Option Writer) :
    held (writers.set n o) = Function.update (held writers) n (o.map Writer.data) := by
  funext m
  rw [Function.update_apply, held]
  split
  · rename_i heq
    rw [heq, List.getElem?_set_self hn]
    rfl
  · rename_i hne
    rw [List.getElem?_set_ne (Ne.symm hne)]
    rfl

theorem held_concat (writers : List (Option Writer)) (w : Writer) :
    held (writers ++ [some w]) = Function.update (held writers) writers.length (some w.data) := by
  funext m
  rw [Function.update_apply, held]
  split
  · rename_i heq
    rw [heq, List.getElem?_concat_length]
    rfl
  · rename_i hne
    rw [getElem?_concat_ne hne]
    rfl

end Desk

/-! ## The desk follows its transcript -/

open Transcript

/-- The desk is as its transcript says. Its store takes the keys in `K`, and there are hidden names
for `count` writers. -/
structure Desk.Follows (path : String) (temp : Nat → String) (count : Nat) (K : String → Prop)
    (d : Desk) (t : Transcript) : Prop where
  stands : d.store.Stands path temp count d.files (visible t) (held d.writers)
  within : ∀ key, (visible t key).isSome = true → K key
  takes : ∀ key, K key → d.store.Takes key
  length : d.writers.length = openings t
  writers : ∀ n, Matches K t n d.writers[n]?

namespace Desk.Follows

variable {path : String} {temp : Nat → String} {count : Nat} {K : String → Prop} {d : Desk}
  {t : Transcript} {x : Request × Reply} {n : Nat} {w : Writer}

section Follows

variable (h : d.Follows path temp count K t)

include h

theorem known : ∀ n ∈ commits t, (keyOf? t n).isSome = true := fun n hn => (h.writers n).known hn

theorem idle (hx : Idle x) : d.Follows path temp count K (t ++ [x]) := by
  have hvisible : visible (t ++ [x]) = visible t :=
    visible_snoc h.known hx.commits fun n _ => (hx.apart n).gives
  refine ⟨?_, ?_, h.takes, ?_, fun n => (h.writers n).apart (hx.apart n)⟩
  · rw [hvisible]
    exact h.stands
  · rw [hvisible]
    exact h.within
  · rw [openings_snoc, hx.opens]
    exact h.length

/-- An exchange that concerns one writer, and commits none. -/
theorem turn {files : FileTree} {writers : List (Option Writer)} (hcommits : committed? x = none)
    (hgives : ∀ n ∈ commits t, givenTo n x = [])
    (hstands : d.store.Stands path temp count files (visible t) (held writers))
    (hlength : writers.length = d.writers.length + (isOpening x).toNat)
    (hself : Matches K (t ++ [x]) n writers[n]?)
    (hother : ∀ m, m ≠ n → Apart m x ∧ writers[m]? = d.writers[m]?) :
    ({ d with files, writers } : Desk).Follows path temp count K (t ++ [x]) := by
  have hvisible : visible (t ++ [x]) = visible t := visible_snoc h.known hcommits hgives
  refine ⟨?_, ?_, h.takes, ?_, fun m => ?_⟩
  · rw [hvisible]
    exact hstands
  · rw [hvisible]
    exact h.within
  · rw [openings_snoc, ← h.length]
    exact hlength
  · by_cases hm : m = n
    · subst hm
      exact hself
    · obtain ⟨hapart, hsame⟩ := hother m hm
      change Matches K (t ++ [x]) m writers[m]?
      rw [hsame]
      exact (h.writers m).apart hapart

/-! ### One request -/

theorem serve_openWriter (hfew : d.writers.length < count) {key contentType : String}
    (hkey : K key) :
    let served := d.serve path temp (.openWriter key contentType)
    Answers t (.openWriter key contentType) served.1 ∧
      served.2.Follows path temp count K (t ++ [(.openWriter key contentType, served.1)]) := by
  have hwrite := write_of_takes (h.takes key hkey) contentType
  have hnew := h.writers d.writers.length
  rw [List.getElem?_eq_none (Nat.le_refl _)] at hnew
  have hheld : held d.writers d.writers.length = none := by
    rw [held, List.getElem?_eq_none (Nat.le_refl _)]
    rfl
  obtain ⟨files, hjot, hstands⟩ := h.stands.jot hfew []
  rw [hheld] at hstands
  simp only [Desk.serve, hwrite, hjot]
  refine ⟨congrArg Reply.writer h.length, ?_⟩
  refine h.turn (n := d.writers.length) rfl (fun _ _ => rfl) ?_ ?_ ?_ ?_
  · rw [held_concat]
    exact hstands
  · simp [isOpening]
  · rw [List.getElem?_concat_length]
    exact hnew.opened hkey
  · exact fun m hm => ⟨⟨if_neg hm.symm, rfl, nofun, nofun⟩, getElem?_concat_ne hm⟩

/-- A request to a writer that is not open does nothing. -/
theorem serve_notOpen {r : Request} (hn : d.writers[n]?.join = none)
    (hserve : d.serve path temp r = (.notOpen, d)) (hidle : Idle (r, .notOpen))
    (hanswers : ∀ reply, reply = (if Pending t n then .done else .notOpen) → Answers t r reply) :
    Answers t r (d.serve path temp r).1 ∧
      (d.serve path temp r).2.Follows path temp count K (t ++ [(r, (d.serve path temp r).1)]) := by
  have hpending : ¬ Pending t n := by
    rw [(h.writers n).pending_iff, hn]
    exact Bool.false_ne_true
  rw [hserve]
  exact ⟨hanswers _ (if_neg hpending).symm, h.idle hidle⟩

/-- A writer that is open is pending. -/
theorem pending_of_open (hn : d.writers[n]? = some (some w)) : Pending t n := by
  rw [(h.writers n).pending_iff, hn]
  rfl

theorem serve_give (hfew : d.writers.length < count) (n : Nat) (bs : Bytes) :
    let served := d.serve path temp (.give n bs)
    Answers t (.give n bs) served.1 ∧
      served.2.Follows path temp count K (t ++ [(.give n bs, served.1)]) := by
  cases hn : d.writers[n]?.join with
  | none =>
    refine h.serve_notOpen hn ?_ ⟨rfl, fun _ => ⟨rfl, rfl, nofun, nofun⟩⟩ fun _ heq => heq
    simp only [Desk.serve, hn]
  | some w =>
    have hopen := Option.join_eq_some_iff.mp hn
    have hpending := h.pending_of_open hopen
    have hself := h.writers n
    rw [hopen] at hself
    have hlt : n < d.writers.length := (List.getElem?_eq_some_iff.mp hopen).1
    have hheld : held d.writers n = some w.data := by rw [held, hn, Option.map_some]
    obtain ⟨files, hjot, hstands⟩ := h.stands.jot (Nat.lt_trans hlt hfew) bs
    rw [hheld] at hstands
    simp only [Desk.serve, hn, hjot]
    refine ⟨(if_pos hpending).symm, h.turn (n := n) rfl (fun m hm => if_neg ?_) ?_ ?_ ?_ ?_⟩
    · rintro rfl
      exact hpending.2.1 hm
    · rw [held_set hlt, Option.map_some, Writer.data_add]
      exact hstands
    · simp [isOpening]
    · rw [List.getElem?_set_self hlt]
      exact hself.gives bs
    · intro m hm
      exact ⟨⟨rfl, if_neg hm.symm, nofun, nofun⟩, List.getElem?_set_ne hm.symm⟩

theorem serve_drop (hfew : d.writers.length < count) (n : Nat) :
    let served := d.serve path temp (.drop n)
    Answers t (.drop n) served.1 ∧
      served.2.Follows path temp count K (t ++ [(.drop n, served.1)]) := by
  cases hn : d.writers[n]?.join with
  | none =>
    refine h.serve_notOpen hn ?_ ⟨rfl, fun _ => ⟨rfl, rfl, nofun, nofun⟩⟩ fun _ heq => heq
    simp only [Desk.serve, hn]
  | some w =>
    have hopen := Option.join_eq_some_iff.mp hn
    have hself := h.writers n
    rw [hopen] at hself
    have hlt : n < d.writers.length := (List.getElem?_eq_some_iff.mp hopen).1
    simp only [Desk.serve, hn]
    refine ⟨(if_pos (h.pending_of_open hopen)).symm, ?_⟩
    refine h.turn (n := n) rfl (fun _ _ => rfl) ?_ ?_ ?_ ?_
    · rw [held_set hlt]
      exact h.stands.discard (Nat.lt_trans hlt hfew)
    · simp [isOpening]
    · rw [List.getElem?_set_self hlt]
      exact hself.ends (Or.inr rfl)
    · intro m hm
      refine ⟨⟨rfl, rfl, nofun, fun heq => hm (Option.some.inj heq).symm⟩, ?_⟩
      exact List.getElem?_set_ne hm.symm

/-- A commit makes visible what its writer was given. -/
theorem serve_commit (hfew : d.writers.length < count) (n : Nat) :
    let served := d.serve path temp (.commit n)
    Answers t (.commit n) served.1 ∧
      served.2.Follows path temp count K (t ++ [(.commit n, served.1)]) := by
  cases hn : d.writers[n]?.join with
  | none =>
    refine h.serve_notOpen hn ?_ ⟨rfl, fun _ => ⟨rfl, rfl, nofun, nofun⟩⟩ fun _ heq => heq
    simp only [Desk.serve, hn]
  | some w =>
    have hopen := Option.join_eq_some_iff.mp hn
    have hself := h.writers n
    rw [hopen] at hself
    have hlt : n < d.writers.length := (List.getElem?_eq_some_iff.mp hopen).1
    have hheld : held d.writers n = some w.data := by rw [held, hn, Option.map_some]
    obtain ⟨hkey, hK, hgiven⟩ : keyOf? t n = some w.key ∧ K w.key ∧ given t n = w.data := by
      cases hself with
      | pending _ hkey hK hgiven => exact ⟨hkey, hK, hgiven⟩
    obtain ⟨s', files', hcommit, hstands, htakes⟩ :=
      h.stands.commit (Nat.lt_trans hlt hfew) (h.takes _ hK) hheld
    have hvisible := visible_commit h.known hkey
    rw [hgiven] at hvisible
    simp only [Desk.serve, hn, hcommit]
    refine ⟨(if_pos (h.pending_of_open hopen)).symm, ?_, ?_,
      fun key hkey => htakes key (h.takes key hkey), ?_, fun m => ?_⟩
    · rw [hvisible, held_set hlt]
      exact hstands
    · intro key hsome
      rw [hvisible, Function.update_apply] at hsome
      by_cases hself : key = w.key
      · exact hself ▸ hK
      · rw [if_neg hself] at hsome
        exact h.within key hsome
    · rw [List.length_set, openings_snoc]
      exact h.length
    · by_cases hm : m = n
      · subst hm
        rw [List.getElem?_set_self hlt]
        exact hself.ends (Or.inl rfl)
      · rw [List.getElem?_set_ne (Ne.symm hm)]
        exact (h.writers m).apart ⟨rfl, rfl, fun heq => hm (Option.some.inj heq).symm, nofun⟩

/-- A question is answered from what is visible. -/
theorem serve_read {key : String} (hkey : K key) :
    let served := d.serve path temp (.read key)
    Answers t (.read key) served.1 ∧
      served.2.Follows path temp count K (t ++ [(.read key, served.1)]) := by
  have hread := read_of_shows h.stands.shows (h.takes key hkey)
  have hidle : ∀ reply, Idle (.read key, reply) := fun _ =>
    ⟨rfl, fun _ => ⟨rfl, rfl, nofun, nofun⟩⟩
  cases hvisible : visible t key with
  | none =>
    rw [hvisible] at hread
    simp only [Desk.serve, hread, Answers, hvisible]
    exact ⟨trivial, h.idle (hidle _)⟩
  | some bs =>
    rw [hvisible] at hread
    have hall : (ByteSource.ofBytes bs).readAll = .ok bs := ByteSource.readAll_of_sound rfl
    simp only [Desk.serve, hread, hall, Answers, hvisible]
    exact ⟨trivial, h.idle (hidle _)⟩

theorem serve_contains {key : String} (hkey : K key) :
    let served := d.serve path temp (.contains key)
    Answers t (.contains key) served.1 ∧
      served.2.Follows path temp count K (t ++ [(.contains key, served.1)]) := by
  have hcontains := contains_of_shows h.stands.shows (h.takes key hkey)
  simp only [Desk.serve, hcontains]
  exact ⟨rfl, h.idle ⟨rfl, fun _ => ⟨rfl, rfl, nofun, nofun⟩⟩⟩

theorem listed : Listed (visible t) (d.store.keys d.files) :=
  listed_keys h.stands.shows fun key hsome => h.takes key (h.within key hsome)

/-- A store that is opened anew is as it was. -/
theorem reopen_eq : d.reopen path = (.done, d) := by
  have hanchored := h.stands.anchored
  obtain ⟨store, files, writers⟩ := d
  cases store with
  | memory table => rfl
  | folder root room =>
    obtain ⟨rfl, hopen⟩ := hanchored
    simp only [Desk.reopen, openFolder, hopen files fun _ hq => hq]

/-- The desk answers each request as its transcript says, and goes on following it. -/
theorem serve (hfew : d.writers.length < count) {r : Request} (hr : ∀ key ∈ r.named, K key) :
    let served := d.serve path temp r
    Answers t r served.1 ∧ served.2.Follows path temp count K (t ++ [(r, served.1)]) := by
  cases r with
  | openWriter key contentType => exact h.serve_openWriter hfew (hr key List.mem_cons_self)
  | give n bs => exact h.serve_give hfew n bs
  | commit n => exact h.serve_commit hfew n
  | drop n => exact h.serve_drop hfew n
  | read key => exact h.serve_read (hr key List.mem_cons_self)
  | contains key => exact h.serve_contains (hr key List.mem_cons_self)
  | keys => exact ⟨⟨_, h.listed, rfl⟩, h.idle ⟨rfl, fun _ => ⟨rfl, rfl, nofun, nofun⟩⟩⟩
  | ids scheme => exact ⟨⟨_, h.listed, rfl⟩, h.idle ⟨rfl, fun _ => ⟨rfl, rfl, nofun, nofun⟩⟩⟩
  | reopen =>
    simp only [Desk.serve, h.reopen_eq]
    exact ⟨rfl, h.idle ⟨rfl, fun _ => ⟨rfl, rfl, nofun, nofun⟩⟩⟩

/-- No request opens more than one writer. -/
theorem few {requests : List Request} {r : Request} {reply : Reply} {d' : Desk}
    (h' : d'.Follows path temp count K (t ++ [(r, reply)]))
    (hfew : d.writers.length + (r :: requests).length ≤ count) :
    d'.writers.length + requests.length ≤ count := by
  have hopenings := openings_snoc (t := t) (x := (r, reply))
  have hone := Bool.toNat_le (isOpening (r, reply))
  rw [List.length_cons, h.length] at hfew
  rw [h'.length]
  omega

end Follows

/-! ### Many requests -/

/-- All requests are answered as the transcript until then says. -/
theorem attend (h : d.Follows path temp count K t) {requests : List Request}
    (hfew : d.writers.length + requests.length ≤ count)
    (hall : ∀ r ∈ requests, ∀ key ∈ r.named, K key) {before after : Transcript} {r : Request}
    {reply : Reply} (heq : d.attend path temp requests = before ++ (r, reply) :: after) :
    Answers (t ++ before) r reply := by
  induction requests generalizing d t before with
  | nil => simp [Desk.attend] at heq
  | cons first rest ih =>
    obtain ⟨hfirst, hrest⟩ := List.forall_mem_cons.mp hall
    obtain ⟨hanswers, hfollows⟩ := h.serve (Nat.lt_of_lt_of_le (by simp) hfew) hfirst
    rw [Desk.attend] at heq
    cases before with
    | nil =>
      obtain ⟨hhead, -⟩ := List.cons.inj heq
      cases hhead
      rw [List.append_nil]
      exact hanswers
    | cons head before =>
      obtain ⟨rfl, htail⟩ := List.cons.inj heq
      have hlater := ih hfollows (h.few hfollows hfew) hrest htail
      rwa [List.append_assoc] at hlater

/-- Two desks that follow one transcript answer all requests alike. -/
theorem attend_alike {d' : Desk} (h : d.Follows path temp count K t)
    (h' : d'.Follows path temp count K t) {requests : List Request}
    (hfew : d.writers.length + requests.length ≤ count)
    (hall : ∀ r ∈ requests, ∀ key ∈ r.named, K key) :
    d.attend path temp requests = d'.attend path temp requests := by
  induction requests generalizing d d' t with
  | nil => rfl
  | cons first rest ih =>
    obtain ⟨hfirst, hrest⟩ := List.forall_mem_cons.mp hall
    have hlt : d.writers.length < count := Nat.lt_of_lt_of_le (by simp) hfew
    obtain ⟨hanswers, hfollows⟩ := h.serve hlt hfirst
    obtain ⟨hanswers', hfollows'⟩ := h'.serve (by rwa [h'.length, ← h.length]) hfirst
    have hsame := hanswers.unique hanswers'
    rw [← hsame] at hfollows'
    rw [Desk.attend, Desk.attend, hsame,
      ih hfollows hfollows' (h.few hfollows hfew) hrest]

end Desk.Follows

/-! ## New stores -/

variable {temp : Nat → String} {count : Nat}

theorem Desk.follows_inMemory (path : String) (K : String → Prop) (files : FileTree) :
    (Desk.mk inMemory files []).Follows path temp count K [] :=
  ⟨⟨fun _ => rfl, trivial, trivial⟩, nofun, fun _ _ => trivial, rfl,
    fun _ => .unopened rfl rfl List.not_mem_nil List.not_mem_nil⟩

/-- A folder that was opened, and has nothing in it but hidden names. -/
theorem Desk.follows_folder {files files' : FileTree} {path : String} {root : Path} {room : Nat}
    (hopen : openFolder files path = (.ok (.folder root room), files'))
    (hempty : ∀ name e, (root ++ [name], e) ∈ files'.entries → name.startsWith "." = true)
    (hnames : Backed temp count root room files' fun _ => none) :
    (Desk.mk (.folder root room) files' []).Follows path temp count (Fit room) [] := by
  refine ⟨⟨fun name e hname => ?_, ?_, hnames⟩, nofun, fun _ hfit => hfit, rfl,
    fun _ => .unopened rfl rfl List.not_mem_nil List.not_mem_nil⟩
  · refine ⟨fun hmem => ?_, fun ⟨bs, hnone, _⟩ => by cases hnone⟩
    rw [hempty name e hmem] at hname
    cases hname
  · unfold openFolder at hopen
    split at hopen
    · rename_i hmade
      cases hopen
      exact ⟨rfl, fun u hu => FileTree.makeFolder_again hmade hu⟩
    · cases hopen

/-- A new store in memory and one in a new folder reply alike to all requests with keys that can
name files of the folder, whatever hidden names the files of the writers have there, as long as
they are free and no two are the same. What the stores reply is what the transcript until then
says: a read gives the bytes of the writer of the key that was committed last. And a writer that
was not committed until then does not change what is visible. -/
theorem stores_answer_alike {files files' : FileTree} {path : String} {root : Path} {room : Nat}
    (hopen : openFolder files path = (.ok (.folder root room), files'))
    (hempty : ∀ name e, (root ++ [name], e) ∈ files'.entries → name.startsWith "." = true)
    {requests : List Request} (hfit : ∀ r ∈ requests, ∀ key ∈ r.named, Fit room key)
    (hnames : Backed temp requests.length root room files' fun _ => none) :
    (Desk.mk (.folder root room) files' []).attend path temp requests =
        (Desk.mk inMemory .empty []).attend path temp requests ∧
      ∀ before r reply after,
        (Desk.mk inMemory .empty []).attend path temp requests = before ++ (r, reply) :: after →
          Answers before r reply ∧
            ∀ n, n ∉ commits before → visible (without before n) = visible before := by
  have hfolder := Desk.follows_folder hopen hempty hnames
  have hmemory : (Desk.mk inMemory .empty []).Follows path temp requests.length (Fit room) [] :=
    Desk.follows_inMemory path (Fit room) .empty
  have hfew : 0 + requests.length ≤ requests.length := Nat.le_of_eq (Nat.zero_add _)
  refine ⟨hfolder.attend_alike hmemory hfew hfit, fun before r reply after heq => ⟨?_, ?_⟩⟩
  · exact hmemory.attend hfew hfit heq
  · intro n hn
    exact visible_without hn

/-- Two writers of one key that overlap, a third that is dropped, and the questions that tell what
is visible. -/
def overlapping : List Request :=
  [.openWriter "e:f" "x", .openWriter "e:f" "x", .give 0 [1], .give 1 [2], .contains "e:f",
    .commit 1, .read "e:f", .give 0 [3], .commit 0, .give 0 [4], .read "e:f",
    .openWriter "g:f" "x", .give 2 [5], .drop 2, .reopen, .keys, .ids (.delimited ":"), .read "g:f"]

/-- Hidden names: a dot, and the number. -/
def numbered (n : Nat) : String := "." ++ n.repr

/-- The writer that was opened first and committed last is the one that is read. -/
theorem overlapping_are_answered_alike :
    openFolder .empty "d" = (.ok (.folder ["d"] 255), ⟨[(["d"], .folder)]⟩) ∧
      Backed numbered overlapping.length ["d"] 255 ⟨[(["d"], .folder)]⟩ (fun _ => none) ∧
      ((Desk.mk (.folder ["d"] 255) ⟨[(["d"], .folder)]⟩ []).attend "d" numbered
          overlapping).map Prod.snd =
        [.writer 0, .writer 1, .done, .done, .whether false, .done, .bytes [2], .done, .done,
          .notOpen, .bytes [1, 3], .writer 2, .done, .done, .done, .texts ["e:f"], .texts ["e"],
          .failed (.notFound "g:f")] := by
  have hopen : openFolder .empty "d" = (.ok (.folder ["d"] 255), ⟨[(["d"], .folder)]⟩) := by
    rw [openFolder, FileTree.makeFolder_d]
    rfl
  have hkeys : ∀ key, key = "e:f" ∨ key = "g:f" → Fit 255 key := by
    rintro key (rfl | rfl)
    · exact ⟨by decide +kernel, by decide +kernel⟩
    · exact ⟨by decide +kernel, by decide +kernel⟩
  have hnamed : ∀ r ∈ overlapping, ∀ key ∈ r.named, key = "e:f" ∨ key = "g:f" := by
    decide +kernel
  have hfit : ∀ r ∈ overlapping, ∀ key ∈ r.named, Fit 255 key :=
    fun r hr key hkey => hkeys key (hnamed r hr key hkey)
  have hnames : Backed numbered overlapping.length ["d"] 255 ⟨[(["d"], .folder)]⟩
      fun _ => none :=
    ⟨by decide +kernel, by decide +kernel, by decide +kernel, by decide +kernel⟩
  obtain ⟨hsame, -⟩ := stores_answer_alike hopen (by simp) hfit hnames
  refine ⟨hopen, hnames, ?_⟩
  rw [hsame]
  decide +kernel

end FeatureGraph.Store
