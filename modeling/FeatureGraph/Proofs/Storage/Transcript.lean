-- What is asked of a store, and what a transcript of requests and replies
-- says. Writers are opened, given bytes, and committed or dropped. Under each
-- key the bytes of the writer are visible that was committed last; a writer
-- that was not committed leaves no mark.
import FeatureGraph.Proofs.Storage.View

namespace FeatureGraph.Store

/-! ## Requests and replies -/

/-- What may be asked of a store and its writers. A writer is known by its number. -/
inductive Request where
  | openWriter (key contentType : String)
  | give (writer : Nat) (bs : Bytes)
  | commit (writer : Nat)
  | drop (writer : Nat)
  | read (key : String)
  | contains (key : String)
  | keys
  | ids (scheme : KeyScheme)
  /-- Opens the store anew. Writers that are open stay so. -/
  | reopen

/-- The keys that a request names. -/
def Request.named : Request → List String
  | .openWriter key _ | .read key | .contains key => [key]
  | _ => []

inductive Reply where
  /-- The number of a new writer. -/
  | writer (number : Nat)
  | done
  | bytes (bs : Bytes)
  | whether (answer : Bool)
  | texts (all : List String)
  /-- The writer is not open: never opened, committed or dropped. -/
  | notOpen
  | failed (e : StorageError)
deriving DecidableEq, Repr

/-! ## What a transcript says -/

/-- Requests with their replies, in order. -/
abbrev Transcript := List (Request × Reply)

namespace Transcript

def opened? (n : Nat) : Request × Reply → Option String
  | (.openWriter key _, .writer m) => if m = n then some key else none
  | _ => none

def givenTo (n : Nat) : Request × Reply → Bytes
  | (.give m bs, .done) => if m = n then bs else []
  | _ => []

def committed? : Request × Reply → Option Nat
  | (.commit n, .done) => some n
  | _ => none

def dropped? : Request × Reply → Option Nat
  | (.drop n, .done) => some n
  | _ => none

def isOpening : Request × Reply → Bool
  | (.openWriter _ _, .writer _) => true
  | _ => false

variable (t : Transcript)

/-- How many writers were opened. -/
def openings : Nat := t.countP isOpening

/-- The key that a writer was opened for. -/
def keyOf? (n : Nat) : Option String := t.findSome? (opened? n)

/-- All the bytes that a writer was given. -/
def given (n : Nat) : Bytes := t.flatMap (givenTo n)

/-- The writers that were committed, in order. -/
def commits : List Nat := t.filterMap committed?

def drops : List Nat := t.filterMap dropped?

/-- A writer was opened, and neither committed nor dropped. -/
def Pending (n : Nat) : Prop := (keyOf? t n).isSome = true ∧ n ∉ commits t ∧ n ∉ drops t

instance (n : Nat) : Decidable (Pending t n) :=
  inferInstanceAs (Decidable (_ = true ∧ n ∉ commits t ∧ n ∉ drops t))

/-- The writer of a key that was committed last. -/
def lastOf? (key : String) : Option Nat :=
  ((commits t).filter fun n => keyOf? t n = some key).getLast?

/-- What is visible under a key: the bytes of the writer that was committed last. -/
def visible (key : String) : Option Bytes := (lastOf? t key).map (given t)

/-- How a request is to be answered after a transcript. -/
def Answers : Request → Reply → Prop
  | .openWriter _ _, reply => reply = .writer (openings t)
  | .give n _, reply | .commit n, reply | .drop n, reply =>
    reply = if Pending t n then .done else .notOpen
  | .read key, reply => reply =
    match visible t key with
    | some bs => .bytes bs
    | none => .failed (.notFound key)
  | .contains key, reply => reply = .whether (visible t key).isSome
  | .keys, reply => ∃ l, Listed (visible t) l ∧ reply = .texts l
  | .ids scheme, reply => ∃ l, Listed (visible t) l ∧
    reply = .texts (distinct [] (l.filterMap fun key =>
      match scheme.decompose key with
      | .ok (id, _) => some id
      | .error _ => none))
  | .reopen, reply => reply = .done

variable {t : Transcript} {x : Request × Reply} {r : Request} {reply reply' : Reply} {n : Nat}
  {key : String}

/-- There is one way to answer. -/
theorem Answers.unique (h : Answers t r reply) (h' : Answers t r reply') : reply = reply' := by
  cases r with
  | keys | ids scheme =>
    obtain ⟨l, hl, rfl⟩ := h
    obtain ⟨l', hl', rfl⟩ := h'
    rw [hl.unique hl']
  | openWriter | give | commit | drop | read | contains | reopen => exact h.trans h'.symm

/-! ### One exchange more -/

theorem openings_snoc : openings (t ++ [x]) = openings t + (isOpening x).toNat := by
  cases h : isOpening x <;> simp [openings, List.countP_append, h]

theorem keyOf?_snoc : keyOf? (t ++ [x]) n = (keyOf? t n).or (opened? n x) := by
  simp [keyOf?, List.findSome?_append]

theorem given_snoc : given (t ++ [x]) n = given t n ++ givenTo n x := by
  simp [given]

theorem commits_snoc : commits (t ++ [x]) = commits t ++ (committed? x).toList := by
  cases h : committed? x <;> simp [commits, List.filterMap_append, h]

theorem drops_snoc : drops (t ++ [x]) = drops t ++ (dropped? x).toList := by
  cases h : dropped? x <;> simp [drops, List.filterMap_append, h]

/-- An exchange that does not concern a writer. -/
structure Apart (n : Nat) (x : Request × Reply) : Prop where
  key : opened? n x = none
  gives : givenTo n x = []
  commits : committed? x ≠ some n
  drops : dropped? x ≠ some n

/-- An exchange that concerns no writer. -/
structure Idle (x : Request × Reply) : Prop where
  opens : isOpening x = false
  apart : ∀ n, Apart n x

theorem Idle.commits (h : Idle x) : committed? x = none := by
  by_contra hnot
  obtain ⟨n, hn⟩ := Option.ne_none_iff_exists'.mp hnot
  exact (h.apart n).commits hn

theorem keyOf?_of_known (h : (keyOf? t n).isSome = true) : keyOf? (t ++ [x]) n = keyOf? t n := by
  obtain ⟨key, hkey⟩ := Option.isSome_iff_exists.mp h
  rw [keyOf?_snoc, hkey, Option.some_or]

/-- What is visible is settled by which writer was last committed, and by what it was given. -/
theorem visible_congr {t' : Transcript} (hlast : ∀ key, lastOf? t' key = lastOf? t key)
    (hgiven : ∀ n ∈ commits t, given t' n = given t n) : visible t' = visible t := by
  funext key
  rw [visible, hlast, visible]
  cases h : lastOf? t key with
  | none => rfl
  | some n =>
    have hmem : n ∈ commits t := (List.mem_filter.mp (List.mem_of_getLast? h)).1
    rw [Option.map_some, Option.map_some, hgiven n hmem]

section Visible

variable (hknown : ∀ n ∈ commits t, (keyOf? t n).isSome = true)

include hknown

theorem filter_commits_snoc : (commits t).filter (fun n => keyOf? (t ++ [x]) n = some key) =
    (commits t).filter fun n => keyOf? t n = some key :=
  List.filter_congr fun n hn => by rw [keyOf?_of_known (hknown n hn)]

/-- Only a commit changes what is visible. -/
theorem visible_snoc (hx : committed? x = none) (hgiven : ∀ n ∈ commits t, givenTo n x = []) :
    visible (t ++ [x]) = visible t := by
  refine visible_congr (fun key => ?_) fun n hn => ?_
  · rw [lastOf?, commits_snoc, hx, Option.toList_none, List.append_nil,
      filter_commits_snoc hknown, lastOf?]
  · rw [given_snoc, hgiven n hn, List.append_nil]

/-- What a writer was given is visible once it is committed. -/
theorem visible_commit (hkey : keyOf? t n = some key) :
    visible (t ++ [(.commit n, .done)]) = Function.update (visible t) key (some (given t n)) := by
  have hsame : keyOf? (t ++ [(.commit n, .done)]) n = some key := by
    rw [keyOf?_of_known (by rw [hkey]; rfl), hkey]
  have hgiven : given (t ++ [(.commit n, .done)]) = given t := by
    funext m
    rw [given_snoc]
    exact List.append_nil _
  funext other
  rw [Function.update_apply, visible, lastOf?, commits_snoc, List.filter_append,
    filter_commits_snoc hknown]
  by_cases hother : other = key
  · subst hother
    simp [committed?, hsame, hgiven]
  · have hnot : keyOf? (t ++ [(.commit n, .done)]) n ≠ some other := by
      rw [hsame]
      exact fun heq => hother (Option.some.inj heq).symm
    rw [if_neg hother, visible, lastOf?]
    simp [committed?, hnot, hgiven]

end Visible

/-! ### Writers that were not committed -/

/-- Whether an exchange concerns a writer. -/
def isAbout (n : Nat) : Request × Reply → Bool
  | (.openWriter _ _, .writer m) => m = n
  | (.give m _, _) | (.commit m, _) | (.drop m, _) => m = n
  | _ => false

/-- The transcript as if there had not been the writer. -/
def without (t : Transcript) (n : Nat) : Transcript := t.filter fun x => !isAbout n x

theorem filterMap_without {α : Type} {f : Request × Reply → Option α}
    (hf : ∀ x ∈ t, isAbout n x = true → f x = none) :
    (without t n).filterMap f = t.filterMap f := by
  rw [without, List.filterMap_filter]
  refine List.filterMap_congr fun x hx => ?_
  cases habout : isAbout n x with
  | true => simp [hf x hx habout]
  | false => simp

theorem keyOf?_without {m : Nat} (hm : m ≠ n) : keyOf? (without t n) m = keyOf? t m := by
  rw [keyOf?, ← List.head?_filterMap, filterMap_without, List.head?_filterMap, keyOf?]
  intro x _ hx
  unfold isAbout at hx
  unfold opened?
  split
  · exact if_neg fun heq => hm (heq.symm.trans (of_decide_eq_true hx))
  · rfl

theorem given_without {m : Nat} (hm : m ≠ n) : given (without t n) m = given t m := by
  have hnothing : ∀ x, isAbout n x = true → givenTo m x = [] := by
    intro x hx
    unfold isAbout at hx
    unfold givenTo
    split
    · exact if_neg fun heq => hm (heq.symm.trans (of_decide_eq_true hx))
    · rfl
  unfold given without
  induction t with
  | nil => rfl
  | cons x rest ih =>
    cases habout : isAbout n x with
    | true => simp [habout, hnothing x habout, ih]
    | false => simp [habout, ih]

theorem commits_without (hn : n ∉ commits t) : commits (without t n) = commits t := by
  refine filterMap_without fun x hx habout => ?_
  by_contra hnot
  obtain ⟨m, hm⟩ := Option.ne_none_iff_exists'.mp hnot
  have hmem : m ∈ commits t := List.mem_filterMap.mpr ⟨x, hx, hm⟩
  unfold committed? at hm
  split at hm
  · cases hm
    exact hn (of_decide_eq_true habout ▸ hmem)
  · cases hm

/-- A writer that was not committed is seen nowhere: all that is visible is as if it had not been
there. -/
theorem visible_without (hn : n ∉ commits t) : visible (without t n) = visible t := by
  have hne : ∀ m ∈ commits t, m ≠ n := by
    rintro m hm rfl
    exact hn hm
  refine visible_congr (fun key => ?_) fun m hm => given_without (hne m hm)
  rw [lastOf?, commits_without hn, lastOf?]
  refine congrArg List.getLast? (List.filter_congr fun m hm => ?_)
  rw [keyOf?_without (hne m hm)]

/-- What is known of a writer, and where it stands. -/
inductive Matches (K : String → Prop) (t : Transcript) (n : Nat) : Option (Option Writer) → Prop
  | unopened : keyOf? t n = none → given t n = [] → n ∉ commits t → n ∉ drops t →
      Matches K t n none
  | pending (w : Writer) : keyOf? t n = some w.key → K w.key → given t n = w.data →
      n ∉ commits t → n ∉ drops t → Matches K t n (some (some w))
  | ended : (keyOf? t n).isSome = true → n ∈ commits t ∨ n ∈ drops t → Matches K t n (some none)

namespace Matches

variable {K : String → Prop} {o : Option (Option Writer)} {w : Writer}

theorem pending_iff (h : Matches K t n o) : Pending t n ↔ o.join.isSome = true := by
  cases h with
  | unopened hkey => simp [Pending, hkey]
  | pending w hkey _ _ hcommits hdrops => simp [Pending, hkey, hcommits, hdrops]
  | ended hkey hends =>
    simp only [Pending, Option.join_some, Option.isSome_none, Bool.false_eq_true, iff_false]
    rintro ⟨-, hcommits, hdrops⟩
    exact hends.elim hcommits hdrops

theorem known (h : Matches K t n o) (hn : n ∈ commits t) : (keyOf? t n).isSome = true := by
  cases h with
  | unopened _ _ hcommits => exact absurd hn hcommits
  | pending _ _ _ _ hcommits => exact absurd hn hcommits
  | ended hkey => exact hkey

theorem apart (h : Matches K t n o) (hx : Apart n x) : Matches K (t ++ [x]) n o := by
  have hkey : keyOf? (t ++ [x]) n = keyOf? t n := by
    rw [keyOf?_snoc, hx.key, Option.or_none]
  have hgiven : given (t ++ [x]) n = given t n := by
    rw [given_snoc, hx.gives, List.append_nil]
  have hcommits : n ∈ commits (t ++ [x]) ↔ n ∈ commits t := by
    simp [commits_snoc, hx.commits]
  have hdrops : n ∈ drops (t ++ [x]) ↔ n ∈ drops t := by
    simp [drops_snoc, hx.drops]
  cases h with
  | unopened hnone hnothing hnotCommitted hnotDropped =>
    exact .unopened (hkey.trans hnone) (hgiven.trans hnothing) (hcommits.not.mpr hnotCommitted)
      (hdrops.not.mpr hnotDropped)
  | pending w hsome hK hdata hnotCommitted hnotDropped =>
    exact .pending w (hkey.trans hsome) hK (hgiven.trans hdata) (hcommits.not.mpr hnotCommitted)
      (hdrops.not.mpr hnotDropped)
  | ended hsome hends =>
    exact .ended (by rw [hkey]; exact hsome) (hends.imp hcommits.mpr hdrops.mpr)

theorem opened (h : Matches K t n none) {key contentType : String} (hK : K key) :
    Matches K (t ++ [(.openWriter key contentType, .writer n)]) n
      (some (some ⟨key, contentType, []⟩)) := by
  cases h with
  | unopened hkey hgiven hcommits hdrops =>
    refine .pending _ ?_ hK ?_ ?_ ?_
    · rw [keyOf?_snoc, hkey, Option.none_or]
      exact if_pos rfl
    · rw [given_snoc, hgiven]
      rfl
    · simpa [commits_snoc, committed?] using hcommits
    · simpa [drops_snoc, dropped?] using hdrops

theorem gives (h : Matches K t n (some (some w))) (bs : Bytes) :
    Matches K (t ++ [(.give n bs, .done)]) n (some (some (w.add bs))) := by
  cases h with
  | pending w hkey hK hgiven hcommits hdrops =>
    refine .pending _ ?_ hK ?_ ?_ ?_
    · rw [keyOf?_snoc, hkey, Option.some_or]
      rfl
    · rw [given_snoc, hgiven, Writer.data_add, givenTo, if_pos rfl]
    · simpa [commits_snoc, committed?] using hcommits
    · simpa [drops_snoc, dropped?] using hdrops

/-- A writer that is committed or dropped is open no longer. -/
theorem ends (h : Matches K t n (some (some w)))
    (hx : committed? x = some n ∨ dropped? x = some n) : Matches K (t ++ [x]) n (some none) := by
  cases h with
  | pending w hkey =>
    have hsome : (keyOf? t n).isSome = true := by
      rw [hkey]
      rfl
    refine .ended ?_ (hx.imp (fun hx => ?_) fun hx => ?_)
    · rw [keyOf?_of_known hsome]
      exact hsome
    · simp [commits_snoc, hx]
    · simp [drops_snoc, hx]

end Matches

end Transcript

end FeatureGraph.Store
