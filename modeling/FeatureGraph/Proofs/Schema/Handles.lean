-- A handle over time. It is asked for features, and in between others change the
-- workspace as they like. Its calls write nothing. What one of them has
-- answered stays, and one that fails is as if it had not been.
import FeatureGraph.Proofs.Schema.Availability
import FeatureGraph.Proofs.Schema.Recollecting

namespace FeatureGraph

/-- All that is stored is as it was, and so are the event log and its file. -/
structure Workspace.Unwritten (w w' : Workspace) : Prop extends Workspace.Untouched w w' where
  logFile : ∀ place, w.logFile? = some place → w'.files.lookup place = w.files.lookup place

theorem Schema.lasting_unwritten : Schema.Lasting Workspace.Unwritten where
  holds {w w'} h := by
    refine ⟨⟨⟨?_, h.held⟩, h.log⟩, fun place _ => by rw [h.files]⟩
    rw [Workspace.layout, Workspace.layout, Workspace.logFile?, Workspace.logFile?, h.store, h.log]
  trans {a b c} h h' := by
    refine ⟨h.toUntouched.trans h'.toUntouched, fun place hplace => ?_⟩
    have hfile : b.logFile? = a.logFile? := congrArg Prod.snd h.layout
    rw [h'.logFile place (hfile.trans hplace), h.logFile place hplace]

namespace Entity

open Schema

/-- A handle, and the workspace as it is. -/
structure Situation where
  handle : Entity
  world : Workspace

/-- The handle is asked for a feature, or others make another workspace of the present one. -/
inductive Turn where
  | ask (key : String)
  | change (w : Workspace)

namespace Situation

/-- What a turn makes of a situation. -/
def step (s : Schema) (now : Situation) : Turn → Situation
  | .ask key => let (_, e, w) := now.handle.get s key now.world; ⟨e, w⟩
  | .change w => { now with world := w }

def after (s : Schema) (now : Situation) (turns : List Turn) : Situation :=
  turns.foldl (step s) now

/-- What the handle would answer now. -/
def answer (s : Schema) (now : Situation) (key : String) : Except Failure Payload :=
  (now.handle.get s key now.world).1

variable {s : Schema} {now : Situation} {turn : Turn} {turns : List Turn} {key : String}
  {value : Payload}

theorem after_cons (s : Schema) (now : Situation) (turn : Turn) (turns : List Turn) :
    now.after s (turn :: turns) = (now.step s turn).after s turns := rfl

theorem after_append (s : Schema) (now : Situation) (turns more : List Turn) :
    now.after s (turns ++ more) = (now.after s turns).after s more := List.foldl_append

/-! ## One turn -/

/-- All that a call does. A handle answers what it knows. Else it reads, and what it has read it
knows from then on. -/
theorem ask_cases (s : Schema) (now : Situation) (key : String) :
    (∃ value, now.handle.known.get? key = some value ∧ now.answer s key = .ok value ∧
      now.step s (.ask key) = now) ∨
    now.handle.known.get? key = none ∧
      ((∃ value w, s.read now.world now.handle.id key = (.ok value, w) ∧
        now.answer s key = .ok value ∧ now.step s (.ask key) =
          ⟨{ now.handle with known := now.handle.known.insert key value }, w⟩) ∨
      ∃ failure w, s.read now.world now.handle.id key = (.error failure, w) ∧
        now.answer s key = .error failure ∧ now.step s (.ask key) = ⟨now.handle, w⟩) := by
  unfold answer step get
  dsimp only
  cases now.handle.known.get? key with
  | some value => exact Or.inl ⟨value, rfl, rfl, rfl⟩
  | none =>
    refine Or.inr ⟨rfl, ?_⟩
    dsimp only
    rcases s.read now.world now.handle.id key with ⟨failure | value, w⟩
    · exact Or.inr ⟨failure, w, rfl, rfl, rfl⟩
    · exact Or.inl ⟨value, w, rfl, rfl, rfl⟩

theorem answer_eq (s : Schema) (now : Situation) (key : String) :
    now.answer s key = match now.handle.known.get? key with
      | some value => .ok value
      | none => (s.read now.world now.handle.id key).1 := by
  rcases ask_cases s now key with ⟨value, hknown, hanswer, -⟩ |
    ⟨hnone, ⟨value, w, hread, hanswer, -⟩ | ⟨failure, w, hread, hanswer, -⟩⟩
  · rw [hanswer, hknown]
  · rw [hanswer, hnone, hread]
  · rw [hanswer, hnone, hread]

/-- What a call has answered the handle knows; of all else it knows what it knew. -/
theorem known_ask (s : Schema) (now : Situation) (asked key : String) :
    (now.step s (.ask asked)).handle.known.get? key =
      if key = asked then (now.answer s asked).toOption else now.handle.known.get? key := by
  rcases ask_cases s now asked with ⟨value, hknown, hanswer, hstep⟩ |
    ⟨hnone, ⟨value, w, -, hanswer, hstep⟩ | ⟨failure, w, -, hanswer, hstep⟩⟩
  all_goals rw [hanswer, hstep]
  · split
    · rename_i hkey
      rw [hkey, hknown]
      rfl
    · rfl
  · exact Dictionary.get?_insert ..
  · split
    · rename_i hkey
      rw [hkey, hnone]
      rfl
    · rfl

theorem step_id (s : Schema) (now : Situation) (turn : Turn) :
    (now.step s turn).handle.id = now.handle.id := by
  cases turn with
  | change w => rfl
  | ask key =>
    rcases ask_cases s now key with ⟨value, -, -, hstep⟩ |
      ⟨-, ⟨value, w, -, -, hstep⟩ | ⟨failure, w, -, -, hstep⟩⟩
    all_goals rw [hstep]

/-- What is known is not looked up. -/
theorem world_ask (s : Schema) (now : Situation) (key : String) :
    (now.step s (.ask key)).world = now.world ∨
      (now.step s (.ask key)).world = (s.read now.world now.handle.id key).2 := by
  rcases ask_cases s now key with ⟨-, -, -, hstep⟩ |
    ⟨-, ⟨value, w, hread, -, hstep⟩ | ⟨failure, w, hread, -, hstep⟩⟩
  · rw [hstep]
    exact Or.inl rfl
  · rw [hstep, hread]
    exact Or.inr rfl
  · rw [hstep, hread]
    exact Or.inr rfl

/-- A call that fails leaves the handle as it was. -/
theorem handle_of_failure {failure : Failure} (h : now.answer s key = .error failure) :
    (now.step s (.ask key)).handle = now.handle := by
  rcases ask_cases s now key with ⟨value, -, hanswer, -⟩ |
    ⟨-, ⟨value, w, -, hanswer, -⟩ | ⟨failure', w, -, -, hstep⟩⟩
  · rw [hanswer] at h
    cases h
  · rw [hanswer] at h
    cases h
  · rw [hstep]

/-! ## What a handle knows -/

theorem answer_of_known (h : now.handle.known.get? key = some value) :
    now.answer s key = .ok value := by rw [answer_eq, h]

theorem known_of_answer (h : now.answer s key = .ok value) :
    (now.step s (.ask key)).handle.known.get? key = some value := by
  rw [known_ask, if_pos rfl, h]
  rfl

theorem new_of_failure {failure : Failure} (h : now.answer s key = .error failure) :
    now.handle.known.get? key = none := by
  cases hknown : now.handle.known.get? key with
  | none => rfl
  | some value =>
    rw [answer_of_known hknown] at h
    cases h

/-- A handle that does not know a feature answers like a fresh one. -/
theorem answer_of_new (h : now.handle.known.get? key = none) :
    now.answer s key = (Situation.mk (.new now.handle.id) now.world).answer s key := by
  rw [answer_eq, answer_eq, h]
  rfl

/-! ## Turn after turn -/

theorem after_id (s : Schema) (now : Situation) (turns : List Turn) :
    (now.after s turns).handle.id = now.handle.id := by
  induction turns generalizing now with
  | nil => rfl
  | cons turn rest ih => exact (ih _).trans (step_id s now turn)

/-- No turn makes a handle forget. -/
theorem step_known (turn : Turn) (h : now.handle.known.get? key = some value) :
    (now.step s turn).handle.known.get? key = some value := by
  cases turn with
  | change w => exact h
  | ask asked =>
    rw [known_ask]
    split
    · rename_i heq
      rw [← heq, answer_of_known h]
      rfl
    · exact h

theorem after_known (turns : List Turn) (h : now.handle.known.get? key = some value) :
    (now.after s turns).handle.known.get? key = some value := by
  induction turns generalizing now with
  | nil => exact h
  | cons turn rest ih => exact ih (step_known turn h)

/-- Nor does it learn a feature but from a call for it that answers. -/
theorem step_new (hnew : now.handle.known.get? key = none)
    (hfails : turn = .ask key → ∃ failure, now.answer s key = .error failure) :
    (now.step s turn).handle.known.get? key = none := by
  cases turn with
  | change w => exact hnew
  | ask asked =>
    rw [known_ask]
    split
    · rename_i heq
      obtain ⟨failure, hfailure⟩ := hfails (congrArg _ heq.symm)
      rw [← heq, hfailure]
      rfl
    · exact hnew

theorem after_new (hnew : now.handle.known.get? key = none)
    (hfails : ∀ before rest, turns = before ++ .ask key :: rest →
      ∃ failure, (now.after s before).answer s key = .error failure) :
    (now.after s turns).handle.known.get? key = none := by
  -- what failed after the first turn are the calls of the rest, seen from there
  induction turns generalizing now with
  | nil => exact hnew
  | cons turn rest ih =>
    refine ih (step_new hnew fun hask => hfails [] rest ?_) fun before more hmore => ?_
    · rw [hask]
      rfl
    · exact hfails (turn :: before) more (congrArg _ hmore)

end Situation

variable {s : Schema}

/-- Whatever others make of the workspace between the calls of a handle, no call changes what is
stored or the event log. What a call has answered, every later call for the same feature answers.
A call that fails leaves the handle as it was: as long as no call for the feature has answered, a
later one answers what a fresh handle would answer then. -/
theorem calls_write_nothing_and_last
    (hdetached : ∀ f ∈ s.features.values, f.component.Detached Workspace.Unwritten)
    (id : String) (w : Workspace) (turns : List Turn) :
    let now := (Situation.mk (new id) w).after s turns
    (∀ key, now.world.Unwritten (now.step s (.ask key)).world) ∧
    (∀ key value, now.answer s key = .ok value →
      ∀ more, ((now.step s (.ask key)).after s more).answer s key = .ok value) ∧
    ∀ key failure, now.answer s key = .error failure →
      (now.step s (.ask key)).handle = now.handle ∧
      ∀ more, (∀ before rest, more = before ++ .ask key :: rest →
          ∃ failure, ((now.step s (.ask key)).after s before).answer s key = .error failure) →
        ((now.step s (.ask key)).after s more).answer s key =
          (Situation.mk (new id) ((now.step s (.ask key)).after s more).world).answer s key := by
  intro now
  have hid : now.handle.id = id := Situation.after_id s _ turns
  refine ⟨fun key => ?_, fun key value hvalue more => ?_, fun key failure hfailure => ?_⟩
  · rcases now.world_ask s key with heq | heq
    · rw [heq]
      exact lasting_unwritten.refl _
    · rw [heq]
      exact read_keeps lasting_unwritten (fun f hf _ => hdetached f hf) now.world _ key
  · apply Situation.answer_of_known
    exact Situation.after_known more (Situation.known_of_answer hvalue)
  · have hsame := Situation.handle_of_failure hfailure
    refine ⟨hsame, fun more hfails => ?_⟩
    have hnew : (now.step s (.ask key)).handle.known.get? key = none :=
      hsame ▸ Situation.new_of_failure hfailure
    have hlater : ((now.step s (.ask key)).after s more).handle.id = id := by
      rw [Situation.after_id, hsame, hid]
    rw [Situation.answer_of_new (Situation.after_new hnew hfails), hlater]

/-! ## A feature that is stored later, and then no more -/

theorem echoing_detached {P : Workspace → Workspace → Prop} (hrefl : ∀ w, P w w) :
    ∀ f ∈ echoing.features.values, f.component.Detached P := by
  intro f hf
  rcases mem_echoing hf with rfl | rfl | rfl
  · exact Component.byteStream_detached hrefl 1
  · exact Component.stateless_detached hrefl _
  · exact Component.stateless_detached hrefl _

/-- A handle for an entity of which nothing is stored. -/
def unheard : Situation := ⟨new "e", blank⟩

/-- It is asked in vain; then others store what the feature is worked out of. -/
def untilStored : List Turn := [.ask "c", .change halfStored]

/-- First the call fails, and a later one answers what a fresh handle would answer. That stays,
also when nothing is stored any more. -/
theorem echo_outlasts_the_store :
    (∀ f ∈ echoing.features.values, f.component.Detached Workspace.Unwritten) ∧
      unheard.answer echoing "c" = .error (.unavailable "a" (.rootNotStored "a" "e")) ∧
      (unheard.after echoing untilStored).answer echoing "c" =
        (Situation.mk (new "e") halfStored).answer echoing "c" ∧
      (unheard.after echoing untilStored).answer echoing "c" = .ok (.bytes (Text.encode "x")) ∧
      (unheard.after echoing (untilStored ++ [.ask "c", .change blank])).answer echoing "c" =
        .ok (.bytes (Text.encode "x")) := by
  have hdetached := echoing_detached lasting_unwritten.refl
  have hfails : unheard.answer echoing "c" =
      .error (.unavailable "a" (.rootNotStored "a" "e")) := by with_unfolding_all rfl
  have hfailed := (calls_write_nothing_and_last hdetached "e" blank []).2.2 "c" _ hfails
  have hok : (unheard.after echoing untilStored).answer echoing "c" =
      .ok (.bytes (Text.encode "x")) := eq_of_bytesRead? (by decide +kernel)
  have hlast := (calls_write_nothing_and_last hdetached "e" blank untilStored).2.1 "c" _ hok
  refine ⟨hdetached, hfails, ?_, hok, ?_⟩
  · refine hfailed.2 [.change halfStored] fun before rest hmore => ?_
    have hmem : Turn.ask "c" ∈ [Turn.change halfStored] := hmore ▸ by simp
    cases List.mem_singleton.mp hmem
  · rw [Situation.after_append, Situation.after_cons]
    exact hlast [.change blank]

end Entity

end FeatureGraph
