-- Appenders and a reader at work on one log. To append is to store and then
-- to send, and to subscribe is to listen and then to scan the log; between
-- the two, everyone else may go on. However their steps fall together, what
-- the reader was given and what is still to come are what was to come when it
-- began. So it misses an event only if a greater one overtook it.
import FeatureGraph.Proofs.EventLog.Following
import FeatureGraph.Proofs.EventLog.Ids

namespace FeatureGraph

/-! ## Steps -/

/-- What a reader of the log was given, and the subscription that it began with. -/
structure Reading where
  /-- The id after which it reads. -/
  after : Option String
  begun : Subscription
  now : Subscription
  given : List Event

/-- One who subscribes: it listens to the channel, and then scans the log. -/
inductive Reader where
  | away
  | listening (live : Listener)
  | reading (r : Reading)

/-- A log while events are appended and read. -/
structure Traffic where
  log : EventLog
  files : FileTree
  /-- The events that are stored and yet to be sent, each by another appender. -/
  underway : List Event
  reader : Reader

/-- One step of an appender or of the reader. -/
inductive Deed where
  /-- An appender stores an event, at this time and with these random digits. -/
  | store (data : Json) (now : Int) (suffix : Nat)
  /-- The appender of the event at this place among those underway sends it. -/
  | send (k : Nat)
  | listen
  | scan (after : Option String)
  | poll

/-- The subscription of one who already listens and now scans the log. -/
def EventLog.scan (log : EventLog) (live : Listener) (after : Option String) : Subscription :=
  ⟨log.since after, after.getD "", live⟩

theorem EventLog.subscribe_eq (log : EventLog) (after : Option String) :
    log.subscribe after = log.scan log.channel.listen after := rfl

/-- The reader asks for an event. -/
def Reading.poll (c : Channel) (r : Reading) : Reading :=
  match r.now.poll c with
  | (.event e, now) => { r with now := now, given := r.given ++ [e] }
  | (_, now) => { r with now := now }

namespace Traffic

/-- One step with so many appenders, if it can be taken: an appender stores nothing while it has
an event to send, and the reader does not let the channel run away from it. -/
def step? (appenders : Nat) (t : Traffic) : Deed → Option Traffic
  | .store data now suffix =>
    if t.underway.length < appenders then
      match t.log.store t.files data now suffix with
      | (.ok e, log, files) => some { t with log := log, files := files, underway := t.underway ++ [e] }
      | (.error _, log, files) => some { t with log := log, files := files }
    else none
  | .send k =>
    match t.underway[k]? with
    | none => none
    | some e =>
      match t.log.publish e with
      | .ok log => some { t with log := log, underway := t.underway.eraseIdx k }
      | .error _ => some { t with underway := t.underway.eraseIdx k }
  | .listen =>
    match t.reader with
    | .away => some { t with reader := .listening t.log.channel.listen }
    | _ => none
  | .scan after =>
    match t.reader with
    | .listening live =>
      some { t with reader := .reading ⟨after, t.log.scan live after, t.log.scan live after, []⟩ }
    | _ => none
  | .poll =>
    match t.reader with
    | .reading r =>
      if t.log.channel.lags r.now.live then none
      else some { t with reader := .reading (r.poll t.log.channel) }
    | _ => none

/-- A run of steps, if each can be taken. -/
def run (appenders : Nat) (t : Traffic) : List Deed → Option Traffic
  | [] => some t
  | deed :: rest =>
    match t.step? appenders deed with
    | none => none
    | some t => t.run appenders rest

/-- A log to which nobody has come yet. -/
def start (log : EventLog) (files : FileTree) : Traffic := ⟨log, files, [], .away⟩

variable {appenders : Nat} {t t' : Traffic} {deeds : List Deed} {I : Traffic → Prop}

/-- What every step keeps, every run keeps. -/
theorem run_keeps (step : ∀ t t' deed, I t → t.step? appenders deed = some t' → I t')
    (h : I t) (hrun : t.run appenders deeds = some t') : I t' := by
  induction deeds generalizing t with
  | nil =>
    cases hrun
    exact h
  | cons deed rest ih =>
    rw [run] at hrun
    split at hrun
    · cases hrun
    · rename_i t₁ hstep
      exact ih (step t t₁ deed h hstep) hrun

/-- An append is a store and a send, with nothing in between. -/
theorem run_append {log : EventLog} {files : FileTree} {data : Json} {now : Int} {suffix : Nat}
    {id : String} (h : t.log.append t.files data now suffix = (.ok id, log, files))
    (hroom : t.underway.length < appenders) :
    t.run appenders [.store data now suffix, .send t.underway.length] =
      some { t with log := log, files := files } := by
  unfold EventLog.append at h
  simp only [run, step?, if_pos hroom]
  rcases hstore : t.log.store t.files data now suffix with ⟨e | event, log₁, files₁⟩
  · rw [hstore] at h
    cases h
  · rw [hstore] at h
    simp only at h ⊢
    rcases hpublish : log₁.publish event with e | log₂
    · rw [hpublish] at h
      cases h
    · rw [hpublish] at h
      cases h
      simp [hpublish, List.eraseIdx_append_of_length_le]

/-! ## What a step can do -/

/-- What a step of an appender or of the reader does while the channel is open. -/
inductive Moves (appenders : Nat) (t : Traffic) : Traffic → Prop where
  | stores {stamp : Nat} {e : Event} {files : FileTree} (suffix : Nat)
      (hroom : t.underway.length < appenders) (hlater : t.log.lastStamp < stamp)
      (hid : e.id = Event.mintId stamp suffix) :
      Moves appenders t
        ⟨t.log.taking stamp e, files, t.underway ++ [e], t.reader⟩
  | fails {stamp : Nat} {files : FileTree} (hlater : t.log.lastStamp < stamp) :
      Moves appenders t ⟨{ t.log with lastStamp := stamp }, files, t.underway, t.reader⟩
  | sends {k : Nat} {e : Event} {c : Channel} (hnext : t.underway[k]? = some e)
      (hopen : c.Open) (hsent : c.sent = t.log.channel.sent ++ [e]) :
      Moves appenders t
        ⟨{ t.log with channel := c }, t.files, t.underway.eraseIdx k, t.reader⟩
  | listens (haway : t.reader = .away) :
      Moves appenders t { t with reader := .listening t.log.channel.listen }
  | scans {live : Listener} (after : Option String) (hlistening : t.reader = .listening live) :
      Moves appenders t
        { t with reader := .reading ⟨after, t.log.scan live after, t.log.scan live after, []⟩ }
  | polls {r : Reading} (hreading : t.reader = .reading r)
      (hkept : t.log.channel.lags r.now.live = false) :
      Moves appenders t { t with reader := .reading (r.poll t.log.channel) }

theorem moves_of_step {deed : Deed} (hopen : t.log.channel.Open)
    (h : t.step? appenders deed = some t') : t.Moves appenders t' := by
  unfold step? at h
  cases deed with
  | store data now suffix =>
    dsimp only at h
    split at h
    · rename_i hroom
      split at h
      · rename_i e log files hstore
        obtain ⟨stamp, hlater, rfl, rfl, -⟩ := EventLog.store_ok hstore
        cases h
        exact .stores suffix hroom hlater rfl
      · rename_i e log files hstore
        obtain ⟨stamp, hlater, rfl⟩ := EventLog.store_error hstore
        cases h
        exact .fails hlater
    · cases h
  | send k =>
    dsimp only at h
    split at h
    · cases h
    · rename_i e hnext
      obtain ⟨c, hpublish, hopen', hsent⟩ := hopen.publish e
      rw [EventLog.publish, hpublish] at h
      cases h
      exact .sends hnext hopen' hsent
  | listen =>
    dsimp only at h
    split at h
    · rename_i haway
      cases h
      exact .listens haway
    · cases h
  | scan after =>
    dsimp only at h
    split at h
    · rename_i live hlistening
      cases h
      exact .scans after hlistening
    · cases h
  | poll =>
    dsimp only at h
    split at h
    · rename_i r hreading
      split at h
      · cases h
      · rename_i hkept
        cases h
        exact .polls hreading (Bool.eq_false_iff.mpr hkept)
    · cases h

/-- No step closes the channel or turns back the time. -/
theorem Moves.frame (hopen : t.log.channel.Open) (h : t.Moves appenders t') :
    t'.log.channel.Open ∧ t.log.lastStamp ≤ t'.log.lastStamp := by
  cases h with
  | stores _ _ hlater => exact ⟨hopen, Nat.le_of_lt hlater⟩
  | fails hlater => exact ⟨hopen, Nat.le_of_lt hlater⟩
  | sends _ hopen' => exact ⟨hopen', Nat.le_refl _⟩
  | listens | scans | polls => exact ⟨hopen, Nat.le_refl _⟩

/-- What every move keeps while the channel is open, every run keeps. -/
theorem run_keeps_of_moves (step : ∀ t t', t.log.channel.Open → I t → t.Moves appenders t' → I t')
    (hopen : t.log.channel.Open) (h : I t) (hrun : t.run appenders deeds = some t') :
    t'.log.channel.Open ∧ I t' := by
  refine run_keeps (I := fun t => t.log.channel.Open ∧ I t) ?_ ⟨hopen, h⟩ hrun
  intro t t' deed h hstep
  have hmoves := moves_of_step h.1 hstep
  exact ⟨(hmoves.frame h.1).1, step t t' h.1 h.2 hmoves⟩

/-- The same of what moves keep as long as the stamps have 64 bits. -/
theorem run_keeps_within
    (step : ∀ t t', t.log.channel.Open → I t → t.Moves appenders t' →
      t'.log.lastStamp < 2 ^ 64 → I t')
    (hopen : t.log.channel.Open) (h : I t) (hrun : t.run appenders deeds = some t')
    (hfits : t'.log.lastStamp < 2 ^ 64) : I t' := by
  refine (run_keeps_of_moves (I := fun t => t.log.lastStamp < 2 ^ 64 → I t) ?_ hopen
    (fun _ => h) hrun).2 hfits
  intro t t' hopen h hmoves hfits
  have hle : t.log.lastStamp ≤ t'.log.lastStamp := (hmoves.frame hopen).2
  exact step t t' hopen (h (Nat.lt_of_le_of_lt hle hfits)) hmoves hfits

end Traffic

end FeatureGraph
