-- Which events a reader misses. It is given the events that its scan found,
-- and of those that are sent the ones greater than all before them. To store
-- an event and to send it are two steps, so an event may be sent after a
-- greater one: then it is in the log, and the reader passes over it.
import FeatureGraph.Proofs.EventLog.Traffic

namespace FeatureGraph

variable {appenders : Nat} {log : EventLog} {files : FileTree} {c c' : Channel} {r : Reading}
  {t t' : Traffic} {deeds : List Deed} {e : Event}

/-! ## What a reader is given in all -/

namespace Reading

open Event

/-- The reader was told that there is no event now. -/
def Idle (c : Channel) (r : Reading) : Prop := (r.now.poll c).1 = .pending

/-- What the reader was given and what is to come are what was to come when it began. -/
structure Sound (c : Channel) (r : Reading) : Prop where
  begins : c.Attends r.begun.live
  goesOn : c.Attends r.now.live
  cursor : r.now.cursor = lastId r.begun.cursor r.given
  whole : r.given ++ r.now.toCome c = r.begun.toCome c

theorem sound_begin {s : Subscription} (h : c.Attends s.live) (after : Option String) :
    (Reading.mk after s s []).Sound c := ⟨h, h, rfl, rfl⟩

theorem Sound.sent (h : r.Sound c) (hsent : c'.sent = c.sent ++ [e]) : r.Sound c' := by
  refine ⟨(h.begins.sent hsent).1, (h.goesOn.sent hsent).1, h.cursor, ?_⟩
  rw [Subscription.toCome_sent h.goesOn hsent, Subscription.toCome_sent h.begins hsent,
    ← h.whole, lastId_append, h.cursor, List.append_assoc]

/-- A poll gives the first of what is to come. -/
theorem Sound.poll (hopen : c.Open) (h : r.Sound c) (hkept : c.lags r.now.live = false) :
    (r.poll c).Sound c ∧ c.lags (r.poll c).now.live = false ∧
      (r.poll c).begun = r.begun ∧ (r.poll c).after = r.after ∧
      (r.poll c).now.toCome c = (r.now.toCome c).tail ∧
      (r.Idle c ↔ r.now.toCome c = []) := by
  obtain ⟨hattends, hkept', hcases⟩ := Subscription.poll_cases hopen h.goesOn hkept
  unfold Reading.poll Idle
  rcases hpoll : r.now.poll c with ⟨answer, now⟩
  rw [hpoll] at hattends hkept' hcases
  rcases hcases with ⟨hnone, hanswer, hnone', hcursor⟩ | ⟨e, hcome, hanswer, hcursor⟩
  · obtain rfl : answer = .pending := hanswer
    refine ⟨⟨h.begins, hattends, hcursor.trans h.cursor, ?_⟩, hkept', rfl, rfl, ?_, ?_⟩
    · rw [← h.whole, hnone]
      exact congrArg (r.given ++ ·) hnone'
    · rw [hnone]
      exact hnone'
    · exact ⟨fun _ => hnone, fun _ => rfl⟩
  · obtain rfl : answer = .event e := hanswer
    refine ⟨⟨h.begins, hattends, ?_, ?_⟩, hkept', rfl, rfl, ?_, ?_⟩
    · exact hcursor.trans (lastId_append r.begun.cursor r.given [e]).symm
    · rw [← h.whole, hcome]
      exact List.append_assoc ..
    · rw [hcome]
      rfl
    · rw [hcome]
      exact ⟨fun hidle => (nomatch hidle), fun hnil => (nomatch hnil)⟩

/-- A reader that has nothing more to come was given all that was to come when it began. -/
theorem Sound.given_of_idle (hopen : c.Open) (h : r.Sound c) (hkept : c.lags r.now.live = false)
    (hidle : r.Idle c) : r.given = r.begun.toCome c := by
  obtain ⟨-, -, -, -, -, hnone⟩ := h.poll hopen hkept
  rw [← h.whole, hnone.mp hidle, List.append_nil]

/-- The event was not found by the scan, and whenever it was sent, one at least as great had come
before it. -/
def Overtaken (c : Channel) (r : Reading) (e : Event) : Prop :=
  e ∉ r.begun.backlog ∧ ∀ front back, c.unread r.begun.live = front ++ e :: back →
    ∃ x ∈ r.begun.backlog ++ front, e.id ≤ x.id

/-- Every event in the log that the reader asked for was found, was sent, or is to be sent. -/
structure Complete (log : EventLog) (underway : List Event) (r : Reading) : Prop where
  place : r.begun.cursor = r.after.getD ""
  sorted : r.begun.backlog.Pairwise (·.id < ·.id)
  above : ∀ e ∈ r.begun.backlog, r.begun.cursor ≤ e.id
  named : ∀ e ∈ log.channel.unread r.begun.live, "" < e.id
  arrived : ∀ e ∈ log.since r.after, e ∈ r.begun.backlog ∨
    e ∈ log.channel.unread r.begun.live ∨ e ∈ underway

theorem Complete.of_begun {r' : Reading} {underway : List Event} (h : r.Complete log underway)
    (hbegun : r'.begun = r.begun) (hafter : r'.after = r.after) : r'.Complete log underway := by
  obtain ⟨after, begun, now, given⟩ := r'
  cases hbegun
  cases hafter
  exact ⟨h.place, h.sorted, h.above, h.named, h.arrived⟩

/-- When all is sent, every event that the reader asked for was found or was sent. -/
theorem Complete.found_or_sent (h : r.Complete log []) (he : e ∈ log.since r.after) :
    e ∈ r.begun.backlog ∨ e ∈ log.channel.unread r.begun.live :=
  (h.arrived e he).imp id fun hlater => hlater.resolve_right List.not_mem_nil

/-- An event that the reader asked for comes after the place where it began. -/
theorem Complete.cursor_lt {underway : List Event} (h : r.Complete log underway)
    (he : e ∈ log.since r.after) (hid : "" < e.id) : r.begun.cursor < e.id := by
  rw [h.place]
  cases hafter : r.after with
  | none => exact hid
  | some id => exact (EventLog.mem_since.mp he).2 id hafter

end Reading

theorem EventLog.le_of_mem_since {after : Option String} (h : e ∈ log.since after) :
    after.getD "" ≤ e.id := by
  cases after with
  | none => exact Event.empty_le e.id
  | some id => exact Std.le_of_lt ((mem_since.mp h).2 id rfl)

/-! ## What each step keeps -/

namespace Traffic

/-- Events that are sent have an id, a listener waits for events of the channel, and a reader
will have been given all that was to come. -/
structure Sound (t : Traffic) : Prop where
  named : ∀ e ∈ t.underway, "" < e.id
  listening : ∀ live, t.reader = .listening live →
    t.log.channel.Attends live ∧ ∀ e ∈ t.log.channel.unread live, "" < e.id
  reading : ∀ r, t.reader = .reading r →
    r.Sound t.log.channel ∧ r.Complete t.log t.underway

theorem sound_start (log : EventLog) (files : FileTree) : (start log files).Sound where
  named := fun _ he => (nomatch he)
  listening := fun _ h => (nomatch h)
  reading := fun _ h => (nomatch h)

theorem Sound.step (hopen : t.log.channel.Open) (h : t.Sound) (hmoves : t.Moves appenders t') :
    t'.Sound := by
  obtain ⟨hnamed, hlistening, hreading⟩ := h
  cases hmoves with
  | @stores stamp x files suffix hroom hlater hid =>
    have hx : "" < x.id := hid ▸ Event.empty_lt_mintId stamp suffix
    refine ⟨?_, hlistening, fun r hr => ?_⟩
    · rw [List.forall_mem_append, List.forall_mem_singleton]
      exact ⟨hnamed, hx⟩
    · obtain ⟨hsound, hcomplete⟩ := hreading r hr
      refine ⟨hsound, { hcomplete with arrived := fun e he => ?_ }⟩
      obtain ⟨hheld, hafter⟩ := EventLog.mem_since.mp he
      rcases EventLog.holds_taking.mp hheld with rfl | ⟨-, hheld⟩
      · exact Or.inr (Or.inr (by simp))
      · refine (hcomplete.arrived e (EventLog.mem_since.mpr ⟨hheld, hafter⟩)).imp id ?_
        exact Or.imp id (List.mem_append_left _)
  | fails =>
    refine ⟨hnamed, hlistening, fun r hr => ?_⟩
    obtain ⟨hsound, hcomplete⟩ := hreading r hr
    exact ⟨hsound, ⟨hcomplete.place, hcomplete.sorted, hcomplete.above, hcomplete.named,
      hcomplete.arrived⟩⟩
  | @sends k x c hnext hopen' hsent =>
    have hx : "" < x.id := hnamed x (List.mem_of_getElem? hnext)
    refine ⟨fun e he => hnamed e (List.mem_of_mem_eraseIdx he), fun live hr => ?_, fun r hr => ?_⟩
    · obtain ⟨hattends, hall⟩ := hlistening live hr
      exact ⟨(hattends.sent hsent).1, hattends.all_sent hsent hall hx⟩
    · obtain ⟨hsound, hcomplete⟩ := hreading r hr
      refine ⟨hsound.sent hsent, { hcomplete with
        named := hsound.begins.all_sent hsent hcomplete.named hx
        arrived := fun e he => (hcomplete.arrived e he).imp id fun hlater => ?_ }⟩
      -- the event that is sent goes from those underway to those that were sent
      rw [(hsound.begins.sent hsent).2, List.mem_append, List.mem_singleton]
      rcases hlater with hsent | hunder
      · exact Or.inl (Or.inl hsent)
      · obtain ⟨i, hi⟩ := List.mem_iff_getElem?.mp hunder
        by_cases heq : i = k
        · subst heq
          exact Or.inl (Or.inr (Option.some.inj (hi.symm.trans hnext)))
        · exact Or.inr (List.mem_eraseIdx_iff_getElem?.mpr ⟨i, heq, hi⟩)
  | listens haway =>
    refine ⟨hnamed, ?_, fun r hr => (nomatch hr)⟩
    rintro live ⟨⟩
    obtain ⟨hattends, hnone⟩ := hopen.attends_listen
    exact ⟨hattends, by simp [hnone]⟩
  | @scans live after hl =>
    obtain ⟨hattends, hall⟩ := hlistening live hl
    refine ⟨hnamed, fun live hr => (nomatch hr), ?_⟩
    rintro r ⟨⟩
    refine ⟨Reading.sound_begin hattends after, rfl, t.log.sorted_since after, ?_, hall, ?_⟩
    · exact fun e he => EventLog.le_of_mem_since he
    · exact fun e he => Or.inl he
  | @polls r hr hkept =>
    refine ⟨hnamed, fun live hr => (nomatch hr), ?_⟩
    rintro r' ⟨⟩
    obtain ⟨hsound, hcomplete⟩ := hreading r hr
    obtain ⟨hsound', -, hbegun, hafter, -⟩ := hsound.poll hopen hkept
    exact ⟨hsound', hcomplete.of_begun hbegun hafter⟩

theorem run_start (hopen : log.channel.Open)
    (hrun : (start log files).run appenders deeds = some t) : t.log.channel.Open ∧ t.Sound :=
  run_keeps_of_moves (fun _ _ => fun hopen h hmoves => h.step hopen hmoves) hopen
    (sound_start log files) hrun

/-- While nobody else does anything, each poll gives one more of the events that are to come. -/
theorem run_polls (hopen : t.log.channel.Open) (hr : t.reader = .reading r)
    (hsound : r.Sound t.log.channel) (hkept : t.log.channel.lags r.now.live = false) (m : Nat) :
    ∃ r' : Reading, t.run appenders (List.replicate m .poll) =
        some { t with reader := .reading r' } ∧
      r'.Sound t.log.channel ∧ t.log.channel.lags r'.now.live = false ∧
      r'.begun = r.begun ∧ r'.after = r.after ∧
      r'.now.toCome t.log.channel = (r.now.toCome t.log.channel).drop m := by
  induction m generalizing t r with
  | zero =>
    obtain ⟨log, files, underway, reader⟩ := t
    obtain rfl : reader = .reading r := hr
    exact ⟨r, rfl, hsound, hkept, rfl, rfl, rfl⟩
  | succ m ih =>
    obtain ⟨hsound', hkept', hbegun, hafter, hcome, -⟩ := hsound.poll hopen hkept
    obtain ⟨r', hrun, hsound'', hkept'', hbegun', hafter', hcome'⟩ :=
      ih (t := { t with reader := .reading (r.poll t.log.channel) }) hopen rfl hsound' hkept'
    refine ⟨r', ?_, hsound'', hkept'', hbegun'.trans hbegun, hafter'.trans hafter, ?_⟩
    · rw [List.replicate_succ, run, step?, hr]
      simp only [hkept, Bool.false_eq_true, if_false]
      exact hrun
    · rw [hcome', hcome, List.drop_tail]

/-- With enough polls the reader is told that there is nothing more, and was given all that was to
come. -/
theorem idle_of_polls (hopen : t.log.channel.Open) (hr : t.reader = .reading r)
    (hsound : r.Sound t.log.channel) (hkept : t.log.channel.lags r.now.live = false) :
    ∃ k, ∀ m, k ≤ m → ∃ r' : Reading, t.run appenders (List.replicate m .poll) =
      some { t with reader := .reading r' } ∧ r'.Idle t.log.channel ∧
        r'.given = r.begun.toCome t.log.channel := by
  refine ⟨(r.now.toCome t.log.channel).length, fun m hm => ?_⟩
  obtain ⟨r', hrun, hsound', hkept', hbegun, -, hcome⟩ := run_polls hopen hr hsound hkept m
  obtain ⟨-, -, -, -, -, hnone⟩ := hsound'.poll hopen hkept'
  have hidle : r'.Idle t.log.channel := by
    rw [hnone, hcome, List.drop_eq_nil_of_le hm]
  exact ⟨r', hrun, hidle, hbegun ▸ hsound'.given_of_idle hopen hkept' hidle⟩

/-! ## What a reader misses -/

/-- However the appenders and the reader take turns, once every event that is stored is sent, the
reader comes to be told that there is nothing more, and it was then given every event it asked
for, except those that were overtaken. -/
theorem given_unless_overtaken (hopen : log.channel.Open)
    (hrun : (start log files).run appenders deeds = some t) (hreader : t.reader = .reading r)
    (hsent : t.underway = []) (hkept : t.log.channel.lags r.now.live = false) :
    (∃ k, ∀ m, k ≤ m → ∃ r' : Reading, t.run appenders (List.replicate m .poll) =
      some { t with reader := .reading r' } ∧ r'.Idle t.log.channel) ∧
    (r.Idle t.log.channel → ∀ e ∈ t.log.since r.after,
      (e ∈ r.begun.backlog ∨ e ∈ t.log.channel.unread r.begun.live) ∧
      (e ∈ r.given ↔ ¬ r.Overtaken t.log.channel e)) := by
  obtain ⟨hopen', hall⟩ := run_start hopen hrun
  obtain ⟨hsound, hcomplete⟩ := hall.reading r hreader
  refine ⟨?_, fun hidle e he => ?_⟩
  · obtain ⟨k, hpolls⟩ := idle_of_polls hopen' hreader hsound hkept
    refine ⟨k, fun m hm => ?_⟩
    obtain ⟨r', hrun', hidle, -⟩ := hpolls m hm
    exact ⟨r', hrun', hidle⟩
  rw [hsent] at hcomplete
  have harrived := hcomplete.found_or_sent he
  refine ⟨harrived, ?_⟩
  rw [hsound.given_of_idle hopen' hkept hidle, Subscription.mem_toCome hcomplete.sorted hcomplete.above]
  constructor
  · rintro (hfound | ⟨front, back, hunread, -, hrises⟩) hover
    · exact hover.1 hfound
    · obtain ⟨x, hx, hle⟩ := hover.2 front back hunread
      exact String.not_lt.mpr hle (hrises x hx)
  · intro hnot
    by_cases hfound : e ∈ r.begun.backlog
    · exact Or.inl hfound
    · have hid : "" < e.id := hcomplete.named e (harrived.resolve_left hfound)
      simp only [Reading.Overtaken, hfound, not_false_eq_true, true_and, not_forall] at hnot
      obtain ⟨front, back, hunread, hnone⟩ := hnot
      refine Or.inr ⟨front, back, hunread, hcomplete.cursor_lt he hid, fun x hx => ?_⟩
      exact Std.not_le.mp fun hle => hnone ⟨x, hx, hle⟩

/-! ## Two appenders -/

/-- A new log to which two appenders add, while one reads it from the beginning. -/
def fresh : Traffic := start (.inMemory (.broadcast 4 [] true)) .empty

/-- Two events are stored, and the second is sent first. -/
def lateSend : List Deed :=
  [.listen, .scan none, .store .null 0 0, .store .null 0 0, .send 1, .send 0, .poll, .poll]

/-- The event with this stamp. -/
def stamped (stamp : Nat) : Event := ⟨Event.mintId stamp 0, .null⟩

/-- The two events as the log holds them, and as they were sent. -/
def lateLog : EventLog :=
  ((EventLog.inMemory (.broadcast 4 [stamped 2, stamped 1] true)).taking 1 (stamped 1)).taking 2
    (stamped 2)

/-- What the reader was given when the second came first. -/
def lateReading : Reading :=
  ⟨none, ⟨[], "", .following 0⟩, ⟨[], (stamped 2).id, .following 2⟩, [stamped 2]⟩

theorem run_lateSend :
    fresh.run 2 lateSend = some ⟨lateLog, .empty, [], .reading lateReading⟩ := by
  with_unfolding_all rfl

/-- In that run the reader is given just the event that was not overtaken. -/
theorem late_is_overtaken : lateReading.Idle lateLog.channel ∧ ∀ e ∈ lateLog.since none,
    (e ∈ lateReading.begun.backlog ∨ e ∈ lateLog.channel.unread lateReading.begun.live) ∧
    (e ∈ lateReading.given ↔ ¬ lateReading.Overtaken lateLog.channel e) := by
  have hidle : lateReading.Idle lateLog.channel := by with_unfolding_all rfl
  exact ⟨hidle, (given_unless_overtaken ⟨4, [], rfl⟩ run_lateSend rfl rfl rfl).2 hidle⟩

/-- All is sent and the reader waits for more, but it was never given the first event. -/
theorem late_is_never_given : ∃ t r e, fresh.run 2 lateSend = some t ∧ t.reader = .reading r ∧
    t.underway = [] ∧ r.Idle t.log.channel ∧ e ∈ t.log.since r.after ∧ e ∉ r.given := by
  refine ⟨_, lateReading, stamped 1, run_lateSend, rfl, rfl, ?_, ?_, ?_⟩
  · with_unfolding_all rfl
  · have hsince : lateLog.since none = [stamped 1, stamped 2] := by with_unfolding_all rfl
    exact hsince ▸ List.mem_cons_self
  · intro hmem
    have hid : (stamped 1).id = (stamped 2).id := congrArg Event.id (List.mem_singleton.mp hmem)
    have hlt : (stamped 1).id < (stamped 2).id := Event.mintId_lt (by decide) (by decide) 0 0
    exact String.lt_irrefl _ (hid ▸ hlt)

end Traffic

end FeatureGraph
