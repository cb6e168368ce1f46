-- One appender. Its events are sent in the order in which they are stored, so
-- no event is sent after a greater one, and the reader passes over an event
-- only if its scan found a greater one. In a log whose ids grow it never did:
-- what the reader was given is where the log begins, and in the end all of it.
import FeatureGraph.Proofs.EventLog.Overtaking

namespace FeatureGraph

variable {log : EventLog} {files : FileTree} {c : Channel} {r : Reading} {t t' : Traffic}
  {deeds : List Deed} {e x : Event} {live : Listener}

/-! ## Logs whose ids grow -/

namespace EventLog

variable {stamp suffix : Nat}

theorem Growing.lt_of_holds (h : log.Growing) (hlater : log.lastStamp < stamp)
    (hfits : stamp < 2 ^ 64) (hx : log.Holds x) : x.id < Event.mintId stamp suffix :=
  h x.id x.data hx stamp suffix hlater hfits

/-- A log whose ids grow keeps what it holds, and its ids still grow. -/
theorem Growing.taking (h : log.Growing) (hlater : log.lastStamp < stamp)
    (hfits : stamp < 2 ^ 64) (hid : e.id = Event.mintId stamp suffix) :
    (log.taking stamp e).Growing ∧ ∀ x, log.Holds x → (log.taking stamp e).Holds x := by
  refine ⟨fun id data hget => ?_, fun x hx => ?_⟩
  · have hheld : (log.taking stamp e).Holds ⟨id, data⟩ := hget
    rcases holds_taking.mp hheld with heq | ⟨-, hheld⟩
    · obtain rfl : id = Event.mintId stamp suffix := (congrArg Event.id heq).trans hid
      exact passed_mintId (Nat.le_refl stamp) suffix
    · exact (h id data hheld).mono (Nat.le_of_lt hlater)
  · have hlt : x.id < e.id := hid ▸ h.lt_of_holds hlater hfits hx
    exact holds_taking.mpr (Or.inr ⟨fun heq => String.lt_irrefl _ (heq ▸ hlt), hx⟩)

end EventLog

/-- Where the reader began to listen. -/
def Reader.began? : Reader → Option Listener
  | .away => none
  | .listening live => some live
  | .reading r => some r.begun.live

theorem Reading.begun_poll (c : Channel) (r : Reading) :
    (r.poll c).begun = r.begun ∧ (r.poll c).after = r.after := by
  unfold Reading.poll
  split <;> exact ⟨rfl, rfl⟩

namespace Traffic

/-! ## The order of sending -/

/-- One event at most is underway, the log has passed it and all that were sent, and they were
sent in the order of their ids. -/
structure Orderly (t : Traffic) : Prop where
  alone : t.underway.length ≤ 1
  passed : ∀ e ∈ t.underway, t.log.Passed e.id
  ascending : ∀ live, t.reader.began? = some live → t.log.channel.Attends live ∧
    (t.log.channel.unread live ++ t.underway).Pairwise (·.id < ·.id) ∧
    ∀ e ∈ t.log.channel.unread live, t.log.Passed e.id

theorem orderly_start (log : EventLog) (files : FileTree) : (start log files).Orderly where
  alone := Nat.zero_le 1
  passed := fun _ he => (nomatch he)
  ascending := fun _ h => (nomatch h)

theorem Orderly.step (hopen : t.log.channel.Open) (h : t.Orderly) (hmoves : t.Moves 1 t')
    (hfits : t'.log.lastStamp < 2 ^ 64) : t'.Orderly := by
  obtain ⟨halone, hpassed, hascending⟩ := h
  cases hmoves with
  | @stores stamp e files suffix hroom hlater hid =>
    have hnone : t.underway = [] := List.eq_nil_of_length_eq_zero (by omega)
    have hle : t.log.lastStamp ≤ stamp := Nat.le_of_lt hlater
    rw [hnone]
    refine ⟨Nat.le_refl 1, ?_, fun live hl => ?_⟩
    · rintro x hx
      obtain rfl := List.mem_singleton.mp hx
      have hpassed : (t.log.taking stamp x).Passed (Event.mintId stamp suffix) :=
        EventLog.passed_mintId (Nat.le_refl stamp) suffix
      exact hid ▸ hpassed
    · obtain ⟨hattends, hsorted, hsent⟩ := hascending live hl
      rw [hnone, List.append_nil] at hsorted
      refine ⟨hattends, ?_, fun x hx => (hsent x hx).mono hle⟩
      rw [List.nil_append, List.pairwise_append]
      refine ⟨hsorted, List.pairwise_singleton _ e, fun x hx y hy => ?_⟩
      obtain rfl := List.mem_singleton.mp hy
      exact hid ▸ hsent x hx stamp suffix hlater hfits
  | @fails stamp files hlater =>
    have hle : t.log.lastStamp ≤ stamp := Nat.le_of_lt hlater
    refine ⟨halone, fun x hx => (hpassed x hx).mono hle, fun live hl => ?_⟩
    obtain ⟨hattends, hsorted, hsent⟩ := hascending live hl
    exact ⟨hattends, hsorted, fun x hx => (hsent x hx).mono hle⟩
  | @sends k e c hnext hopen' hsent =>
    obtain ⟨rfl, hunder⟩ : k = 0 ∧ t.underway = [e] := by
      obtain ⟨hk, hget⟩ := List.getElem?_eq_some_iff.mp hnext
      obtain ⟨y, hy⟩ := List.length_eq_one_iff.mp (by omega : t.underway.length = 1)
      obtain rfl : k = 0 := by omega
      simp only [hy, List.getElem_cons_zero] at hget
      exact ⟨rfl, hget ▸ hy⟩
    rw [hunder]
    refine ⟨Nat.zero_le 1, fun _ hx => (nomatch hx), fun live hl => ?_⟩
    obtain ⟨hattends, hsorted, hall⟩ := hascending live hl
    obtain ⟨hattends', hunread⟩ := hattends.sent hsent
    refine ⟨hattends', ?_, ?_⟩
    · rw [hunder] at hsorted
      simpa [hunread] using hsorted
    · exact hattends.all_sent hsent hall (hpassed e (hunder ▸ List.mem_cons_self))
  | listens haway =>
    refine ⟨halone, hpassed, ?_⟩
    rintro live ⟨⟩
    obtain ⟨hattends, hnone⟩ := hopen.attends_listen
    rw [hnone]
    refine ⟨hattends, ?_, fun _ hx => (nomatch hx)⟩
    -- one event is always in order
    rcases hunder : t.underway with _ | ⟨e, _ | ⟨e', rest⟩⟩
    · exact .nil
    · exact List.pairwise_singleton _ e
    · simp [hunder] at halone
  | scans after hl =>
    refine ⟨halone, hpassed, ?_⟩
    rintro live ⟨⟩
    exact hascending _ (by rw [hl]; rfl)
  | @polls r hr hkept =>
    refine ⟨halone, hpassed, ?_⟩
    rintro live ⟨⟩
    refine hascending _ ?_
    rw [hr, (Reading.begun_poll t.log.channel r).1]
    rfl

theorem orderly_of_run (hopen : log.channel.Open) (hrun : (start log files).run 1 deeds = some t)
    (hfits : t.log.lastStamp < 2 ^ 64) : t.Orderly :=
  run_keeps_within (fun _ _ hopen h hmoves hfits => h.step hopen hmoves hfits) hopen
    (orderly_start log files) hrun hfits

/-! ## The order of the log -/

/-- Every event that is sent stands in the log, whose ids grow, and what the reader's scan found
stands before all that it did not find. -/
structure Seamless (t : Traffic) : Prop where
  growing : t.log.Growing
  stored : ∀ e ∈ t.underway, t.log.Holds e
  sent : ∀ live, t.reader.began? = some live → t.log.channel.Attends live ∧
    ∀ e ∈ t.log.channel.unread live, t.log.Holds e
  found : ∀ r, t.reader = .reading r → (∀ e ∈ r.begun.backlog, e ∈ t.log.since r.after) ∧
    ∀ e ∈ t.log.since r.after, e ∈ r.begun.backlog ∨ ∀ x ∈ r.begun.backlog, x.id < e.id

theorem seamless_start (hgrowing : log.Growing) (files : FileTree) :
    (start log files).Seamless where
  growing := hgrowing
  stored := fun _ he => (nomatch he)
  sent := fun _ h => (nomatch h)
  found := fun _ h => (nomatch h)

theorem Seamless.step {appenders : Nat} (hopen : t.log.channel.Open) (h : t.Seamless)
    (hmoves : t.Moves appenders t') (hfits : t'.log.lastStamp < 2 ^ 64) : t'.Seamless := by
  obtain ⟨hgrowing, hstored, hsent, hfound⟩ := h
  cases hmoves with
  | @stores stamp e files suffix hroom hlater hid =>
    obtain ⟨hgrowing', hkeeps⟩ := hgrowing.taking hlater hfits hid
    refine ⟨hgrowing', ?_, fun live hl => ?_, fun r hr => ⟨fun x hx => ?_, fun x hx => ?_⟩⟩
    · rw [List.forall_mem_append, List.forall_mem_singleton]
      exact ⟨fun x hx => hkeeps x (hstored x hx), EventLog.holds_taking.mpr (Or.inl rfl)⟩
    · obtain ⟨hattends, hall⟩ := hsent live hl
      exact ⟨hattends, fun x hx => hkeeps x (hall x hx)⟩
    · obtain ⟨hheld, hafter⟩ := EventLog.mem_since.mp ((hfound r hr).1 x hx)
      exact EventLog.mem_since.mpr ⟨hkeeps x hheld, hafter⟩
    · obtain ⟨hheld, hafter⟩ := EventLog.mem_since.mp hx
      rcases EventLog.holds_taking.mp hheld with rfl | ⟨-, hheld⟩
      · refine Or.inr fun y hy => hid ▸ hgrowing.lt_of_holds hlater hfits ?_
        exact (EventLog.mem_since.mp ((hfound r hr).1 y hy)).1
      · exact (hfound r hr).2 x (EventLog.mem_since.mpr ⟨hheld, hafter⟩)
  | fails hlater =>
    exact ⟨fun id data hget => (hgrowing id data hget).mono (Nat.le_of_lt hlater), hstored, hsent,
      hfound⟩
  | @sends k e c hnext hopen' hsent' =>
    refine ⟨hgrowing, fun x hx => hstored x (List.mem_of_mem_eraseIdx hx), fun live hl => ?_, hfound⟩
    obtain ⟨hattends, hall⟩ := hsent live hl
    have he : t.log.Holds e := hstored e (List.mem_of_getElem? hnext)
    exact ⟨(hattends.sent hsent').1, hattends.all_sent hsent' hall he⟩
  | listens haway =>
    refine ⟨hgrowing, hstored, ?_, fun r hr => (nomatch hr)⟩
    rintro live ⟨⟩
    obtain ⟨hattends, hnone⟩ := hopen.attends_listen
    rw [hnone]
    exact ⟨hattends, fun _ hx => (nomatch hx)⟩
  | scans after hl =>
    refine ⟨hgrowing, hstored, ?_, ?_⟩
    · rintro live ⟨⟩
      exact hsent _ (by rw [hl]; rfl)
    · rintro r ⟨⟩
      exact ⟨fun e he => he, fun e he => Or.inl he⟩
  | @polls r hr hkept =>
    obtain ⟨hbegun, hafter⟩ := r.begun_poll t.log.channel
    refine ⟨hgrowing, hstored, ?_, ?_⟩
    · rintro live ⟨⟩
      refine hsent _ ?_
      rw [hr, hbegun]
      rfl
    · rintro r' ⟨⟩
      rw [hbegun, hafter]
      exact hfound r hr

theorem seamless_of_run {appenders : Nat} (hopen : log.channel.Open) (hgrowing : log.Growing)
    (hrun : (start log files).run appenders deeds = some t) (hfits : t.log.lastStamp < 2 ^ 64) :
    t.Seamless :=
  run_keeps_within (fun _ _ hopen h hmoves hfits => h.step hopen hmoves hfits) hopen
    (seamless_start hgrowing files) hrun hfits

/-! ## What a reader is given -/

/-- Of the events that were sent, those above all that the scan found are to be given. -/
theorem Orderly.mem_toCome (h : t.Orderly) (hreader : t.reader = .reading r)
    (hcomplete : r.Complete t.log t.underway) : e ∈ r.begun.toCome t.log.channel ↔
      e ∈ r.begun.backlog ∨ e ∈ t.log.channel.unread r.begun.live ∧ r.begun.cursor < e.id ∧
        ∀ x ∈ r.begun.backlog, x.id < e.id := by
  rw [Subscription.mem_toCome hcomplete.sorted hcomplete.above]
  refine or_congr Iff.rfl ⟨?_, ?_⟩
  · rintro ⟨front, back, hunread, hplace, hrises⟩
    exact ⟨by simp [hunread], hplace, fun x hx => hrises x (List.mem_append_left _ hx)⟩
  · rintro ⟨hmem, hplace, hfound⟩
    obtain ⟨front, back, hunread⟩ := List.append_of_mem hmem
    obtain ⟨-, hsorted, -⟩ := h.ascending r.begun.live (by rw [hreader]; rfl)
    rw [hunread, List.append_assoc, List.pairwise_append] at hsorted
    refine ⟨front, back, hunread, hplace, ?_⟩
    rw [List.forall_mem_append]
    exact ⟨hfound, fun x hx => hsorted.2.2 x hx e (by simp)⟩

/-- In a log whose ids grow, what is to be given is where the log begins. -/
theorem Seamless.toCome_prefix (h : t.Seamless) (horderly : t.Orderly) (hsound : t.Sound)
    (hreader : t.reader = .reading r) :
    r.begun.toCome t.log.channel <+: t.log.since r.after := by
  obtain ⟨-, hcomplete⟩ := hsound.reading r hreader
  have hbegan : t.reader.began? = some r.begun.live := by
    rw [hreader]
    rfl
  obtain ⟨-, hsorted, -⟩ := horderly.ascending r.begun.live hbegan
  have hmem (e : Event) := horderly.mem_toCome (e := e) hreader hcomplete
  refine prefix_of_lower String.lt_asymm
    (Subscription.sorted_toCome hcomplete.sorted hcomplete.above)
    (t.log.sorted_since r.after) (fun e he => ?_) (fun e he => ?_)
  · rcases (hmem e).mp he with hfound | ⟨hsent, hplace, -⟩
    · exact (h.found r hreader).1 e hfound
    · refine EventLog.mem_since.mpr ⟨(h.sent r.begun.live hbegan).2 e hsent, fun id hafter => ?_⟩
      rw [hcomplete.place, hafter] at hplace
      exact hplace
  · rw [hmem]
    rcases (h.found r hreader).2 e he with hfound | habove
    · exact Or.inl (Or.inl hfound)
    · rcases hcomplete.arrived e he with hfound | hsent | hunder
      · exact Or.inl (Or.inl hfound)
      · have hid : "" < e.id := hcomplete.named e hsent
        exact Or.inl (Or.inr ⟨hsent, hcomplete.cursor_lt he hid, habove⟩)
      · refine Or.inr fun x hx => ?_
        rcases (hmem x).mp hx with hfound | ⟨hsent, -, -⟩
        · exact habove x hfound
        · exact (List.pairwise_append.mp hsorted).2.2 x hsent e hunder

/-- Once all is sent, that is the whole of it. -/
theorem Seamless.toCome_eq (h : t.Seamless) (horderly : t.Orderly) (hsound : t.Sound)
    (hreader : t.reader = .reading r) (hsent : t.underway = []) :
    r.begun.toCome t.log.channel = t.log.since r.after := by
  obtain ⟨-, hcomplete⟩ := hsound.reading r hreader
  have hfront := h.toCome_prefix horderly hsound hreader
  have hsuffix : t.log.since r.after <+: r.begun.toCome t.log.channel := by
    refine prefix_of_lower String.lt_asymm (t.log.sorted_since r.after)
      (Subscription.sorted_toCome hcomplete.sorted hcomplete.above) (fun e he => ?_)
      (fun e he => Or.inl (hfront.subset he))
    rw [horderly.mem_toCome hreader hcomplete]
    rcases (h.found r hreader).2 e he with hfound | habove
    · exact Or.inl hfound
    · rw [hsent] at hcomplete
      rcases hcomplete.found_or_sent he with hfound | hunread
      · exact Or.inl hfound
      · have hid : "" < e.id := hcomplete.named e hunread
        exact Or.inr ⟨hunread, hcomplete.cursor_lt he hid, habove⟩
  exact hfront.eq_of_length_le hsuffix.length_le

/-- One appender at work, and a reader that begins at any point. If the log's ids grow, the reader
was given at every moment the first of the events it asked for, each once and in order, and when
all is sent it comes to have all of them. Whatever the log held before, the reader comes to have
just those that its scan found and those above all that it found. -/
theorem given_in_order (hopen : log.channel.Open)
    (hrun : (start log files).run 1 deeds = some t) (hfits : t.log.lastStamp < 2 ^ 64)
    (hreader : t.reader = .reading r) :
    (log.Growing → r.given <+: t.log.since r.after ∧
      (t.underway = [] → t.log.channel.lags r.now.live = false → ∃ k, ∀ m, k ≤ m →
        ∃ r' : Reading, t.run 1 (List.replicate m .poll) =
          some { t with reader := .reading r' } ∧ r'.given = t.log.since r.after)) ∧
    (t.underway = [] → t.log.channel.lags r.now.live = false → r.Idle t.log.channel →
      ∀ e ∈ t.log.since r.after, (e ∈ r.given ↔
        e ∈ r.begun.backlog ∨ ∀ x ∈ r.begun.backlog, x.id < e.id)) := by
  obtain ⟨hopen', hall⟩ := run_start hopen hrun
  have horderly : t.Orderly := orderly_of_run hopen hrun hfits
  obtain ⟨hsound, hcomplete⟩ := hall.reading r hreader
  refine ⟨fun hgrowing => ?_, fun hsent hkept hidle e he => ?_⟩
  · have hseamless : t.Seamless := seamless_of_run hopen hgrowing hrun hfits
    refine ⟨?_, fun hsent hkept => ?_⟩
    · refine List.IsPrefix.trans ?_ (hseamless.toCome_prefix horderly hall hreader)
      exact ⟨_, hsound.whole⟩
    · obtain ⟨k, hpolls⟩ := idle_of_polls hopen' hreader hsound hkept
      refine ⟨k, fun m hm => ?_⟩
      obtain ⟨r', hrun', -, hgiven⟩ := hpolls m hm
      exact ⟨r', hrun', hgiven.trans (hseamless.toCome_eq horderly hall hreader hsent)⟩
  · rw [hsound.given_of_idle hopen' hkept hidle, horderly.mem_toCome hreader hcomplete]
    refine or_congr_right' fun hfound => ?_
    rw [hsent] at hcomplete
    have hunread := (hcomplete.found_or_sent he).resolve_left hfound
    have hplace := hcomplete.cursor_lt he (hcomplete.named e hunread)
    exact ⟨fun h => h.2.2, fun h => ⟨hunread, hplace, h⟩⟩

/-! ## One appender and one reader -/

/-- The reader begins when one event is stored and yet to be sent; then another is appended. -/
def overlap : List Deed :=
  [.store .null 0 0, .listen, .scan none, .send 0, .store .null 0 0, .send 0, .poll, .poll, .poll]

/-- The two events as the log holds them, and as they were sent. -/
def overlapLog : EventLog :=
  ((EventLog.inMemory (.broadcast 4 [stamped 1, stamped 2] true)).taking 1 (stamped 1)).taking 2
    (stamped 2)

/-- The reader found the first event, and was given it once. -/
def overlapReading : Reading :=
  ⟨none, ⟨[stamped 1], "", .following 0⟩, ⟨[], (stamped 2).id, .following 2⟩,
    [stamped 1, stamped 2]⟩

theorem run_overlap :
    fresh.run 1 overlap = some ⟨overlapLog, .empty, [], .reading overlapReading⟩ := by
  with_unfolding_all rfl

/-- An event that the scan found and that is sent afterwards is given once. -/
theorem overlap_is_given_once : overlapReading.given <+: overlapLog.since none ∧
    overlapReading.Idle overlapLog.channel ∧ ∀ e ∈ overlapLog.since none,
      (e ∈ overlapReading.given ↔ e ∈ overlapReading.begun.backlog ∨
        ∀ x ∈ overlapReading.begun.backlog, x.id < e.id) := by
  have hopen : (EventLog.inMemory (.broadcast 4 [] true)).channel.Open := ⟨4, [], rfl⟩
  have hfits : overlapLog.lastStamp < 2 ^ 64 := by decide
  have hidle : overlapReading.Idle overlapLog.channel := by with_unfolding_all rfl
  obtain ⟨hgiven, hall⟩ := given_in_order hopen run_overlap hfits rfl
  exact ⟨(hgiven (EventLog.growing_inMemory _)).1, hidle, hall rfl rfl hidle⟩

/-- A log that was kept elsewhere, with an id that no time stamp reaches. -/
def foreign : Traffic := start
  { EventLog.inMemory (.broadcast 4 [] true) with entries := Dictionary.empty.insert "zz" .null }
  .empty

/-- One appender and one reader, each at one time. -/
def afterwards : List Deed := [.listen, .scan none, .store .null 0 0, .send 0, .poll, .poll]

/-- The log of the foreign event and the new one. -/
def foreignLog : EventLog :=
  EventLog.taking { EventLog.inMemory (.broadcast 4 [stamped 1] true) with
    entries := Dictionary.empty.insert "zz" .null } 1 (stamped 1)

/-- The reader was given the foreign event alone. -/
def foreignReading : Reading :=
  ⟨none, ⟨[⟨"zz", .null⟩], "", .following 0⟩, ⟨[], "zz", .following 1⟩, [⟨"zz", .null⟩]⟩

theorem run_afterwards :
    foreign.run 1 afterwards = some ⟨foreignLog, .empty, [], .reading foreignReading⟩ := by
  with_unfolding_all rfl

/-- All is sent and the reader waits for more, but what it was given is not where the log begins,
and the event that was appended is not among it. -/
theorem foreign_goes_before : ∃ t r e, foreign.run 1 afterwards = some t ∧
    t.reader = .reading r ∧ t.underway = [] ∧ r.Idle t.log.channel ∧
    ¬ r.given <+: t.log.since r.after ∧ e ∈ t.log.since r.after ∧ e ∉ r.given := by
  have hsince : foreignLog.since none = [stamped 1, ⟨"zz", .null⟩] := by with_unfolding_all rfl
  have hne : (⟨"zz", .null⟩ : Event) ≠ stamped 1 := by
    intro heq
    exact absurd (congrArg (·.id.length) heq) (by decide +kernel)
  refine ⟨_, foreignReading, stamped 1, run_afterwards, rfl, rfl, ?_, ?_, ?_, ?_⟩
  · with_unfolding_all rfl
  · intro hfront
    rw [show (foreignLog.since foreignReading.after) = _ from hsince] at hfront
    exact hne (List.cons_prefix_cons.mp hfront).1
  · rw [show (foreignLog.since foreignReading.after) = _ from hsince]
    exact List.mem_cons_self
  · exact fun hmem => hne (List.mem_singleton.mp hmem).symm

end Traffic

end FeatureGraph
