-- What a subscription has yet to give: the rest of what it found, and of what
-- is sent the events that are greater than all before them. A poll gives the
-- first of these, and an event that is sent can only be added at their end.
import FeatureGraph.EventLog.Subscription
import FeatureGraph.Proofs.Lists
import Mathlib.Data.List.Induction

namespace FeatureGraph

/-! ## Events above all before them -/

namespace Event

/-- The id of the last event, or the place before the first one. -/
def lastId (place : String) : List Event → String
  | [] => place
  | e :: rest => lastId e.id rest

/-- The events above a place that are greater than all before them. -/
def rising (place : String) : List Event → List Event
  | [] => []
  | e :: rest => if place < e.id then e :: rising e.id rest else rising place rest

variable {place : String} {l front back : List Event} {e x : Event}

theorem lastId_append (place : String) (front back : List Event) :
    lastId place (front ++ back) = lastId (lastId place front) back := by
  induction front generalizing place with
  | nil => rfl
  | cons e rest ih => exact ih e.id

/-- With one event more at the end. -/
theorem rising_snoc (place : String) (l : List Event) (e : Event) :
    rising place (l ++ [e]) =
      rising place l ++ if lastId place (rising place l) < e.id then [e] else [] := by
  induction l generalizing place with
  | nil => simp only [List.nil_append, rising, lastId]
  | cons x rest ih =>
    rw [List.cons_append, rising, rising]
    split
    · rw [ih, List.cons_append, lastId]
    · exact ih place

/-- The last of the events that rise is the greatest of all. -/
theorem lastId_rising_lt : lastId place (rising place l) < e.id ↔
    place < e.id ∧ ∀ x ∈ l, x.id < e.id := by
  induction l generalizing place with
  | nil => simp [rising, lastId]
  | cons x rest ih =>
    rw [rising, List.forall_mem_cons]
    split
    · rename_i hx
      rw [lastId, ih]
      exact ⟨fun h => ⟨String.lt_trans hx h.1, h⟩, fun h => h.2⟩
    · rename_i hx
      rw [ih]
      refine ⟨fun h => ⟨h.1, ?_, h.2⟩, fun h => ⟨h.1, h.2.2⟩⟩
      exact Std.lt_of_le_of_lt (String.not_lt.mp hx) h.1

/-- An event rises where it is sent if it is greater than all that were sent before it. -/
theorem mem_rising : e ∈ rising place l ↔
    ∃ front back, l = front ++ e :: back ∧ place < e.id ∧ ∀ x ∈ front, x.id < e.id := by
  induction l using List.reverseRecOn with
  | nil => simp [rising]
  | append_singleton l y ih =>
    rw [rising_snoc, List.mem_append, ih]
    constructor
    · rintro (⟨front, back, rfl, h⟩ | hlast)
      · exact ⟨front, back ++ [y], by simp, h⟩
      · split at hlast
        · rename_i hy
          obtain rfl := List.mem_singleton.mp hlast
          exact ⟨l, [], rfl, lastId_rising_lt.mp hy⟩
        · cases hlast
    · rintro ⟨front, back, heq, h⟩
      rcases snoc_eq_append heq with ⟨rfl, rfl, -⟩ | ⟨inner, -, rfl⟩
      · rw [if_pos (lastId_rising_lt.mpr h)]
        exact Or.inr List.mem_cons_self
      · exact Or.inl ⟨front, inner, rfl, h⟩

theorem lt_of_mem_rising (h : e ∈ rising place l) : place < e.id ∧ e ∈ l := by
  obtain ⟨front, back, rfl, hplace, -⟩ := mem_rising.mp h
  exact ⟨hplace, by simp⟩

theorem sorted_rising (place : String) (l : List Event) :
    (rising place l).Pairwise (·.id < ·.id) := by
  induction l generalizing place with
  | nil => exact .nil
  | cons x rest ih =>
    rw [rising]
    split
    · exact .cons (fun e he => (lt_of_mem_rising he).1) (ih x.id)
    · exact ih place

/-- Above the last of sorted events is above all of them, and above the place before them. -/
theorem lastId_lt (h : l.Pairwise (·.id < ·.id)) (habove : ∀ x ∈ l, place ≤ x.id) :
    lastId place l < e.id ↔ place < e.id ∧ ∀ x ∈ l, x.id < e.id := by
  induction l generalizing place with
  | nil => simp [lastId]
  | cons x rest ih =>
    obtain ⟨hx, hrest⟩ := List.pairwise_cons.mp h
    have hplace : place ≤ x.id := habove x List.mem_cons_self
    rw [lastId, ih hrest fun y hy => Std.le_of_lt (hx y hy), List.forall_mem_cons]
    exact ⟨fun h => ⟨Std.lt_of_le_of_lt hplace h.1, h⟩, fun h => h.2⟩

end Event

/-! ## Channels -/

namespace Channel

/-- The channel takes events, and gives them to all who listen. -/
def Open (c : Channel) : Prop := ∃ capacity sent, c = .broadcast capacity sent true

/-- What was sent since the listener heard the last event. -/
def unread (c : Channel) : Listener → List Event
  | .following next => c.sent.drop next
  | _ => []

/-- The listener waits for an event that was sent, or for the next one. -/
def Attends (c : Channel) (live : Listener) : Prop :=
  ∃ next, live = .following next ∧ next ≤ c.sent.length

/-- The channel has let go of an event that the listener has still to hear. -/
def lags (c : Channel) (live : Listener) : Bool :=
  match c, live with
  | .broadcast capacity sent _, .following next => next + capacity < sent.length
  | _, _ => false

variable {c c' : Channel} {live : Listener} {e : Event}

theorem Open.publish (h : c.Open) (e : Event) :
    ∃ c', c.publish e = .ok c' ∧ c'.Open ∧ c'.sent = c.sent ++ [e] := by
  obtain ⟨capacity, sent, rfl⟩ := h
  exact ⟨_, rfl, ⟨_, _, rfl⟩, rfl⟩

theorem Open.attends_listen (h : c.Open) : c.Attends c.listen ∧ c.unread c.listen = [] := by
  obtain ⟨capacity, sent, rfl⟩ := h
  exact ⟨⟨sent.length, rfl, Nat.le_refl _⟩, List.drop_length⟩

theorem Attends.sent (h : c.Attends live) (hsent : c'.sent = c.sent ++ [e]) :
    c'.Attends live ∧ c'.unread live = c.unread live ++ [e] := by
  obtain ⟨next, rfl, hle⟩ := h
  refine ⟨⟨next, rfl, ?_⟩, ?_⟩
  · rw [hsent, List.length_append]
    omega
  · rw [unread, unread, hsent, List.drop_append_of_le_length hle]

/-- What holds of all unread events, and of one that is sent, holds of all that are unread then. -/
theorem Attends.all_sent {P : Event → Prop} (h : c.Attends live)
    (hsent : c'.sent = c.sent ++ [e]) (hall : ∀ x ∈ c.unread live, P x) (he : P e) :
    ∀ x ∈ c'.unread live, P x := by
  rw [(h.sent hsent).2, List.forall_mem_append, List.forall_mem_singleton]
  exact ⟨hall, he⟩

theorem not_lags_of_le (c : Channel) {next next' : Nat}
    (h : c.lags (.following next) = false) (hle : next ≤ next') :
    c.lags (.following next') = false := by
  cases c with
  | failing refusal listening => rfl
  | broadcast capacity sent isOpen =>
    simp only [lags, decide_eq_false_iff_not] at h ⊢
    omega

end Channel

/-! ## Polls -/

namespace Subscription

open Event

variable {c c' : Channel} {s : Subscription} {e : Event} {cursor : String} {next : Nat}

/-- The events that are still to be given. -/
def toCome (c : Channel) (s : Subscription) : List Event :=
  s.backlog ++ rising (lastId s.cursor s.backlog) (c.unread s.live)

/-- What is sent is given after all else, if it is greater than all else. -/
theorem toCome_sent (h : c.Attends s.live) (hsent : c'.sent = c.sent ++ [e]) :
    s.toCome c' = s.toCome c ++ if lastId s.cursor (s.toCome c) < e.id then [e] else [] := by
  rw [toCome, toCome, (h.sent hsent).2, rising_snoc, lastId_append, List.append_assoc]

/-- An event is still to come if it waits to be replayed, or is above all that come before it. -/
theorem mem_toCome (hsorted : s.backlog.Pairwise (·.id < ·.id))
    (habove : ∀ x ∈ s.backlog, s.cursor ≤ x.id) : e ∈ s.toCome c ↔ e ∈ s.backlog ∨
      ∃ front back, c.unread s.live = front ++ e :: back ∧ s.cursor < e.id ∧
        ∀ x ∈ s.backlog ++ front, x.id < e.id := by
  rw [toCome, List.mem_append, mem_rising]
  simp only [lastId_lt hsorted habove, List.forall_mem_append, and_assoc]

theorem sorted_toCome (hsorted : s.backlog.Pairwise (·.id < ·.id))
    (habove : ∀ x ∈ s.backlog, s.cursor ≤ x.id) : (s.toCome c).Pairwise (·.id < ·.id) := by
  rw [toCome, List.pairwise_append]
  refine ⟨hsorted, sorted_rising _ _, fun x hx e he => ?_⟩
  exact ((lastId_lt hsorted habove).mp (lt_of_mem_rising he).1).2 x hx

/-- To go on means to give the first event that rises, or to wait at the end of the channel. -/
theorem follow_cases (cursor : String) (hopen : c.Open) (fuel : Nat) (hle : next ≤ c.sent.length)
    (hkept : c.lags (.following next) = false) (hfuel : c.sent.length - next < fuel) :
    (rising cursor (c.unread (.following next)) = [] ∧
      follow c cursor fuel (.following next) = (.pending, cursor, .following c.sent.length)) ∨
    ∃ e next', next < next' ∧ next' ≤ c.sent.length ∧
      rising cursor (c.unread (.following next)) =
        e :: rising e.id (c.unread (.following next')) ∧
      follow c cursor fuel (.following next) = (.event e, e.id, .following next') := by
  obtain ⟨capacity, sent, rfl⟩ := hopen
  simp only [Channel.unread, Channel.sent, Channel.lags, decide_eq_false_iff_not] at *
  induction fuel generalizing next with
  | zero => omega
  | succ fuel ih =>
    have hreached : max next (sent.length - capacity) = next := by omega
    rw [follow, Listener.poll]
    simp only [hreached]
    by_cases hlt : next < sent.length
    · rw [List.getElem?_eq_getElem hlt, List.drop_eq_getElem_cons hlt, rising]
      by_cases hrises : cursor < sent[next].id
      · simp only [hrises, if_true]
        exact Or.inr ⟨sent[next], next + 1, by omega, by omega, rfl, rfl⟩
      · simp only [hrises, if_false]
        rcases @ih (next + 1) (by omega) (by omega) (by omega) with hwait |
          ⟨e, next', hlt', hle', hrising, hfollow⟩
        · exact Or.inl hwait
        · exact Or.inr ⟨e, next', by omega, hle', hrising, hfollow⟩
    · have hend : next = sent.length := by omega
      subst hend
      rw [List.getElem?_eq_none (Nat.le_refl _), List.drop_length]
      exact Or.inl ⟨rfl, rfl⟩

/-- A poll gives the first event that is still to come, or finds none. -/
theorem poll_cases (hopen : c.Open) (h : c.Attends s.live) (hkept : c.lags s.live = false) :
    c.Attends (s.poll c).2.live ∧ c.lags (s.poll c).2.live = false ∧
    ((s.toCome c = [] ∧ (s.poll c).1 = .pending ∧ (s.poll c).2.toCome c = [] ∧
        (s.poll c).2.cursor = s.cursor) ∨
      ∃ e, s.toCome c = e :: (s.poll c).2.toCome c ∧ (s.poll c).1 = .event e ∧
        (s.poll c).2.cursor = e.id) := by
  obtain ⟨backlog, cursor, live⟩ := s
  cases backlog with
  | cons e rest => exact ⟨h, hkept, Or.inr ⟨e, rfl, rfl, rfl⟩⟩
  | nil =>
    obtain ⟨next, rfl, hle⟩ := h
    have hfuel : c.sent.length - next < c.sent.length + 1 := by omega
    rcases follow_cases cursor hopen _ hle hkept hfuel with
      ⟨hnone, hfollow⟩ | ⟨e, next', hlt, hle', hrising, hfollow⟩
    · have hpoll : poll c ⟨[], cursor, .following next⟩ =
          (.pending, ⟨[], cursor, .following c.sent.length⟩) := by
        rw [poll]
        simp only [hfollow]
      rw [hpoll]
      refine ⟨⟨_, rfl, Nat.le_refl _⟩, c.not_lags_of_le hkept hle, Or.inl ⟨hnone, rfl, ?_, rfl⟩⟩
      simp only [toCome, Channel.unread, List.drop_length, rising, List.append_nil]
    · have hpoll : poll c ⟨[], cursor, .following next⟩ =
          (.event e, ⟨[], e.id, .following next'⟩) := by
        rw [poll]
        simp only [hfollow]
      rw [hpoll]
      exact ⟨⟨_, rfl, hle'⟩, c.not_lags_of_le hkept (Nat.le_of_lt hlt),
        Or.inr ⟨e, hrising, rfl, rfl⟩⟩

end Subscription

end FeatureGraph
