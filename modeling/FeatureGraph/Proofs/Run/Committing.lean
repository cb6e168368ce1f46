-- What the releases leave in the store. A writer that was called for its end
-- stores its bytes when it is released, unless the store refuses; all else
-- that is released stores nothing. So under a key there is in the end what
-- the last writer for it has stored, or what there was.
import FeatureGraph.Proofs.Component.Storing

namespace FeatureGraph

/-- The session of a node that is a writer. -/
def Node.InSession (n : Node Workspace) (s : Component.Session) : Prop :=
  ∃ d, Run.Holds n (Component.storing d) s

theorem Node.InSession.unique {n : Node Workspace} {s s' : Component.Session} (h : n.InSession s)
    (h' : n.InSession s') : s = s' := by
  obtain ⟨d, -, hs⟩ := h
  obtain ⟨d', -, hs'⟩ := h'
  exact eq_of_heq (hs.symm.trans hs')

namespace Run

theorem Holds.release {W : Type} {n : Node W} {c : Component W} {s : c.State} (h : Holds n c s)
    (w : W) : (n.release w).1 = (c.release s w).1 ∧ (n.release w).2.2 = (c.release s w).2.2 := by
  obtain ⟨n, rfl⟩ := h.exists_eq
  exact ⟨rfl, rfl⟩

variable {r r' : Run Workspace} {ids : List Nat} {id m : Nat} {key : String}
  {value : Bytes × Option String}

/-- The node is a writer that was called for its end, and its release between `r` and `r'` has
stored this value under this key. -/
def Commits (r r' : Run Workspace) (id : Nat) (key : String) (value : Bytes × Option String) :
    Prop :=
  ∃ n s writer result, r.nodes[id]? = some n ∧ n.InSession s ∧ s.writer = some writer ∧
    s.finished = true ∧ writer.key = key ∧ value = r.world.kept writer.contentType writer.data ∧
    r'.acts id = r.acts id ++ [.release result] ∧ ∀ e, result ≠ .error (.storage e)

theorem Commits.at {n : Node Workspace} {result : Except ComponentError Unit}
    (h : Commits r r' id key value) (hn : r.nodes[id]? = some n)
    (hacts : r'.acts id = r.acts id ++ [.release result]) :
    ∃ s writer, n.InSession s ∧ s.writer = some writer ∧ s.finished = true ∧ writer.key = key ∧
      value = r.world.kept writer.contentType writer.data ∧ ∀ e, result ≠ .error (.storage e) := by
  obtain ⟨n', s, writer, result', hn', hsession, hwriter, hfinished, hkey, hvalue, hacts', hok⟩ := h
  rw [hn] at hn'
  cases hn'
  rw [hacts] at hacts'
  simp only [List.append_cancel_left_eq, List.cons.injEq, Act.release.injEq, and_true] at hacts'
  exact ⟨s, writer, hsession, hwriter, hfinished, hkey, hvalue, hacts' ▸ hok⟩

theorem Commits.unique {key' : String} {value' : Bytes × Option String}
    (h : Commits r r' id key value) (h' : Commits r r' id key' value') : value = value' := by
  obtain ⟨n, s, writer, result, hn, hsession, hwriter, -, -, rfl, hacts, -⟩ := h
  obtain ⟨s', writer', hsession', hwriter', -, -, rfl, -⟩ := h'.at hn hacts
  cases hsession.unique hsession'
  rw [hwriter] at hwriter'
  cases hwriter'
  rfl

/-- What keeps the values stores none. -/
theorem not_commits {P : Workspace → Workspace → Prop} {n : Node Workspace}
    (h : n.component.Detached P) (hP : ∀ {w w'}, P w w' → Workspace.SameStored w w')
    (hn : r.nodes[id]? = some n)
    (hacts : r'.acts id = r.acts id ++ [.release (n.release r.world).1])
    (key : String) (value : Bytes × Option String) : ¬ Commits r r' id key value := by
  intro hcommits
  obtain ⟨-, -, ⟨d, hcomponent, -⟩, -⟩ := hcommits.at hn hacts
  exact Component.storing_not_detached d (hcomponent ▸ h.mono hP)

/-- A node that keeps something of the workspace, or a writer that is open. -/
def Orderly (P : Workspace → Workspace → Prop) (n : Node Workspace) : Prop :=
  n.component.Detached P ∨ ∃ s writer, n.InSession s ∧ s.writer = some writer

/-- The release of one node leaves a key as it was or stores a value under it. -/
theorem Orderly.release {n : Node Workspace} (h : Orderly Workspace.SameStored n)
    (hn : r.nodes[id]? = some n)
    (hlog : ¬ r.world.KeepsLogAt key)
    (hacts : r'.acts id = r.acts id ++ [.release (n.release r.world).1]) :
    (n.release r.world).2.2.layout = r.world.layout ∧
      ((∃ value, Commits r r' id key value ∧ (n.release r.world).2.2.held? key = some value) ∨
        ((∀ value, ¬ Commits r r' id key value) ∧
          (n.release r.world).2.2.held? key = r.world.held? key)) := by
  rcases h with hdetached | ⟨s, writer, hsession, hwriter⟩
  · have hsame := hdetached.release n.state r.world
    exact ⟨hsame.layout, Or.inr ⟨not_commits hdetached (fun h => h) hn hacts key, hsame.held key⟩⟩
  · have hopen := hsession
    obtain ⟨d, hholds⟩ := hopen
    obtain ⟨hresult, hworld⟩ := hholds.release r.world
    obtain ⟨hlayout, hcases⟩ := Component.storing_release (d := d) hwriter hlog
    rw [← hworld, ← hresult] at hcases
    rw [← hworld] at hlayout
    refine ⟨hlayout, ?_⟩
    rcases hcases with ⟨hfinished, hkey, hok, hheld⟩ | ⟨hrefused, hheld⟩
    · exact Or.inl ⟨_, ⟨n, s, writer, _, hn, hsession, hwriter, hfinished, hkey, rfl, hacts, hok⟩,
        hheld⟩
    · refine Or.inr ⟨?_, hheld⟩
      intro value hcommits
      obtain ⟨s', writer', hsession', hwriter', hfinished, hkey, -, hok⟩ := hcommits.at hn hacts
      cases hsession.unique hsession'
      rw [hwriter] at hwriter'
      cases hwriter'
      obtain ⟨e, he⟩ := hrefused hfinished hkey
      exact hok e he

section Head

variable {act : Act} {n' : Node Workspace} {w : Workspace}

/-! The first release of several, and what it leaves to the others. -/

theorem Releases.acts_head (h : Releases ids (r.after id act n' w) r') (hid : id ∉ ids) :
    r'.acts id = r.acts id ++ [act] := by
  rw [(h.other hid).2, after_acts, if_pos rfl]

theorem Releases.commits_rest (_ : Releases ids (r.after id act n' w) r') (hid : id ∉ ids)
    (hm : m ∈ ids) (hlayout : w.layout = r.world.layout) :
    Commits (r.after id act n' w) r' m key value ↔ Commits r r' m key value := by
  obtain ⟨hnode, hacts⟩ := after_other (ne_of_mem_of_not_mem hm hid).symm
  unfold Commits Workspace.kept
  rw [hnode, hacts,
    show (r.after id act n' w).world.layout = r.world.layout from hlayout]

end Head

/-- Under a key there is in the end what the last of its writers has stored, or what there
was. -/
theorem Releases.stored (h : Releases ids r r') (hnodup : ids.Nodup)
    (horderly : ∀ id ∈ ids, ∀ n, r.nodes[id]? = some n →
      Orderly Workspace.SameStored n)
    (hlog : ¬ r.world.KeepsLogAt key) :
    ((∀ id ∈ ids, ∀ value, ¬ Commits r r' id key value) ∧
        r'.world.held? key = r.world.held? key) ∨
      ∃ before id after value, ids = before ++ id :: after ∧ Commits r r' id key value ∧
        (∀ m ∈ after, ∀ value, ¬ Commits r r' m key value) ∧
        r'.world.held? key = some value := by
  induction h with
  | nil => exact Or.inl ⟨by simp, rfl⟩
  | @cons r r' id rest n hn hrest ih =>
    obtain ⟨hid, hnodup⟩ := List.nodup_cons.mp hnodup
    obtain ⟨hlayout, hone⟩ :=
      (horderly id List.mem_cons_self n hn).release hn hlog (hrest.acts_head hid)
    have hlog' : ¬ (n.release r.world).2.2.KeepsLogAt key := fun h =>
      hlog ((Workspace.keepsLogAt_congr hlayout).mp h)
    rcases ih hnodup (forall_after hid horderly) hlog' with
      ⟨hnone, hheld⟩ | ⟨before, m, after, value, rfl, hcommits, hnone, hheld⟩
    · have hnone' : ∀ m ∈ rest, ∀ value, ¬ Commits r r' m key value := fun m hm value hc =>
        hnone m hm value ((hrest.commits_rest hid hm hlayout).mpr hc)
      rcases hone with ⟨value, hcommits, hvalue⟩ | ⟨hnot, hkept⟩
      · exact Or.inr ⟨[], id, rest, value, rfl, hcommits, hnone', hheld.trans hvalue⟩
      · refine Or.inl ⟨fun m hm => ?_, hheld.trans hkept⟩
        rcases List.mem_cons.mp hm with rfl | hm
        · exact hnot
        · exact hnone' m hm
    · refine Or.inr ⟨id :: before, m, after, value, rfl, ?_, fun k hk value hc => ?_, hheld⟩
      · exact (hrest.commits_rest hid (by simp) hlayout).mp hcommits
      · exact hnone k hk value ((hrest.commits_rest hid (by simp [hk]) hlayout).mpr hc)

/-! ## What the event log is told -/

/-- An open writer that is released commits what it was given and tells the log of it, or it
leaves all as it was. -/
theorem Holds.announces {n : Node Workspace} {d : Component.Destination} {s : Component.Session}
    {writer : Writer} (h : Holds n (Component.storing d) s) (hwriter : s.writer = some writer)
    (hn : r.nodes[id]? = some n)
    (hacts : r'.acts id = r.acts id ++ [.release (n.release r.world).1]) :
    ((∀ key value, ¬ Commits r r' id key value) ∧ (n.release r.world).2.2 = r.world) ∨
      ((∃ key value, Commits r r' id key value) ∧ ∃ w, r.world.commit writer = (.ok (), w) ∧
        (n.release r.world).2.2 = (w.announce d.announcement).2 ∧
        ((n.release r.world).1 = .ok () ↔ (w.announce d.announcement).1 = .ok ())) := by
  have hsession : n.InSession s := ⟨d, h⟩
  obtain ⟨hresult, hworld⟩ := h.release r.world
  have hrefused : (∀ e, (n.release r.world).1 ≠ .error (.storage e)) → s.finished = true →
      ∃ key value, Commits r r' id key value := fun hok hfinished =>
    ⟨_, _, n, s, writer, _, hn, hsession, hwriter, hfinished, rfl, rfl, hacts, hok⟩
  have hnone : (s.finished = true → ∃ e, (n.release r.world).1 = .error (.storage e)) →
      ∀ key value, ¬ Commits r r' id key value := by
    intro hrefused key value hcommits
    obtain ⟨s', -, hsession', -, hfinished, -, -, hok⟩ := hcommits.at hn hacts
    cases hsession.unique hsession'
    obtain ⟨e, he⟩ := hrefused hfinished
    exact hok e he
  rw [hworld]
  cases hfinished : s.finished with
  | false =>
    rw [Component.storing_discard hfinished]
    exact Or.inl ⟨hnone fun h => absurd h (by simp [hfinished]), rfl⟩
  | true =>
    rcases Component.storing_commit (d := d) (w := r.world) hwriter hfinished with
      ⟨e, heq⟩ | ⟨w, hcommit, hannounce, hok, htold⟩
    · rw [heq] at hresult ⊢
      exact Or.inl ⟨hnone fun _ => ⟨e, hresult⟩, rfl⟩
    · rw [← hresult] at hok htold
      exact Or.inr ⟨hrefused hok hfinished, w, hcommit, hannounce, htold⟩

/-- The release of one node tells the log of what it has stored, and of nothing else. -/
theorem Orderly.announces {n : Node Workspace} (h : Orderly Workspace.Untouched n)
    (hn : r.nodes[id]? = some n)
    (hacts : r'.acts id = r.acts id ++ [.release (n.release r.world).1]) :
    ((∀ key value, ¬ Commits r r' id key value) ∧
        (n.release r.world).2.2.layout = r.world.layout ∧
        (n.release r.world).2.2.log = r.world.log) ∨
      ((∃ key value, Commits r r' id key value) ∧ ∃ (w : Workspace) (data : Json),
        w.layout = r.world.layout ∧ w.log = r.world.log ∧
        (n.release r.world).2.2 = (w.announce data).2 ∧
        ((n.release r.world).1 = .ok () ↔ (w.announce data).1 = .ok ())) := by
  rcases h with hdetached | ⟨s, writer, ⟨d, hholds⟩, hwriter⟩
  · have hsame := hdetached.release n.state r.world
    exact Or.inl ⟨not_commits hdetached (·.toSameStored) hn hacts, hsame.layout, hsame.log⟩
  · rcases hholds.announces hwriter hn hacts with ⟨hnone, hworld⟩ |
      ⟨hcommits, w, hcommit, hannounce, htold⟩
    · rw [hworld]
      exact Or.inl ⟨hnone, rfl, rfl⟩
    · obtain ⟨hlayout, hlog⟩ := Workspace.commit_layout hcommit
      exact Or.inr ⟨hcommits, w, _, hlayout, hlog, hannounce, htold⟩

/-- The node has stored its value, and the event log has taken in the event of it. -/
def Tells (r r' : Run Workspace) (id : Nat) : Prop :=
  (∃ key value, Commits r r' id key value) ∧
    ∀ result, r'.acts id = r.acts id ++ [.release result] → r.world.Hears result

theorem Releases.tells_rest {act : Act} {n' : Node Workspace} {w : Workspace}
    (h : Releases ids (r.after id act n' w) r') (hid : id ∉ ids) (hm : m ∈ ids)
    (hlayout : w.layout = r.world.layout) (hsome : w.log.isSome = r.world.log.isSome) :
    Tells (r.after id act n' w) r' m ↔ Tells r r' m := by
  obtain ⟨-, hacts⟩ := after_other (ne_of_mem_of_not_mem hm hid).symm
  unfold Tells Workspace.Hears
  rw [hacts,
    show (r.after id act n' w).world.log.isSome = r.world.log.isSome from hsome,
    show (r.after id act n' w).world.logFile? = r.world.logFile? from congrArg Prod.snd hlayout]
  exact and_congr_left' (exists₂_congr fun key value => h.commits_rest hid hm hlayout)

/-- The event log learns only of what was stored. -/
theorem Releases.logged (h : Releases ids r r') (hnodup : ids.Nodup)
    (horderly : ∀ id ∈ ids, ∀ n, r.nodes[id]? = some n → Orderly Workspace.Untouched n)
    (hnone : ∀ id ∈ ids, ∀ key value, ¬ Commits r r' id key value) :
    r'.world.logged? = r.world.logged? := by
  induction h with
  | nil => rfl
  | @cons r r' id rest n hn hrest ih =>
    obtain ⟨hid, hnodup⟩ := List.nodup_cons.mp hnodup
    rcases (horderly id List.mem_cons_self n hn).announces hn (hrest.acts_head hid) with
      ⟨-, hlayout, hlog⟩ | ⟨⟨key, value, hcommits⟩, -⟩
    · refine (ih hnodup (forall_after hid horderly) fun m hm key value hc => ?_).trans
        (congrArg (Option.map _) hlog)
      exact hnone m (List.mem_cons_of_mem _ hm) key value
        ((hrest.commits_rest hid hm hlayout).mp hc)
    · exact absurd hcommits (hnone id List.mem_cons_self key value)

theorem Releases.grows (h : Releases ids r r') (hnodup : ids.Nodup)
    (horderly : ∀ id ∈ ids, ∀ n, r.nodes[id]? = some n → Orderly Workspace.Untouched n)
    {event : String} (hevent : (r.world.event? event).isSome) :
    (r'.world.event? event).isSome := by
  induction h with
  | nil => exact hevent
  | @cons r r' id rest n hn hrest ih =>
    obtain ⟨hid, hnodup⟩ := List.nodup_cons.mp hnodup
    refine ih hnodup (forall_after hid horderly) ?_
    show ((n.release r.world).2.2.event? event).isSome
    rcases (horderly id List.mem_cons_self n hn).announces hn (hrest.acts_head hid) with
      ⟨-, -, hlog⟩ | ⟨-, w, data, -, hlog, hannounce, -⟩
    · rwa [Workspace.event?, hlog]
    · rw [hannounce]
      exact (w.announce_grows data).2 event (by rwa [Workspace.event?, hlog])

/-- The release of one node gives a log in good order a new event, or leaves its events. -/
theorem Orderly.tells {n : Node Workspace} (h : Orderly Workspace.Untouched n)
    (hsteady : r.world.Steady) (hn : r.nodes[id]? = some n)
    (hacts : r'.acts id = r.acts id ++ [.release (n.release r.world).1]) :
    (n.release r.world).2.2.layout = r.world.layout ∧
      (n.release r.world).2.2.log.isSome = r.world.log.isSome ∧
      ((Tells r r' id ∧ ∃ event, r.world.event? event = none ∧
          ((n.release r.world).2.2.event? event).isSome) ∨
        (¬ Tells r r' id ∧ (n.release r.world).2.2.logged? = r.world.logged? ∧
          (n.release r.world).2.2.Steady)) := by
  rcases h.announces hn hacts with
    ⟨hnone, hlayout, hlog⟩ | ⟨hcommits, w, data, hlayout, hlog, hannounce, hresult⟩
  · refine ⟨hlayout, by rw [hlog], Or.inr ⟨fun ⟨⟨key, value, hc⟩, _⟩ => hnone key value hc, ?_, ?_⟩⟩
    · rw [Workspace.logged?, hlog, Workspace.logged?]
    · rwa [Workspace.Steady, hlog]
  · have htells : Tells r r' id ↔ w.Hears (n.release r.world).1 := by
      rw [Tells, Workspace.Hears, Workspace.logFile?, hlog]
      refine ⟨fun h => h.2 _ hacts, fun h => ⟨hcommits, fun result hacts' => ?_⟩⟩
      rw [hacts] at hacts'
      simp only [List.append_cancel_left_eq, List.cons.injEq, Act.release.injEq, and_true] at hacts'
      exact hacts' ▸ h
    have hevents : w.event? = r.world.event? ∧ w.logged? = r.world.logged? := by
      refine ⟨funext fun event => ?_, ?_⟩
      · rw [Workspace.event?, Workspace.event?, hlog]
      · rw [Workspace.logged?, Workspace.logged?, hlog]
    rw [hannounce, htells, ← hevents.1, ← hevents.2]
    refine ⟨(w.announce_layout data).trans hlayout, ?_, ?_⟩
    · rw [(w.announce_grows data).1, hlog]
    · exact Workspace.announce_heard (by rwa [Workspace.Steady, hlog]) hresult

/-- The events of a log in good order stay the same exactly if it is told of nothing. -/
theorem Releases.logged_iff (h : Releases ids r r') (hnodup : ids.Nodup)
    (horderly : ∀ id ∈ ids, ∀ n, r.nodes[id]? = some n → Orderly Workspace.Untouched n)
    (hsteady : r.world.Steady) :
    r'.world.logged? = r.world.logged? ↔ ∀ id ∈ ids, ¬ Tells r r' id := by
  induction h with
  | nil => simp
  | @cons r r' id rest n hn hrest ih =>
    obtain ⟨hid, hnodup⟩ := List.nodup_cons.mp hnodup
    obtain ⟨hlayout, hsome, hcases⟩ :=
      (horderly id List.mem_cons_self n hn).tells hsteady hn (hrest.acts_head hid)
    rcases hcases with ⟨htells, event, hnew, hheard⟩ | ⟨hnot, hlogged, hsteady'⟩
    · refine iff_of_false (fun heq => ?_) fun hnone => hnone id List.mem_cons_self htells
      have hlast := hrest.grows hnodup (forall_after hid horderly) hheard
      have hsame : r'.world.event? event = r.world.event? event := by
        rw [Workspace.event?_eq, Workspace.event?_eq, heq]
      rw [hsame, hnew] at hlast
      cases hlast
    · rw [← hlogged, List.forall_mem_cons, and_iff_right hnot]
      exact (ih hnodup (forall_after hid horderly) hsteady').trans (forall₂_congr fun m hm =>
        not_congr (hrest.tells_rest hid hm hlayout hsome))

end Run

end FeatureGraph
