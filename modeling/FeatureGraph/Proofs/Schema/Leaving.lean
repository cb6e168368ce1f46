-- What a run leaves behind, however it ends. Each writer decides alone whether
-- to store its value: it does if it was called for its end, whatever fails at
-- other nodes before or after. So a run that fails leaves the store as it was
-- exactly if all that such writers store was there before.
import FeatureGraph.Proofs.Schema.Storing
import FeatureGraph.Schema.Entity

namespace FeatureGraph

namespace Graph.Course

variable {W : Type} {g : Graph W} {world : W} {result : Except GraphError Unit} {all : Bool}
  {r₁ r₂ r₃ : Run W} {m : Nat}

theorem unreleased (h : g.Course world result all r₁ r₂ r₃)
    (released : Except ComponentError Unit) : Act.release released ∉ r₂.acts m := by
  intro hmem
  have hcalls : Act.release released ∈ callsAt r₂.journal.reverse m :=
    List.mem_filter.mpr ⟨hmem, rfl⟩
  rw [h.calls] at hcalls
  rcases List.mem_append.mp hcalls with hopen | hwork
  · cases hn : g.nodes[m]? with
    | none =>
      rw [(h.opens.none hn).2] at hopen
      cases hopen
    | some n =>
      obtain ⟨n₁, -, hopened⟩ := h.opens.opened hn
      generalize r₁.acts m = acts at hopen hopened
      cases hopened with
      | untouched => cases hopen
      | tried w => simp at hopen
  · have := (List.mem_filter.mp hwork).2
    cases this

/-- A release stands at the end of the journal of a node that was acquired. -/
theorem acts_of_release (h : g.Course world result all r₁ r₂ r₃)
    {released : Except ComponentError Unit} (hm : Act.release released ∈ r₃.acts m) :
    m ∈ Run.idsOf r₂.nodes (·.acquired) ∧ r₃.acts m = r₂.acts m ++ [.release released] := by
  by_cases hids : m ∈ Run.idsOf r₂.nodes (·.acquired)
  · obtain ⟨n, w, -, -, hacts⟩ := h.releases.released (Run.nodup_idsOf ..) hids
    rw [hacts] at hm
    rcases List.mem_append.mp hm with hm | hm
    · exact absurd hm (h.unreleased released)
    · rw [List.mem_singleton.mp hm]
      exact ⟨hids, hacts⟩
  · rw [(h.releases.other hids).2] at hm
    exact absurd hm (h.unreleased released)

end Graph.Course

namespace Schema

/-! ## What is delivered -/

/-- A run of the graph has stored a value: the writer of a stored feature was called for its end,
and when it was released the store took the value. -/
structure Delivers (features : Dictionary Feature) (scheme : KeyScheme) (id : String)
    (g : Graph Workspace) (j : List JournalEntry) (f : Feature) (m : Nat) (data : Bytes)
    (result : Except ComponentError Unit) : Prop where
  declared : f ∈ features.values
  isStored : f.isStored = true
  writes : Writes features scheme id (sitesOf g.nodes) f m
  ended : ∃ last, Act.lastChunk last ∈ actsAt j m
  released : Act.release result ∈ actsAt j m
  kept : ∀ e, result ≠ .error (.storage e)
  whole : ∃ u, Whole features g j f u data

section Course

variable {features : Dictionary Feature} {scheme : KeyScheme} {id : String} {g : Graph Workspace}
  {f : Feature} {m : Nat} {w : Workspace} {result : Except GraphError Unit} {all : Bool}
  {r₁ r₂ r₃ : Run Workspace} {data : Bytes} {released : Except ComponentError Unit}
  {key : String} {value : Bytes × Option String}

theorem Whole.unique {j : List JournalEntry} {u u' : Nat} {data' : Bytes} (hready : g.Ready)
    (h : Whole features g j f u data) (h' : Whole features g j f u' data') : data = data' := by
  have hplace : ∀ {u}, WorksOut features (sitesOf g.nodes) f u →
      (g.nodes.map (·.key))[u]? = some f.key := by
    rintro u ⟨needs, hsite, -⟩
    obtain ⟨n, hn, heq⟩ := sitesOf_getElem?.mp hsite
    rw [List.getElem?_map, hn]
    exact congrArg some (congrArg Site.key heq)
  have hu := hplace h.worksOut
  have hsame : u = u' := (List.getElem?_inj (List.getElem?_eq_some_iff.mp hu).1
    hready.distinct).mp (hu.trans (hplace h'.worksOut).symm)
  subst hsame
  have hdata := h.encoded.symm.trans h'.encoded
  cases hdata
  rfl

theorem Compiled.commits_of_delivers (h : Compiled features scheme id g)
    (hdetached : ∀ f ∈ features.values, f.component.Detached Workspace.SameStored)
    (hcourse : g.Course w result all r₁ r₂ r₃)
    (hdelivers : Delivers features scheme id g r₃.journal.reverse f m data released) :
    m ∈ Run.idsOf r₂.nodes (·.acquired) ∧
      Run.Commits r₂ r₃ m (scheme.build id f.key) (w.kept f.contentType data) ∧
      r₃.acts m = r₂.acts m ++ [.release released] := by
  obtain ⟨-, -, hwrites, ⟨last, hlast⟩, hreleased, hkept, u, hwhole⟩ := hdelivers
  obtain ⟨hm, hacts⟩ := hcourse.acts_of_release hreleased
  obtain ⟨n₂, hn₂, hacquired⟩ := Run.mem_idsOf.mp hm
  obtain ⟨s, writer, hsession, hwriter, hended⟩ := h.session hcourse hwrites hn₂ hacquired
  have hfinished := hended.mpr ⟨last, hcourse.mem_acts hlast (by simp)⟩
  obtain ⟨hkey, htype, v', hwhole'⟩ :=
    h.whole hcourse hwrites hn₂ hacquired hsession hwriter hfinished
  obtain ⟨ends, hends, hbracket⟩ := hcourse.tail
  rw [hends] at hwhole
  have hsame := h.keeps Workspace.SameStored.refl Workspace.SameStored.trans hdetached hcourse
  refine ⟨hm, ⟨n₂, s, writer, released, hn₂, hsession, hwriter, hfinished, hkey, ?_, hacts,
    hkept⟩, hacts⟩
  rw [hwhole.unique h.built.ready (hwhole'.append hbracket), htype, Workspace.kept,
    Workspace.kept, hsame.layout]

theorem Compiled.delivers_of_commits (h : Compiled features scheme id g)
    (hdetached : ∀ f ∈ features.values, f.component.Detached Workspace.SameStored)
    (hcourse : g.Course w result all r₁ r₂ r₃) (hm : m ∈ Run.idsOf r₂.nodes (·.acquired))
    (hcommits : Run.Commits r₂ r₃ m key value) :
    ∃ f data released, Delivers features scheme id g r₃.journal.reverse f m data released ∧
      key = scheme.build id f.key ∧ value = w.kept f.contentType data := by
  obtain ⟨f, hf, hstored, hwrites, hkey, v, data, hwhole, hvalue⟩ :=
    h.whole_of_commits hdetached hcourse hm hcommits
  obtain ⟨n₂, s, writer, released, hn₂, hsession, hwriter, hfinished, -, -, hacts, hkept⟩ :=
    hcommits
  obtain ⟨n₂', hn₂', hacquired⟩ := Run.mem_idsOf.mp hm
  rw [hn₂] at hn₂'
  cases hn₂'
  obtain ⟨s', -, hsession', -, hended⟩ := h.session hcourse hwrites hn₂ hacquired
  cases hsession.unique hsession'
  obtain ⟨last, hlast⟩ := hended.mp hfinished
  obtain ⟨ends, hends, hbracket⟩ := hcourse.tail
  have hr₃ : actsAt r₃.journal.reverse m = r₂.acts m ++ [.release released] := hacts
  refine ⟨f, data, released, ⟨hf, hstored, hwrites, ⟨last, ?_⟩, ?_, hkept, v, ?_⟩, hkey, hvalue⟩
  · rw [hr₃]
    exact List.mem_append_left _ hlast
  · rw [hr₃]
    exact List.mem_append_right _ List.mem_cons_self
  · rw [hends]
    exact hwhole.append hbracket

/-- No later writer for the same key has stored a value. -/
def Prevails (features : Dictionary Feature) (scheme : KeyScheme) (id : String)
    (g : Graph Workspace) (j : List JournalEntry) (f : Feature) (m : Nat) (data : Bytes) : Prop :=
  (∃ released, Delivers features scheme id g j f m data released) ∧
    ∀ f' m' data' released, m < m' → Delivers features scheme id g j f' m' data' released →
      scheme.build id f'.key ≠ scheme.build id f.key

/-! ## What is left of a run -/

theorem lt_of_sorted {before after : List Nat} {k : Nat}
    (h : (before ++ m :: after).Pairwise (· < ·)) (hk : k ∈ before ++ m :: after) :
    (k ∈ before ∧ k < m) ∨ k = m ∨ (k ∈ after ∧ m < k) := by
  obtain ⟨-, hafter, hbefore⟩ := List.pairwise_append.mp h
  rcases List.mem_append.mp hk with hk | hk
  · exact Or.inl ⟨hk, hbefore k hk m List.mem_cons_self⟩
  · rcases List.mem_cons.mp hk with rfl | hk
    · exact Or.inr (Or.inl rfl)
    · exact Or.inr (Or.inr ⟨hk, (List.pairwise_cons.mp hafter).1 k hk⟩)

section Last

variable {before after : List Nat} {k : Nat}

/-- What the last of the writers of a key has stored prevails. -/
theorem Compiled.prevails_of_last (h : Compiled features scheme id g)
    (hdetached : ∀ f ∈ features.values, f.component.Detached Workspace.SameStored)
    (hcourse : g.Course w result all r₁ r₂ r₃)
    (hids : Run.idsOf r₂.nodes (·.acquired) = before ++ k :: after)
    (hk : Run.Commits r₂ r₃ k key value)
    (hafter : ∀ m ∈ after, ∀ value, ¬ Run.Commits r₂ r₃ m key value) :
    ∃ f data, Prevails features scheme id g r₃.journal.reverse f k data ∧
      key = scheme.build id f.key ∧ value = w.kept f.contentType data := by
  have hsorted := Run.sorted_idsOf r₂.nodes (·.acquired)
  obtain ⟨f, data, released, hdelivers, rfl, rfl⟩ :=
    h.delivers_of_commits hdetached hcourse (by simp [hids]) hk
  refine ⟨f, data, ⟨⟨released, hdelivers⟩, ?_⟩, rfl, rfl⟩
  intro f' m data' released' hlt hdelivers' hkey
  obtain ⟨hm, hcommits, -⟩ := h.commits_of_delivers hdetached hcourse hdelivers'
  rw [hids] at hsorted hm
  rcases lt_of_sorted hsorted hm with ⟨-, hless⟩ | rfl | ⟨hmem, -⟩
  · exact Nat.lt_asymm hlt hless
  · exact Nat.lt_irrefl m hlt
  · exact hafter m hmem _ (hkey ▸ hcommits)

/-- And it is all that prevails under that key. -/
theorem Compiled.eq_of_prevails (h : Compiled features scheme id g)
    (hdetached : ∀ f ∈ features.values, f.component.Detached Workspace.SameStored)
    (hcourse : g.Course w result all r₁ r₂ r₃)
    (hprevails : Prevails features scheme id g r₃.journal.reverse f m data)
    (hids : Run.idsOf r₂.nodes (·.acquired) = before ++ k :: after)
    (hk : Run.Commits r₂ r₃ k (scheme.build id f.key) value)
    (hafter : ∀ m ∈ after, ∀ value, ¬ Run.Commits r₂ r₃ m (scheme.build id f.key) value) :
    value = w.kept f.contentType data := by
  have hsorted := Run.sorted_idsOf r₂.nodes (·.acquired)
  obtain ⟨⟨released, hdelivers⟩, hlast⟩ := hprevails
  obtain ⟨hm, hcommits, -⟩ := h.commits_of_delivers hdetached hcourse hdelivers
  obtain ⟨f', data', released', hdelivers', hkey, -⟩ :=
    h.delivers_of_commits hdetached hcourse (by simp [hids]) hk
  rw [hids] at hsorted hm
  rcases lt_of_sorted hsorted hm with ⟨-, hlt⟩ | rfl | ⟨hmem, -⟩
  · exact absurd hkey.symm (hlast f' k data' released' hlt hdelivers')
  · exact hk.unique hcommits
  · exact absurd hcommits (hafter m hmem _)

end Last

/-- The store is left as it was exactly if the values that prevail were there before. -/
theorem Compiled.stored_iff (h : Compiled features scheme id g)
    (hdetached : ∀ f ∈ features.values, f.component.Detached Workspace.SameStored)
    (hcourse : g.Course w result all r₁ r₂ r₃) :
    (∀ key, ¬ w.KeepsLogAt key → r₃.world.held? key = w.held? key) ↔
      ∀ f m data, Prevails features scheme id g r₃.journal.reverse f m data →
        ¬ w.KeepsLogAt (scheme.build id f.key) →
        w.held? (scheme.build id f.key) = some (w.kept f.contentType data) := by
  constructor
  · intro hall f m data hprevails hlog
    rcases h.stored hdetached hcourse hlog with
      ⟨hnone, -⟩ | ⟨before, k, after, value, hids, hk, hafter, hheld⟩
    · obtain ⟨released, hdelivers⟩ := hprevails.1
      obtain ⟨hm, hcommits, -⟩ := h.commits_of_delivers hdetached hcourse hdelivers
      exact absurd hcommits (hnone m hm _)
    · rw [← hall _ hlog, hheld,
        h.eq_of_prevails hdetached hcourse hprevails hids hk hafter]
  · intro hthere key hlog
    rcases h.stored hdetached hcourse hlog with
      ⟨-, hheld⟩ | ⟨before, k, after, value, hids, hk, hafter, hheld⟩
    · exact hheld
    · obtain ⟨f, data, hprevails, rfl, rfl⟩ :=
        h.prevails_of_last hdetached hcourse hids hk hafter
      rw [hheld, hthere f k data hprevails hlog]

theorem Compiled.logged (h : Compiled features scheme id g)
    (hdetached : ∀ f ∈ features.values, f.component.Detached Workspace.Untouched)
    (hcourse : g.Course w result all r₁ r₂ r₃)
    (hnone : ∀ f m data released,
      ¬ Delivers features scheme id g r₃.journal.reverse f m data released) :
    r₃.world.logged? = w.logged? := by
  have hsame := h.keeps Workspace.Untouched.refl Workspace.Untouched.trans hdetached hcourse
  refine (hcourse.releases.logged (Run.nodup_idsOf ..)
    (h.orderly Workspace.Untouched.refl hdetached hcourse)
    fun m hm key value hcommits => ?_).trans (congrArg (Option.map _) hsame.log)
  obtain ⟨f, data, released, hdelivers, -⟩ := h.delivers_of_commits
    (fun f hf => (hdetached f hf).mono fun h => h.toSameStored) hcourse hm hcommits
  exact hnone f m data released hdelivers

/-- The events of a log in good order are left as they were exactly if it was told of none of
these values. -/
theorem Compiled.logged_iff (h : Compiled features scheme id g)
    (hdetached : ∀ f ∈ features.values, f.component.Detached Workspace.Untouched)
    (hcourse : g.Course w result all r₁ r₂ r₃) (hsteady : w.Steady) :
    r₃.world.logged? = w.logged? ↔ ∀ f m data released,
      Delivers features scheme id g r₃.journal.reverse f m data released →
        ¬ w.Hears released := by
  have hsame := h.keeps Workspace.Untouched.refl Workspace.Untouched.trans hdetached hcourse
  have hdetached' : ∀ f ∈ features.values, f.component.Detached Workspace.SameStored :=
    fun f hf => (hdetached f hf).mono fun h => h.toSameStored
  have hlogged : r₂.world.logged? = w.logged? := congrArg (Option.map _) hsame.log
  have hhears : ∀ released, r₂.world.Hears released ↔ w.Hears released := fun released => by
    rw [Workspace.Hears, Workspace.Hears, Workspace.logFile?, Workspace.logFile?, hsame.log]
  rw [← hlogged, hcourse.releases.logged_iff (Run.nodup_idsOf ..)
    (h.orderly Workspace.Untouched.refl hdetached hcourse)
    (by rwa [Workspace.Steady, hsame.log])]
  constructor
  · intro hnone f m data released hdelivers hheard
    obtain ⟨hm, hcommits, hacts⟩ := h.commits_of_delivers hdetached' hcourse hdelivers
    refine hnone m hm ⟨⟨_, _, hcommits⟩, fun released' hacts' => ?_⟩
    rw [hacts] at hacts'
    simp only [List.append_cancel_left_eq, List.cons.injEq, Act.release.injEq, and_true] at hacts'
    exact hacts' ▸ (hhears released).mpr hheard
  · rintro hnone m hm ⟨⟨key, value, hcommits⟩, hheard⟩
    obtain ⟨f, data, released, hdelivers, -, -⟩ :=
      h.delivers_of_commits hdetached' hcourse hm hcommits
    obtain ⟨-, -, hacts⟩ := h.commits_of_delivers hdetached' hcourse hdelivers
    exact hnone f m data released hdelivers ((hhears released).mp (hheard released hacts))

end Course

/-! ## Taking an entity in -/

section Process

variable {s : Schema} {inputs : Inputs} {w : Workspace} {id : String} {g : Graph Workspace}
  {f : Feature} {key : String} {data : Bytes} {m : Nat} {released : Except ComponentError Unit}

/-- To take an entity in, this graph is run for an entity of this id. -/
def Starts (s : Schema) (inputs : Inputs) (w : Workspace) (id : String) (g : Graph Workspace) :
    Prop :=
  (w.newId s.idSource inputs).1 = .ok id ∧
    ∃ full, fullGraph s.name s.features s.scheme id = .ok full ∧
      (full.prune (candidates s.features)).1 = g

/-- In the course of it the value of a feature is stored under a key. -/
def Stores (s : Schema) (inputs : Inputs) (w : Workspace) (f : Feature) (key : String) (m : Nat)
    (data : Bytes) (released : Except ComponentError Unit) : Prop :=
  ∃ id g, s.Starts inputs w id g ∧ s.scheme.build id f.key = key ∧
    Delivers s.features s.scheme id g (g.journal inputs (w.newId s.idSource inputs).2) f m data
      released

/-- And after it no other value is stored under that key. -/
def StoresLast (s : Schema) (inputs : Inputs) (w : Workspace) (f : Feature) (key : String)
    (data : Bytes) : Prop :=
  ∃ m released, s.Stores inputs w f key m data released ∧
    ∀ f' m' data' released', m < m' → ¬ s.Stores inputs w f' key m' data' released'

theorem Starts.unique {id' : String} {g' : Graph Workspace} (h : s.Starts inputs w id g)
    (h' : s.Starts inputs w id' g') : id' = id ∧ g' = g := by
  obtain ⟨hid, full, hfull, rfl⟩ := h
  obtain ⟨hid', full', hfull', rfl⟩ := h'
  rw [hid] at hid'
  cases hid'
  rw [hfull] at hfull'
  cases hfull'
  exact ⟨rfl, rfl⟩

theorem Starts.stores_iff (h : s.Starts inputs w id g) :
    s.Stores inputs w f key m data released ↔ s.scheme.build id f.key = key ∧
      Delivers s.features s.scheme id g (g.journal inputs (w.newId s.idSource inputs).2) f m data
        released := by
  constructor
  · rintro ⟨id', g', hstarts, hkey, hdelivers⟩
    obtain ⟨rfl, rfl⟩ := h.unique hstarts
    exact ⟨hkey, hdelivers⟩
  · rintro ⟨hkey, hdelivers⟩
    exact ⟨id, g, h, hkey, hdelivers⟩

theorem Starts.storesLast_iff (h : s.Starts inputs w id g) :
    s.StoresLast inputs w f key data ↔ s.scheme.build id f.key = key ∧
      ∃ m, Prevails s.features s.scheme id g (g.journal inputs (w.newId s.idSource inputs).2) f m
        data := by
  constructor
  · rintro ⟨m, released, hstores, hlast⟩
    obtain ⟨rfl, hdelivers⟩ := h.stores_iff.mp hstores
    refine ⟨rfl, m, ⟨released, hdelivers⟩, fun f' m' data' released' hlt hdelivers' hkey => ?_⟩
    exact hlast f' m' data' released' hlt (h.stores_iff.mpr ⟨hkey, hdelivers'⟩)
  · rintro ⟨rfl, m, ⟨released, hdelivers⟩, hlast⟩
    refine ⟨m, released, h.stores_iff.mpr ⟨rfl, hdelivers⟩, fun f' m' data' released' hlt hs => ?_⟩
    obtain ⟨hkey, hdelivers'⟩ := h.stores_iff.mp hs
    exact hlast f' m' data' released' hlt hdelivers' hkey

theorem Starts.world (h : s.Starts inputs w id g) :
    (s.process inputs w).2 = (g.process inputs (w.newId s.idSource inputs).2).2.1 := by
  obtain ⟨hid, full, hfull, rfl⟩ := h
  unfold process
  rcases hnew : w.newId s.idSource inputs with ⟨answer, w₀⟩
  rw [hnew] at hid
  cases hid
  dsimp only
  rw [hfull]
  dsimp only
  rcases (full.prune (candidates s.features)).1.process inputs w₀ with ⟨-, w', e | _⟩ <;> rfl

theorem world_of_not_starts (h : ∀ id g, ¬ s.Starts inputs w id g) :
    (s.process inputs w).2 = (w.newId s.idSource inputs).2 := by
  unfold process
  rcases hid : w.newId s.idSource inputs with ⟨e | id, w₀⟩
  · rfl
  · dsimp only
    cases hfull : fullGraph s.name s.features s.scheme id with
    | error e => rfl
    | ok full => exact absurd ⟨by rw [hid], full, hfull, rfl⟩ (h id _)

theorem Starts.result (h : s.Starts inputs w id g) :
    (s.process inputs w).1 = match (g.run inputs (w.newId s.idSource inputs).2).2 with
      | .ok () => .ok id
      | .error e => .error (.graph e) := by
  obtain ⟨hid, full, hfull, rfl⟩ := h
  unfold process
  rcases hnew : w.newId s.idSource inputs with ⟨answer, w₀⟩
  rw [hnew] at hid
  cases hid
  dsimp only
  rw [hfull]
  dsimp only
  unfold Graph.process
  rcases (full.prune (candidates s.features)).1.run inputs w₀ with ⟨-, e | _⟩ <;> rfl

/-- Taking an entity in answers with its id exactly if the graph of the entity could be made and
the run of it answered. -/
theorem process_eq_ok : (s.process inputs w).1 = .ok id ↔
    ∃ g, s.Starts inputs w id g ∧ (g.run inputs (w.newId s.idSource inputs).2).2 = .ok () := by
  constructor
  · intro hok
    have hstarts : ∃ id g, s.Starts inputs w id g := by
      by_contra hnone
      unfold process at hok
      rcases hid : w.newId s.idSource inputs with ⟨e | id', w₀⟩
      all_goals simp only [hid] at hok
      · cases hok
      · cases hfull : fullGraph s.name s.features s.scheme id' with
        | error e =>
          rw [hfull] at hok
          cases hok
        | ok full => exact hnone ⟨id', _, by rw [hid], full, hfull, rfl⟩
    obtain ⟨id', g, hstarts⟩ := hstarts
    have hresult := hstarts.result
    rw [hok] at hresult
    split at hresult
    · rename_i hrun
      cases hresult
      exact ⟨g, hstarts, hrun⟩
    · cases hresult
  · rintro ⟨g, hstarts, hrun⟩
    rw [hstarts.result, hrun]

theorem process_cases (s : Schema) (inputs : Inputs) (w : Workspace) :
    (∃ id g result all r₁ r₂ r₃, s.Starts inputs w id g ∧
        Compiled s.features s.scheme id g ∧
        g.Course (w.newId s.idSource inputs).2 result all r₁ r₂ r₃ ∧
        g.journal inputs (w.newId s.idSource inputs).2 = r₃.journal.reverse ∧
        (s.process inputs w).2 = r₃.world) ∨
      ((∀ f key m data released, ¬ s.Stores inputs w f key m data released) ∧
        (s.process inputs w).2 = (w.newId s.idSource inputs).2) := by
  by_cases hstarts : ∃ id g, s.Starts inputs w id g
  · obtain ⟨id, g, hstarts⟩ := hstarts
    have hcompiled : Compiled s.features s.scheme id g := by
      obtain ⟨-, full, hfull, rfl⟩ := hstarts
      exact compiled_prune hfull _
    rw [hstarts.world]
    by_cases hinputs : (g.roots.all fun root => inputs.contains root.1) = true
    · obtain ⟨all, r₁, r₂, r₃, hcourse, hrun⟩ :=
        Graph.course hcompiled.built.ready (w.newId s.idSource inputs).2 hinputs
      refine Or.inl ⟨id, g, _, all, r₁, r₂, r₃, hstarts, hcompiled, hcourse, ?_, ?_⟩
      · exact congrArg (fun left => left.2.2) hrun
      · exact congrArg (fun left => left.2.1) hrun
    · -- an input is missing, so the run does nothing
      refine Or.inr ⟨fun f key m data released hstores => ?_, ?_⟩
      · have hreleased := (hstarts.stores_iff.mp hstores).2.released
        rw [Graph.journal, Graph.run_missing _ hinputs] at hreleased
        cases hreleased
      · rw [Graph.process, Graph.run_missing _ hinputs]
  · have hnever : ∀ id g, ¬ s.Starts inputs w id g := fun id g h => hstarts ⟨id, g, h⟩
    refine Or.inr ⟨fun f key m data released hstores => ?_, world_of_not_starts hnever⟩
    obtain ⟨id, g, h, -⟩ := hstores
    exact hnever id g h

/-- Taking an entity in leaves the store as it was exactly if each value that was stored, and not
replaced, was there before. -/
theorem process_stored_iff
    (hdetached : ∀ f ∈ s.features.values, f.component.Detached Workspace.SameStored)
    (inputs : Inputs) (w : Workspace) :
    (∀ key, ¬ w.KeepsLogAt key → (s.process inputs w).2.held? key = w.held? key) ↔
      ∀ f key data, s.StoresLast inputs w f key data → ¬ w.KeepsLogAt key →
        w.held? key = some (w.kept f.contentType data) := by
  have hnew := Workspace.untouched_newId w s.idSource inputs
  rcases s.process_cases inputs w with
    ⟨id, g, result, all, r₁, r₂, r₃, hstarts, hcompiled, hcourse, hjournal, hworld⟩ |
    ⟨hnone, hworld⟩
  · have hiff := hcompiled.stored_iff hdetached hcourse
    simp only [Workspace.keepsLogAt_congr hnew.layout, hnew.held, Workspace.kept,
      hnew.layout] at hiff
    simp only [Workspace.kept, hworld, hiff, hstarts.storesLast_iff, hjournal]
    constructor
    · rintro h f _ data ⟨rfl, m, hprevails⟩ hlog
      exact h f m data hprevails hlog
    · exact fun h f m data hprevails hlog => h f _ data ⟨rfl, m, hprevails⟩ hlog
  · rw [hworld]
    refine iff_of_true (fun key _ => hnew.held key) ?_
    rintro f key data ⟨m, released, hstores, -⟩
    exact absurd hstores (hnone f key m data released)

/-- The event log learns only of values that were stored. -/
theorem process_logged
    (hdetached : ∀ f ∈ s.features.values, f.component.Detached Workspace.Untouched)
    (hnone : ∀ f key m data released, ¬ s.Stores inputs w f key m data released) :
    (s.process inputs w).2.logged? = w.logged? := by
  have hnew : (w.newId s.idSource inputs).2.logged? = w.logged? :=
    congrArg (Option.map _) (Workspace.untouched_newId w s.idSource inputs).log
  rw [← hnew]
  rcases s.process_cases inputs w with
    ⟨id, g, result, all, r₁, r₂, r₃, hstarts, hcompiled, hcourse, hjournal, hworld⟩ | ⟨-, hworld⟩
  · rw [hworld]
    refine hcompiled.logged hdetached hcourse fun f m data released hdelivers => ?_
    exact hnone f _ m data released (hstarts.stores_iff.mpr ⟨rfl, hjournal ▸ hdelivers⟩)
  · rw [hworld]

/-- A log in good order keeps its events as they were exactly if it took in no event. -/
theorem process_logged_iff
    (hdetached : ∀ f ∈ s.features.values, f.component.Detached Workspace.Untouched)
    (hsteady : w.Steady) : (s.process inputs w).2.logged? = w.logged? ↔
      ∀ f key m data released, s.Stores inputs w f key m data released → ¬ w.Hears released := by
  have hnew := (Workspace.untouched_newId w s.idSource inputs).log
  have hlogged : (w.newId s.idSource inputs).2.logged? = w.logged? := congrArg (Option.map _) hnew
  rw [← hlogged]
  rcases s.process_cases inputs w with
    ⟨id, g, result, all, r₁, r₂, r₃, hstarts, hcompiled, hcourse, hjournal, hworld⟩ |
    ⟨hnone, hworld⟩
  · have hiff := hcompiled.logged_iff hdetached hcourse (by rwa [Workspace.Steady, hnew])
    simp only [Workspace.Hears, Workspace.logFile?, hnew] at hiff
    simp only [hworld, hiff, hstarts.stores_iff, hjournal, Workspace.Hears, Workspace.logFile?]
    constructor
    · rintro h f _ m data released ⟨rfl, hdelivers⟩
      exact h f m data released hdelivers
    · exact fun h f m data released hdelivers => h f _ m data released ⟨rfl, hdelivers⟩
  · rw [hworld]
    exact iff_of_true rfl fun f key m data released hstores =>
      absurd hstores (hnone f key m data released)

/-- What taking an entity in leaves behind, whether it succeeds or fails. The store is as it was
exactly if each value that was stored, and not replaced, was there before. The event log is as it
was exactly if it took in no event of a value that was stored. -/
theorem leaves_all_as_it_was_iff
    (hdetached : ∀ f ∈ s.features.values, f.component.Detached Workspace.Untouched)
    (inputs : Inputs) (w : Workspace) :
    ((∀ key, ¬ w.KeepsLogAt key → (s.process inputs w).2.held? key = w.held? key) ↔
      ∀ f key data, s.StoresLast inputs w f key data → ¬ w.KeepsLogAt key →
        w.held? key = some (w.kept f.contentType data)) ∧
    ((∀ f key m data released, ¬ s.Stores inputs w f key m data released) →
      (s.process inputs w).2.logged? = w.logged?) ∧
    (w.Steady → ((s.process inputs w).2.logged? = w.logged? ↔
      ∀ f key m data released, s.Stores inputs w f key m data released →
        ¬ w.Hears released)) := by
  refine ⟨process_stored_iff (fun f hf => ?_) inputs w, process_logged hdetached,
    process_logged_iff hdetached⟩
  exact (hdetached f hf).mono fun h => h.toSameStored

end Process

/-! ## A letter whose reply fails -/

/-- It is worked out of the letter, and fails when the letter has ended. -/
def reply : Feature :=
  { letter with
    key := "z"
    component := { letter.component with
      lastChunk := fun s w => (.error (.failed "boom"), s, w) }
    needs := ["a"] }

def answered : Schema := ⟨"s", .delimited ":", .input "id", letters.insert "z" reply⟩

/-- A workspace with an event log in which nothing is stored. -/
def blankLogged : Workspace := { blank with log := some (.inMemory (.new 16)) }

def answeredInputs : Inputs := letterInputs.insert "id" (.text "e")

theorem answered_detached :
    ∀ f ∈ answered.features.values, f.component.Detached Workspace.Untouched := by
  intro f hf
  rcases List.mem_pair.mp (show f ∈ [letter, reply] from hf) with rfl | rfl
  · exact letter_detached .refl
  · have h := letter_detached Workspace.Untouched.refl
    exact { h with lastChunk := fun _ w => .refl w }

theorem blankLogged_steady : blankLogged.Steady := by
  intro log h
  cases h
  exact ⟨fun _ _ _ => rfl, Or.inl rfl⟩

/-- The reply fails when the letter has ended, so its writer stores nothing. The letter's own
writer was called for its end before. -/
theorem letter_stays_without_its_reply :
    build "s" (.delimited ":") (.input "id") [letter, reply] = .ok answered ∧
      (∀ f ∈ answered.features.values, f.component.Detached Workspace.Untouched) ∧
      (answered.process answeredInputs blankLogged).1 =
        .error (.graph (.failed "z" (.failed "boom"))) ∧
      blankLogged.held? "e:a" = none ∧
      (answered.process answeredInputs blankLogged).2.held? "e:a" =
        some (Text.encode "x", some octetStream) ∧
      (blankLogged.logged?.map Dictionary.size) = some 0 ∧
      ((answered.process answeredInputs blankLogged).2.logged?.map Dictionary.size) = some 1 := by
  refine ⟨rfl, answered_detached, ?_, rfl, ?_, rfl, ?_⟩
  all_goals decide +kernel

/-- So of the values that were stored last one is new, and the log has taken in an event. -/
theorem answered_leaves_a_new_value :
    (∀ f ∈ answered.features.values, f.component.Detached Workspace.Untouched) ∧
      blankLogged.Steady ∧
      (∃ f key data, answered.StoresLast answeredInputs blankLogged f key data ∧
        ¬ blankLogged.KeepsLogAt key ∧
        blankLogged.held? key ≠ some (blankLogged.kept f.contentType data)) ∧
      ∃ f key m data released, answered.Stores answeredInputs blankLogged f key m data released ∧
        blankLogged.Hears released := by
  obtain ⟨hstored, -, hlogged⟩ :=
    leaves_all_as_it_was_iff answered_detached answeredInputs blankLogged
  refine ⟨answered_detached, blankLogged_steady, ?_, ?_⟩
  · by_contra hnone
    have hchanged : (answered.process answeredInputs blankLogged).2.held? "e:a" ≠
        blankLogged.held? "e:a" := by decide +kernel
    refine hchanged (hstored.mpr (fun f key data hlast hlog => ?_) "e:a" (by rintro ⟨root, ⟨⟩⟩))
    by_contra hnew
    exact hnone ⟨f, key, data, hlast, hlog, hnew⟩
  · by_contra hnone
    have hgrown : (answered.process answeredInputs blankLogged).2.logged?.map Dictionary.size ≠
        blankLogged.logged?.map Dictionary.size := by decide +kernel
    refine hgrown (congrArg _ ((hlogged blankLogged_steady).mpr ?_))
    exact fun f key m data released hstores hheard =>
      hnone ⟨f, key, m, data, released, hstores, hheard⟩

end Schema

end FeatureGraph
