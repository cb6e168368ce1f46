-- What a full graph stores. A run of it changes the store only under the keys
-- of stored features, and what it puts there is whole: all that the encoder
-- makes of all that the feature's node put out, when that node had been given
-- all that the nodes before it put out. So it is wherever a run may stop.
import FeatureGraph.Proofs.Graph.Chains
import FeatureGraph.Proofs.Run.Committing
import FeatureGraph.Proofs.Schema.Compile

namespace FeatureGraph

namespace Schema

variable {features : Dictionary Feature} {scheme : KeyScheme} {id : String} {g : Graph Workspace}
  {f : Feature} {m u : Nat} {n : Node Workspace}

/-- A graph of the chains of features. -/
structure Compiled (features : Dictionary Feature) (scheme : KeyScheme) (id : String)
    (g : Graph Workspace) : Prop where
  built : g.Built
  serves : ∀ m < g.nodes.length, Serves features scheme id (sitesOf g.nodes) m
  supplied : ∀ f ∈ features.values, ∃ m, Supplied features scheme id (sitesOf g.nodes) f.key m

theorem compiled_prune {schema : String} (h : fullGraph schema features scheme id = .ok g)
    (candidates : List Graph.Candidate) :
    Compiled features scheme id (g.prune candidates).1 := by
  obtain ⟨hlaid, hsupplied⟩ := fullGraph_eq_ok h
  have hsites := Graph.sitesOf_prune g candidates
  have hlength : ∀ nodes : List (Node Workspace), (sitesOf nodes).length = nodes.length :=
    fun _ => List.length_map _
  refine ⟨.prune candidates hlaid.built, fun m hm => ?_, ?_⟩
  · rw [← hlength, hsites] at hm
    rw [hsites]
    exact hlaid.serves m hm
  · rw [hsites]
    exact hsupplied

theorem node_of_site {site : Site Workspace} (h : (sitesOf g.nodes)[m]? = some site) :
    ∃ n, g.nodes[m]? = some n ∧ n.component = site.component ∧ n.needs = site.needs := by
  obtain ⟨n, hn, rfl⟩ := sitesOf_getElem?.mp h
  exact ⟨n, hn, rfl, rfl⟩

theorem component_of_site {site : Site Workspace} (hn : g.nodes[m]? = some n)
    (h : (sitesOf g.nodes)[m]? = some site) : n.component = site.component := by
  obtain ⟨n', hn', hcomponent, -⟩ := node_of_site h
  rw [hn] at hn'
  cases hn'
  exact hcomponent

section Course

variable {P : Workspace → Workspace → Prop} {w : Workspace} {result : Except GraphError Unit}
  {all : Bool} {r₁ r₂ r₃ : Run Workspace}

/-- If the features keep something of the workspace, so does every node but the writers of
stored features. -/
theorem Compiled.detached_or_writes (h : Compiled features scheme id g) (hrefl : ∀ w, P w w)
    (hdetached : ∀ f ∈ features.values, f.component.Detached P) (hn : g.nodes[m]? = some n) :
    n.component.Detached P ∨ ∃ f ∈ features.values, f.isStored = true ∧
      n.component = Component.storing (destination scheme id f) ∧
      Writes features scheme id (sitesOf g.nodes) f m := by
  obtain ⟨f, hf, hworks | ⟨hstored, hencodes | hwrites⟩⟩ :=
    h.serves m (List.getElem?_eq_some_iff.mp hn).1
  · obtain ⟨needs, hsite, -⟩ := hworks
    rw [component_of_site hn hsite]
    exact Or.inl (hdetached f hf)
  · obtain ⟨u, -, hsite⟩ := hencodes
    rw [component_of_site hn hsite]
    exact Or.inl (Component.encoding_detached hrefl f.encoder)
  · have hall := hwrites
    obtain ⟨u, -, hsite⟩ := hall
    exact Or.inr ⟨f, hf, hstored, component_of_site hn hsite, hwrites⟩

/-! ## Until the nodes are released -/

/-- Until the nodes are released, what every node keeps of the workspace is kept. -/
theorem keeps_of_gentle (hrefl : ∀ w, P w w) (htrans : ∀ {a b c}, P a b → P b c → P a c)
    (hgentle : ∀ (m : Nat) n, g.nodes[m]? = some n → n.component.Gentle P)
    (hcourse : g.Course w result all r₁ r₂ r₃) : P w r₂.world := by
  have hopened := hcourse.opens.keeps hrefl htrans (Run.nodup_idsOf ..) hgentle
  refine htrans hopened (hcourse.steps.world hrefl htrans fun m n₁ hn₁ => ?_)
  cases hn : g.nodes[m]? with
  | none =>
    rw [(hcourse.opens.none hn).1] at hn₁
    cases hn₁
  | some n =>
    obtain ⟨n₁', hn₁', ho⟩ := hcourse.opens.opened hn
    rw [hn₁] at hn₁'
    cases hn₁'
    rw [ho.alike.component]
    exact hgentle m n hn

/-- And so is what the features keep: a writer changes nothing before it is released. -/
theorem Compiled.keeps (h : Compiled features scheme id g) (hrefl : ∀ w, P w w)
    (htrans : ∀ {a b c}, P a b → P b c → P a c)
    (hdetached : ∀ f ∈ features.values, f.component.Detached P)
    (hcourse : g.Course w result all r₁ r₂ r₃) : P w r₂.world := by
  refine keeps_of_gentle hrefl htrans (fun m n hn => ?_) hcourse
  rcases h.detached_or_writes hrefl hdetached hn with hd | ⟨f, -, -, hcomponent, -⟩
  · exact hd.toGentle
  · rw [hcomponent]
    exact Component.storing_gentle hrefl _

theorem node_before (hcourse : g.Course w result all r₁ r₂ r₃) {n₂ : Node Workspace}
    (hn₂ : r₂.nodes[m]? = some n₂) : ∃ n, g.nodes[m]? = some n ∧ n₂.component = n.component := by
  have hsize : m < g.nodes.length := by
    have := congrArg Wiring.size hcourse.wiring
    simp only [wiringOf] at this
    exact this ▸ (List.getElem?_eq_some_iff.mp hn₂).1
  obtain ⟨n₁, n₂', -, hopened, hn₂', halike, -⟩ :=
    hcourse.node (List.getElem?_eq_getElem hsize)
  rw [hn₂] at hn₂'
  cases hn₂'
  exact ⟨_, List.getElem?_eq_getElem hsize, halike.component.trans hopened.alike.component⟩

/-- The writer of a feature that a run has acquired is open when the driving is over, and finished
if it was called for its end. -/
theorem Compiled.session (h : Compiled features scheme id g)
    (hcourse : g.Course w result all r₁ r₂ r₃)
    (hwrites : Writes features scheme id (sitesOf g.nodes) f m) {n₂ : Node Workspace}
    (hn₂ : r₂.nodes[m]? = some n₂) (hacquired : n₂.acquired = true) :
    ∃ s writer, n₂.InSession s ∧ s.writer = some writer ∧
      (s.finished = true ↔ ∃ last, Act.lastChunk last ∈ r₂.acts m) := by
  obtain ⟨u, -, hsite⟩ := hwrites
  obtain ⟨n, hn, hc, hneeds⟩ := node_of_site hsite
  obtain ⟨s, writer, hholds, hwriter, -, -, hended, -⟩ :=
    hcourse.session h.built.ready hn hc hneeds hn₂ hacquired
  exact ⟨s, writer, ⟨_, hholds⟩, hwriter, hended⟩

theorem Compiled.orderly (h : Compiled features scheme id g) (hrefl : ∀ w, P w w)
    (hdetached : ∀ f ∈ features.values, f.component.Detached P)
    (hcourse : g.Course w result all r₁ r₂ r₃) :
    ∀ m ∈ Run.idsOf r₂.nodes (·.acquired), ∀ n₂, r₂.nodes[m]? = some n₂ → Run.Orderly P n₂ := by
  intro m hm n₂ hn₂
  obtain ⟨n₂', hn₂', hacquired⟩ := Run.mem_idsOf.mp hm
  rw [hn₂] at hn₂'
  cases hn₂'
  obtain ⟨n, hn, hcomponent⟩ := node_before hcourse hn₂
  rcases h.detached_or_writes hrefl hdetached hn with hd | ⟨f, -, -, -, hwrites⟩
  · exact Or.inl (hcomponent ▸ hd)
  · obtain ⟨s, writer, hsession, hwriter, -⟩ := h.session hcourse hwrites hn₂ hacquired
    exact Or.inr ⟨s, writer, hsession, hwriter⟩

/-- Under a key there is in the end what the last of its writers has stored, or what there was
before the run. -/
theorem Compiled.stored (h : Compiled features scheme id g)
    (hdetached : ∀ f ∈ features.values, f.component.Detached Workspace.SameStored)
    (hcourse : g.Course w result all r₁ r₂ r₃) {key : String} (hlog : ¬ w.KeepsLogAt key) :
    ((∀ m ∈ Run.idsOf r₂.nodes (·.acquired), ∀ value, ¬ Run.Commits r₂ r₃ m key value) ∧
        r₃.world.held? key = w.held? key) ∨
      ∃ before m after value, Run.idsOf r₂.nodes (·.acquired) = before ++ m :: after ∧
        Run.Commits r₂ r₃ m key value ∧ (∀ k ∈ after, ∀ value, ¬ Run.Commits r₂ r₃ k key value) ∧
        r₃.world.held? key = some value := by
  have hsame := h.keeps Workspace.SameStored.refl Workspace.SameStored.trans hdetached hcourse
  rw [← hsame.held key]
  exact hcourse.releases.stored (Run.nodup_idsOf ..)
    (h.orderly Workspace.SameStored.refl hdetached hcourse)
    fun hkeeps => hlog ((Workspace.keepsLogAt_congr hsame.layout).mp hkeeps)

/-! ## What is stored is whole -/

/-- The bytes are the whole value of a feature: its encoder makes them of all that the
feature's node put out, and that node is complete. -/
structure Whole (features : Dictionary Feature) (g : Graph Workspace) (j : List JournalEntry)
    (f : Feature) (m : Nat) (data : Bytes) : Prop where
  worksOut : WorksOut features (sitesOf g.nodes) f m
  complete : Complete (wiringOf g.nodes) j m
  encoded : f.encoder.bytesOf (sentBy j m) = .ok data

theorem flatMap_bytes (runs : List Bytes) :
    (runs.map Payload.bytes).flatMap (fun data => data.bytes?.getD []) = runs.flatten := by
  rw [List.flatMap_map, List.flatten_eq_flatMap]
  rfl

/-- A writer that was called for its end holds the whole value of its feature. -/
theorem Compiled.whole (h : Compiled features scheme id g)
    (hcourse : g.Course w result all r₁ r₂ r₃)
    (hwrites : Writes features scheme id (sitesOf g.nodes) f m) {n₂ : Node Workspace}
    (hn₂ : r₂.nodes[m]? = some n₂) (hacquired : n₂.acquired = true) {s : Component.Session}
    {writer : Writer} (hsession : n₂.InSession s) (hwriter : s.writer = some writer)
    (hfinished : s.finished = true) : writer.key = scheme.build id f.key ∧
      writer.contentType = f.contentType ∧
      ∃ v, Whole features g r₂.journal.reverse f v writer.data := by
  have hready := h.built.ready
  obtain ⟨u, ⟨v, hworks, hencoder⟩, hsite⟩ := hwrites
  obtain ⟨n, hn, hc, hneeds⟩ := node_of_site hsite
  obtain ⟨s', writer', hholds, hwriter', hkey, htype, hended, hdata⟩ :=
    hcourse.session hready hn hc hneeds hn₂ hacquired
  cases hsession.unique ⟨_, hholds⟩
  rw [hwriter] at hwriter'
  cases hwriter'
  -- from the writer's end back to the encoder's, and from there to the end of the feature's node
  have hgiven : ∀ {k p last}, Act.lastChunk last ∈ r₂.acts k → p ∈ (wiringOf g.nodes).needs k →
      Sealed (wiringOf g.nodes) r₂.journal.reverse p := fun hlast hp =>
    (hcourse.sound.given hready.wired hcourse.halted (hcourse.sound.marked hlast) hp).1
  obtain ⟨last, hlast⟩ := hended.mp hfinished
  have hencoded := hgiven hlast (p := u) (by simp [wiringOf, hn, hneeds])
  obtain ⟨ne, hne, hce, hneedse⟩ := node_of_site hencoder
  obtain ⟨out, hout⟩ := hencoded.ended
  have hsealed := hgiven hout (p := v) (by simp [wiringOf, hne, hneedse])
  obtain ⟨runs, hsent, hruns⟩ := hcourse.encoded hready hne hce hneedse hencoded
  refine ⟨hkey, htype, v, hworks, ?_, ?_⟩
  · exact hsealed.complete hcourse.sound hready.wired hcourse.halted
  · rw [Encoder.bytesOf, hruns, hdata hfinished, hsent, flatMap_bytes]
    rfl

/-- What a release stores is the whole value of a stored feature, under its key. -/
theorem Compiled.whole_of_commits (h : Compiled features scheme id g)
    (hdetached : ∀ f ∈ features.values, f.component.Detached Workspace.SameStored)
    (hcourse : g.Course w result all r₁ r₂ r₃) (hm : m ∈ Run.idsOf r₂.nodes (·.acquired))
    {key : String} {value : Bytes × Option String} (hcommits : Run.Commits r₂ r₃ m key value) :
    ∃ f ∈ features.values, f.isStored = true ∧ Writes features scheme id (sitesOf g.nodes) f m ∧
      key = scheme.build id f.key ∧ ∃ v data, Whole features g r₂.journal.reverse f v data ∧
        value = w.kept f.contentType data := by
  obtain ⟨n₂, s, writer, result, hn₂, hsession, hwriter, hfinished, hkey, rfl, -⟩ := hcommits
  obtain ⟨n₂', hn₂', hacquired⟩ := Run.mem_idsOf.mp hm
  rw [hn₂] at hn₂'
  cases hn₂'
  obtain ⟨n, hn, hcomponent⟩ := node_before hcourse hn₂
  rcases h.detached_or_writes Workspace.SameStored.refl hdetached hn with
    hd | ⟨f, hf, hstored, -, hwrites⟩
  · obtain ⟨d, hc, -⟩ := hsession
    rw [← hcomponent, hc] at hd
    exact absurd hd (Component.storing_not_detached d)
  · obtain ⟨hwkey, htype, v, hwhole⟩ :=
      h.whole hcourse hwrites hn₂ hacquired hsession hwriter hfinished
    refine ⟨f, hf, hstored, hwrites, hkey.symm.trans hwkey, v, writer.data, hwhole, ?_⟩
    have hsame := h.keeps Workspace.SameStored.refl Workspace.SameStored.trans hdetached hcourse
    rw [← htype, Workspace.kept, Workspace.kept, hsame.layout]

end Course

theorem Whole.append {j ends : List JournalEntry} {data : Bytes}
    (h : Whole features g j f m data) (hends : ∀ e ∈ ends, e.act.isBracket = true) :
    Whole features g (j ++ ends) f m data := by
  refine ⟨h.worksOut, h.complete.append hends, ?_⟩
  rw [sentBy_append hends]
  exact h.encoded

/-- A run of a full graph, pruned or not, leaves under each key what there was or the whole value
of a stored feature, whatever may fail on the way. A log that is kept in the folder of the store
has its own file there, which is no value. -/
theorem stores_only_whole_values {schema : String} {full : Graph Workspace}
    (hdetached : ∀ f ∈ features.values, f.component.Detached Workspace.SameStored)
    (hfull : fullGraph schema features scheme id = .ok full)
    (candidates : List Graph.Candidate) (hg : (full.prune candidates).1 = g) (inputs : Inputs)
    (w : Workspace) {key : String} (hlog : ¬ w.KeepsLogAt key) :
    (g.process inputs w).2.1.held? key = w.held? key ∨
      ∃ f ∈ features.values, f.isStored = true ∧ key = scheme.build id f.key ∧
        ∃ m data, Whole features g (g.journal inputs w) f m data ∧
          (g.process inputs w).2.1.held? key = some (w.kept f.contentType data) := by
  have h : Compiled features scheme id g := hg ▸ compiled_prune hfull candidates
  by_cases hinputs : (g.roots.all fun root => inputs.contains root.1) = true
  · obtain ⟨all, r₁, r₂, r₃, hcourse, hrun⟩ := Graph.course h.built.ready w hinputs
    obtain ⟨ends, hjournal, hbracket⟩ := hcourse.journal_eq hrun
    have hworld : (g.process inputs w).2.1 = r₃.world :=
      congrArg (fun left => left.2.1) hrun
    rw [hworld, hjournal]
    rcases h.stored hdetached hcourse hlog with
      ⟨-, hheld⟩ | ⟨before, m, after, value, hids, hcommits, -, hheld⟩
    · exact Or.inl hheld
    · have hm : m ∈ Run.idsOf r₂.nodes (·.acquired) := by simp [hids]
      obtain ⟨f, hf, hstored, -, hkey, v, data, hwhole, rfl⟩ :=
        h.whole_of_commits hdetached hcourse hm hcommits
      exact Or.inr ⟨f, hf, hstored, hkey, v, data, hwhole.append hbracket, hheld⟩
  · left
    rw [Graph.process, Graph.run_missing w hinputs]

/-! ## A feature of one chunk -/

/-- A feature that is given from outside and stored as it is. -/
def letter : Feature :=
  { Feature.new "a" (.stateless fun data => .ok [.ok data]) with isStored := true }

def letters : Dictionary Feature := Dictionary.empty.insert "a" letter

/-- Its full graph: its node, its encoder and its writer. -/
def letterGraph : Graph Workspace :=
  ⟨"s:e", [{ Node.new "a" letter.component [] with listeners := [1] },
    { Node.new "a/encoder" (Component.encoding letter.encoder) [0] with listeners := [2] },
    Node.new "a/writer" (Component.storing (destination (.delimited ":") "e" letter)) [1]]⟩

/-- A workspace in which nothing is stored. -/
def blank : Workspace := .new .empty .inMemory ⟨fun _ => 0, fun _ => 0, 0, 0⟩

def letterInputs : Inputs := Dictionary.empty.insert "a" (.literal "x")

theorem letter_detached {P : Workspace → Workspace → Prop} (hrefl : ∀ w, P w w) :
    letter.component.Detached P := Component.stateless_detached hrefl _

theorem blank_keeps_no_log (key : String) : ¬ blank.KeepsLogAt key := by
  rintro ⟨root, heq⟩
  cases heq

/-- The letter comes to be stored, so what is stored is the whole of it. -/
theorem letter_is_stored_whole :
    fullGraph "s" letters (.delimited ":") "e" = .ok letterGraph ∧
      ¬ blank.KeepsLogAt "e:a" ∧
      ∃ f ∈ letters.values, ∃ m data,
        Whole letters (letterGraph.prune [("a", true)]).1
          ((letterGraph.prune [("a", true)]).1.journal letterInputs blank) f m data ∧
        ((letterGraph.prune [("a", true)]).1.process letterInputs blank).2.1.held? "e:a" =
          some (data, some octetStream) := by
  have hfull : fullGraph "s" letters (.delimited ":") "e" = .ok letterGraph := rfl
  refine ⟨hfull, blank_keeps_no_log _, ?_⟩
  have hdetached : ∀ f ∈ letters.values, f.component.Detached Workspace.SameStored := by
    intro f hf
    rw [List.mem_singleton.mp (show f ∈ [letter] from hf)]
    exact letter_detached .refl
  rcases stores_only_whole_values hdetached hfull [("a", true)] rfl letterInputs blank
    (blank_keeps_no_log "e:a") with hkept | ⟨f, hf, -, -, m, data, hwhole, hheld⟩
  · have hchanged : ((letterGraph.prune [("a", true)]).1.process letterInputs
        blank).2.1.held? "e:a" ≠ blank.held? "e:a" := by decide +kernel
    exact absurd hkept hchanged
  · refine ⟨f, hf, m, data, hwhole, hheld.trans ?_⟩
    rw [List.mem_singleton.mp (show f ∈ [letter] from hf)]
    rfl

end Schema

end FeatureGraph
