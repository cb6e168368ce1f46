-- How a whole run goes: the nodes are acquired, the roots are driven, and
-- what was acquired is released. It comes to its end with every node at rest,
-- or it stops, and what holds at every moment still holds.
import FeatureGraph.Proofs.Dictionary
import FeatureGraph.Proofs.Run.Bracket
import FeatureGraph.Proofs.Run.Halting
import FeatureGraph.Proofs.Run.Driving

namespace FeatureGraph

variable {W : Type} {net : Wiring} {L : Ledger}

/-! ## Before the roots are driven -/

/-- Nothing has happened but that nodes were acquired or released. -/
def Silent (acts : List Act) : Prop := ∀ act ∈ acts, act.isBracket = true

section Silent

variable {acts : List Act} (h : Silent acts)

include h

theorem Silent.work : acts.filter Act.isWork = [] := by
  refine List.filter_eq_nil_iff.mpr fun act hact => ?_
  have := h act hact
  cases act <;> simp_all [Act.isBracket, Act.isWork]

theorem Silent.sent : acts.filterMap Act.sent? = [] := by
  refine List.filterMap_eq_nil_iff.mpr fun act hact => ?_
  have := h act hact
  cases act <;> simp_all [Act.isBracket, Act.sent?]

theorem Silent.received (input : Nat) : acts.filterMap (Act.received? input) = [] := by
  refine List.filterMap_eq_nil_iff.mpr fun act hact => ?_
  have := h act hact
  cases act <;> simp_all [Act.isBracket, Act.received?]

theorem Silent.output : acts.flatMap Act.output = [] := by
  refine List.flatMap_eq_nil_iff.mpr fun act hact => ?_
  have := h act hact
  cases act <;> simp_all [Act.isBracket, Act.output]

end Silent

theorem mem_actsAt {j : List JournalEntry} {e : JournalEntry} (h : e ∈ j) :
    e.act ∈ actsAt j e.node := List.mem_filterMap.mpr ⟨e, h, if_pos rfl⟩

/-- Before the roots are driven everything is at rest. -/
theorem AtRest.start (hsilent : ∀ m, Silent (actsAt L.journal m))
    (hended : ∀ m, L.ended m = false) (hfinalized : ∀ m, L.finalized m = [])
    (henqueued : ∀ m, L.enqueued m = []) : AtRest net (fun _ => .idle) L := by
  have hwork : ∀ m, workAt L.journal m = [] := fun m => (hsilent m).work
  have hsent : ∀ m, sentBy L.journal m = [] := fun m => (hsilent m).sent
  have hout : ∀ m, outputOf L.journal m = [] := fun m => (hsilent m).output
  have hin : ∀ m u, received net L.journal m u = [] := fun m u => (hsilent m).received _
  have hfree : ∀ m, Open L m := fun m k hk => by simp [hfinalized k] at hk
  have hbalanced : ∀ m, Balanced net L.journal m := fun m k _ => by rw [hin, due, hsent]; rfl
  have hlife : ∀ m, CutShort (net.life m) [] := fun m => by
    by_cases hroot : net.Root m
    · exact net.life_root hroot ▸ .whole .idle
    · exact net.life_not_root hroot ▸ .whole (.running .nil)
  refine ⟨⟨?_, ?_, ?_, ?_, ?_, ?_, ?_, ?_, ?_, ?_, ?_, ?_, ?_⟩, fun m _ hroot => ?_, fun v hv => ?_⟩
  · simp [hfinalized]
  · simp [hfinalized]
  · simp [henqueued]
  · exact fun _ hreceived => absurd (hin _ _) hreceived
  · simp [hin]
  · simp [henqueued]
  · simp [hfinalized]
  · simp [hfinalized]
  · simp [hended]
  · intro m result hm
    cases hsilent m _ hm
  · intro m
    rw [hwork]
    exact hlife m
  · intro before after m got heq
    have hmem := mem_actsAt (e := ⟨m, .dequeue true got⟩) (heq ▸ List.mem_append_cons_self)
    cases hsilent m _ hmem
  · exact fun _ => hwork _
  · refine ⟨?_, ?_, hbalanced m, fun _ => hfree m, by simp [hended], fun _ hflag => ?_⟩
    · rw [hended, hwork]
      exact .running .nil
    · rw [AllSent, hout, hsent]
      rfl
    · obtain ⟨u, hu⟩ := List.exists_mem_of_ne_nil _ hroot
      have hlength := List.length_pos_of_mem (List.mem_eraseDups.mpr hu)
      simp only [Ledger.isFinalized, hfinalized, List.length_nil, Nat.le_zero, Bool.and_eq_true,
        decide_eq_true_eq] at hflag
      omega
  · refine ⟨?_, hended v, fun _ => hfree v, ?_, hbalanced v, by simp [Phase.ended]⟩
    · rw [hwork]
      exact .idle
    · rw [hout, hsent]
      rfl

namespace Run

/-! ## What acquiring leaves -/

section Opening

variable {n n' : Node W} {acts : List Act}

theorem acquire_eq (n : Node W) (w : W) :
    ∃ acquired, (n.acquire w).2.1 =
      { n with state := (n.component.acquire n.state w).2.1, acquired } := by
  unfold Node.acquire
  generalize n.component.acquire n.state w = answer
  obtain ⟨_ | _, state, w'⟩ := answer
  · exact ⟨_, rfl⟩
  · exact ⟨_, rfl⟩

theorem acquire_result (n : Node W) (w : W) :
    (n.acquire w).1 = (n.component.acquire n.state w).1 := by
  unfold Node.acquire
  rcases n.component.acquire n.state w with ⟨_ | _, _, _⟩ <;> rfl

theorem acquire_alike (n : Node W) (w : W) : Alike n (n.acquire w).2.1 := by
  obtain ⟨acquired, heq⟩ := acquire_eq n w
  rw [heq]
  exact ⟨rfl, rfl, rfl, rfl, rfl⟩

theorem Opened.alike (h : Opened n n' acts) : Alike n n' := by
  cases h with
  | untouched => exact ⟨rfl, rfl, rfl, rfl, rfl⟩
  | tried w => exact acquire_alike n w

theorem Opened.record (h : Opened n n' acts) :
    n'.completed = n.completed ∧ n'.finalized = n.finalized ∧ n'.enqueued = n.enqueued := by
  cases h with
  | untouched => exact ⟨rfl, rfl, rfl⟩
  | tried w =>
    obtain ⟨acquired, heq⟩ := acquire_eq n w
    rw [heq]
    exact ⟨rfl, rfl, rfl⟩

theorem Opened.silent (h : Opened n n' acts) : Silent acts := by
  cases h with
  | untouched => simp [Silent]
  | tried w => simp [Silent, Act.isBracket]

/-- A node counts as acquired exactly if its acquiring succeeded. -/
theorem Opened.acquired (h : Opened n n' acts) (hfresh : n.acquired = false) :
    (n'.acquired = true ∧ acts = [.acquire (.ok ())]) ∨
      (n'.acquired = false ∧ (acts = [] ∨ ∃ e, acts = [.acquire (.error e)])) := by
  cases h with
  | untouched => exact Or.inr ⟨hfresh, Or.inl rfl⟩
  | tried w =>
    unfold Node.acquire
    generalize n.component.acquire n.state w = answer
    obtain ⟨_ | _, state, w'⟩ := answer
    · exact Or.inr ⟨hfresh, Or.inr ⟨_, rfl⟩⟩
    · exact Or.inl ⟨rfl, rfl⟩

end Opening

theorem wiringOf_congr {nodes nodes' : List (Node W)} (hlength : nodes'.length = nodes.length)
    (h : ∀ {m : Nat} {n : Node W}, nodes[m]? = some n → ∃ n', nodes'[m]? = some n' ∧ Alike n n') :
    wiringOf nodes' = wiringOf nodes := by
  have hat : ∀ {α : Type} (f : Node W → α) (absent : α), (∀ n n', Alike n n' → f n' = f n) →
      ∀ m : Nat, (nodes'[m]?.map f).getD absent = (nodes[m]?.map f).getD absent := by
    intro α f absent hf m
    cases hn : nodes[m]? with
    | none =>
      have : nodes'[m]? = none := by
        rw [List.getElem?_eq_none_iff] at hn ⊢
        omega
      rw [this]
    | some n =>
      obtain ⟨n', hn', halike⟩ := h hn
      simp [hn', hf n n' halike]
  simp only [wiringOf, Wiring.mk.injEq]
  refine ⟨hlength, ?_, ?_, ?_⟩ <;> funext m
  · exact hat _ _ (fun _ _ h => h.needs) m
  · exact hat _ _ (fun _ _ h => h.listeners) m
  · exact hat _ _ (fun _ _ h => h.pruned) m

end Run

/-! ## The roots of a graph -/

namespace Graph

variable {g : Graph W}

theorem mem_index (h : (g.nodes.map (·.key)).Nodup) {key : String} {id : Nat} :
    (key, id) ∈ g.index.toList ↔ ∃ n, g.nodes[id]? = some n ∧ n.key = key := by
  have hmem : (key, id) ∈ (g.nodes.zipIdx.map fun node => (node.1.key, node.2)) ↔
      ∃ n, g.nodes[id]? = some n ∧ n.key = key := by
    simp only [List.mem_map, Prod.exists, Prod.mk.injEq, List.mem_zipIdx_iff_getElem?]
    constructor
    · rintro ⟨n, _, hn, hkey, rfl⟩
      exact ⟨n, hn, hkey⟩
    · rintro ⟨n, hn, hkey⟩
      exact ⟨n, id, hn, hkey, rfl⟩
  refine ⟨fun hin => hmem.mp (Dictionary.mem_of_mem_ofList hin), fun hn => ?_⟩
  refine Dictionary.get?_eq_some.mp (Dictionary.get?_ofList ?_ (hmem.mpr hn))
  rw [List.map_map]
  have hkeys : (Prod.fst ∘ fun node : Node W × Nat => (node.1.key, node.2)) =
      (·.key) ∘ Prod.fst := rfl
  rw [hkeys, ← List.map_map, List.zipIdx_map_fst]
  exact h

theorem mem_roots (h : (g.nodes.map (·.key)).Nodup) {key : String} {id : Nat} :
    (key, id) ∈ g.roots ↔ ∃ n, g.nodes[id]? = some n ∧ n.key = key ∧ n.isRoot = true := by
  rw [roots, select, List.mem_filter, mem_index h]
  constructor
  · rintro ⟨⟨n, hn, hkey⟩, hroot⟩
    simp only [hn, Option.map_some, Option.getD_some] at hroot
    exact ⟨n, hn, hkey, hroot⟩
  · rintro ⟨n, hn, hkey, hroot⟩
    exact ⟨⟨n, hn, hkey⟩, by simp [hn, hroot]⟩

/-- If the first node is a root and no other is, it is all there is to drive. -/
theorem roots_of_first {n : Node W} {rest : List (Node W)} {key : String}
    (hnodes : g.nodes = n :: rest) (hkey : n.key = key) (h : (g.nodes.map (·.key)).Nodup)
    (hfirst : n.isRoot = true) (hrest : ∀ m ∈ rest, m.isRoot = false) : g.roots = [(key, 0)] := by
  subst hkey
  have hnodup : g.roots.Nodup := by
    have hsorted := g.index.sorted.imp fun {a b} hlt (heq : a = b) =>
      String.lt_irrefl _ (heq ▸ hlt)
    exact hsorted.filter _
  refine List.perm_singleton.mp
    ((List.perm_ext_iff_of_nodup hnodup (List.nodup_singleton _)).mpr ?_)
  rintro ⟨key, id⟩
  rw [mem_roots h, hnodes, List.mem_singleton, Prod.mk.injEq]
  constructor
  · rintro ⟨m, hm, rfl, hroot⟩
    cases id with
    | zero =>
      cases hm
      exact ⟨rfl, rfl⟩
    | succ id =>
      rw [hrest m (List.mem_of_getElem? hm)] at hroot
      cases hroot
  · rintro ⟨rfl, rfl⟩
    exact ⟨n, rfl, rfl, hfirst⟩

/-- The root of an entry of `roots` that is run, with its input. -/
theorem mem_driven (h : g.Ready) {inputs : Inputs} {id : Nat} {data : Payload} :
    (id, data) ∈ g.driven inputs ↔
      ∃ n, g.nodes[id]? = some n ∧ n.isRoot = true ∧ n.pruned = false ∧
        inputs.get? n.key = some data := by
  simp only [driven, List.mem_filterMap, Prod.exists]
  constructor
  · rintro ⟨key, v, hroot, hdata⟩
    obtain ⟨n, hn, rfl, hisRoot⟩ := (mem_roots h.distinct).mp hroot
    simp only [hn, Option.map_some, Option.getD_some] at hdata
    split at hdata
    · cases hdata
    · rename_i hpruned
      obtain ⟨d, hd, heq⟩ := Option.map_eq_some_iff.mp hdata
      cases heq
      exact ⟨n, hn, hisRoot, by simpa using hpruned, hd⟩
  · rintro ⟨n, hn, hisRoot, hpruned, hdata⟩
    exact ⟨n.key, id, (mem_roots h.distinct).mpr ⟨n, hn, rfl, hisRoot⟩,
      by simp [hn, hpruned, hdata]⟩

theorem nodup_driven (h : g.Ready) (inputs : Inputs) : (numbersOf (g.driven inputs)).Nodup := by
  -- two entries of the index with one number are of one node, so they have one key
  have hindex : (g.index.toList.map Prod.snd).Nodup := by
    rw [List.Nodup, List.pairwise_map]
    refine g.index.sorted.imp_of_mem fun {a b} ha hb hlt heq => ?_
    obtain ⟨n, hn, hkey⟩ := (mem_index h.distinct).mp (show (a.1, a.2) ∈ g.index.toList from ha)
    obtain ⟨n', hn', hkey'⟩ := (mem_index h.distinct).mp (show (b.1, b.2) ∈ g.index.toList from hb)
    rw [heq, hn'] at hn
    cases hn
    rw [← hkey, ← hkey'] at hlt
    exact String.lt_irrefl _ hlt
  have hroots : (g.roots.map Prod.snd).Nodup := hindex.sublist (List.filter_sublist.map _)
  refine hroots.sublist ?_
  rw [driven, numbersOf]
  refine map_filterMap_sublist (fun ⟨key, id⟩ s hs => ?_) _
  dsimp only at hs
  split at hs
  · contradiction
  · obtain ⟨d, _, rfl⟩ := Option.map_eq_some_iff.mp hs
    rfl

theorem drivable (h : g.Ready) (inputs : Inputs) :
    Drivable (wiringOf g.nodes) (g.driven inputs) := by
  have hmem : ∀ s ∈ g.driven inputs, ∃ n, g.nodes[s.1]? = some n ∧ n.isRoot = true ∧
      n.pruned = false := fun s hs => by
    obtain ⟨n, hn, hroot, hpruned, -⟩ := (mem_driven h).mp hs
    exact ⟨n, hn, hroot, hpruned⟩
  refine ⟨nodup_driven h inputs, fun s hs => ?_, fun s hs => ?_, fun s hs => ?_⟩
  · obtain ⟨n, hn, hroot, -⟩ := hmem s hs
    simpa [Wiring.Root, wiringOf, hn, Node.isRoot] using hroot
  · obtain ⟨n, hn, -⟩ := hmem s hs
    exact (List.getElem?_eq_some_iff.mp hn).1
  · obtain ⟨n, hn, -, hpruned⟩ := hmem s hs
    simpa [wiringOf, hn] using hpruned

/-- Every root that is not pruned is driven, if there is an input for it. -/
theorem mem_numbersOf_driven (h : g.Ready) {inputs : Inputs}
    (hinputs : (g.roots.all fun (key, _) => inputs.contains key) = true) {id : Nat} {n : Node W}
    (hn : g.nodes[id]? = some n) (hroot : n.isRoot = true) (hpruned : n.pruned = false) :
    id ∈ numbersOf (g.driven inputs) := by
  have hkey := List.all_eq_true.mp hinputs _ ((mem_roots h.distinct).mpr ⟨n, hn, rfl, hroot⟩)
  obtain ⟨data, hdata⟩ := Option.isSome_iff_exists.mp hkey
  exact List.mem_map_of_mem ((mem_driven h).mpr ⟨n, hn, hroot, hpruned, hdata⟩)

/-! ## A whole run -/

section Opening

variable {world : W} {all : Bool} {r₁ : Run W} {m : Nat}

/-- The nodes that a run acquires. -/
abbrev Opens (g : Graph W) (world : W) (all : Bool) (r₁ : Run W) : Prop :=
  Run.Acquires all (Run.idsOf g.nodes fun n => !n.pruned) ⟨g.nodes, world, []⟩ r₁

theorem opens_acquireAll (g : Graph W) (world : W) :
    g.Opens world (Run.acquireAll (Run.idsOf g.nodes fun n => !n.pruned) ⟨g.nodes, world, []⟩).2.isOk
      (Run.acquireAll (Run.idsOf g.nodes fun n => !n.pruned) ⟨g.nodes, world, []⟩).1 :=
  Run.acquires_acquireAll _ _ fun _ => Run.lt_of_mem_idsOf

theorem Opens.opened (h : g.Opens world all r₁) {n : Node W} (hn : g.nodes[m]? = some n) :
    ∃ n', r₁.nodes[m]? = some n' ∧ Run.Opened n n' (r₁.acts m) := by
  obtain ⟨n', hn', hopened, -⟩ := Run.Acquires.opened h (Run.nodup_idsOf ..) hn rfl
  exact ⟨n', hn', hopened⟩

theorem Opens.none (h : g.Opens world all r₁) (hm : g.nodes[m]? = none) :
    r₁.nodes[m]? = none ∧ r₁.acts m = [] := by
  have hout : m ∉ Run.idsOf g.nodes fun n => !n.pruned := fun hmem =>
    Nat.not_le_of_lt (Run.lt_of_mem_idsOf hmem) (List.getElem?_eq_none_iff.mp hm)
  obtain ⟨hnode, hacts⟩ := Run.Acquires.other h hout
  exact ⟨hnode.trans hm, hacts⟩

theorem Opens.components (h : g.Opens world all r₁) :
    r₁.nodes.map (·.component) = g.nodes.map (·.component) := by
  refine List.ext_getElem? fun m => ?_
  rw [List.getElem?_map, List.getElem?_map]
  cases hn : g.nodes[m]? with
  | none => rw [(h.none hn).1]
  | some n =>
    obtain ⟨n', hn', hopened⟩ := h.opened hn
    rw [hn']
    exact congrArg some hopened.alike.component

theorem Opens.silent (h : g.Opens world all r₁) (m : Nat) : Silent (r₁.acts m) := by
  cases hn : g.nodes[m]? with
  | none => exact fun act hact => absurd ((h.none hn).2 ▸ hact) List.not_mem_nil
  | some n =>
    obtain ⟨n', -, hopened⟩ := h.opened hn
    exact hopened.silent

theorem Opens.live (h : g.Opens world all r₁) {act : Act} (hact : act ∈ r₁.acts m) :
    ∃ n, g.nodes[m]? = some n ∧ n.pruned = false := by
  by_contra hnot
  have hout : m ∉ Run.idsOf g.nodes fun n => !n.pruned := fun hmem => by
    obtain ⟨n, hn, hlive⟩ := Run.mem_idsOf.mp hmem
    exact hnot ⟨n, hn, by simpa using hlive⟩
  rw [(Run.Acquires.other h hout).2] at hact
  exact List.not_mem_nil hact

theorem opening (h : g.Ready) (hopens : g.Opens world all r₁) :
    wiringOf r₁.nodes = wiringOf g.nodes ∧
      AtRest (wiringOf g.nodes) (fun _ => .idle) r₁.ledger := by
  have hstart : ∀ m, r₁.ledger.ended m = false ∧
      r₁.ledger.finalized m = [] ∧ r₁.ledger.enqueued m = [] := fun m => by
    cases hn : g.nodes[m]? with
    | none =>
      simp [Run.ledger, (hopens.none hn).1]
    | some n =>
      obtain ⟨n', hn', ho⟩ := hopens.opened hn
      obtain ⟨hcompleted, hfinalized, henqueued⟩ := ho.record
      have hfresh := h.fresh n (List.mem_of_getElem? hn)
      simp [Run.ledger, hn', hcompleted, hfinalized, henqueued, hfresh.completed,
        hfresh.finalized, hfresh.enqueued]
  refine ⟨Run.wiringOf_congr (Run.Acquires.length hopens) fun hn => ?_, .start hopens.silent
    (fun m => (hstart m).1) (fun m => (hstart m).2.1) fun m => (hstart m).2.2⟩
  obtain ⟨n', hn', ho⟩ := hopens.opened hn
  exact ⟨n', hn', ho.alike⟩

/-- Acquiring is no work that could fail. -/
theorem Opens.upright (h : g.Opens world all r₁) (hwiring : wiringOf r₁.nodes = wiringOf g.nodes) :
    Run.Upright (wiringOf g.nodes) r₁ := by
  have hbracket : ∀ e ∈ r₁.journal, e.act.isBracket = true := fun e he =>
    h.silent e.node e.act (mem_actsAt (List.mem_reverse.mpr he))
  refine ⟨hwiring, fun e he input data heq => ?_, fun e he => ?_⟩
  · have := hbracket e he
    rw [heq] at this
    cases this
  · have := hbracket e he
    cases hact : e.act <;> simp_all [Act.isBracket, Act.failed]

end Opening

/-- How a run goes, with this result: from `r₁`, where the acquiring has come to its end, to
`r₂`, where the driving has, and to `r₃`. -/
structure Course (g : Graph W) (world : W) (result : Except GraphError Unit) (all : Bool)
    (r₁ r₂ r₃ : Run W) : Prop where
  opens : g.Opens world all r₁
  steps : Run.Steps r₁ r₂
  /-- Nothing is driven if a node cannot be acquired. -/
  stopped : all = false → r₂ = r₁
  wiring : wiringOf r₂.nodes = wiringOf g.nodes
  sound : Sound (wiringOf g.nodes) r₂.ledger
  halted : Run.Halted (wiringOf g.nodes) r₂
  atRest : result = .ok () → ∃ phase, AtRest (wiringOf g.nodes) phase r₂.ledger ∧
    (∀ v n, g.nodes[v]? = some n → n.isRoot = true → n.pruned = false → phase v = .done) ∧
    ∀ v, phase v = .done ∨ phase v = .idle
  releases : Run.Releases (Run.idsOf r₂.nodes (·.acquired)) r₂ r₃
  /-- A run that answers has acquired and released without a failure. One that does not has failed
  at that, or while its roots were driven. -/
  answers : ∃ ends : List JournalEntry, r₃.journal.reverse = r₂.journal.reverse ++ ends ∧
    (result = .ok () → all = true ∧ ∀ e ∈ ends, e.act = .release (.ok ())) ∧
    (result ≠ .ok () → all = false ∨ r₂.ledger.Failing ∨ ∃ e ∈ ends, e.act ≠ .release (.ok ()))

/-- Every run of a graph that was not run before goes like this, if there is an input for every
root. -/
theorem course (h : g.Ready) {inputs : Inputs} (world : W)
    (hinputs : (g.roots.all fun (key, _) => inputs.contains key) = true) :
    ∃ all r₁ r₂ r₃, g.Course world (g.run inputs world).2 all r₁ r₂ r₃ ∧
      (g.run inputs world).1 = ({ g with nodes := r₃.nodes }, r₃.world, r₃.journal.reverse) := by
  have hacquires := g.opens_acquireAll world
  rw [run, if_pos hinputs, Run.whole]
  simp only [Procedure.bind_apply]
  generalize Run.acquireAll (Run.idsOf g.nodes fun n => !n.pruned) ⟨g.nodes, world, []⟩ = acquired
    at hacquires ⊢
  obtain ⟨r₁, e | _⟩ := acquired
  · obtain ⟨hwiring, hrest⟩ := opening h hacquires
    obtain ⟨r₃, failure, heq, hreleases, ends, hends, -⟩ := Run.releases_held r₁
    refine ⟨false, r₁, r₁, r₃, ⟨hacquires, .refl, fun _ => rfl, hwiring, hrest.sound,
      (Opens.upright hacquires hwiring).halted, ?_, hreleases, ends, hends, ?_, ?_⟩, ?_⟩
    · simp
    · simp
    · simp
    · simp [heq]
  · obtain ⟨hwiring, hrest⟩ := opening h hacquires
    have hsteps := Run.goes_drive (Run.goes_receive g.nodes.length) (g.driven inputs) r₁
    have hsafe := safe_drive h.wired (receives_receive h.wired g.nodes.length 0 (Nat.le_refl _))
      (g.driven inputs) (drivable h inputs) hrest r₁ hwiring rfl
    have hstops := Run.stops_drive (Run.stops_receive g.nodes.length) (g.driven inputs)
      (drivable h inputs).root r₁ (Opens.upright hacquires hwiring)
    unfold Procedure.Ensures at hsafe hstops
    rcases hdrive : Run.drive (Run.receive g.nodes.length) (g.driven inputs) r₁ with ⟨r₂, e | _⟩
    all_goals rw [hdrive] at hsteps hsafe hstops
    · obtain ⟨r₃, failure, heq, hreleases, ends, hends, -⟩ := Run.releases_held r₂
      refine ⟨true, r₁, r₂, r₃, ⟨hacquires, hsteps, by simp, hsafe.1, hsafe.2.toSound, hstops, ?_,
        hreleases, ends, hends, ?_, ?_⟩, ?_⟩
      · simp [hdrive, heq]
      · simp [hdrive, heq]
      · exact fun _ => Or.inr (Or.inl hsafe.2.failing)
      · simp [hdrive, heq]
    · obtain ⟨hwiring₂, phase, hrest₂, hover, hidle⟩ := hsafe
      obtain ⟨r₃, failure, heq, hreleases, ends, hends, hnone⟩ := Run.releases_held r₂
      refine ⟨true, r₁, r₂, r₃, ⟨hacquires, hsteps, by simp, hwiring₂, hrest₂.sound, hstops.halted,
        fun _ => ⟨phase, hrest₂, fun v n hn hroot hpruned =>
          hover v (mem_numbersOf_driven h hinputs hn hroot hpruned), fun v => ?_⟩,
        hreleases, ends, hends, ?_, ?_⟩, ?_⟩
      · by_cases hv : v ∈ numbersOf (g.driven inputs)
        · exact Or.inl (hover v hv)
        · exact Or.inr (hidle v hv)
      · simp only [hdrive, heq]
        cases failure with
        | none => exact fun _ => ⟨trivial, hnone.mp rfl⟩
        | some e => simp
      · simp only [hdrive, heq]
        cases failure with
        | none => simp
        | some e =>
          have hsome := (not_congr hnone).mp (by simp)
          exact fun _ => Or.inr (Or.inr (by simpa using hsome))
      · simp only [hdrive, heq]
        cases failure <;> rfl

end Graph

end FeatureGraph
