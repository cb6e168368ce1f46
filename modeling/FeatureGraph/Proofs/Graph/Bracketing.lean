-- Every way out of a run. What was acquired is released, in order and after
-- all the work, whether the acquiring, the driving or another release has
-- failed, and the failure that came first is the one that is answered. So a
-- graph that was run, however that went, is ready to be acquired again.
import FeatureGraph.Proofs.Graph.Calls
import FeatureGraph.Proofs.Run.Stopping

namespace FeatureGraph

variable {W : Type}

/-! ## Tries -/

/-- Nodes that were to be acquired, or to be released, in order, and how that went. -/
abbrev Tries := List (Nat × Except ComponentError Unit)

namespace Tries

def nodes (t : Tries) : List Nat := t.map (·.1)

/-- The nodes for which it did not fail. -/
def succeeded (t : Tries) : List Nat := (t.filter (·.2.isOk)).map (·.1)

/-- The first failure, with the key of its node. -/
def failure (keys : List String) : Tries → Option GraphError
  | [] => none
  | (_, .ok _) :: rest => failure keys rest
  | (id, .error cause) :: _ => some (.failed (keys[id]?.getD "") cause)

def acquiring (t : Tries) : List JournalEntry := t.map fun (id, result) => ⟨id, .acquire result⟩

def releasing (t : Tries) : List JournalEntry := t.map fun (id, result) => ⟨id, .release result⟩

theorem succeeded_sublist (t : Tries) : t.succeeded.Sublist t.nodes :=
  List.Sublist.map _ List.filter_sublist

theorem isBracket {t : Tries} {x : JournalEntry} (h : x ∈ t.acquiring) :
    x.act.isBracket = true := by
  obtain ⟨tried, -, rfl⟩ := List.mem_map.mp h
  rfl

theorem mem_succeeded {t : Tries} {id : Nat} : id ∈ t.succeeded ↔ (id, .ok ()) ∈ t := by
  simp only [succeeded, List.mem_map, List.mem_filter]
  constructor
  · rintro ⟨⟨m, _ | _⟩, ⟨hmem, hok⟩, rfl⟩
    · cases hok
    · exact hmem
  · intro h
    exact ⟨_, ⟨h, rfl⟩, rfl⟩

end Tries

/-- The answer of a run that this has happened to. -/
def answer : Option GraphError → Except GraphError Unit
  | none => .ok ()
  | some e => .error e

namespace Run

/-! ## Keys and flags -/

def keys (r : Run W) : List String := r.nodes.map (·.key)

/-- The nodes that are acquired. -/
def held (r : Run W) : List Nat := idsOf r.nodes (·.acquired)

section Held

variable {r r' : Run W} {id m : Nat} {n n' : Node W} {act : Act} {w : W}

theorem mem_held : m ∈ r.held ↔ ∃ n, r.nodes[m]? = some n ∧ n.acquired = true := mem_idsOf

theorem keys_getElem? (hn : r.nodes[id]? = some n) : r.keys[id]? = some n.key := by
  rw [keys, List.getElem?_map, hn]
  rfl

theorem keys_after (hn : r.nodes[id]? = some n) (hkey : n'.key = n.key) :
    (r.after id act n' w).keys = r.keys := by
  refine List.ext_getElem? fun m => ?_
  rw [keys, keys, List.getElem?_map, List.getElem?_map]
  by_cases hm : id = m
  · subst hm
    rw [after_getElem?_self (List.getElem?_eq_some_iff.mp hn).1, hn]
    exact congrArg some hkey
  · rw [after_getElem?_ne hm]

/-- A call changes the flag of its own node only. -/
theorem mem_held_after (hn : r.nodes[id]? = some n) :
    m ∈ (r.after id act n' w).held ↔ if id = m then n'.acquired = true else m ∈ r.held := by
  rw [mem_held, mem_held]
  split
  · rename_i hm
    subst hm
    rw [after_getElem?_self (List.getElem?_eq_some_iff.mp hn).1]
    simp
  · rename_i hm
    rw [after_getElem?_ne hm]

end Held

/-! ## Acquiring -/

/-- How acquiring goes: nodes are tried in order up to the first failure, and those for which it
does not fail are held. -/
structure OpensAll (ids : List Nat) (r : Run W) (t : Tries) (r' : Run W)
    (result : Except GraphError Unit) : Prop where
  journal : r'.journal.reverse = r.journal.reverse ++ t.acquiring
  order : t.nodes <+: ids
  stops : t.Pairwise fun tried _ => tried.2 = .ok ()
  all : t.failure r.keys = none → t.nodes = ids
  result : result = answer (t.failure r.keys)
  keys : r'.keys = r.keys
  held : ∀ m, m ∈ r'.held ↔ m ∈ r.held ∨ m ∈ t.succeeded

theorem acquire_acquired {n : Node W} {w : W} :
    (n.acquire w).2.1.acquired = ((n.acquire w).1.isOk || n.acquired) := by
  unfold Node.acquire
  rcases n.component.acquire n.state w with ⟨_ | _, s, w'⟩ <;> simp [Except.isOk, Except.toBool]

/-- The run after the acquiring of one node. -/
def acquired (r : Run W) (id : Nat) (n : Node W) : Run W :=
  r.after id (.acquire (n.acquire r.world).1) (n.acquire r.world).2.1 (n.acquire r.world).2.2

section Acquired

variable {r : Run W} {id m : Nat} {n : Node W} {rest : List Nat}

theorem acquireAll_cons (hn : r.nodes[id]? = some n) :
    acquireAll (id :: rest) r = match (n.acquire r.world).1 with
      | .ok _ => acquireAll rest (r.acquired id n)
      | .error cause => (r.acquired id n, .error (.failed n.key cause)) := by
  rw [acquireAll_head hn]
  cases hresult : (n.acquire r.world).1 with
  | ok _ =>
    rw [acquired, hresult]
    rfl
  | error cause =>
    have hkey : (r.acquired id n).nodes[id]? = some (n.acquire r.world).2.1 :=
      after_getElem?_self (List.getElem?_eq_some_iff.mp hn).1
    rw [acquired, hresult] at hkey
    simp [demand, stop, look, Procedure.view, Procedure.fail, Procedure.bind_apply, acquired,
      hresult, hkey, (acquire_alike n r.world).key]

theorem keys_acquired (hn : r.nodes[id]? = some n) : (r.acquired id n).keys = r.keys :=
  keys_after hn (acquire_alike n r.world).key

theorem mem_held_acquired (hn : r.nodes[id]? = some n) :
    m ∈ (r.acquired id n).held ↔ m ∈ r.held ∨ (id = m ∧ (n.acquire r.world).1 = .ok ()) := by
  have hself : id ∈ r.held ↔ n.acquired = true := by simp [mem_held, hn]
  rw [acquired, mem_held_after hn, acquire_acquired]
  split
  · rename_i hm
    subst hm
    rw [hself]
    cases (n.acquire r.world).1 <;> simp [Except.isOk, Except.toBool]
  · rename_i hm
    simp [hm]

end Acquired

/-- Acquiring goes like this, whatever fails. -/
theorem opensAll_acquireAll (ids : List Nat) (r : Run W) (h : ∀ id ∈ ids, id < r.nodes.length) :
    ∃ t, OpensAll ids r t (acquireAll ids r).1 (acquireAll ids r).2 := by
  induction ids generalizing r with
  | nil =>
    refine ⟨[], ?_, List.nil_prefix, .nil, fun _ => rfl, rfl, rfl, fun m => ?_⟩
    · simp [acquireAll, Procedure.each, Tries.acquiring]
    · simp [acquireAll, Procedure.each, Tries.succeeded]
  | cons id rest ih =>
    obtain ⟨hid, hrest⟩ := List.forall_mem_cons.mp h
    obtain ⟨n, hn⟩ : ∃ n, r.nodes[id]? = some n := ⟨_, List.getElem?_eq_getElem hid⟩
    have hkeys := keys_acquired hn
    have hheld := fun m => mem_held_acquired (m := m) hn
    have hjournal : (r.acquired id n).journal.reverse =
        r.journal.reverse ++ [⟨id, .acquire (n.acquire r.world).1⟩] := List.reverse_cons ..
    rw [acquireAll_cons hn]
    cases hresult : (n.acquire r.world).1 with
    | error cause =>
      rw [hresult] at hjournal hheld
      refine ⟨[(id, .error cause)], hjournal, ?_, List.pairwise_singleton .., ?_, ?_, hkeys, ?_⟩
      · simp [Tries.nodes]
      · simp [Tries.failure]
      · simp [Tries.failure, answer, keys_getElem? hn]
      · intro m
        rw [hheld]
        simp [Tries.mem_succeeded]
    | ok _ =>
      rw [hresult] at hjournal hheld
      obtain ⟨t, ht⟩ := ih (r.acquired id n) fun m hm => by
        rw [acquired, after_length]
        exact hrest m hm
      obtain ⟨hafter, horder, hstops, hall, hend, hkeys', hheld'⟩ := ht
      rw [hkeys] at hall hend hkeys'
      refine ⟨(id, .ok ()) :: t, ?_, ?_, ?_, ?_, hend, hkeys', ?_⟩
      · rw [hafter, hjournal]
        simp [Tries.acquiring]
      · exact (List.prefix_cons_inj id).mpr horder
      · exact .cons (fun _ _ => rfl) hstops
      · exact fun hnone => congrArg (id :: ·) (hall hnone)
      · intro m
        rw [hheld', hheld]
        simp only [Tries.mem_succeeded, List.mem_cons, Prod.mk.injEq]
        tauto

/-! ## Releasing -/

/-- How releasing goes: every node is tried, and none of them is held after it. -/
structure ClosesAll (ids : List Nat) (r : Run W) (t : Tries) (r' : Run W)
    (failure : Option GraphError) : Prop where
  journal : r'.journal.reverse = r.journal.reverse ++ t.releasing
  order : t.nodes = ids
  failure : failure = t.failure r.keys
  held : ∀ m, m ∈ r'.held ↔ m ∈ r.held ∧ m ∉ ids

/-- The run after the release of one node. -/
def released (r : Run W) (id : Nat) (n : Node W) : Run W :=
  r.after id (.release (n.release r.world).1) (n.release r.world).2.1 (n.release r.world).2.2

section Released

variable {r r' : Run W} {id m : Nat} {n : Node W} {rest : List Nat} {others : Option GraphError}

theorem releaseAll_cons (hn : r.nodes[id]? = some n)
    (hrest : releaseAll rest (r.released id n) = (r', .ok others)) :
    releaseAll (id :: rest) r = (r', .ok (match (n.release r.world).1 with
      | .ok _ => others
      | .error cause => some (.failed n.key cause))) := by
  have hkey : (r.released id n).nodes[id]? = some (n.release r.world).2.1 :=
    after_getElem?_self (List.getElem?_eq_some_iff.mp hn).1
  rw [releaseAll]
  simp only [Procedure.bind_apply, hook_apply hn, look, Procedure.view]
  rw [released] at hrest hkey
  rw [hrest, hkey]
  cases (n.release r.world).1 <;> rfl

theorem keys_released (hn : r.nodes[id]? = some n) : (r.released id n).keys = r.keys :=
  keys_after hn rfl

theorem mem_held_released (hn : r.nodes[id]? = some n) :
    m ∈ (r.released id n).held ↔ m ∈ r.held ∧ m ≠ id := by
  rw [released, mem_held_after hn]
  split
  · rename_i hm
    simp [Node.release, hm]
  · rename_i hm
    simp [Ne.symm hm]

end Released

/-- Releasing goes like this, whatever fails. -/
theorem closesAll_releaseAll (ids : List Nat) (r : Run W) (h : ∀ id ∈ ids, id < r.nodes.length) :
    ∃ t r' failure, releaseAll ids r = (r', .ok failure) ∧ ClosesAll ids r t r' failure := by
  induction ids generalizing r with
  | nil => exact ⟨[], r, none, rfl, by simp [Tries.releasing], rfl, rfl, by simp⟩
  | cons id rest ih =>
    obtain ⟨hid, hrest⟩ := List.forall_mem_cons.mp h
    obtain ⟨n, hn⟩ : ∃ n, r.nodes[id]? = some n := ⟨_, List.getElem?_eq_getElem hid⟩
    have hjournal : (r.released id n).journal.reverse =
        r.journal.reverse ++ [⟨id, .release (n.release r.world).1⟩] := List.reverse_cons ..
    obtain ⟨t, r', others, heq, hafter, horder, hfailure, hheld⟩ := ih (r.released id n)
      fun m hm => by
        rw [released, after_length]
        exact hrest m hm
    rw [keys_released hn] at hfailure
    refine ⟨(id, (n.release r.world).1) :: t, r', _, releaseAll_cons hn heq, ?_, ?_, ?_, ?_⟩
    · rw [hafter, hjournal]
      simp [Tries.releasing]
    · exact congrArg (id :: ·) horder
    · cases (n.release r.world).1 with
      | ok _ => exact hfailure
      | error cause => simp [Tries.failure, keys_getElem? hn]
    · intro m
      rw [hheld, mem_held_released hn, List.mem_cons]
      tauto

/-! ## Driving -/

section Steps

variable {r r' : Run W} {m : Nat}

theorem Steps.keys (h : Steps r r') : r'.keys = r.keys := by
  refine h.keep (I := fun r' => r'.keys = r.keys) rfl fun r₁ r₂ hstep hr₁ => ?_
  cases hstep with
  | call hook hn => exact (keys_after hn (hook.alike _ _).1.key).trans hr₁
  | emit => exact hr₁
  | finalize =>
    rw [← hr₁]
    unfold Run.keys
    exact Graph.map_modify fun _ => rfl

theorem Steps.held (h : Steps r r') (m : Nat) : m ∈ r'.held ↔ m ∈ r.held := by
  have hlength : r'.nodes.length = r.nodes.length := by
    simpa [Run.keys] using congrArg List.length h.keys
  rw [mem_held, mem_held]
  cases hn : r.nodes[m]? with
  | none =>
    rw [List.getElem?_eq_none_iff, ← hlength, ← List.getElem?_eq_none_iff] at hn
    simp [hn]
  | some n =>
    obtain ⟨n', hn', -, hacquired⟩ := h.alike hn
    simp [hn', hacquired]

/-- Nothing is acquired or released while the roots are driven. -/
theorem Steps.journal (h : Steps r r') : ∃ work : List JournalEntry,
    r'.journal.reverse = r.journal.reverse ++ work ∧ ∀ x ∈ work, x.act.isBracket = false := by
  refine h.keep (I := fun r' => ∃ work : List JournalEntry,
    r'.journal.reverse = r.journal.reverse ++ work ∧ ∀ x ∈ work, x.act.isBracket = false)
    ⟨[], by simp⟩ ?_
  rintro r₁ r₂ hstep ⟨work, hwork, hall⟩
  cases hstep with
  | @call hook _ id n hn =>
    refine ⟨work ++ [⟨id, (hook.call n r₁.world).1⟩], by simp [hwork], ?_⟩
    have hone : (hook.call n r₁.world).1.isBracket = false := by
      cases hook <;> rfl
    simpa [or_imp, forall_and, hone] using hall
  | emit _ id chunk =>
    exact ⟨work ++ [⟨id, .emit chunk⟩], by simp [hwork],
      by simpa [or_imp, forall_and, Act.isBracket] using hall⟩
  | finalize => exact ⟨work, hwork, hall⟩

end Steps

end Run

/-- What came before the work stops nothing. -/
theorem StoppedBy.drop {front work : List JournalEntry} {id : Nat} {cause : ComponentError}
    (hfront : ∀ x ∈ front, x.act.isBracket = true) (h : StoppedBy (front ++ work) id cause) :
    StoppedBy work id cause := by
  cases h with
  | @call before act hlast hact hbefore =>
    rcases List.eq_nil_or_concat work with rfl | ⟨work, last, rfl⟩
    · have hmem : ⟨id, act⟩ ∈ front ++ [] := hlast ▸ by simp
      have hsilent := hfront ⟨id, act⟩ (by simpa using hmem)
      cases act <;> simp_all [Act.isBracket, Act.failure?]
    · rw [List.concat_eq_append] at hlast ⊢
      rw [← List.append_assoc] at hlast
      obtain ⟨rfl, heq⟩ := List.append_inj' hlast rfl
      cases heq
      exact .call rfl hact fun x hx => hbefore x (List.mem_append_right _ hx)
  | @chunk act out rest hact hout hok hcalls =>
    refine .chunk ?_ hout hok fun x hx => hcalls x (List.mem_append_right _ hx)
    rw [actsAt_append] at hact
    refine (List.mem_append.mp hact).resolve_left fun hmem => ?_
    have hsilent := silent_actsAt hfront id act hmem
    cases act <;> simp_all [Act.isBracket, Act.output]

/-! ## A whole run -/

/-- How the driving ended: smoothly, or with the first failure. -/
inductive Driven (keys : List String) (work : List JournalEntry) : Option GraphError → Prop
  | smooth : Smooth work → Driven keys work none
  | stopped {id : Nat} {key : String} {cause : ComponentError} :
      keys[id]? = some key → StoppedBy work id cause →
      Driven keys work (some (.failed key cause))

/-- A run in its three parts: the acquiring, the driving with the failure that it stopped at, and
the releases. -/
structure Bracketing where
  opened : Tries
  work : List JournalEntry
  driving : Option GraphError
  closed : Tries

def Bracketing.journal (b : Bracketing) : List JournalEntry :=
  b.opened.acquiring ++ b.work ++ b.closed.releasing

/-- How a run of a graph that answers `result` is bracketed. -/
structure Bracketed (g : Graph W) (inputs : Inputs) (world : W) (b : Bracketing)
    (result : Except GraphError Unit) : Prop where
  /-- The nodes that are not pruned are acquired in order, each at most once, -/
  order : b.opened.nodes <+: Run.idsOf g.nodes fun n => !n.pruned
  sorted : b.opened.nodes.Pairwise (· < ·)
  /-- up to the first that fails. -/
  stops : b.opened.Pairwise fun tried _ => tried.2 = .ok ()
  all : b.opened.failure (g.nodes.map (·.key)) = none →
    b.opened.nodes = Run.idsOf g.nodes fun n => !n.pruned
  /-- If one fails no root is driven. -/
  idle : b.opened.failure (g.nodes.map (·.key)) ≠ none → b.work = [] ∧ b.driving = none
  /-- Else the roots are driven, to the end or up to the first failure. -/
  drives : b.opened.failure (g.nodes.map (·.key)) = none → ∃ r₁ r₂,
    Run.acquireAll (Run.idsOf g.nodes fun n => !n.pruned) ⟨g.nodes, world, []⟩ = (r₁, .ok ()) ∧
      Run.drive (Run.receive g.nodes.length) (g.driven inputs) r₁ = (r₂, answer b.driving) ∧
      r₂.journal.reverse = b.opened.acquiring ++ b.work
  work : ∀ x ∈ b.work, x.act.isBracket = false
  driven : Driven (g.nodes.map (·.key)) b.work b.driving
  /-- Exactly the nodes that could be acquired are released, in order, each once. -/
  closes : b.closed.nodes = b.opened.succeeded
  /-- The answer is the failure of the acquiring, else of the driving, else of the releases. -/
  answers : result = answer ((b.opened.failure (g.nodes.map (·.key))).or
    (b.driving.or (b.closed.failure (g.nodes.map (·.key)))))

/-! ## All parts of a run -/

namespace Run

variable {r r₁ r₂ r₃ : Run W} {result : Except GraphError Unit} {failure : Option GraphError}
  {t : Tries} {ids : List Nat} {inputs : List (Nat × Payload)}

/-- If nothing was held before, the nodes that could be acquired are held while the roots are
driven. -/
theorem OpensAll.succeeded (h : OpensAll ids r t r₁ result) (hnone : ∀ m, m ∉ r.held)
    (hids : ids.Pairwise (· < ·)) (hheld : ∀ m, m ∈ r₂.held ↔ m ∈ r₁.held) :
    r₂.held = t.succeeded := by
  have hsorted : t.succeeded.Pairwise (· < ·) :=
    (hids.sublist h.order.sublist).sublist t.succeeded_sublist
  refine eq_of_sorted (sorted_idsOf ..) hsorted fun m => ?_
  rw [hheld, h.held]
  simp [hnone]

/-- The driving, from a run that has only acquired nodes. -/
theorem driven_drive (hbracket : ∀ x ∈ r₁.journal, x.act.isBracket = true) (depth : Nat)
    (inputs : List (Nat × Payload)) :
    ∃ work driving, (drive (receive depth) inputs r₁).1.journal.reverse = r₁.journal.reverse ++ work ∧
      (∀ x ∈ work, x.act.isBracket = false) ∧ Driven r₁.keys work driving ∧
      (drive (receive depth) inputs r₁).2 = answer driving := by
  have howing : Owing [] r₁ := by
    refine ⟨fun x hx => ?_, by simp, fun x hx e he => ?_⟩
    · have hact := hbracket x hx
      cases h : x.act <;> simp_all [Act.isBracket, Act.failure?]
    · have hact := hbracket x hx
      cases h : x.act <;> simp_all [Act.isBracket, Act.output]
  have hsteps := goes_drive (goes_receive depth) inputs r₁
  have hsends := sends_drive (forwards_receive depth) inputs r₁ howing
  obtain ⟨work, hwork, hplain⟩ := hsteps.journal
  have hkeys := hsteps.keys
  unfold Procedure.Settles at hsends
  rcases hdrive : drive (receive depth) inputs r₁ with ⟨r₂, e | _⟩
  all_goals rw [hdrive] at hsends hwork hkeys
  · obtain ⟨id, n, cause, hn, rfl, hstopped⟩ := hsends
    rw [hwork] at hstopped
    refine ⟨work, some (.failed n.key cause), hwork, hplain, .stopped ?_ (hstopped.drop ?_), rfl⟩
    · rw [← hkeys]
      exact keys_getElem? hn
    · exact fun x hx => hbracket x (List.mem_reverse.mp hx)
  · refine ⟨work, none, hwork, hplain, .smooth fun x hx => ?_, rfl⟩
    refine hsends.smooth x ?_
    rw [hwork]
    exact List.mem_append_right _ hx

/-- How far a run comes before the releases: what was tried, the work that was done, and the
failure that the driving stopped at. -/
structure Reaches (ids : List Nat) (inputs : List (Nat × Payload)) (depth : Nat) (r : Run W)
    (t : Tries) (work : List JournalEntry) (driving : Option GraphError) (r₂ : Run W) : Prop where
  opens : ∃ r₁, OpensAll ids r t r₁ (answer (t.failure r.keys))
  idle : t.failure r.keys ≠ none → work = [] ∧ driving = none
  drives : t.failure r.keys = none → ∃ r₁, acquireAll ids r = (r₁, .ok ()) ∧
    drive (receive depth) inputs r₁ = (r₂, answer driving)
  journal : r₂.journal.reverse = t.acquiring ++ work
  plain : ∀ x ∈ work, x.act.isBracket = false
  driven : Driven r.keys work driving
  keys : r₂.keys = r.keys
  held : r₂.held = t.succeeded

theorem reaches_run (hempty : r.journal = []) (hnone : ∀ m, m ∉ r.held)
    (hids : ids.Pairwise (· < ·)) (hlt : ∀ id ∈ ids, id < r.nodes.length) (depth : Nat)
    (inputs : List (Nat × Payload)) :
    ∃ t work driving r₂, Reaches ids inputs depth r t work driving r₂ ∧
      (acquireAll ids >>= fun _ => drive (receive depth) inputs) r =
        (r₂, answer ((t.failure r.keys).or driving)) := by
  obtain ⟨t, hopens⟩ := opensAll_acquireAll ids r hlt
  rcases hacquire : acquireAll ids r with ⟨r₁, opened⟩
  rw [hacquire] at hopens
  obtain rfl : opened = answer (t.failure r.keys) := hopens.result
  have hjournal : r₁.journal.reverse = t.acquiring := by simpa [hempty] using hopens.journal
  rw [Procedure.bind_apply, hacquire]
  cases hfailure : t.failure r.keys with
  | some e =>
    refine ⟨t, [], none, r₁, ⟨⟨r₁, hopens⟩, fun _ => ⟨rfl, rfl⟩, by simp [hfailure],
      by simpa using hjournal, by simp, .smooth (by simp [Smooth]), hopens.keys,
      hopens.succeeded hnone hids fun _ => Iff.rfl⟩, ?_⟩
    rw [hfailure]
    rfl
  | none =>
    have hbracket : ∀ x ∈ r₁.journal, x.act.isBracket = true := fun x hx =>
      Tries.isBracket (hjournal ▸ List.mem_reverse.mpr hx)
    obtain ⟨work, driving, hwork, hplain, hdriven, hanswer⟩ := driven_drive hbracket depth inputs
    have hsteps := goes_drive (goes_receive depth) inputs r₁
    have hdrive : drive (receive depth) inputs r₁ =
        ((drive (receive depth) inputs r₁).1, answer driving) := by rw [← hanswer]
    refine ⟨t, work, driving, (drive (receive depth) inputs r₁).1, ⟨⟨r₁, hopens⟩,
      fun hne => absurd hfailure hne, fun _ => ⟨r₁, ?_, hdrive⟩, hjournal ▸ hwork, hplain,
      hopens.keys ▸ hdriven, hsteps.keys.trans hopens.keys,
      hopens.succeeded hnone hids hsteps.held⟩, ?_⟩
    · rw [hacquire, hfailure]
      rfl
    · rw [hfailure, Option.none_or]
      exact hdrive

/-- A failure of a release is answered only if nothing has failed before. -/
theorem whole_eq {first : Option GraphError}
    (hrun : (acquireAll (idsOf r.nodes fun n => !n.pruned) >>= fun _ =>
      drive (receive r.nodes.length) inputs) r = (r₂, answer first))
    (hrelease : releaseAll r₂.held r₂ = (r₃, .ok failure)) :
    whole inputs r = (r₃, answer (first.or failure)) := by
  unfold held at hrelease
  unfold whole
  simp only [hrun, hrelease]
  cases first with
  | some e => rfl
  | none => cases failure <;> rfl

end Run

namespace Graph

variable {g : Graph W}

/-- Every run in which there is an input for every root is bracketed, and leaves no node
acquired. -/
theorem bracketed_whole (hnone : ∀ n ∈ g.nodes, n.acquired = false) (inputs : Inputs)
    (world : W) :
    ∃ b r result, Run.whole (g.driven inputs) ⟨g.nodes, world, []⟩ = (r, result) ∧
      r.journal.reverse = b.journal ∧ Bracketed g inputs world b result ∧ ∀ m, m ∉ r.held := by
  let r : Run W := ⟨g.nodes, world, []⟩
  have hempty : ∀ m, m ∉ r.held := by
    intro m hm
    obtain ⟨n, hn, hacquired⟩ := Run.mem_held.mp hm
    exact Bool.false_ne_true ((hnone n (List.mem_of_getElem? hn)).symm.trans hacquired)
  have hids := Run.sorted_idsOf g.nodes fun n => !n.pruned
  obtain ⟨t, work, driving, r₂, hreaches, hrun⟩ := Run.reaches_run (r := r) rfl hempty hids
    (fun _ hid => Run.lt_of_mem_idsOf hid) g.nodes.length (g.driven inputs)
  obtain ⟨c, r₃, failure, hrelease, hcloses⟩ := Run.closesAll_releaseAll r₂.held r₂
    fun id hid => Run.lt_of_mem_idsOf hid
  obtain ⟨r₁, hopens⟩ := hreaches.opens
  refine ⟨⟨t, work, driving, c⟩, r₃, _, Run.whole_eq hrun hrelease, ?_, ⟨hopens.order,
    hids.sublist hopens.order.sublist, hopens.stops, hopens.all, hreaches.idle, fun hfailure => ?_,
    hreaches.plain, hreaches.driven, hcloses.order.trans hreaches.held, ?_⟩, ?_⟩
  · rw [hcloses.journal, hreaches.journal]
    rfl
  · obtain ⟨r₁, hacquire, hdrive⟩ := hreaches.drives hfailure
    exact ⟨r₁, r₂, hacquire, hdrive, hreaches.journal⟩
  · rw [hcloses.failure, hreaches.keys, Option.or_assoc]
    rfl
  · intro m hm
    obtain ⟨hheld, hnot⟩ := (hcloses.held m).mp hm
    exact hnot hheld

/-! ## Graphs that are run -/

/-- The graphs that there can be: built, and run as often as one likes, in any order. -/
inductive Handled : Graph W → Prop
  | empty (name : String) : Handled (Graph.empty name)
  | add {g g' : Graph W} {key : String} {c : Component W} {needs : List Nat} {id : Nat} :
      Handled g → g.add key c needs = .ok (id, g') → Handled g'
  | disconnect {g g' : Graph W} {id : Nat} : Handled g → g.disconnect id = .ok g' → Handled g'
  | prune {g : Graph W} (candidates : List Candidate) : Handled g → Handled (g.prune candidates).1
  | process {g : Graph W} (inputs : Inputs) (world : W) :
      Handled g → Handled (g.process inputs world).1

/-- No node is acquired. -/
def Idle (g : Graph W) : Prop := ∀ n ∈ g.nodes, n.acquired = false

theorem Idle.unlink (h : g.Idle) (id : Nat) (needs : List Nat) : (g.unlink id needs).Idle :=
  forall_foldl_modify (P := fun n => n.acquired = false) h fun _ hn => hn

theorem Idle.pruneOne (h : g.Idle) (c : Candidate) : (g.pruneOne c).1.Idle := by
  unfold Graph.pruneOne
  split
  · exact h
  · split
    · exact h
    · split
      · exact h
      · exact forall_modify (P := fun n => n.acquired = false) (h.unlink _ _) fun _ hn => hn

theorem Idle.pruneRound (h : g.Idle) (cs : List Candidate) : (g.pruneRound cs).1.Idle := by
  induction cs generalizing g with
  | nil => exact h
  | cons c rest ih => exact ih (h.pruneOne c)

theorem Idle.pruneRounds (h : g.Idle) (cs : List Candidate) (fuel : Nat) :
    (pruneRounds cs fuel g).1.Idle := by
  induction fuel generalizing g with
  | zero => exact h
  | succ fuel ih =>
    have hround := h.pruneRound cs
    unfold Graph.pruneRounds
    split
    · rename_i heq
      rw [heq] at hround
      exact hround
    · rename_i heq
      rw [heq] at hround
      exact ih hround

theorem Idle.process (h : g.Idle) (inputs : Inputs) (world : W) :
    (g.process inputs world).1.Idle := by
  unfold Graph.process
  by_cases hinputs : (g.roots.all fun root => inputs.contains root.1) = true
  · obtain ⟨b, r, result, hwhole, -, -, hnone⟩ := bracketed_whole h inputs world
    rw [run, if_pos hinputs, hwhole]
    intro n hn
    obtain ⟨m, hm⟩ := List.getElem?_of_mem hn
    exact Bool.eq_false_iff.mpr fun hacquired => hnone m (Run.mem_held.mpr ⟨n, hm, hacquired⟩)
  · rw [run_missing world hinputs]
    exact h

/-- Between two runs no node is acquired. -/
theorem Handled.idle (h : g.Handled) : g.Idle := by
  induction h with
  | empty name => exact fun n hn => absurd hn List.not_mem_nil
  | add _ hadd ih =>
    obtain ⟨-, -, -, rfl⟩ := add_eq_ok hadd
    intro n hn
    rcases List.mem_append.mp hn with hn | hn
    · exact forall_foldl_modify (P := fun n => n.acquired = false)
        (f := fun n => { n with listeners := n.listeners ++ [_] }) ih (fun _ hn => hn) n hn
    · rw [List.mem_singleton.mp hn]
      rfl
  | disconnect _ hcut ih =>
    unfold Graph.disconnect at hcut
    split at hcut
    · cases hcut
    · cases hcut
      exact ih.unlink _ _
  | prune cs _ ih => exact ih.pruneRounds cs _
  | process inputs world _ ih => exact ih.process inputs world

/-- Whatever fails in a run, what was acquired is released, and the failure that came first is
answered. Without an input for every root nothing happens at all. -/
theorem every_way_out_releases (h : g.Handled) (inputs : Inputs) (world : W) :
    ((g.roots.all fun (key, _) => inputs.contains key) = true →
      ∃ b : Bracketing, g.journal inputs world = b.journal ∧
        Bracketed g inputs world b (g.process inputs world).2.2) ∧
    ((g.roots.all fun (key, _) => inputs.contains key) = false →
      g.journal inputs world = [] ∧ g.process inputs world =
        (g, world, .error (.missingRootInputs (g.roots.map (·.1)) inputs.keys))) := by
  constructor
  · intro hinputs
    obtain ⟨b, r, result, hwhole, hjournal, hbracketed, -⟩ :=
      bracketed_whole h.idle inputs world
    refine ⟨b, ?_, ?_⟩
    · rw [journal, run, if_pos hinputs, hwhole]
      exact hjournal
    · rw [Graph.process, run, if_pos hinputs, hwhole]
      exact hbracketed
  · intro hinputs
    have hmissing := run_missing world (Bool.eq_false_iff.mp hinputs)
    rw [journal, Graph.process, hmissing]
    exact ⟨rfl, rfl⟩

/-- Work that fails, and a release that fails too. -/
def failing : Component Unit where
  State := Unit
  start := ()
  transform _ s w := (.error (.failed "no work"), s, w)
  release s w := (.error (.failed "no release"), s, w)

def broken : Graph Unit := ⟨"broken", [Node.new "a" failing []]⟩

theorem broken_handled : broken.Handled :=
  .add (.empty "broken")
    (show (Graph.empty "broken").add "a" failing [] = .ok (0, broken) from rfl)

/-- A graph whose run has failed is run again: the failure of the work is answered, and not that
of the release. -/
theorem broken_is_run_again :
    (broken.process oneChunk ()).1.Handled ∧
      (∃ b : Bracketing, (broken.process oneChunk ()).1.journal oneChunk () = b.journal ∧
        Bracketed (broken.process oneChunk ()).1 oneChunk () b
          ((broken.process oneChunk ()).1.process oneChunk ()).2.2) ∧
      ((broken.process oneChunk ()).1.process oneChunk ()).2.2 =
        .error (.failed "a" (.failed "no work")) := by
  have hhandled := broken_handled.process oneChunk ()
  refine ⟨hhandled, ?_, by decide +kernel⟩
  exact (every_way_out_releases hhandled oneChunk ()).1 (by decide +kernel)

end Graph

end FeatureGraph
