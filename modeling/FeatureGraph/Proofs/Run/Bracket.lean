-- Acquiring and releasing. Nodes are acquired in order up to the first that
-- fails, each at most once; those that were acquired are released in order,
-- each exactly once, also after a failure.
import FeatureGraph.Proofs.Lists
import FeatureGraph.Proofs.Run.Steps

namespace FeatureGraph

variable {W : Type}

namespace Run

/-- The run after a call at a node. -/
def after (r : Run W) (id : Nat) (act : Act) (n : Node W) (world : W) : Run W :=
  ⟨r.nodes.set id n, world, ⟨id, act⟩ :: r.journal⟩

section After

variable {r : Run W} {id m : Nat} {act : Act} {n : Node W} {w : W}

theorem after_acts : (r.after id act n w).acts m = r.acts m ++ if id = m then [act] else [] :=
  acts_note ..

theorem after_getElem?_self (h : id < r.nodes.length) :
    (r.after id act n w).nodes[id]? = some n := List.getElem?_set_self h

theorem after_getElem?_ne (h : id ≠ m) : (r.after id act n w).nodes[m]? = r.nodes[m]? :=
  List.getElem?_set_ne h

theorem after_other (h : id ≠ m) : (r.after id act n w).nodes[m]? = r.nodes[m]? ∧
    (r.after id act n w).acts m = r.acts m := by
  refine ⟨after_getElem?_ne h, ?_⟩
  rw [after_acts, if_neg h, List.append_nil]

/-- What holds of a node and of the nodes after it still holds of these once it was called. -/
theorem forall_after {ids : List Nat} {P : Nat → Node W → Prop} (hid : id ∉ ids)
    (h : ∀ m ∈ id :: ids, ∀ n, r.nodes[m]? = some n → P m n) :
    ∀ m ∈ ids, ∀ n', (r.after id act n w).nodes[m]? = some n' → P m n' := by
  intro m hm n' hn'
  rw [after_getElem?_ne (ne_of_mem_of_not_mem hm hid).symm] at hn'
  exact h m (List.mem_cons_of_mem _ hm) n' hn'

theorem after_length : (r.after id act n w).nodes.length = r.nodes.length := List.length_set

theorem hook_apply {α : Type} {absent : α} {call : Node W → W → α × Node W × W}
    {act : Node W → α → Act} (hn : r.nodes[id]? = some n) :
    hook id absent call act r =
      (r.after id (act n (call n r.world).1) (call n r.world).2.1 (call n r.world).2.2,
        .ok (call n r.world).1) := by
  simp [hook, hn, after]

end After

/-! ## The nodes with a property -/

theorem mem_idsOf {nodes : List (Node W)} {p : Node W → Bool} {id : Nat} :
    id ∈ idsOf nodes p ↔ ∃ n, nodes[id]? = some n ∧ p n = true := by
  simp only [idsOf, List.mem_filterMap, Prod.exists, List.mem_zipIdx_iff_getElem?]
  constructor
  · rintro ⟨n, k, hn, hid⟩
    split at hid
    · cases hid
      exact ⟨n, hn, by assumption⟩
    · cases hid
  · rintro ⟨n, hn, hp⟩
    exact ⟨n, id, hn, by simp [hp]⟩

theorem lt_of_mem_idsOf {nodes : List (Node W)} {p : Node W → Bool} {id : Nat}
    (h : id ∈ idsOf nodes p) : id < nodes.length := by
  obtain ⟨n, hn, -⟩ := mem_idsOf.mp h
  exact (List.getElem?_eq_some_iff.mp hn).1

theorem sublist_idsOf (nodes : List (Node W)) (p : Node W → Bool) :
    (idsOf nodes p).Sublist (List.range' 0 nodes.length) := by
  have hsub : ((idsOf nodes p).map fun id => id).Sublist (nodes.zipIdx.map Prod.snd) := by
    refine map_filterMap_sublist (fun ⟨n, i⟩ id h => ?_) nodes.zipIdx
    dsimp only at h
    split at h
    · exact (Option.some.inj h).symm
    · contradiction
  rwa [List.map_id', List.zipIdx_map_snd] at hsub

theorem nodup_idsOf (nodes : List (Node W)) (p : Node W → Bool) : (idsOf nodes p).Nodup :=
  List.Nodup.sublist (sublist_idsOf nodes p) List.nodup_range'

theorem sorted_idsOf (nodes : List (Node W)) (p : Node W → Bool) :
    (idsOf nodes p).Pairwise (· < ·) :=
  List.Pairwise.sublist (sublist_idsOf nodes p) List.pairwise_lt_range'

/-! ## Acquiring -/

/-- Acquiring nodes in order; all of them, or up to one that fails. -/
inductive Acquires : (all : Bool) → List Nat → Run W → Run W → Prop
  | nil (r : Run W) : Acquires true [] r r
  | stop {r : Run W} {id : Nat} {rest : List Nat} {n : Node W} {e : ComponentError} :
      r.nodes[id]? = some n → (n.acquire r.world).1 = .error e →
      Acquires false (id :: rest) r
        (r.after id (.acquire (.error e)) (n.acquire r.world).2.1 (n.acquire r.world).2.2)
  | cons {r r' : Run W} {id : Nat} {rest : List Nat} {n : Node W} {all : Bool} :
      r.nodes[id]? = some n → (n.acquire r.world).1 = .ok () →
      Acquires all rest
        (r.after id (.acquire (.ok ())) (n.acquire r.world).2.1 (n.acquire r.world).2.2) r' →
      Acquires all (id :: rest) r r'

/-- The first node is acquired, and then the others unless that has failed. -/
theorem acquireAll_head {r : Run W} {id : Nat} {n : Node W} (hn : r.nodes[id]? = some n)
    (rest : List Nat) :
    acquireAll (id :: rest) r = (demand id (n.acquire r.world).1 >>= fun _ => acquireAll rest)
      (r.after id (.acquire (n.acquire r.world).1) (n.acquire r.world).2.1
        (n.acquire r.world).2.2) := by
  have heq : acquireAll (id :: rest) r =
      ((do
        let result ← hook id (.ok ()) Node.acquire fun _ result => .acquire result
        demand id result) >>= fun _ => acquireAll rest) r := rfl
  rw [heq, Procedure.bind_apply, Procedure.bind_apply, hook_apply hn]
  rfl

/-- Acquiring goes as `Acquires` says: it answers exactly if all nodes could be acquired. -/
theorem acquires_acquireAll (ids : List Nat) (r : Run W) (h : ∀ id ∈ ids, id < r.nodes.length) :
    Acquires (acquireAll ids r).2.isOk ids r (acquireAll ids r).1 := by
  induction ids generalizing r with
  | nil => exact .nil r
  | cons id rest ih =>
    have hid := h id List.mem_cons_self
    obtain ⟨n, hn⟩ : ∃ n, r.nodes[id]? = some n := ⟨_, List.getElem?_eq_getElem hid⟩
    rw [acquireAll_head hn]
    cases hresult : (n.acquire r.world).1 with
    | error e => exact .stop hn hresult
    | ok _ =>
      refine .cons hn hresult (ih _ fun m hm => ?_)
      rw [after_length]
      exact h m (List.mem_cons_of_mem _ hm)

/-- A node before the roots are driven: as it was, or as its acquiring left it. -/
inductive Opened (n : Node W) : Node W → List Act → Prop
  | untouched : Opened n n []
  | tried (w : W) : Opened n (n.acquire w).2.1 [.acquire (n.acquire w).1]

theorem Acquires.length {all : Bool} {ids : List Nat} {r r' : Run W} (h : Acquires all ids r r') :
    r'.nodes.length = r.nodes.length := by
  induction h with
  | nil => rfl
  | stop _ _ => exact after_length
  | cons _ _ _ ih => exact ih.trans after_length

theorem Acquires.other {all : Bool} {ids : List Nat} {r r' : Run W} (h : Acquires all ids r r')
    {m : Nat} (hm : m ∉ ids) : r'.nodes[m]? = r.nodes[m]? ∧ r'.acts m = r.acts m := by
  induction h with
  | nil => exact ⟨rfl, rfl⟩
  | stop hn _ => exact after_other (Ne.symm (List.ne_of_not_mem_cons hm))
  | cons hn _ _ ih =>
    obtain ⟨hnodes, hacts⟩ := ih (List.not_mem_of_not_mem_cons hm)
    obtain ⟨hnodes', hacts'⟩ := after_other (Ne.symm (List.ne_of_not_mem_cons hm))
    exact ⟨hnodes.trans hnodes', hacts.trans hacts'⟩

/-- Each node is acquired at most once; all of them are, if none fails. -/
theorem Acquires.opened {all : Bool} {ids : List Nat} {r r' : Run W} (h : Acquires all ids r r')
    (hnodup : ids.Nodup) {m : Nat} {n : Node W} (hn : r.nodes[m]? = some n)
    (hacts : r.acts m = []) :
    ∃ n', r'.nodes[m]? = some n' ∧ Opened n n' (r'.acts m) ∧
      (all = true → m ∈ ids → r'.acts m = [.acquire (.ok ())]) := by
  induction h with
  | nil => exact ⟨n, hn, hacts ▸ .untouched, by simp⟩
  | @stop r id rest n₁ e hn₁ hresult =>
    by_cases hid : id = m
    · subst hid
      rw [hn] at hn₁
      cases hn₁
      refine ⟨_, after_getElem?_self (List.getElem?_eq_some_iff.mp hn).1, ?_, by simp⟩
      rw [after_acts, hacts, if_pos rfl, ← hresult]
      exact .tried r.world
    · obtain ⟨hnode, hsame⟩ := after_other hid
      refine ⟨n, hnode.trans hn, ?_, by simp⟩
      rw [hsame, hacts]
      exact .untouched
  | @cons r r' id rest n₁ all hn₁ hresult hrest ih =>
    obtain ⟨hid, hnodup⟩ := List.nodup_cons.mp hnodup
    by_cases hidm : id = m
    · subst hidm
      rw [hn] at hn₁
      cases hn₁
      obtain ⟨hnode, hafter⟩ := hrest.other hid
      rw [after_getElem?_self (List.getElem?_eq_some_iff.mp hn).1] at hnode
      rw [after_acts, hacts, if_pos rfl, List.nil_append] at hafter
      refine ⟨_, hnode, ?_, fun _ _ => hafter⟩
      rw [hafter, ← hresult]
      exact .tried r.world
    · obtain ⟨hnode, hsame⟩ := after_other hidm
      obtain ⟨n', hn', hopened, hall⟩ := ih hnodup (hnode.trans hn) (hsame.trans hacts)
      refine ⟨n', hn', hopened, fun ht hm => hall ht ?_⟩
      exact (List.mem_cons.mp hm).resolve_left (Ne.symm hidm)

/-- What every acquiring keeps of the surroundings is kept. -/
theorem Acquires.world {all : Bool} {ids : List Nat} {r r' : Run W} (h : Acquires all ids r r')
    (hnodup : ids.Nodup) {I : W → Prop}
    (hI : ∀ id ∈ ids, ∀ n, r.nodes[id]? = some n → ∀ w, I w → I (n.acquire w).2.2)
    (hr : I r.world) : I r'.world := by
  induction h with
  | nil => exact hr
  | stop hn _ => exact hI _ List.mem_cons_self _ hn _ hr
  | cons hn _ _ ih =>
    obtain ⟨hid, hnodup⟩ := List.nodup_cons.mp hnodup
    exact ih hnodup (forall_after hid hI) (hI _ List.mem_cons_self _ hn _ hr)

/-! ## Releasing -/

/-- Releasing nodes in order. -/
inductive Releases : List Nat → Run W → Run W → Prop
  | nil (r : Run W) : Releases [] r r
  | cons {r r' : Run W} {id : Nat} {rest : List Nat} {n : Node W} :
      r.nodes[id]? = some n →
      Releases rest (r.after id (.release (n.release r.world).1) (n.release r.world).2.1
        (n.release r.world).2.2) r' →
      Releases (id :: rest) r r'

/-- Releasing comes to its end, whatever fails on the way. -/
theorem releases_releaseAll (ids : List Nat) (r : Run W) (h : ∀ id ∈ ids, id < r.nodes.length) :
    ∃ r' failure, releaseAll ids r = (r', .ok failure) ∧ Releases ids r r' := by
  induction ids generalizing r with
  | nil => exact ⟨r, none, rfl, .nil r⟩
  | cons id rest ih =>
    have hid := h id List.mem_cons_self
    obtain ⟨n, hn⟩ : ∃ n, r.nodes[id]? = some n := ⟨_, List.getElem?_eq_getElem hid⟩
    obtain ⟨r', failure, hrest, hreleases⟩ := ih (r.after id (.release (n.release r.world).1)
        (n.release r.world).2.1 (n.release r.world).2.2) fun m hm => by
      rw [after_length]
      exact h m (List.mem_cons_of_mem _ hm)
    rw [releaseAll]
    simp only [Procedure.bind_apply, hook_apply hn, look, Procedure.view, hrest]
    cases (n.release r.world).1 with
    | ok _ => exact ⟨r', failure, rfl, .cons hn hreleases⟩
    | error e => exact ⟨r', _, rfl, .cons hn hreleases⟩

/-- What releasing adds to the journal says whether a release has failed. -/
theorem releaseAll_journal {ids : List Nat} {r r' : Run W} {failure : Option GraphError}
    (h : releaseAll ids r = (r', .ok failure)) :
    ∃ ends : List JournalEntry, r'.journal.reverse = r.journal.reverse ++ ends ∧
      (failure = none ↔ ∀ e ∈ ends, e.act = .release (.ok ())) := by
  induction ids generalizing r r' failure with
  | nil =>
    cases h
    exact ⟨[], by simp⟩
  | cons id rest ih =>
    rw [releaseAll] at h
    simp only [Procedure.bind_apply, look, Procedure.view] at h
    rcases hn : r.nodes[id]? with _ | n
    · simp only [hook, hn] at h
      rcases hrest : releaseAll rest r with ⟨r₁, _ | others⟩
      all_goals
        rw [hrest] at h
        cases h
      exact ih hrest
    · simp only [hook_apply hn] at h
      rcases hrest : releaseAll rest (r.after id (.release (n.release r.world).1)
        (n.release r.world).2.1 (n.release r.world).2.2) with ⟨r₁, _ | others⟩
      all_goals simp only [hrest] at h
      · cases h
      · obtain ⟨ends, hends, hnone⟩ := ih hrest
        have hends' : r₁.journal.reverse =
            r.journal.reverse ++ ⟨id, .release (n.release r.world).1⟩ :: ends := by
          simpa [after] using hends
        cases hresult : (n.release r.world).1 with
        | ok _ =>
          rw [hresult] at h hends'
          cases h
          exact ⟨_, hends', by simpa using hnone⟩
        | error e =>
          rw [hresult] at h hends'
          cases h
          exact ⟨_, hends', by simp⟩

/-- Releasing the nodes that are held comes to its end. It answers with a failure unless each of
them is released without one. -/
theorem releases_held (r : Run W) :
    ∃ r' failure, releaseAll (idsOf r.nodes (·.acquired)) r = (r', .ok failure) ∧
      Releases (idsOf r.nodes (·.acquired)) r r' ∧
      ∃ ends : List JournalEntry, r'.journal.reverse = r.journal.reverse ++ ends ∧
        (failure = none ↔ ∀ e ∈ ends, e.act = .release (.ok ())) := by
  obtain ⟨r', failure, heq, hreleases⟩ := releases_releaseAll _ r fun _ => lt_of_mem_idsOf
  exact ⟨r', failure, heq, hreleases, releaseAll_journal heq⟩

theorem Releases.other {ids : List Nat} {r r' : Run W} (h : Releases ids r r') {m : Nat}
    (hm : m ∉ ids) : r'.nodes[m]? = r.nodes[m]? ∧ r'.acts m = r.acts m := by
  induction h with
  | nil => exact ⟨rfl, rfl⟩
  | cons hn _ ih =>
    obtain ⟨hnodes, hacts⟩ := ih (List.not_mem_of_not_mem_cons hm)
    obtain ⟨hnodes', hacts'⟩ := after_other (Ne.symm (List.ne_of_not_mem_cons hm))
    exact ⟨hnodes.trans hnodes', hacts.trans hacts'⟩

/-- Each node is released once, as the driving left it. -/
theorem Releases.released {ids : List Nat} {r r' : Run W} (h : Releases ids r r')
    (hnodup : ids.Nodup) {m : Nat} (hm : m ∈ ids) :
    ∃ n w, r.nodes[m]? = some n ∧ r'.nodes[m]? = some (n.release w).2.1 ∧
      r'.acts m = r.acts m ++ [.release (n.release w).1] := by
  induction h with
  | nil => exact absurd hm List.not_mem_nil
  | @cons r r' id rest n hn hrest ih =>
    obtain ⟨hid, hnodup⟩ := List.nodup_cons.mp hnodup
    rcases List.mem_cons.mp hm with rfl | hm
    · obtain ⟨hnode, hacts⟩ := hrest.other hid
      rw [after_getElem?_self (List.getElem?_eq_some_iff.mp hn).1] at hnode
      rw [after_acts, if_pos rfl] at hacts
      exact ⟨n, r.world, hn, hnode, hacts⟩
    · obtain ⟨n', w, hn', hnode, hacts⟩ := ih hnodup hm
      obtain ⟨hnodes', hacts'⟩ := after_other (ne_of_mem_of_not_mem hm hid).symm
      exact ⟨n', w, hnodes' ▸ hn', hnode, hacts' ▸ hacts⟩

/-- What every release keeps of the surroundings is kept. -/
theorem Releases.world {ids : List Nat} {r r' : Run W} (h : Releases ids r r') (hnodup : ids.Nodup)
    {I : W → Prop}
    (hI : ∀ id ∈ ids, ∀ n, r.nodes[id]? = some n → ∀ w, I w → I (n.release w).2.2)
    (hr : I r.world) : I r'.world := by
  induction h with
  | nil => exact hr
  | cons hn _ ih =>
    obtain ⟨hid, hnodup⟩ := List.nodup_cons.mp hnodup
    exact ih hnodup (forall_after hid hI) (hI _ List.mem_cons_self _ hn _ hr)

/-- Releasing adds nothing to the journal but releases. -/
theorem Releases.journal {ids : List Nat} {r r' : Run W} (h : Releases ids r r') :
    ∃ ends : List JournalEntry, r'.journal.reverse = r.journal.reverse ++ ends ∧
      ∀ e ∈ ends, e.act.isBracket = true := by
  induction h with
  | nil => exact ⟨[], by simp⟩
  | @cons r r' id rest n hn _ ih =>
    obtain ⟨ends, hends, hall⟩ := ih
    refine ⟨⟨id, .release (n.release r.world).1⟩ :: ends, ?_, ?_⟩
    · rw [hends]
      simp [after]
    · intro e he
      rcases List.mem_cons.mp he with rfl | he
      · rfl
      · exact hall e he

end Run

end FeatureGraph
