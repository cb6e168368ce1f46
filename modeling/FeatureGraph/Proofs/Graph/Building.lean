-- Graphs as they are built, call by call. A graph holds its edges twice: a
-- node has its needs, and its providers have it on their lists. The calls add
-- nodes, disconnect them and prune, some of them in vain, and they work in
-- place. The two views stay in step all the same, and so do the keys: what a
-- list shows is what was added since, less what was disconnected or pruned.
import FeatureGraph.Proofs.Graph.DeadEnds
import Mathlib.Data.Finset.Card

namespace FeatureGraph

variable {W : Type}

namespace Graph

/-! ## Calls that work in place -/

/-- Work on a graph where it stands. If it stops, what was done so far stays done. -/
abbrev Editing (W α : Type) := Procedure (Graph W) GraphError α

/-- Changes the node of a number. Without such a node the work stops. -/
def touch (f : Node W → Node W) (id : Nat) : Editing W Unit := fun g =>
  if id < g.nodes.length then ({ g with nodes := g.nodes.modify id f }, .ok ())
  else (g, .error (.unknownNode id))

/-- Puts a node in, after two checks: its providers take it on their lists, one after the other,
and then it comes after the last node. -/
def putIn (key : String) (c : Component W) (needs : List Nat) : Editing W Nat := do
  if ← Procedure.view fun g => (g.find? key).isSome then Procedure.fail (.duplicateNode key)
  else
    let id ← Procedure.view fun g => g.nodes.length
    match needs.find? (id ≤ ·) with
    | some unknown => Procedure.fail (.unknownNode unknown)
    | none =>
      Procedure.each (touch fun n => { n with listeners := n.listeners ++ [id] }) needs
      Procedure.change fun g => { g with nodes := g.nodes ++ [Node.new key c needs] }
      pure id

/-- Takes a node off the lists of its providers, one after the other. -/
def takeOff (id : Nat) : Editing W Unit := do
  match ← Procedure.view fun g => g.nodes[id]?.map (·.needs) with
  | none => Procedure.fail (.unknownNode id)
  | some needs =>
    Procedure.each (touch fun n => { n with listeners := n.listeners.filter (· ≠ id) }) needs

section InPlace

variable {g : Graph W} {α β : Type}

theorem view_bind (f : Graph W → α) (k : α → Editing W β) (g : Graph W) :
    (Procedure.view f >>= k) g = k (f g) g := rfl

theorem each_touch {f : Node W → Node W} {ids : List Nat} (h : ∀ id ∈ ids, id < g.nodes.length) :
    Procedure.each (touch f) ids g =
      ({ g with nodes := ids.foldl (fun nodes id => nodes.modify id f) g.nodes }, .ok ()) := by
  induction ids generalizing g with
  | nil => rfl
  | cons id rest ih =>
    obtain ⟨hid, hrest⟩ := List.forall_mem_cons.mp h
    rw [Procedure.each, Procedure.bind_apply, touch, if_pos hid]
    exact ih fun other hother => (List.length_modify ..).symm ▸ hrest other hother

/-- Both checks come before the first change: a node is put in as a whole or not at all. -/
theorem putIn_apply (g : Graph W) (key : String) (c : Component W) (needs : List Nat) :
    putIn key c needs g = match g.add key c needs with
      | .ok (id, g') => (g', .ok id)
      | .error e => (g, .error e) := by
  unfold putIn add
  rw [view_bind]
  by_cases htaken : (g.find? key).isSome = true
  · rw [if_pos htaken, if_pos htaken]
    rfl
  · rw [if_neg htaken, if_neg htaken, view_bind]
    cases hfind : needs.find? (g.nodes.length ≤ ·) with
    | some unknown => rfl
    | none =>
      have hneeds : ∀ p ∈ needs, p < g.nodes.length := by simpa using hfind
      dsimp only
      rw [Procedure.bind_apply, each_touch hneeds]
      rfl

/-- The providers of a node are nodes, so nothing stops the work on their lists: a node is taken off
all of them, or there is no such node. -/
theorem Lawful.takeOff_apply (h : g.Lawful) (id : Nat) :
    takeOff id g = match g.disconnect id with
      | .ok g' => (g', .ok ())
      | .error e => (g, .error e) := by
  unfold takeOff disconnect
  rw [view_bind]
  cases hn : g.nodes[id]? with
  | none => rfl
  | some n =>
    have hneeds : ∀ p ∈ n.needs, p < g.nodes.length := fun p hp => by
      have hp' : p ∈ (wiringOf g.nodes).needs id := by simpa [wiringOf, hn] using hp
      exact (h.wired.earlier hp').trans (h.wired.inRange hp')
    dsimp only [Option.map_some]
    rw [each_touch hneeds]
    rfl

end InPlace

/-! ## Sequences of calls -/

/-- A call that changes how a graph is built. -/
inductive Edit (W : Type) : Type 1 where
  | add (key : String) (c : Component W) (needs : List Nat)
  | disconnect (id : Nat)
  | prune (candidates : List Candidate)

namespace Edit

/-- Makes the call. -/
def perform : Edit W → Editing W Unit
  | add key c needs => do
    let _ ← putIn key c needs
    pure ()
  | disconnect id => takeOff id
  | prune candidates => Procedure.change fun g => (g.prune candidates).1

/-- On this graph, the call makes the node `v`, with this key and these needs. -/
def Adds : Edit W → Graph W → (v : Nat) → String → List Nat → Prop
  | add key c needs, g, v, key', needs' =>
    key' = key ∧ needs' = needs ∧ ∃ g', g.add key c needs = .ok (v, g')
  | _, _, _, _, _ => False

/-- On this graph, the call disconnects the node `v`. -/
def Disconnects : Edit W → Graph W → (v : Nat) → Prop
  | disconnect id, g, v => v = id ∧ ∃ g', g.disconnect id = .ok g'
  | _, _, _ => False

/-- On this graph, the call prunes the node `v`: its key is among those that it gives. -/
def Prunes : Edit W → Graph W → (v : Nat) → Prop
  | prune candidates, g, v => ∃ n, g.nodes[v]? = some n ∧ n.key ∈ (g.prune candidates).2
  | _, _, _ => False

end Edit

/-- The graph after some calls, whether they answer or fail. -/
def after (g : Graph W) (edits : List (Edit W)) : Graph W :=
  edits.foldl (fun g e => (e.perform g).1) g

/-- One of the calls does this to the graph as it is when its turn comes. -/
def Undergoes (g : Graph W) (edits : List (Edit W)) (does : Edit W → Graph W → Prop) : Prop :=
  ∃ before e later, edits = before ++ e :: later ∧ does e (g.after before)

section Calls

variable {g : Graph W} {e : Edit W} {rest : List (Edit W)} {does : Edit W → Graph W → Prop}

theorem after_cons (g : Graph W) (e : Edit W) (rest : List (Edit W)) :
    g.after (e :: rest) = (e.perform g).1.after rest := rfl

theorem after_append (g : Graph W) (before later : List (Edit W)) :
    g.after (before ++ later) = (g.after before).after later := List.foldl_append

theorem not_undergoes_nil : ¬ g.Undergoes [] does := by
  rintro ⟨before, e, later, hsplit, -⟩
  simp at hsplit

theorem undergoes_cons :
    g.Undergoes (e :: rest) does ↔ does e g ∨ (e.perform g).1.Undergoes rest does := by
  constructor
  · rintro ⟨before, e', later, hsplit, hdoes⟩
    cases before with
    | nil =>
      cases hsplit
      exact Or.inl hdoes
    | cons first before =>
      cases hsplit
      exact Or.inr ⟨before, e', later, rfl, hdoes⟩
  · rintro (hdoes | ⟨before, e', later, rfl, hdoes⟩)
    · exact ⟨[], e, rest, rfl, hdoes⟩
    · exact ⟨e :: before, e', later, rfl, hdoes⟩

end Calls

/-! ## What one call does -/

/-- What a call makes of a graph. -/
structure Edit.Effect (e : Edit W) (g g' : Graph W) : Prop where
  lawful : g'.Lawful
  /-- The nodes keep their keys and their needs. -/
  keys : g.nodes.map (·.key) <+: g'.nodes.map (·.key)
  needs : ∀ {v}, v < g.nodes.length → (wiringOf g'.nodes).needs v = (wiringOf g.nodes).needs v
  added : ∀ {v n}, g.nodes.length ≤ v → g'.nodes[v]? = some n → e.Adds g v n.key n.needs
  linked : ∀ {v}, (wiringOf g.nodes).Linked v → ¬ e.Disconnects g v → ¬ e.Prunes g v →
    (wiringOf g'.nodes).Linked v
  /-- Who is cut off is never joined again. -/
  cutOff : ∀ {v}, v < g.nodes.length → (wiringOf g.nodes).CutOff v → (wiringOf g'.nodes).CutOff v
  disconnected : ∀ {v}, e.Disconnects g v → (wiringOf g'.nodes).CutOff v
  pruned : ∀ {v}, (wiringOf g'.nodes).pruned v = true ↔
    (wiringOf g.nodes).pruned v = true ∨ e.Prunes g v
  unheard : ∀ {v}, e.Prunes g v → (wiringOf g'.nodes).listeners v = []

section Effects

variable {g g' : Graph W}

/-- A call that fails does nothing. -/
theorem Lawful.effect_none (h : g.Lawful) {e : Edit W} (hdisconnects : ∀ v, ¬ e.Disconnects g v)
    (hprunes : ∀ v, ¬ e.Prunes g v) : e.Effect g g where
  lawful := h
  keys := List.prefix_rfl
  needs _ := rfl
  added hv hn := absurd (List.getElem?_eq_some_iff.mp hn).1 (Nat.not_lt.mpr hv)
  linked hlinked _ _ := hlinked
  cutOff _ hcut := hcut
  disconnected hdone := absurd hdone (hdisconnects _)
  pruned := ⟨Or.inl, fun hp => hp.resolve_right (hprunes _)⟩
  unheard hdone := absurd hdone (hprunes _)

/-- The keys after a node was added, and who is joined to whom. -/
theorem Lawful.joined_add (h : g.Lawful) {key : String} {c : Component W} {needs : List Nat}
    {id : Nat} (hadd : g.add key c needs = .ok (id, g')) :
    g'.nodes.map (·.key) = g.nodes.map (·.key) ++ [key] ∧
      (∀ v, (wiringOf g'.nodes).needs v = if v = id then needs else (wiringOf g.nodes).needs v) ∧
      (∀ v, (wiringOf g'.nodes).pruned v = if v = id then false else (wiringOf g.nodes).pruned v) ∧
      ∀ u v, ((wiringOf g'.nodes).listeners u).count v =
        if v = id then needs.count u else ((wiringOf g.nodes).listeners u).count v := by
  obtain ⟨rfl, hneeds, -, rfl⟩ := add_eq_ok hadd
  refine ⟨?_, ?_, ?_, h.wired.count_append key c hneeds rfl⟩
  · rw [List.map_append, keys_listen]
    rfl
  · rw [wiringOf_append, wiringOf_listen hneeds, length_foldl_listen]
    exact fun _ => rfl
  · rw [wiringOf_append, wiringOf_listen hneeds, length_foldl_listen]
    exact fun _ => rfl

theorem Lawful.effect_add (h : g.Lawful) {key : String} {c : Component W} {needs : List Nat}
    {id : Nat} (hadd : g.add key c needs = .ok (id, g')) :
    (Edit.add key c needs).Effect g g' := by
  obtain ⟨hkeys, hneeds, hpruned, hcount⟩ := h.joined_add hadd
  obtain rfl := (add_eq_ok hadd).1
  exact {
    lawful := h.add hadd
    keys := hkeys ▸ List.prefix_append ..
    needs := by
      intro v hv
      rw [hneeds, if_neg (Nat.ne_of_lt hv)]
    added := by
      -- the one new node is the last
      intro v n hv hn
      have hlength := congrArg List.length hkeys
      have hlt := (List.getElem?_eq_some_iff.mp hn).1
      simp only [List.length_map, List.length_append, List.length_singleton] at hlength
      obtain rfl : v = g.nodes.length := by omega
      have hkey := congrArg (·[g.nodes.length]?) hkeys
      have hneeds := hneeds g.nodes.length
      exact ⟨by simpa [hn] using hkey, by simpa [wiringOf, hn] using hneeds, g', hadd⟩
    linked := by
      intro v hlinked _ _ u
      rw [hcount, hneeds]
      split
      · rfl
      · exact hlinked u
    cutOff := by
      intro v hv hcut u
      apply List.count_eq_zero.mp
      rw [hcount, if_neg (Nat.ne_of_lt hv), List.count_eq_zero.mpr (hcut u)]
    disconnected := False.elim
    pruned := by
      intro v
      rw [hpruned]
      split
      · rename_i hv
        simp [wiringOf, hv, Edit.Prunes]
      · simp [Edit.Prunes]
    unheard := False.elim }

theorem Lawful.effect_disconnect (h : g.Lawful) {id : Nat} (hdone : g.disconnect id = .ok g') :
    (Edit.disconnect id).Effect g g' := by
  have hoff := hdone
  unfold disconnect at hoff
  split at hoff
  · cases hoff
  rename_i n hn
  cases hoff
  obtain ⟨hlawful, hcutOff⟩ := h.unlink hn
  have hkeys : (g.unlink id n.needs).nodes.map (·.key) = g.nodes.map (·.key) :=
    map_foldl_modify fun _ => rfl
  have hnet : wiringOf (g.unlink id n.needs).nodes = _ := wiringOf_unlink g
  exact {
    lawful := hlawful
    keys := hkeys ▸ List.prefix_rfl
    needs := by
      intro v _
      rw [hnet]
      rfl
    added := by
      intro v k hv hk
      have hlt := (List.getElem?_eq_some_iff.mp hk).1
      rw [length_unlink] at hlt
      omega
    linked := by
      intro v hlinked hnot _
      rw [hnet]
      exact hlinked.unlink fun heq => hnot ⟨heq, _, hdone⟩
    cutOff := by
      intro v _ hcut
      rw [hnet]
      exact hcut.unlink
    disconnected := by
      rintro v ⟨rfl, -⟩
      exact hcutOff
    pruned := by
      intro v
      rw [hnet]
      exact ⟨Or.inl, fun hp => hp.resolve_right False.elim⟩
    unheard := False.elim }

/-- The nodes that were pruned are those whose keys are given. -/
theorem Lawful.prunes_iff (h : g.Lawful) {cs : List Candidate} {gone : List Nat}
    (hfalls : g.Falls cs gone) (hnamed : g.Named gone (g.prune cs).2) (v : Nat) :
    (Edit.prune cs).Prunes g v ↔ v ∈ gone := by
  constructor
  · rintro ⟨n, hn, hkey⟩
    have hmem : some n.key ∈ (g.prune cs).2.map some := List.mem_map_of_mem hkey
    rw [hnamed, List.mem_map] at hmem
    obtain ⟨m, hm, hsame⟩ := hmem
    obtain ⟨n', hn', hkey'⟩ := Option.map_eq_some_iff.mp hsame
    exact h.eq_of_key hn' hn hkey' ▸ hm
  · intro hv
    obtain ⟨n, hn, -⟩ := hfalls.candidate hv
    have hmem : g.nodes[v]?.map (·.key) ∈ (g.prune cs).2.map some := by
      rw [hnamed]
      exact List.mem_map_of_mem (f := fun m => g.nodes[m]?.map (·.key)) hv
    exact ⟨n, hn, by simpa [hn] using hmem⟩

theorem Lawful.effect_prune (h : g.Lawful) (cs : List Candidate) :
    (Edit.prune cs).Effect g (g.prune cs).1 := by
  obtain ⟨gone, heq, hfalls, hnamed, -, -, -⟩ := h.prune_eq cs
  have hprunes := h.prunes_iff hfalls hnamed
  have hnet := hfalls.wiringOf_less
  rw [heq]
  exact {
    lawful := hfalls.lawful h
    keys := keys_less g gone ▸ List.prefix_rfl
    needs := by
      intro v _
      rw [hnet]
    added := by
      intro v n hv hn
      rw [less_getElem?, List.getElem?_eq_none hv] at hn
      cases hn
    linked := fun hlinked _ hnot => hfalls.linked (mt (hprunes _).mpr hnot) hlinked
    cutOff := fun _ hcut => hfalls.cutOff hcut
    disconnected := False.elim
    pruned := by
      intro v
      rw [hnet, hprunes]
      simp
    unheard := by
      -- all that it fed are gone with it
      intro v hdone
      rw [hnet]
      apply List.filter_eq_nil_iff.mpr
      intro l hl
      simpa using hfalls.fed ((hprunes v).mp hdone) hl }

/-- A call answers, or it fails and leaves the graph as it was. -/
theorem Lawful.performs (h : g.Lawful) (e : Edit W) :
    e.Effect g (e.perform g).1 ∧ ((e.perform g).2 = .ok () ∨ (e.perform g).1 = g) := by
  cases e with
  | add key c needs =>
    rw [Edit.perform, Procedure.bind_apply, putIn_apply]
    cases hadd : g.add key c needs with
    | ok added => exact ⟨h.effect_add hadd, Or.inl rfl⟩
    | error => exact ⟨h.effect_none (fun _ => id) fun _ => id, Or.inr rfl⟩
  | disconnect id =>
    rw [Edit.perform, h.takeOff_apply]
    cases hoff : g.disconnect id with
    | ok g' => exact ⟨h.effect_disconnect hoff, Or.inl rfl⟩
    | error =>
      refine ⟨h.effect_none ?_ fun _ => False.elim, Or.inr rfl⟩
      rintro v ⟨-, g', hok⟩
      rw [hoff] at hok
      cases hok
  | prune cs => exact ⟨h.effect_prune cs, Or.inl rfl⟩

theorem Lawful.effect (h : g.Lawful) (e : Edit W) : e.Effect g (e.perform g).1 := (h.performs e).1

end Effects

/-! ## What a sequence of calls does -/

section Runs

variable {g : Graph W} {v : Nat}

theorem Lawful.after (h : g.Lawful) (edits : List (Edit W)) : (g.after edits).Lawful := by
  induction edits generalizing g with
  | nil => exact h
  | cons e rest ih => exact ih (h.effect e).lawful

theorem Edit.Effect.length_le {e : Edit W} {g' : Graph W} (h : e.Effect g g') :
    g.nodes.length ≤ g'.nodes.length := by
  simpa using h.keys.length_le

/-- A node was there before, under the same key and with the same needs, or the call added it. -/
theorem Edit.Effect.node {e : Edit W} {g' : Graph W} (h : e.Effect g g') {n : Node W}
    (hn : g'.nodes[v]? = some n) :
    (∃ k, g.nodes[v]? = some k ∧ k.key = n.key ∧ k.needs = n.needs) ∨
      e.Adds g v n.key n.needs := by
  rcases Nat.lt_or_ge v g.nodes.length with hv | hv
  · have hk := List.getElem?_eq_getElem hv
    obtain ⟨more, hkeys⟩ := h.keys
    have hkey := congrArg (·[v]?) hkeys
    have hneeds := h.needs hv
    rw [List.getElem?_append_left (by simpa using hv)] at hkey
    exact Or.inl ⟨_, hk, by simpa [hk, hn] using hkey, by simpa [wiringOf, hk, hn] using hneeds.symm⟩
  · exact Or.inr (h.added hv hn)

theorem Edit.Disconnects.lt {e : Edit W} (h : e.Disconnects g v) : v < g.nodes.length := by
  cases e with
  | add | prune => exact h.elim
  | disconnect id =>
    obtain ⟨rfl, g', hok⟩ := h
    unfold Graph.disconnect at hok
    split at hok
    · cases hok
    · rename_i hn
      exact (List.getElem?_eq_some_iff.mp hn).1

theorem Lawful.cutOff_after (h : g.Lawful) (edits : List (Edit W)) (hv : v < g.nodes.length)
    (hcut : (wiringOf g.nodes).CutOff v) : (wiringOf (g.after edits).nodes).CutOff v := by
  induction edits generalizing g with
  | nil => exact hcut
  | cons e rest ih =>
    have heffect := h.effect e
    exact ih heffect.lawful (hv.trans_le heffect.length_le) (heffect.cutOff hv hcut)

/-- Who was disconnected listens to none. -/
theorem Lawful.cutOff_of_disconnected (h : g.Lawful) {edits : List (Edit W)}
    (hdone : g.Undergoes edits fun e g => e.Disconnects g v) :
    (wiringOf (g.after edits).nodes).CutOff v := by
  obtain ⟨before, e, later, rfl, hdisconnects⟩ := hdone
  have heffect := (h.after before).effect e
  rw [after_append, after_cons]
  exact heffect.lawful.cutOff_after later (hdisconnects.lt.trans_le heffect.length_le)
    (heffect.disconnected hdisconnects)

/-- Who was never disconnected or pruned listens to all it needs. -/
theorem Lawful.linked_after (h : g.Lawful) {edits : List (Edit W)}
    (hlinked : (wiringOf g.nodes).Linked v)
    (hdisconnects : ¬ g.Undergoes edits fun e g => e.Disconnects g v)
    (hprunes : ¬ g.Undergoes edits fun e g => e.Prunes g v) :
    (wiringOf (g.after edits).nodes).Linked v := by
  induction edits generalizing g with
  | nil => exact hlinked
  | cons e rest ih =>
    rw [undergoes_cons, not_or] at hdisconnects hprunes
    have heffect := h.effect e
    exact ih heffect.lawful (heffect.linked hlinked hdisconnects.1 hprunes.1) hdisconnects.2
      hprunes.2

/-- Who is pruned was pruned before, or by one of the calls. -/
theorem Lawful.pruned_after (h : g.Lawful) (edits : List (Edit W)) :
    (wiringOf (g.after edits).nodes).pruned v = true ↔
      (wiringOf g.nodes).pruned v = true ∨ g.Undergoes edits fun e g => e.Prunes g v := by
  induction edits generalizing g with
  | nil => exact (or_iff_left not_undergoes_nil).symm
  | cons e rest ih =>
    have heffect := h.effect e
    rw [after_cons, ih heffect.lawful, heffect.pruned, undergoes_cons, or_assoc]

/-- A node was there before, under the same key and with the same needs, or one of the calls added
it with them. -/
theorem Lawful.node_after (h : g.Lawful) (edits : List (Edit W)) {n : Node W}
    (hn : (g.after edits).nodes[v]? = some n) :
    (∃ k, g.nodes[v]? = some k ∧ k.key = n.key ∧ k.needs = n.needs) ∨
      g.Undergoes edits fun e g => e.Adds g v n.key n.needs := by
  induction edits generalizing g with
  | nil => exact Or.inl ⟨n, hn, rfl, rfl⟩
  | cons e rest ih =>
    have heffect := h.effect e
    rw [undergoes_cons]
    rcases ih heffect.lawful hn with ⟨k, hk, hkey, hneeds⟩ | hadded
    · rw [← hkey, ← hneeds]
      exact (heffect.node hk).imp id Or.inl
    · exact Or.inr (Or.inr hadded)

/-- Who listens to a node that was pruned was added since. -/
theorem Lawful.added_since (h : g.Lawful) {e : Edit W} {u : Nat} (hprunes : e.Prunes g u)
    (later : List (Edit W)) (hv : v ∈ (wiringOf (g.after (e :: later)).nodes).listeners u) :
    ∃ key needs, u ∈ needs ∧
      (e.perform g).1.Undergoes later fun e g => e.Adds g v key needs := by
  have heffect := h.effect e
  have hlawful := heffect.lawful.after later
  rw [after_cons] at hv
  have hu := hlawful.wired.mem_needs hv
  have hn := List.getElem?_eq_getElem (hlawful.wired.inRange hu)
  rcases heffect.lawful.node_after later hn with ⟨k, hk, -, hneeds⟩ | hadded
  · -- it was there when its provider was pruned, and off the list: so it is off now
    have hu' : u ∈ (wiringOf (e.perform g).1.nodes).needs v := by
      simpa [wiringOf, hk, hn, hneeds] using hu
    rcases heffect.lawful.wired.joined v with hlinked | hcut
    · have hcount := hlinked u
      rw [heffect.unheard hprunes, List.count_nil] at hcount
      exact absurd hu' (List.count_eq_zero.mp hcount.symm)
    · have hlt := (List.getElem?_eq_some_iff.mp hk).1
      exact absurd hv (heffect.lawful.cutOff_after later hlt hcut u)
  · exact ⟨_, _, by simpa [wiringOf, hn] using hu, hadded⟩

end Runs

/-! ## The views of a graph -/

/-- What a graph shows of its nodes, against the calls on the graph `start` that made it. -/
structure InStep (start : Graph W) (edits : List (Edit W)) (g : Graph W) : Prop where
  /-- Keys and nodes are one to one: a key leads to the node that has it, in the index and when it
  is looked for. -/
  keys : ∀ key v, g.index.get? key = some v ↔ ∃ n, g.nodes[v]? = some n ∧ n.key = key
  found : ∀ key, g.find? key = g.index.get? key
  earlier : ∀ u v, u ∈ (wiringOf g.nodes).needs v → u < v
  /-- Who was neither disconnected nor pruned is on the lists of all it needs, as often as it
  needs them, and who was is on none. -/
  linked : ∀ u v, ¬ start.Undergoes edits (fun e g => e.Disconnects g v) →
    (wiringOf g.nodes).pruned v = false →
    ((wiringOf g.nodes).listeners u).count v = ((wiringOf g.nodes).needs v).count u
  cutOff : ∀ u v, start.Undergoes edits (fun e g => e.Disconnects g v) ∨
    (wiringOf g.nodes).pruned v = true → v ∉ (wiringOf g.nodes).listeners u
  pruned : ∀ v, (wiringOf g.nodes).pruned v = true ↔
    start.Undergoes edits fun e g => e.Prunes g v
  /-- A node has the needs it was added with, and the count of the different ones. -/
  counted : ∀ v n, g.nodes[v]? = some n → n.dependencyCount = n.needs.toFinset.card ∧
    start.Undergoes edits fun e g => e.Adds g v n.key n.needs
  /-- Who is on the list of a node that was pruned was added later. -/
  addedSince : ∀ before e later u, edits = before ++ e :: later → e.Prunes (start.after before) u →
    ∀ v ∈ (wiringOf g.nodes).listeners u, ∃ key needs, u ∈ needs ∧
      (start.after (before ++ [e])).Undergoes later fun e g => e.Adds g v key needs
  /-- Done in place, a call that fails leaves the graph as it was. -/
  unchanged : ∀ e error, (Edit.perform e g).2 = .error error → (Edit.perform e g).1 = g
  putIn : ∀ key c needs, putIn key c needs g = match g.add key c needs with
    | .ok (id, g') => (g', .ok id)
    | .error e => (g, .error e)
  takeOff : ∀ id, takeOff id g = match g.disconnect id with
    | .ok g' => (g', .ok ())
    | .error e => (g, .error e)

section Views

variable {g : Graph W}

theorem Lawful.get?_index (h : g.Lawful) {key : String} {v : Nat} :
    g.index.get? key = some v ↔ ∃ n, g.nodes[v]? = some n ∧ n.key = key :=
  Dictionary.get?_eq_some.trans (mem_index h.distinct)

theorem dependencyCount_eq (n : Node W) : n.dependencyCount = n.needs.toFinset.card := by
  have hsame : n.needs.eraseDups.toFinset = n.needs.toFinset := by
    ext u
    simp only [List.mem_toFinset, List.mem_eraseDups]
  rw [Node.dependencyCount, ← hsame, List.toFinset_card_of_nodup (nodup_eraseDups _)]

/-- Whatever is called on an empty graph, and whichever of the calls fail: the views of the graph
stay in step. -/
theorem edits_keep_views_in_step (name : String) (edits : List (Edit W)) :
    InStep (empty name) edits ((empty name).after edits) := by
  have hempty : (empty name : Graph W).Lawful := (Built.empty name).ready.lawful
  have h := hempty.after edits
  have hpruned : ∀ v, (wiringOf ((empty name : Graph W).after edits).nodes).pruned v = true ↔
      (empty name).Undergoes edits fun e g => e.Prunes g v := fun v => by
    rw [hempty.pruned_after]
    simp [empty, wiringOf]
  exact {
    keys := fun key v => h.get?_index
    found := by
      intro key
      apply Option.ext
      intro v
      rw [h.find?, h.get?_index]
    earlier := fun u v hu => h.wired.earlier hu
    linked := by
      intro u v hdisconnects hlive
      have hprunes := mt (hpruned v).mpr (by simp [hlive])
      exact hempty.linked_after (fun u => by simp [empty, wiringOf]) hdisconnects hprunes u
    cutOff := by
      rintro u v (hdone | hgone) hu
      · exact hempty.cutOff_of_disconnected hdone u hu
      · simp [h.wired.live hu] at hgone
    pruned := hpruned
    counted := by
      intro v n hn
      refine ⟨dependencyCount_eq n, (hempty.node_after edits hn).resolve_left ?_⟩
      rintro ⟨k, hk, -⟩
      cases hk
    addedSince := by
      rintro before e later u rfl hprunes v hv
      rw [after_append] at hv ⊢
      exact (hempty.after before).added_since hprunes later hv
    unchanged := by
      intro e error hfails
      rcases (h.performs e).2 with hok | hsame
      · rw [hok] at hfails
        cases hfails
      · exact hsame
    putIn := putIn_apply _
    takeOff := h.takeOff_apply }

/-- A node that needs another twice is pruned, and then a third is added that needs it. -/
example :
    ((empty "twice").after [.add "a" passing [], .add "b" passing [0, 0], .add "b" passing [],
      .prune [("b", false)], .add "c" passing [1], .disconnect 7]).nodes.map
        (fun n => (n.key, n.listeners, n.pruned)) =
      [("a", [], false), ("b", [2], true), ("c", [], false)] := by
  decide +kernel

end Views

end Graph

end FeatureGraph
