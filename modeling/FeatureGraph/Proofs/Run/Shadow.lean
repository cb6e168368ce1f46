-- Two runs side by side. The second has the nodes of the first that are
-- kept, and its surroundings are the same to their components. What is left
-- out sends only to what is left out, and its components do nothing that the
-- others could see. So the second run does what the first does at the nodes
-- that are kept, in the same order, and nothing else.
import FeatureGraph.Proofs.Run.Surroundings
import FeatureGraph.Proofs.Run.Course
import Mathlib.Data.List.Sort

namespace FeatureGraph

variable {W : Type} {same : W → W → Prop}

/-! ## What a component sees of its surroundings -/

/-- A component that answers the same in surroundings that are the same, and leaves them the
same. -/
structure Component.Respects (same : W → W → Prop) (c : Component W) : Prop where
  enqueue : ∀ {w w'} data input s cache, same w w' →
    ∃ w₁, same (c.enqueue data input s cache w).2.2 w₁ ∧ c.enqueue data input s cache w' =
      ((c.enqueue data input s cache w).1, (c.enqueue data input s cache w).2.1, w₁)
  dequeue : ∀ {w w'} finalized s cache, same w w' →
    ∃ w₁, same (c.dequeue finalized s cache w).2.2.2 w₁ ∧ c.dequeue finalized s cache w' =
      ((c.dequeue finalized s cache w).1, (c.dequeue finalized s cache w).2.1,
        (c.dequeue finalized s cache w).2.2.1, w₁)
  transform : ∀ {w w'} data s, same w w' →
    ∃ w₁, same (c.transform data s w).2.2 w₁ ∧
      c.transform data s w' = ((c.transform data s w).1, (c.transform data s w).2.1, w₁)
  lastChunk : ∀ {w w'} s, same w w' →
    ∃ w₁, same (c.lastChunk s w).2.2 w₁ ∧
      c.lastChunk s w' = ((c.lastChunk s w).1, (c.lastChunk s w).2.1, w₁)
  acquire : ∀ {w w'} s, same w w' →
    ∃ w₁, same (c.acquire s w).2.2 w₁ ∧
      c.acquire s w' = ((c.acquire s w).1, (c.acquire s w).2.1, w₁)
  release : ∀ {w w'} s, same w w' →
    ∃ w₁, same (c.release s w).2.2 w₁ ∧
      c.release s w' = ((c.release s w).1, (c.release s w).2.1, w₁)

/-- A component that only turns chunks into chunks sees nothing of its surroundings. -/
theorem Component.stateless_respects (transform : Payload → Except ComponentError Output) :
    (stateless (W := W) transform).Respects same where
  enqueue _ _ _ _ h := ⟨_, h, rfl⟩
  dequeue _ _ _ h := ⟨_, h, rfl⟩
  transform _ _ h := ⟨_, h, rfl⟩
  lastChunk _ h := ⟨_, h, rfl⟩
  acquire _ h := ⟨_, h, rfl⟩
  release _ h := ⟨_, h, rfl⟩

/-- What is the same as before is the same as after. -/
def Unfelt (same : W → W → Prop) (w w₁ : W) : Prop := ∀ w', same w w' → same w₁ w'

/-- A node with other listeners. -/
def Node.heardBy (n : Node W) (listeners : List Nat) : Node W := { n with listeners }

namespace Run

/-! ## Hooks -/

/-- A hook that sees of a node and of its surroundings only what the component sees. -/
structure Sees {α : Type} (same : W → W → Prop) (call : Node W → W → α × Node W × W) : Prop where
  follows : ∀ {n : Node W} {w w' : W}, n.component.Respects same → same w w' → ∀ listeners,
    ∃ w₁, same (call n w).2.2 w₁ ∧ call (n.heardBy listeners) w' =
      ((call n w).1, (call n w).2.1.heardBy listeners, w₁)
  keeps : ∀ {P : W → W → Prop} {n : Node W}, n.component.Detached P → ∀ w, P w (call n w).2.2
  alike : ∀ (n : Node W) (w : W), Alike n (call n w).2.1

section Sees

theorem sees_enqueueFrom (source : Nat) (data : Payload) :
    Sees same (Node.enqueueFrom (W := W) source data) := by
  refine ⟨fun {n w w'} hn hw listeners => ?_, fun hn w => hn.enqueue .., fun n w => ?_⟩
  · obtain ⟨w₁, hsame, heq⟩ := hn.enqueue data (n.inputOf source) n.state n.cache hw
    exact ⟨w₁, hsame, congrArg (fun a => ((), { n.heardBy listeners with
      state := a.1, cache := a.2.1, enqueued := n.enqueued.insert source }, a.2.2)) heq⟩
  · exact ⟨rfl, rfl, rfl, rfl, rfl⟩

theorem sees_enqueueRoot (data : Payload) : Sees same (Node.enqueueRoot (W := W) data) := by
  refine ⟨fun {n w w'} hn hw listeners => ?_, fun hn w => hn.enqueue .., fun n w => ?_⟩
  · obtain ⟨w₁, hsame, heq⟩ := hn.enqueue data 0 n.state n.cache hw
    exact ⟨w₁, hsame, congrArg (fun a => ((), { n.heardBy listeners with
      state := a.1, cache := a.2.1 }, a.2.2)) heq⟩
  · exact ⟨rfl, rfl, rfl, rfl, rfl⟩

theorem sees_dequeue : Sees same (Node.dequeue (W := W)) := by
  refine ⟨fun {n w w'} hn hw listeners => ?_, fun hn w => hn.dequeue .., fun n w => ?_⟩
  · obtain ⟨w₁, hsame, heq⟩ := hn.dequeue n.isFinalized n.state n.cache hw
    exact ⟨w₁, hsame, congrArg (fun a => (a.1, { n.heardBy listeners with
      state := a.2.1, cache := a.2.2.1 }, a.2.2.2)) heq⟩
  · exact ⟨rfl, rfl, rfl, rfl, rfl⟩

theorem sees_transform (data : Payload) : Sees same (Node.transform (W := W) data) := by
  refine ⟨fun {n w w'} hn hw listeners => ?_, fun hn w => hn.transform .., fun n w => ?_⟩
  · obtain ⟨w₁, hsame, heq⟩ := hn.transform data n.state hw
    exact ⟨w₁, hsame, congrArg (fun a => (a.1, { n.heardBy listeners with
      state := a.2.1 }, a.2.2)) heq⟩
  · exact ⟨rfl, rfl, rfl, rfl, rfl⟩

theorem sees_lastChunk : Sees same (Node.lastChunk (W := W)) := by
  refine ⟨fun {n w w'} hn hw listeners => ?_, fun hn w => hn.lastChunk .., fun n w => ?_⟩
  · obtain ⟨w₁, hsame, heq⟩ := hn.lastChunk n.state hw
    exact ⟨w₁, hsame, congrArg (fun a => (a.1, { n.heardBy listeners with
      state := a.2.1, completed := true }, a.2.2)) heq⟩
  · exact ⟨rfl, rfl, rfl, rfl, rfl⟩

theorem sees_acquire : Sees same (Node.acquire (W := W)) := by
  refine ⟨fun {n w w'} hn hw listeners => ?_, fun {P n} hn w => ?_, fun n w => ?_⟩
  · obtain ⟨w₁, hsame, heq⟩ := hn.acquire n.state hw
    refine ⟨w₁, acquire_world n w ▸ hsame, ?_⟩
    have hother : (n.heardBy listeners).component.acquire (n.heardBy listeners).state w' = _ := heq
    unfold Node.acquire
    rw [hother]
    rcases n.component.acquire n.state w with ⟨_ | _, _, _⟩ <;> rfl
  · rw [acquire_world]
    exact hn.acquire ..
  · obtain ⟨acquired, heq⟩ := acquire_eq n w
    rw [heq]
    exact ⟨rfl, rfl, rfl, rfl, rfl⟩

theorem sees_release : Sees same (Node.release (W := W)) := by
  refine ⟨fun {n w w'} hn hw listeners => ?_, fun hn w => hn.release .., fun n w => ?_⟩
  · obtain ⟨w₁, hsame, heq⟩ := hn.release n.state hw
    exact ⟨w₁, hsame, congrArg (fun a => (a.1, { n.heardBy listeners with
      state := a.2.1, acquired := false }, a.2.2)) heq⟩
  · exact ⟨rfl, rfl, rfl, rfl, rfl⟩

end Sees

/-! ## A run and its shadow -/

/-- The run `r'` is `r` without the nodes that are not kept: a node that is kept differs only in
who listens to it, and what happened at it is what happened in `r'`. -/
structure Shadow (same : W → W → Prop) (net : Wiring) (kept : Nat → Bool) (r r' : Run W) :
    Prop where
  wiring : wiringOf r.nodes = net
  length : r'.nodes.length = r.nodes.length
  stays : ∀ {m n}, kept m = true → r.nodes[m]? = some n → n.component.Respects same ∧
    r'.nodes[m]? = some (n.heardBy (n.listeners.filter kept))
  goes : ∀ {m n}, kept m = false → net.pruned m = false → r.nodes[m]? = some n →
    n.component.Detached (Unfelt same)
  asleep : ∀ {m n}, kept m = false → r'.nodes[m]? = some n → n.acquired = false
  world : same r.world r'.world
  journal : r'.journal = r.journal.filter fun e => kept e.node

/-- Whenever the first stage comes to its end the other does, and their answers fit. -/
def Mirrors {α β : Type} (same : W → W → Prop) (net : Wiring) (kept : Nat → Bool)
    (fits : α → β → Prop) (p : Stage W α) (p' : Stage W β) : Prop :=
  ∀ r r', Shadow same net kept r r' →
    p.Ensures r (fun a s => ∃ b s', p' r' = (s', .ok b) ∧ fits a b ∧ Shadow same net kept s s')
      fun _ => True

/-- A stage that casts no shadow. -/
def Unseen {α : Type} (same : W → W → Prop) (net : Wiring) (kept : Nat → Bool) (p : Stage W α) :
    Prop := ∀ r r', Shadow same net kept r r' → Shadow same net kept (p r).1 r'

variable {net : Wiring} {kept : Nat → Bool}

section Shadow

variable {r r' : Run W} (h : Shadow same net kept r r') {id m : Nat} {n : Node W}

include h

theorem Shadow.pruned (hn : r.nodes[m]? = some n) : n.pruned = net.pruned m := by
  rw [← h.wiring]
  simp [wiringOf, hn]

theorem Shadow.listeners (hn : r.nodes[m]? = some n) : n.listeners = net.listeners m := by
  rw [← h.wiring]
  simp [wiringOf, hn]

theorem Shadow.absent (hm : r.nodes[m]? = none) : r'.nodes[m]? = none := by
  rw [List.getElem?_eq_none_iff] at hm ⊢
  exact h.length ▸ hm

end Shadow

/-! ## The rules -/

section Rules

variable {α β α' β' : Type} {ι : Type}

theorem Mirrors.answers {fits : α → β → Prop} {p : Stage W α} {p' : Stage W β} {r r' s : Run W}
    {a : α} (hp : Mirrors same net kept fits p p') (h : Shadow same net kept r r')
    (heq : p r = (s, .ok a)) : ∃ b s', p' r' = (s', .ok b) ∧ fits a b ∧ Shadow same net kept s s' := by
  have hanswer := hp r r' h
  unfold Procedure.Ensures at hanswer
  rwa [heq] at hanswer

theorem mirrors_pure {fits : α → β → Prop} {a : α} {b : β} (hfits : fits a b) :
    Mirrors same net kept fits (pure a) (pure b) := fun _ r' h => ⟨b, r', rfl, hfits, h⟩

theorem mirrors_bind {fits : α → β → Prop} {fits' : α' → β' → Prop} {p : Stage W α}
    {p' : Stage W β} {f : α → Stage W α'} {f' : β → Stage W β'}
    (hp : Mirrors same net kept fits p p')
    (hf : ∀ a b, fits a b → Mirrors same net kept fits' (f a) (f' b)) :
    Mirrors same net kept fits' (p >>= f) (p' >>= f') := by
  intro r r' h
  apply Procedure.ensures_bind
  refine (hp r r' h).mono (fun a s => ?_) fun _ h => h
  rintro ⟨b, s', heq, hfits, hs⟩
  have hnext : (p' >>= f') r' = f' b s' := by rw [Procedure.bind_apply, heq]
  rw [hnext]
  exact hf a b hfits s s' hs

theorem mirrors_seq {fits : α' → β' → Prop} {p p' : Stage W α} {f : α → Stage W α'}
    {f' : α → Stage W β'} (hp : Mirrors same net kept Eq p p')
    (hf : ∀ a, Mirrors same net kept fits (f a) (f' a)) :
    Mirrors same net kept fits (p >>= f) (p' >>= f') :=
  mirrors_bind hp fun a _ heq => heq ▸ hf a

/-- An answer that is passed on in another form. -/
theorem mirrors_answer {fits : α → β → Prop} {fits' : α' → β → Prop} {p : Stage W α}
    {p' : Stage W β} {f : α → Stage W α'} (hp : Mirrors same net kept fits p p')
    (hf : ∀ a b, fits a b → ∃ a', f a = pure a' ∧ fits' a' b) :
    Mirrors same net kept fits' (p >>= f) p' := by
  intro r r' h
  apply Procedure.ensures_bind
  refine (hp r r' h).mono (fun a s => ?_) fun _ h => h
  rintro ⟨b, s', heq, hfits, hs⟩
  obtain ⟨a', hpure, hfits'⟩ := hf a b hfits
  rw [hpure]
  exact ⟨b, s', heq, hfits', hs⟩

/-- After a first part that nobody sees, the second part is the shadow of the whole. -/
theorem mirrors_skip {fits : α' → β → Prop} {p : Stage W α} {f : α → Stage W α'} {p' : Stage W β}
    (hp : Unseen same net kept p) (hf : ∀ a, Mirrors same net kept fits (f a) p') :
    Mirrors same net kept fits (p >>= f) p' := by
  intro r r' h
  apply Procedure.ensures_bind
  have hs := hp r r' h
  unfold Procedure.Ensures
  rcases heq : p r with ⟨s, _ | a⟩
  · trivial
  · rw [heq] at hs
    exact hf a s r' hs

theorem unseen_pure (a : α) : Unseen same net kept (pure a : Stage W α) := fun _ _ h => h

theorem unseen_look (id : Nat) (absent : α) (f : Node W → α) :
    Unseen same net kept (look id absent f) := fun _ _ h => h

theorem unseen_bind {p : Stage W α} {f : α → Stage W β} (hp : Unseen same net kept p)
    (hf : ∀ a, Unseen same net kept (f a)) : Unseen same net kept (p >>= f) := by
  intro r r' h
  have hs := hp r r' h
  rw [Procedure.bind_apply]
  rcases heq : p r with ⟨s, _ | a⟩
  · rw [heq] at hs
    exact hs
  · rw [heq] at hs
    exact hf a s r' hs

theorem unseen_each {f : ι → Stage W Unit} {xs : List ι}
    (hf : ∀ x ∈ xs, Unseen same net kept (f x)) : Unseen same net kept (Procedure.each f xs) := by
  induction xs with
  | nil => exact unseen_pure ()
  | cons x rest ih =>
    exact unseen_bind (hf x List.mem_cons_self) fun _ =>
      ih fun y hy => hf y (List.mem_cons_of_mem _ hy)

/-- Of the work on a list, what is done for the items that pass is seen. -/
theorem mirrors_each {f : ι → Stage W Unit} (seen : ι → Bool) {xs : List ι}
    (hseen : ∀ x ∈ xs, seen x = true → Mirrors same net kept Eq (f x) (f x))
    (hunseen : ∀ x ∈ xs, seen x = false → Unseen same net kept (f x)) :
    Mirrors same net kept Eq (Procedure.each f xs) (Procedure.each f (xs.filter seen)) := by
  induction xs with
  | nil => exact mirrors_pure rfl
  | cons x rest ih =>
    have hrest := ih (fun y hy => hseen y (List.mem_cons_of_mem _ hy))
      (fun y hy => hunseen y (List.mem_cons_of_mem _ hy))
    cases hx : seen x with
    | true =>
      rw [List.filter_cons_of_pos hx]
      exact mirrors_seq (hseen x List.mem_cons_self hx) fun _ => hrest
    | false =>
      rw [List.filter_cons_of_neg (by simp [hx])]
      exact mirrors_skip (hunseen x List.mem_cons_self hx) fun _ => hrest

theorem mirrors_all {f : ι → Stage W Unit} {xs : List ι}
    (hf : ∀ x ∈ xs, Mirrors same net kept Eq (f x) (f x)) :
    Mirrors same net kept Eq (Procedure.each f xs) (Procedure.each f xs) := by
  have h := mirrors_each (f := f) (fun _ => true) (fun x hx _ => hf x hx) fun _ _ h => nomatch h
  rwa [List.filter_true] at h

variable {id : Nat}

theorem mirrors_look (hid : kept id = true) {absent : α} {f : Node W → α}
    (hf : ∀ n ls, f (n.heardBy ls) = f n) :
    Mirrors same net kept Eq (look id absent f) (look id absent f) := by
  intro r r' h
  have hseen : (r.nodes[id]?.map f).getD absent = (r'.nodes[id]?.map f).getD absent := by
    cases hn : r.nodes[id]? with
    | none => rw [h.absent hn]
    | some n => rw [(h.stays hid hn).2, Option.map_some, Option.map_some, hf]
  exact ⟨_, r', rfl, hseen, h⟩

theorem mirrors_demand (id : Nat) (a : Except ComponentError α) :
    Mirrors same net kept Eq (demand id a) (demand id a) := by
  cases a with
  | ok a => exact mirrors_pure rfl
  | error e => exact fun _ _ _ => trivial

theorem unseen_demand (id : Nat) (a : Except ComponentError α) :
    Unseen same net kept (demand id a) := by
  cases a with
  | ok a => exact unseen_pure a
  | error e => exact unseen_bind (unseen_look id "" (·.key)) fun _ _ _ h => h

theorem mirrors_note (hid : kept id = true) (act : Act) :
    Mirrors same net kept Eq (note id act) (note id act) := by
  intro r r' h
  have hjournal : ⟨id, act⟩ :: r'.journal =
      (⟨id, act⟩ :: r.journal).filter fun e => kept e.node := by
    rw [List.filter_cons_of_pos (by simpa using hid), h.journal]
  exact ⟨(), _, rfl, rfl, h.wiring, h.length, h.stays, h.goes, h.asleep, h.world, hjournal⟩

theorem unseen_note (hid : kept id = false) (act : Act) : Unseen same net kept (note id act) := by
  intro r r' h
  refine ⟨h.wiring, h.length, h.stays, h.goes, h.asleep, h.world, ?_⟩
  rw [h.journal]
  exact (List.filter_cons_of_neg (by simp [hid])).symm

variable {call : Node W → W → α × Node W × W} {act : Node W → α → Act}

theorem hook_absent {r : Run W} {absent : α} (hn : r.nodes[id]? = none) :
    hook id absent call act r = (r, .ok absent) := by simp [hook, hn]

theorem mirrors_hook (hcall : Sees same call) (hid : kept id = true) {absent : α}
    (hact : ∀ n ls a, act (n.heardBy ls) a = act n a) :
    Mirrors same net kept Eq (hook id absent call act) (hook id absent call act) := by
  intro r r' h
  cases hn : r.nodes[id]? with
  | none =>
    unfold Procedure.Ensures
    rw [hook_absent hn, hook_absent (h.absent hn)]
    exact ⟨absent, r', rfl, rfl, h⟩
  | some n =>
    obtain ⟨hrespects, hn'⟩ := h.stays hid hn
    obtain ⟨w₁, hworld, heq⟩ := hcall.follows hrespects h.world (n.listeners.filter kept)
    have halike := hcall.alike n r.world
    have hlt := (List.getElem?_eq_some_iff.mp hn).1
    have hlt' : id < r'.nodes.length := h.length ▸ hlt
    unfold Procedure.Ensures
    rw [hook_apply hn, hook_apply hn', heq]
    refine ⟨_, _, rfl, rfl, (wiringOf_set hn halike).trans h.wiring, ?_, fun {m k} hm hk => ?_,
      fun {m k} hm hp hk => ?_, fun {m k} hm hk => ?_, hworld, ?_⟩
    · rw [after_length, after_length, h.length]
    · by_cases hidm : id = m
      · subst hidm
        rw [after_getElem?_self hlt] at hk
        cases hk
        rw [after_getElem?_self hlt', halike.listeners, halike.component]
        exact ⟨hrespects, rfl⟩
      · rw [after_getElem?_ne hidm] at hk ⊢
        exact h.stays hm hk
    · have hidm : id ≠ m := fun heq => by simp [← heq, hid] at hm
      rw [after_getElem?_ne hidm] at hk
      exact h.goes hm hp hk
    · have hidm : id ≠ m := fun heq => by simp [← heq, hid] at hm
      rw [after_getElem?_ne hidm] at hk
      exact h.asleep hm hk
    · rw [hact]
      simp only [after]
      rw [List.filter_cons_of_pos (by simpa using hid), h.journal]

theorem unseen_hook (hcall : Sees same call) (hid : kept id = false) (hlive : net.pruned id = false)
    {absent : α} : Unseen same net kept (hook id absent call act) := by
  intro r r' h
  cases hn : r.nodes[id]? with
  | none =>
    rw [hook_absent hn]
    exact h
  | some n =>
    have hdetached := h.goes hid hlive hn
    have halike := hcall.alike n r.world
    have hlt := (List.getElem?_eq_some_iff.mp hn).1
    rw [hook_apply hn]
    refine ⟨(wiringOf_set hn halike).trans h.wiring, ?_, fun {m k} hm hk => ?_, fun {m k} hm hp hk => ?_, h.asleep,
      hcall.keeps hdetached r.world r'.world h.world, ?_⟩
    · rw [after_length, h.length]
    · have hidm : id ≠ m := fun heq => by simp [← heq, hid] at hm
      rw [after_getElem?_ne hidm] at hk
      exact h.stays hm hk
    · by_cases hidm : id = m
      · subst hidm
        rw [after_getElem?_self hlt] at hk
        cases hk
        rw [halike.component]
        exact hdetached
      · rw [after_getElem?_ne hidm] at hk
        exact h.goes hm hp hk
    · simp only [after]
      rw [List.filter_cons_of_neg (by simp [hid]), h.journal]

end Rules

/-! ## Deliveries -/

/-- What is left out sends only to what is left out. -/
def Closed (net : Wiring) (kept : Nat → Bool) : Prop :=
  ∀ m, kept m = false → net.pruned m = false → ∀ l ∈ net.listeners m, kept l = false

/-- Receivers that keep the two runs side by side. -/
structure Lockstep (same : W → W → Prop) (net : Wiring) (kept : Nat → Bool)
    (receive : Receiver W) : Prop where
  seen : ∀ {id} data u, kept id = true →
    Mirrors same net kept Eq (receive id data u) (receive id data u)
  unseen : ∀ {id} data u, kept id = false → Unseen same net kept (receive id data u)

section Stages

variable {id : Nat}

theorem wiringOf_finalize (provider l : Nat) (r : Run W) :
    wiringOf (finalize provider l r).1.nodes = wiringOf r.nodes := by
  refine wiringOf_congr (List.length_modify ..) fun {m n} hn => ?_
  refine ⟨if l = m then { n with finalized := n.finalized.insert provider } else n, ?_, ?_⟩
  · show (r.nodes.modify l _)[m]? = _
    rw [List.getElem?_modify, hn]
    rfl
  · split <;> exact ⟨rfl, rfl, rfl, rfl, rfl⟩

theorem getElem?_finalize {provider l m : Nat} {r : Run W} {n : Node W}
    (hn : (finalize provider l r).1.nodes[m]? = some n) : ∃ k, r.nodes[m]? = some k ∧
      (if l = m then { k with finalized := k.finalized.insert provider } else k) = n := by
  obtain ⟨k, hk, heq⟩ := Option.map_eq_some_iff.mp (List.getElem?_modify .. ▸ hn)
  exact ⟨k, hk, heq⟩

/-- Telling a node of an end. -/
theorem mirrors_finalize (provider l : Nat) :
    Mirrors same net kept Eq (finalize provider l) (finalize provider l) := by
  intro r r' h
  refine ⟨(), _, rfl, rfl, (wiringOf_finalize provider l r).trans h.wiring, ?_, fun {m n} hm hn => ?_,
    fun {m n} hm hp hn => ?_, fun {m n} hm hn => ?_, h.world, h.journal⟩
  · simp only [List.length_modify, h.length]
  · obtain ⟨k, hk, rfl⟩ := getElem?_finalize hn
    obtain ⟨hrespects, hk'⟩ := h.stays hm hk
    refine ⟨?_, ?_⟩
    · split <;> exact hrespects
    · simp only [List.getElem?_modify, hk']
      split <;> rfl
  · obtain ⟨k, hk, rfl⟩ := getElem?_finalize hn
    have hdetached := h.goes hm hp hk
    split <;> exact hdetached
  · obtain ⟨k, hk, rfl⟩ := getElem?_finalize hn
    have hasleep := h.asleep hm hk
    split <;> exact hasleep

theorem unseen_finalize {l : Nat} (hl : kept l = false) (provider : Nat) :
    Unseen same net kept (finalize provider l) := by
  intro r r' h
  refine ⟨(wiringOf_finalize provider l r).trans h.wiring, ?_, fun {m n} hm hn => ?_,
    fun {m n} hm hp hn => ?_, h.asleep, h.world, h.journal⟩
  · rw [h.length]
    exact (List.length_modify ..).symm
  · obtain ⟨k, hk, rfl⟩ := getElem?_finalize hn
    have hne : l ≠ m := fun heq => by simp [heq, hm] at hl
    rw [if_neg hne]
    exact h.stays hm hk
  · obtain ⟨k, hk, rfl⟩ := getElem?_finalize hn
    have hdetached := h.goes hm hp hk
    split <;> exact hdetached

/-- What a node that is kept does for each of its listeners is seen at those that are kept. -/
theorem mirrors_listeners (hid : kept id = true) {f : Nat → Stage W Unit}
    (hseen : ∀ l, kept l = true → Mirrors same net kept Eq (f l) (f l))
    (hunseen : ∀ l, kept l = false → Unseen same net kept (f l)) :
    Mirrors same net kept Eq (look id [] (·.listeners) >>= Procedure.each f)
      (look id [] (·.listeners) >>= Procedure.each f) := by
  intro r r' h
  have hlook : ∀ r : Run W, (look id [] (·.listeners) >>= Procedure.each f) r =
      Procedure.each f ((r.nodes[id]?.map (·.listeners)).getD []) r := fun _ => rfl
  have hlisteners : (r'.nodes[id]?.map (·.listeners)).getD [] =
      ((r.nodes[id]?.map (·.listeners)).getD []).filter kept := by
    cases hn : r.nodes[id]? with
    | none => simp [h.absent hn]
    | some n => simp [(h.stays hid hn).2, Node.heardBy]
  unfold Procedure.Ensures
  rw [hlook, hlook, hlisteners]
  exact mirrors_each kept (fun l _ => hseen l) (fun l _ => hunseen l) r r' h

theorem unseen_listeners (hclosed : Closed net kept) (hid : kept id = false)
    (hlive : net.pruned id = false) {f : Nat → Stage W Unit}
    (hunseen : ∀ l, kept l = false → Unseen same net kept (f l)) :
    Unseen same net kept (look id [] (·.listeners) >>= Procedure.each f) := by
  intro r r' h
  have hlook : (look id [] (·.listeners) >>= Procedure.each f) r =
      Procedure.each f (net.listeners id) r := by
    rw [← h.wiring]
    rfl
  rw [hlook]
  exact unseen_each (fun l hl => hunseen l (hclosed id hid hlive l hl)) r r' h

theorem mirrors_work (hid : kept id = true) :
    Mirrors same net kept Eq (work id) (work id) := by
  refine mirrors_seq (mirrors_hook sees_dequeue hid fun _ _ _ => rfl) fun got => ?_
  cases got with
  | none => exact mirrors_pure rfl
  | some data =>
    refine mirrors_seq (mirrors_hook (sees_transform data) hid fun _ _ _ => rfl)
      fun result => ?_
    exact mirrors_seq (mirrors_demand id result) fun out => mirrors_pure rfl

theorem mirrors_takeIn (hid : kept id = true) (u : Nat) (data : Option Payload) :
    Mirrors same net kept Eq (takeIn id u data) (takeIn id u data) := by
  cases data with
  | none => exact mirrors_pure rfl
  | some data =>
    unfold takeIn
    exact mirrors_hook (sees_enqueueFrom u data) hid fun _ _ _ => rfl

variable {receive : Receiver W} (hr : Lockstep same net kept receive)

include hr

theorem mirrors_push (hid : kept id = true) (data : Option Payload) :
    Mirrors same net kept Eq (push receive id data) (push receive id data) :=
  mirrors_listeners hid (fun _ => hr.seen data id) fun _ => hr.unseen data id

theorem mirrors_emit (hid : kept id = true) (chunk : Except ComponentError Payload) :
    Mirrors same net kept Eq (emit receive id chunk) (emit receive id chunk) := by
  refine mirrors_seq (mirrors_demand id chunk) fun data => ?_
  exact mirrors_seq (mirrors_note hid _) fun _ => mirrors_push hr hid (some data)

theorem mirrors_complete (hid : kept id = true) :
    Mirrors same net kept Eq (complete receive id) (complete receive id) := by
  refine mirrors_seq (mirrors_look hid fun _ _ => rfl) fun ended => ?_
  cases ended with
  | true => exact mirrors_pure rfl
  | false =>
    refine mirrors_seq (mirrors_hook sees_lastChunk hid fun _ _ _ => rfl) fun result => ?_
    refine mirrors_seq (mirrors_demand id result) fun out => ?_
    refine mirrors_seq (mirrors_all fun chunk _ => mirrors_emit hr hid chunk) fun _ => ?_
    have hends := mirrors_seq (mirrors_listeners hid (fun l _ => mirrors_finalize id l)
      fun _ hl => unseen_finalize hl id) fun _ => mirrors_push hr hid none
    exact hends

theorem mirrors_deliver (hid : kept id = true) (data : Option Payload) (u : Nat) :
    Mirrors same net kept Eq (deliver receive id data u) (deliver receive id data u) := by
  rw [deliver_eq]
  refine mirrors_seq (mirrors_look hid fun _ _ => rfl) fun closed => ?_
  cases closed with
  | true => exact mirrors_pure rfl
  | false =>
    refine mirrors_seq (mirrors_takeIn hid u data) fun _ => mirrors_seq (mirrors_work hid) fun out => ?_
    refine mirrors_seq (mirrors_all fun chunk _ => mirrors_emit hr hid chunk) fun _ => ?_
    refine mirrors_seq (mirrors_look hid fun _ _ => rfl) fun finalized => ?_
    cases finalized with
    | true => exact mirrors_complete hr hid
    | false => exact mirrors_pure rfl

/-! What is left out is not seen. -/

section Unseen

variable (hclosed : Closed net kept)

include hclosed

theorem unseen_push (hid : kept id = false) (hlive : net.pruned id = false)
    (data : Option Payload) : Unseen same net kept (push receive id data) :=
  unseen_listeners hclosed hid hlive fun _ => hr.unseen data id

theorem unseen_emit (hid : kept id = false) (hlive : net.pruned id = false)
    (chunk : Except ComponentError Payload) : Unseen same net kept (emit receive id chunk) := by
  refine unseen_bind (unseen_demand id chunk) fun data => ?_
  exact unseen_bind (unseen_note hid _) fun _ => unseen_push hr hclosed hid hlive (some data)

theorem unseen_complete (hid : kept id = false) (hlive : net.pruned id = false) :
    Unseen same net kept (complete receive id) := by
  refine unseen_bind (unseen_look id true (·.completed)) fun ended => ?_
  cases ended with
  | true => exact unseen_pure ()
  | false =>
    refine unseen_bind (unseen_hook sees_lastChunk hid hlive) fun result => ?_
    refine unseen_bind (unseen_demand id result) fun out => ?_
    refine unseen_bind (unseen_each fun chunk _ => unseen_emit hr hclosed hid hlive chunk)
      fun _ => ?_
    have hends := unseen_bind (unseen_listeners hclosed hid hlive fun _ hl => unseen_finalize hl id)
      fun _ => unseen_push hr hclosed hid hlive none
    exact hends

omit hr hclosed in
theorem unseen_work (hid : kept id = false) (hlive : net.pruned id = false) :
    Unseen same net kept (work id) := by
  refine unseen_bind (unseen_hook sees_dequeue hid hlive) fun got => ?_
  cases got with
  | none => exact unseen_pure none
  | some data =>
    refine unseen_bind (unseen_hook (sees_transform data) hid hlive) fun result => ?_
    exact unseen_bind (unseen_demand id result) fun out => unseen_pure (some out)

/-- A node that was pruned before takes nothing in, and what is pruned now is not seen. -/
theorem unseen_deliver (hid : kept id = false) (data : Option Payload) (u : Nat) :
    Unseen same net kept (deliver receive id data u) := by
  cases hlive : net.pruned id with
  | true =>
    intro r r' h
    have hclosed : (r.nodes[id]?.map fun n => n.pruned || n.completed).getD true = true := by
      cases hn : r.nodes[id]? with
      | none => rfl
      | some n => simp [h.pruned hn, hlive]
    have hdeliver : deliver receive id data u r = (r, .ok ()) := by
      simp only [deliver_eq, Procedure.bind_apply, look, Procedure.view, hclosed]
      rfl
    rw [hdeliver]
    exact h
  | false =>
    rw [deliver_eq]
    refine unseen_bind (unseen_look id true fun n => n.pruned || n.completed) fun closed => ?_
    cases closed with
    | true => exact unseen_pure ()
    | false =>
      refine unseen_bind ?_ fun _ => unseen_bind (unseen_work hid hlive) fun out => ?_
      · cases data with
        | none => exact unseen_pure ()
        | some data => exact unseen_hook (sees_enqueueFrom u data) hid hlive
      · refine unseen_bind (unseen_each fun chunk _ => unseen_emit hr hclosed hid hlive chunk)
          fun _ => ?_
        refine unseen_bind (unseen_look id false (·.isFinalized)) fun finalized => ?_
        cases finalized with
        | true => exact unseen_complete hr hclosed hid hlive
        | false => exact unseen_pure ()

omit hr in
theorem lockstep_receive (depth : Nat) : Lockstep same net kept (Run.receive (W := W) depth) := by
  induction depth with
  | zero => exact ⟨fun _ _ _ => mirrors_pure rfl, fun _ _ _ => unseen_pure ()⟩
  | succ depth ih =>
    exact ⟨fun data u hid => mirrors_deliver ih hid data u,
      fun data u hid => unseen_deliver ih hclosed hid data u⟩

/-! ## Roots -/

theorem unseen_begin (hid : kept id = false) (hlive : net.pruned id = false) (data : Payload) :
    Unseen same net kept (begin receive id data) := by
  refine unseen_bind (unseen_hook (sees_enqueueRoot data) hid hlive) fun _ => ?_
  refine unseen_bind (unseen_work hid hlive) fun out => ?_
  cases out with
  | none => exact unseen_bind (unseen_complete hr hclosed hid hlive) fun _ => unseen_pure none
  | some out => exact unseen_pure (some out)

omit hclosed in
theorem mirrors_begin (hid : kept id = true) (data : Payload) :
    Mirrors same net kept Eq (begin receive id data) (begin receive id data) := by
  refine mirrors_seq (mirrors_hook (sees_enqueueRoot data) hid fun _ _ _ => rfl) fun _ => ?_
  refine mirrors_seq (mirrors_work hid) fun out => ?_
  cases out with
  | none => exact mirrors_seq (mirrors_complete hr hid) fun _ => mirrors_pure rfl
  | some out => exact mirrors_pure rfl

/-- What is there of the roots that are kept. -/
abbrev keptOf {α : Type} (kept : Nat → Bool) (xs : List (Nat × α)) : List (Nat × α) :=
  xs.filter fun x => kept x.1

/-- What the first turns of all roots put out, and of those that are kept. -/
def Streams (net : Wiring) (kept : Nat → Bool) (streams streams' : List (Nat × Output)) : Prop :=
  streams' = keptOf kept streams ∧ ∀ s ∈ streams, net.pruned s.1 = false

omit hr hclosed in
theorem Streams.cons {streams streams' : List (Nat × Output)} (h : Streams net kept streams streams')
    (hlive : net.pruned id = false) (out : Output) :
    Streams net kept ((id, out) :: streams)
      (if kept id = true then (id, out) :: streams' else streams') := by
  obtain ⟨rfl, hall⟩ := h
  refine ⟨?_, List.forall_mem_cons.mpr ⟨hlive, hall⟩⟩
  unfold keptOf
  rw [List.filter_cons]

theorem mirrors_beginAll {inputs : List (Nat × Payload)}
    (hlive : ∀ s ∈ inputs, net.pruned s.1 = false) :
    Mirrors same net kept (Streams net kept) (beginAll receive inputs)
      (beginAll receive (keptOf kept inputs)) := by
  induction inputs with
  | nil => exact mirrors_pure ⟨rfl, fun _ h => absurd h List.not_mem_nil⟩
  | cons s rest ih =>
    obtain ⟨id, data⟩ := s
    have hrest := ih fun s hs => hlive s (List.mem_cons_of_mem _ hs)
    have hfirst : net.pruned id = false := hlive _ List.mem_cons_self
    cases hid : kept id with
    | true =>
      rw [keptOf, List.filter_cons_of_pos (by simpa using hid)]
      refine mirrors_seq (mirrors_begin hr hid data) fun out => ?_
      refine mirrors_bind hrest fun others others' h => ?_
      cases out with
      | none => exact mirrors_pure h
      | some out =>
        have hcons := h.cons hfirst out
        rw [if_pos hid] at hcons
        exact mirrors_pure hcons
    | false =>
      rw [keptOf, List.filter_cons_of_neg (by simp [hid])]
      refine mirrors_skip (unseen_begin hr hclosed hid hfirst data) fun out => ?_
      refine mirrors_answer hrest fun others others' h => ?_
      cases out with
      | none => exact ⟨others, rfl, h⟩
      | some out =>
        have hcons := h.cons hfirst out
        rw [if_neg (by simp [hid])] at hcons
        exact ⟨(id, out) :: others, rfl, hcons⟩

/-! The turns of the roots that are kept stand in the same order, and no more rounds follow. -/

omit hr hclosed

theorem leftOver_keptOf (streams : List (Nat × Output)) :
    leftOver (keptOf kept streams) = keptOf kept (leftOver streams) := by
  induction streams with
  | nil => rfl
  | cons s rest ih =>
    obtain ⟨id, _ | ⟨chunk, out⟩⟩ := s
    all_goals cases hid : kept id <;> simp_all [leftOver, keptOf]

theorem turns_succ (rounds : Nat) (streams : List (Nat × Output)) :
    turns (rounds + 1) streams =
      streams.map (fun s => (s.1, s.2.head?)) ++ turns rounds (leftOver streams) := rfl

theorem turns_keptOf (rounds : Nat) (streams : List (Nat × Output)) :
    turns rounds (keptOf kept streams) = keptOf kept (turns rounds streams) := by
  induction rounds generalizing streams with
  | zero => rfl
  | succ rounds ih =>
    rw [turns_succ, turns_succ, leftOver_keptOf, ih]
    unfold keptOf
    rw [List.filter_append, List.filter_map]
    rfl

/-- Rounds after the last change nothing. -/
theorem turns_of_lt {rounds rounds' : Nat} {streams : List (Nat × Output)}
    (h : ∀ s ∈ streams, s.2.length < rounds) (h' : ∀ s ∈ streams, s.2.length < rounds') :
    turns rounds streams = turns rounds' streams := by
  have hnone : ∀ rounds, turns rounds [] = [] := fun rounds => by
    induction rounds with
    | zero => rfl
    | succ rounds ih => exact ih
  induction rounds generalizing rounds' streams with
  | zero =>
    have hnil : streams = [] := List.eq_nil_iff_forall_not_mem.mpr fun s hs =>
      absurd (h s hs) (Nat.not_lt_zero _)
    rw [hnil, hnone, hnone]
  | succ rounds ih =>
    cases rounds' with
    | zero =>
      have hnil : streams = [] := List.eq_nil_iff_forall_not_mem.mpr fun s hs =>
        absurd (h' s hs) (Nat.not_lt_zero _)
      rw [hnil, hnone, hnone]
    | succ rounds' =>
      have hleft : ∀ {n}, (∀ s ∈ streams, s.2.length < n + 1) →
          ∀ s ∈ leftOver streams, s.2.length < n := fun hn s hs => by
        obtain ⟨chunk, hmem⟩ := mem_leftOver.mp hs
        simpa using hn _ hmem
      rw [turns_succ, turns_succ, ih (hleft h) (hleft h')]

theorem turns_roundsFor_keptOf (streams : List (Nat × Output)) :
    turns (roundsFor (keptOf kept streams)) (keptOf kept streams) =
      keptOf kept (turns (roundsFor streams) streams) := by
  rw [← turns_keptOf]
  refine turns_of_lt (fun s hs => length_lt_roundsFor hs) fun s hs => ?_
  exact length_lt_roundsFor (List.mem_of_mem_filter hs)

theorem mem_turns {rounds : Nat} {streams : List (Nat × Output)} {turn : Turn}
    (h : turn ∈ turns rounds streams) : turn.1 ∈ numbersOf streams := by
  induction rounds generalizing streams with
  | zero => cases h
  | succ rounds ih =>
    rcases List.mem_append.mp h with h | h
    · obtain ⟨s, hs, rfl⟩ := List.mem_map.mp h
      exact List.mem_map_of_mem hs
    · exact (leftOver_sublist streams).mem (ih h)

end Unseen

end Stages

/-! ## The whole run -/

section Whole

theorem mirrors_drive (hclosed : Closed net kept) (depth : Nat) {inputs : List (Nat × Payload)}
    (hlive : ∀ s ∈ inputs, net.pruned s.1 = false) :
    Mirrors same net kept Eq (drive (Run.receive depth) inputs)
      (drive (Run.receive depth) (keptOf kept inputs)) := by
  have hr : Lockstep same net kept (Run.receive depth) := lockstep_receive hclosed depth
  refine mirrors_bind (mirrors_beginAll hr hclosed hlive) fun streams streams' h => ?_
  obtain ⟨rfl, hstreams⟩ := h
  rw [turns_roundsFor_keptOf]
  refine mirrors_each (fun turn => kept turn.1) (fun (turn : Turn) _ hid => ?_)
    fun (turn : Turn) hmem hid => ?_
  · obtain ⟨id, _ | chunk⟩ := turn
    · exact mirrors_complete hr hid
    · exact mirrors_emit hr hid chunk
  · obtain ⟨s, hs, heq⟩ := List.mem_map.mp (mem_turns hmem)
    have hturn : net.pruned turn.1 = false := heq ▸ hstreams s hs
    obtain ⟨id, _ | chunk⟩ := turn
    · exact unseen_complete hr hclosed hid hturn
    · exact unseen_emit hr hclosed hid hturn chunk

theorem mirrors_acquireAll {ids : List Nat} (hlive : ∀ id ∈ ids, net.pruned id = false) :
    Mirrors same net kept Eq (acquireAll ids) (acquireAll (ids.filter kept)) := by
  refine mirrors_each kept (fun id _ hid => ?_) fun id hmem hid => ?_
  · exact mirrors_seq (mirrors_hook sees_acquire hid fun _ _ _ => rfl) fun result =>
      mirrors_demand id result
  · exact unseen_bind (unseen_hook sees_acquire hid (hlive id hmem)) fun result =>
      unseen_demand id result

/-- If no release fails, none of those that are kept does. -/
theorem mirrors_releaseAll {ids : List Nat} (hlive : ∀ id ∈ ids, net.pruned id = false) :
    Mirrors same net kept (fun failure failure' => failure = none → failure' = none)
      (releaseAll ids) (releaseAll (ids.filter kept)) := by
  induction ids with
  | nil => exact mirrors_pure id
  | cons id rest ih =>
    have hrest := ih fun m hm => hlive m (List.mem_cons_of_mem _ hm)
    cases hid : kept id with
    | true =>
      rw [List.filter_cons_of_pos hid]
      refine mirrors_seq (mirrors_hook sees_release hid fun _ _ _ => rfl) fun result => ?_
      refine mirrors_seq (mirrors_look hid fun _ _ => rfl) fun key => ?_
      refine mirrors_bind hrest fun failure failure' hnone => ?_
      cases result with
      | ok _ => exact mirrors_pure hnone
      | error e => exact mirrors_pure fun h => nomatch h
    | false =>
      rw [List.filter_cons_of_neg (by simp [hid])]
      refine mirrors_skip (unseen_hook sees_release hid (hlive id List.mem_cons_self))
        fun result => mirrors_skip (unseen_look id "" (·.key)) fun key => ?_
      refine mirrors_answer hrest fun failure failure' hnone => ?_
      cases result with
      | ok _ => exact ⟨failure, rfl, hnone⟩
      | error e => exact ⟨_, rfl, fun h => nomatch h⟩

end Whole

/-- The nodes with a property that does not depend on the listeners, and that no node has that
is left out. -/
theorem Shadow.idsOf_eq {r r' : Run W} (h : Shadow same net kept r r') {p : Node W → Bool}
    (hp : ∀ n ls, p (n.heardBy ls) = p n)
    (hrest : ∀ {m n}, kept m = false → r'.nodes[m]? = some n → p n = false) :
    idsOf r'.nodes p = (idsOf r.nodes p).filter kept := by
  refine List.Pairwise.eq_of_mem_iff (sorted_idsOf _ p) ((sorted_idsOf _ p).filter kept)
    fun m => ?_
  rw [List.mem_filter, mem_idsOf, mem_idsOf]
  constructor
  · rintro ⟨n', hn', hpn⟩
    cases hm : kept m with
    | false => exact absurd (hrest hm hn') (by simp [hpn])
    | true =>
      cases hn : r.nodes[m]? with
      | none => rw [h.absent hn] at hn'; cases hn'
      | some n =>
        rw [(h.stays hm hn).2] at hn'
        cases hn'
        exact ⟨⟨n, rfl, (hp n _).symm.trans hpn⟩, rfl⟩
  · rintro ⟨⟨n, hn, hpn⟩, hm⟩
    exact ⟨_, (h.stays hm hn).2, (hp n _).trans hpn⟩

theorem Steps.length {r r' : Run W} (h : Steps r r') : r'.nodes.length = r.nodes.length := by
  refine h.keep (I := fun r' => r'.nodes.length = r.nodes.length) rfl fun r₁ r₂ hstep hlength => ?_
  cases hstep with
  | call hook hn => exact List.length_set.trans hlength
  | emit => exact hlength
  | finalize => exact (List.length_modify ..).trans hlength

/-- A node that is not among those to be acquired is not acquired while the roots are driven. -/
theorem not_acquired {all : Bool} {ids : List Nat} {r r₁ r₂ : Run W} (h : Acquires all ids r r₁)
    (hsteps : Steps r₁ r₂) {m : Nat} (hm : m ∉ ids)
    (hasleep : ∀ n, r.nodes[m]? = some n → n.acquired = false) {n : Node W}
    (hn : r₂.nodes[m]? = some n) : n.acquired = false := by
  have hlt : m < r₁.nodes.length := hsteps.length ▸ (List.getElem?_eq_some_iff.mp hn).1
  obtain ⟨n₁, hn₁⟩ : ∃ n₁, r₁.nodes[m]? = some n₁ := ⟨_, List.getElem?_eq_getElem hlt⟩
  obtain ⟨n₂, hn₂, -, hacquired⟩ := hsteps.alike hn₁
  rw [hn] at hn₂
  cases hn₂
  rw [hacquired]
  exact hasleep n₁ ((h.other hm).1 ▸ hn₁)

/-- A whole run answers if its three parts do and no release fails. -/
theorem whole_eq_ok {r r₃ : Run W} {inputs : List (Nat × Payload)} :
    whole inputs r = (r₃, .ok ()) ↔ ∃ r₁ r₂,
      acquireAll (idsOf r.nodes fun n => !n.pruned) r = (r₁, .ok ()) ∧
        drive (receive r.nodes.length) inputs r₁ = (r₂, .ok ()) ∧
          releaseAll (idsOf r₂.nodes (·.acquired)) r₂ = (r₃, .ok none) := by
  unfold whole
  simp only [Procedure.bind_apply]
  constructor
  · intro hok
    rcases hopens : acquireAll (idsOf r.nodes fun n => !n.pruned) r with ⟨r₁, e | _⟩
    all_goals simp only [hopens] at hok
    · rcases hreleases : releaseAll (idsOf r₁.nodes (·.acquired)) r₁ with ⟨_, _⟩
      cases hok
    rcases hdrives : drive (receive r.nodes.length) inputs r₁ with ⟨r₂, e | _⟩
    all_goals simp only [hdrives] at hok
    · rcases hreleases : releaseAll (idsOf r₂.nodes (·.acquired)) r₂ with ⟨_, _⟩
      cases hok
    rcases hreleases : releaseAll (idsOf r₂.nodes (·.acquired)) r₂ with ⟨r₃', e | failure⟩
    all_goals simp only [hreleases] at hok
    · cases hok
    · cases failure with
      | none =>
        cases hok
        exact ⟨r₁, r₂, rfl, hdrives, hreleases⟩
      | some e => cases hok
  · rintro ⟨r₁, r₂, hopens, hdrives, hreleases⟩
    simp only [hopens, hdrives, hreleases]

/-- If a whole run answers, so does its shadow, and it is its shadow at the end. -/
theorem Shadow.of_whole {r r' r₃ : Run W} (hclosed : Closed net kept)
    (h : Shadow same net kept r r') {inputs : List (Nat × Payload)}
    (hlive : ∀ s ∈ inputs, net.pruned s.1 = false)
    (hgone : ∀ {m n}, kept m = false → r'.nodes[m]? = some n → n.pruned = true)
    (hasleep : ∀ {m : Nat} {n : Node W}, r.nodes[m]? = some n → n.acquired = false)
    (hok : whole inputs r = (r₃, .ok ())) :
    ∃ r₃', whole (keptOf kept inputs) r' = (r₃', .ok ()) ∧ Shadow same net kept r₃ r₃' := by
  have hids : idsOf r'.nodes (fun n => !n.pruned) =
      (idsOf r.nodes fun n => !n.pruned).filter kept :=
    h.idsOf_eq (fun _ _ => rfl) fun hm hn => by simp [hgone hm hn]
  have hopen : ∀ id ∈ idsOf r.nodes (fun n => !n.pruned),
      net.pruned id = false ∧ id < r.nodes.length := fun id hid => by
    obtain ⟨n, hn, hp⟩ := mem_idsOf.mp hid
    exact ⟨by rw [← h.pruned hn]; simpa using hp, lt_of_mem_idsOf hid⟩
  obtain ⟨r₁, r₂, hopens, hdrives, hreleases⟩ := whole_eq_ok.mp hok
  have hacquires := acquires_acquireAll _ r fun id hid => (hopen id hid).2
  have hsteps := goes_drive (goes_receive r.nodes.length) inputs r₁
  rw [hopens] at hacquires
  rw [hdrives] at hsteps
  -- a release is only of what was acquired, and that is not pruned
  have hacquired : ∀ id ∈ idsOf r₂.nodes (·.acquired), net.pruned id = false := fun id hid => by
    obtain ⟨n, hn, hp⟩ := mem_idsOf.mp hid
    by_contra hpruned
    have hout : id ∉ idsOf r.nodes fun n => !n.pruned := fun hmem => hpruned (hopen id hmem).1
    simp [not_acquired hacquires hsteps hout (fun _ => hasleep) hn] at hp
  obtain ⟨_, r₁', hopens', rfl, h₁⟩ :=
    (mirrors_acquireAll fun id hid => (hopen id hid).1).answers h hopens
  obtain ⟨_, r₂', hdrives', rfl, h₂⟩ :=
    (mirrors_drive hclosed r.nodes.length hlive).answers h₁ hdrives
  obtain ⟨failure, r₃', hreleases', hnone, h₃⟩ :=
    (mirrors_releaseAll hacquired).answers h₂ hreleases
  rw [hnone rfl, ← h₂.idsOf_eq (fun _ _ => rfl) h₂.asleep] at hreleases'
  rw [← hids] at hopens'
  rw [← h.length] at hdrives'
  exact ⟨r₃', whole_eq_ok.mpr ⟨r₁', r₂', hopens', hdrives', hreleases'⟩, h₃⟩

end Run

end FeatureGraph
