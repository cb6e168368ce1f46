-- What a procedure ensures: of its answer and its state if it answers, and of
-- its state or of its error if it stops. A law of a long procedure is put
-- together from the laws of its parts.
import FeatureGraph.Procedure

namespace FeatureGraph.Procedure

universe u v

variable {σ : Type u} {ι : Type v} {ε α β : Type}

/-- Begun in `s`, the work answers as `good` says or stops in a state as `bad` says. -/
def Ensures (p : Procedure σ ε α) (s : σ) (good : α → σ → Prop) (bad : σ → Prop) : Prop :=
  match p s with
  | (s, .ok a) => good a s
  | (s, .error _) => bad s

variable {p : Procedure σ ε α} {s : σ} {good good' : α → σ → Prop} {bad bad' : σ → Prop}

theorem Ensures.mono (h : p.Ensures s good bad) (hgood : ∀ a s, good a s → good' a s)
    (hbad : ∀ s, bad s → bad' s) : p.Ensures s good' bad' := by
  unfold Ensures at *
  split at h
  · exact hgood _ _ h
  · exact hbad _ h

theorem ensures_bind {f : α → Procedure σ ε β} {good : β → σ → Prop}
    (h : p.Ensures s (fun a s => (f a).Ensures s good bad) bad) : (p >>= f).Ensures s good bad := by
  unfold Ensures at h ⊢
  rw [bind_apply]
  rcases heq : p s with ⟨s', _ | a⟩
  · rw [heq] at h
    exact h
  · rw [heq] at h
    exact h

theorem ensures_pure {a : α} (h : good a s) :
    (pure a : Procedure σ ε α).Ensures s good bad := h

theorem ensures_view {f : σ → α} (h : good (f s) s) :
    (view f : Procedure σ ε α).Ensures s good bad := h

theorem ensures_change {f : σ → σ} {good : Unit → σ → Prop} (h : good () (f s)) :
    (change f : Procedure σ ε Unit).Ensures s good bad := h

/-- Work on a list keeps what each item's work keeps. `I` speaks of the items that are still
to come. -/
theorem ensures_each {f : ι → Procedure σ ε Unit} {I : List ι → σ → Prop}
    (step : ∀ x rest s, I (x :: rest) s → (f x).Ensures s (fun _ s => I rest s) bad)
    (xs : List ι) (h : I xs s) : (each f xs).Ensures s (fun _ s => I [] s) bad := by
  induction xs generalizing s with
  | nil => exact h
  | cons x rest ih =>
    rw [each]
    apply ensures_bind
    exact (step x rest s h).mono (fun _ _ h => ih h) (fun _ h => h)

theorem each_map {κ : Type} (f : ι → Procedure σ ε Unit) (g : κ → ι) (xs : List κ) :
    each f (xs.map g) = each (fun x => f (g x)) xs := by
  induction xs with
  | nil => rfl
  | cons x rest ih => rw [List.map_cons, each, ih, each]

theorem each_append (f : ι → Procedure σ ε Unit) (xs ys : List ι) :
    each f (xs ++ ys) = each f xs >>= fun _ => each f ys := by
  induction xs with
  | nil => rfl
  | cons x rest ih =>
    funext s
    rw [List.cons_append, each, each, ih]
    simp only [bind_apply]
    rcases f x s with ⟨s, _ | _⟩ <;> rfl

/-! ## Errors -/

/-- Begun in `s`, the work answers as `good` says or stops with an error as `wrong` says. -/
def Yields (p : Procedure σ ε α) (s : σ) (good : α → σ → Prop) (wrong : ε → Prop) : Prop :=
  match p s with
  | (s, .ok a) => good a s
  | (_, .error e) => wrong e

variable {wrong wrong' : ε → Prop}

theorem Yields.mono (h : p.Yields s good wrong) (hgood : ∀ a s, good a s → good' a s)
    (hwrong : ∀ e, wrong e → wrong' e) : p.Yields s good' wrong' := by
  unfold Yields at *
  split at h
  · exact hgood _ _ h
  · exact hwrong _ h

theorem yields_bind {f : α → Procedure σ ε β} {good : β → σ → Prop}
    (h : p.Yields s (fun a s => (f a).Yields s good wrong) wrong) :
    (p >>= f).Yields s good wrong := by
  unfold Yields at h ⊢
  rw [bind_apply]
  rcases heq : p s with ⟨s', _ | a⟩
  · rw [heq] at h
    exact h
  · rw [heq] at h
    exact h

theorem yields_pure {a : α} (h : good a s) :
    (pure a : Procedure σ ε α).Yields s good wrong := h

theorem yields_view {f : σ → α} (h : good (f s) s) :
    (view f : Procedure σ ε α).Yields s good wrong := h

theorem yields_change {f : σ → σ} {good : Unit → σ → Prop} (h : good () (f s)) :
    (change f : Procedure σ ε Unit).Yields s good wrong := h

theorem yields_fail {e : ε} (h : wrong e) : (fail e : Procedure σ ε α).Yields s good wrong := h

/-- Work on a list, where `I` speaks of the items that are done. -/
theorem yields_each {f : ι → Procedure σ ε Unit} {I : List ι → σ → Prop} (xs : List ι)
    (step : ∀ x ∈ xs, ∀ done s, I done s → (f x).Yields s (fun _ s => I (done ++ [x]) s) wrong)
    {done : List ι} (h : I done s) : (each f xs).Yields s (fun _ s => I (done ++ xs) s) wrong := by
  induction xs generalizing s done with
  | nil => exact yields_pure (by simpa using h)
  | cons x rest ih =>
    obtain ⟨hx, hrest⟩ := List.forall_mem_cons.mp step
    rw [each]
    refine yields_bind ((hx done s h).mono (fun _ _ h => ?_) fun _ h => h)
    simpa using ih hrest h

/-! ## Errors with what they leave -/

/-- Begun in `s`, the work answers as `good` says, or stops with an error and a state as `fault`
says. -/
def Settles (p : Procedure σ ε α) (s : σ) (good : α → σ → Prop) (fault : ε → σ → Prop) : Prop :=
  match p s with
  | (s, .ok a) => good a s
  | (s, .error e) => fault e s

variable {fault : ε → σ → Prop}

theorem Settles.mono (h : p.Settles s good fault) (hgood : ∀ a s, good a s → good' a s) :
    p.Settles s good' fault := by
  unfold Settles at *
  split at h
  · exact hgood _ _ h
  · exact h

theorem settles_bind {f : α → Procedure σ ε β} {good : β → σ → Prop}
    (h : p.Settles s (fun a s => (f a).Settles s good fault) fault) :
    (p >>= f).Settles s good fault := by
  unfold Settles at h ⊢
  rw [bind_apply]
  rcases heq : p s with ⟨s', _ | a⟩
  · rw [heq] at h
    exact h
  · rw [heq] at h
    exact h

/-- Work on a list keeps what each item's work keeps. -/
theorem settles_each {f : ι → Procedure σ ε Unit} {I : σ → Prop} (xs : List ι)
    (step : ∀ x ∈ xs, ∀ s, I s → (f x).Settles s (fun _ s => I s) fault) (h : I s) :
    (each f xs).Settles s (fun _ s => I s) fault := by
  induction xs generalizing s with
  | nil => exact h
  | cons x rest ih =>
    obtain ⟨hx, hrest⟩ := List.forall_mem_cons.mp step
    rw [each]
    exact settles_bind ((hx s h).mono fun _ _ h => ih hrest h)

end FeatureGraph.Procedure
