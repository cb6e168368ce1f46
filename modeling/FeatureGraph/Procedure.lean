-- Procedures: work on a state that may stop with an error. The state is kept
-- up to the point where the work stops. The state may be larger than the
-- answers, as a graph of components is.

namespace FeatureGraph

universe u v

/-- Work on a state `σ` that answers with an `α` or stops with an `ε`. -/
def Procedure (σ : Type u) (ε α : Type) : Type u := σ → σ × Except ε α

namespace Procedure

variable {σ : Type u} {ι : Type v} {ε α β : Type}

instance : Monad (Procedure σ ε) where
  pure a := fun s => (s, .ok a)
  bind p f := fun s =>
    match p s with
    | (s, .ok a) => f a s
    | (s, .error e) => (s, .error e)

/-- Stops with an error. -/
def fail (e : ε) : Procedure σ ε α := fun s => (s, .error e)

/-- Answers what is seen of the state. -/
def view (f : σ → α) : Procedure σ ε α := fun s => (s, .ok (f s))

/-- Changes the state. -/
def change (f : σ → σ) : Procedure σ ε Unit := fun s => (f s, .ok ())

/-- Does the work for every item of a list, in order, up to the first that stops. -/
def each (f : ι → Procedure σ ε Unit) : List ι → Procedure σ ε Unit
  | [] => pure ()
  | x :: rest => do
    f x
    each f rest

/-- Goes on with the answer or stops with the error. -/
def ofExcept (r : Except ε α) : Procedure σ ε α := fun s => (s, r)

@[simp] theorem pure_apply (a : α) (s : σ) : (pure a : Procedure σ ε α) s = (s, .ok a) := rfl

theorem bind_apply (p : Procedure σ ε α) (f : α → Procedure σ ε β) (s : σ) :
    (p >>= f) s = match p s with
      | (s, .ok a) => f a s
      | (s, .error e) => (s, .error e) := rfl

end Procedure

end FeatureGraph
