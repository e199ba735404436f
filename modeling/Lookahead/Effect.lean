/-!
# How effects run

A computation with a state and a failure is a function from the state; these equations say what the
building blocks do to it. They hold by definition, and proofs about buffers start with them.
-/

namespace Lookahead

variable {ε ε' σ α β : Type}

theorem bind_apply (first : EStateM ε σ α) (next : α → EStateM ε σ β) (s : σ) :
    (first >>= next) s =
      match first s with
      | .ok a s' => next a s'
      | .error e s' => .error e s' := rfl

theorem pure_apply (a : α) (s : σ) : (pure a : EStateM ε σ α) s = .ok a s := rfl

theorem get_apply (s : σ) : (get : EStateM ε σ σ) s = .ok s s := rfl

theorem throw_apply (e : ε) (s : σ) : (throw e : EStateM ε σ α) s = .error e s := rfl

/-- The state that a computation ends in, whether it fails or not. -/
def stateOf : EStateM.Result ε σ α → σ
  | .ok _ s => s
  | .error _ s => s

@[simp] theorem stateOf_ok (a : α) (s : σ) : stateOf (.ok a s : EStateM.Result ε σ α) = s := rfl

@[simp] theorem stateOf_error (e : ε) (s : σ) :
    stateOf (.error e s : EStateM.Result ε σ α) = s := rfl

/-- Reading something off the state at the end does not change it. -/
theorem stateOf_bind_get (first : EStateM ε σ α) (read : σ → β) (s : σ) :
    stateOf ((first >>= fun _ => get >>= fun s => pure (read s)) s) = stateOf (first s) := by
  rw [bind_apply]
  cases first s <;> rfl

theorem adaptExcept_apply (f : ε → ε') (x : EStateM ε σ α) (s : σ) :
    x.adaptExcept f s =
      match x s with
      | .ok a s' => .ok a s'
      | .error e s' => .error (f e) s' := by
  unfold EStateM.adaptExcept
  cases x s <;> rfl

theorem stateOf_adaptExcept (f : ε → ε') (x : EStateM ε σ α) (s : σ) :
    stateOf (x.adaptExcept f s) = stateOf (x s) := by
  rw [adaptExcept_apply]
  cases x s <;> rfl

end Lookahead
