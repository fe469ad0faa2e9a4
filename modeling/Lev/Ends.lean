import Mathlib

/-! Rules for programs that change a state and may end in an error. A program is taken from
one start state at a time, which its postcondition may mention. -/
namespace Lev.Effect

variable {ε σ α β : Type}

/-- From `s` the program ends normally in `Q`, or with an error in `E`. -/
def Ends (c : EStateM ε σ α) (s : σ) (Q : α → σ → Prop) (E : ε → σ → Prop) : Prop :=
  match c s with
  | .ok a s' => Q a s'
  | .error e s' => E e s'

variable {c : EStateM ε σ α} {s : σ} {Q Q' : α → σ → Prop} {R : β → σ → Prop}
  {E E' : ε → σ → Prop}

theorem Ends.mono (hc : Ends c s Q E) (hQ : ∀ a s', Q a s' → Q' a s') : Ends c s Q' E := by
  rw [Ends] at hc ⊢
  cases hs : c s with
  | ok a s' =>
    rw [hs] at hc
    exact hQ a s' hc
  | error e s' =>
    rw [hs] at hc
    exact hc

theorem Ends.mono_error (hc : Ends c s Q E) (hE : ∀ e s', E e s' → E' e s') : Ends c s Q E' := by
  rw [Ends] at hc ⊢
  cases hs : c s with
  | ok a s' =>
    rw [hs] at hc
    exact hc
  | error e s' =>
    rw [hs] at hc
    exact hE e s' hc

theorem Ends.bind {k : α → EStateM ε σ β} (hc : Ends c s Q E)
    (hk : ∀ a s', Q a s' → Ends (k a) s' R E) : Ends (c >>= k) s R E := by
  have hbind : (c >>= k) s = match c s with
      | .ok a s' => k a s'
      | .error e s' => .error e s' := rfl
  rw [Ends] at hc
  rw [Ends, hbind]
  cases hs : c s with
  | ok a s' =>
    rw [hs] at hc
    exact hk a s' hc
  | error e s' =>
    rw [hs] at hc
    exact hc

theorem ends_pure {a : α} (h : Q a s) : Ends (pure a) s Q E := h

theorem ends_throw {e : ε} (h : E e s) : Ends (throw e) s Q E := h

theorem ends_get_bind {k : σ → EStateM ε σ β} (h : Ends (k s) s R E) : Ends (get >>= k) s R E := h

theorem ends_modify {f : σ → σ} {Q : PUnit → σ → Prop} (h : Q ⟨⟩ (f s)) : Ends (modify f) s Q E := h

theorem Ends.ok (hc : Ends c s Q E) {a : α} {s' : σ} (hs : c s = .ok a s') : Q a s' := by
  rwa [Ends, hs] at hc

theorem Ends.error (hc : Ends c s Q E) {e : ε} {s' : σ} (hs : c s = .error e s') : E e s' := by
  rwa [Ends, hs] at hc

end Lev.Effect
