import Lev.Run

/-! A pool of objects of one kind, each with its own state and steps that may fail and
end the whole system. Nothing here is about one particular program. -/
namespace Lev.Pool
open Run

variable {τ β ι : Type*}

/-- How objects come to be and what they do; `none` ends the system. -/
structure Kind (τ β ι : Type*) where
  birth : β → τ
  step : τ → ι → Option τ

inductive Op (β ι : Type*)
  | create (b : β)
  | act (i : ℕ) (op : ι)
  deriving DecidableEq, Repr

/-- Objects are numbered in the order they were created. -/
def next (k : Kind τ β ι) : Option (List τ) → Op β ι → Option (List τ)
  | none, _ => none
  | some os, .create b => some (os ++ [k.birth b])
  | some os, .act i op =>
    match os[i]? with
    | none => some os
    | some o => (k.step o op).map fun o' => os.set i o'

/-- An object that acts exists and meets `P`. -/
def Acts (P : τ → ι → Prop) : Option (List τ) → Op β ι → Prop
  | some os, .act i op => ∃ o, os[i]? = some o ∧ P o op
  | _, _ => True

/-- The system still runs, and every object meets `Q`. -/
def Every (Q : τ → Prop) : Option (List τ) → Prop
  | none => False
  | some os => ∀ o ∈ os, Q o

instance decidableActs (P : τ → ι → Prop) [∀ o op, Decidable (P o op)] :
    (s : Option (List τ)) → (op : Op β ι) → Decidable (Acts P s op)
  | none, _ => isTrue trivial
  | some _, .create _ => isTrue trivial
  | some os, .act i op =>
    match h : os[i]? with
    | none => isFalse fun ⟨_, ho, _⟩ => by cases h.symm.trans ho
    | some o =>
      decidable_of_iff (P o op)
        ⟨fun hp => ⟨o, h, hp⟩, fun ⟨_, ho, hp⟩ => Option.some.inj (h.symm.trans ho) ▸ hp⟩

instance decidableEvery (Q : τ → Prop) [∀ o, Decidable (Q o)] :
    (s : Option (List τ)) → Decidable (Every Q s)
  | none => isFalse id
  | some os => inferInstanceAs (Decidable (∀ o ∈ os, Q o))

variable {k : Kind τ β ι} {P G : τ → ι → Prop} {Inv Q : τ → Prop}

theorem every_create {os : List τ} (h : Every Inv (some os)) {b : β} (hb : Inv (k.birth b)) :
    Every Inv (next k (some os) (.create b)) := by
  intro o ho
  rcases List.mem_append.mp ho with ho | ho
  · exact h o ho
  · rw [List.mem_singleton.mp ho]
    exact hb

theorem every_act {os : List τ} (h : Every Inv (some os)) {i : ℕ} {op : ι} {o o' : τ}
    (ho : os[i]? = some o) (hstep : k.step o op = some o') (ho' : Inv o') :
    Every Inv (next k (some os) (.act i op)) := by
  simp only [next, ho, hstep, Option.map_some, Every]
  intro u hu
  rcases List.mem_or_eq_of_mem_set hu with hu | rfl
  · exact h u hu
  · exact ho'

theorem every_after {os : List τ} {i : ℕ} {op : ι} {o o' : τ} (ho : os[i]? = some o)
    (hstep : k.step o op = some o') (h : Every Q (next k (some os) (.act i op))) : Q o' := by
  simp only [next, ho, hstep, Option.map_some, Every] at h
  obtain ⟨hi, _⟩ := List.getElem?_eq_some_iff.mp ho
  exact h o' (List.mem_set hi o')

/-- Guard rule for a pool. If the objects are born with the invariant, and a step of an
object keeps it when the guard holds and ends the system or breaks the property when it
does not, then the property holds of every object all along a run exactly when every step
of the run meets its guard. -/
theorem always_iff_acts (hbirth : ∀ b, Inv (k.birth b)) (hQ : ∀ o, Inv o → Q o)
    (hkeep : ∀ o op, Inv o → P o op → G o op → ∃ o', k.step o op = some o' ∧ Inv o')
    (hbreak : ∀ o op o', Inv o → P o op → ¬ G o op → k.step o op = some o' → ¬ Q o')
    {ops : List (Op β ι)} (h : Along (next k) (Acts P) (some []) ops) :
    Always (next k) (Every Q) (some []) ops ↔ Along (next k) (Acts G) (some []) ops := by
  have hsafe : ∀ s : Option (List τ), Every Inv s → Every Q s := by
    intro s hs
    cases s with
    | none => exact hs
    | some os => exact fun o ho => hQ o (hs o ho)
  have hstay : ∀ (s : Option (List τ)) (op : Op β ι), Every Inv s → Acts P s op → Acts G s op →
      Every Inv (next k s op) := by
    intro s op hs hp hg
    cases s with
    | none => exact hs
    | some os =>
      cases op with
      | create b => exact every_create hs (hbirth b)
      | act i op =>
        obtain ⟨o, ho, hpo⟩ := hp
        obtain ⟨u, hu, hgo⟩ := hg
        obtain rfl : o = u := Option.some.inj (ho.symm.trans hu)
        obtain ⟨o', hstep, ho'⟩ := hkeep o op (hs o (List.mem_of_getElem? ho)) hpo hgo
        exact every_act hs ho hstep ho'
  have hleave : ∀ (s : Option (List τ)) (op : Op β ι), Every Inv s → Acts P s op → ¬ Acts G s op →
      ¬ Every Q (next k s op) := by
    intro s op hs hp hg hq
    cases s with
    | none => exact hs
    | some os =>
      cases op with
      | create b => exact hg trivial
      | act i op =>
        obtain ⟨o, ho, hpo⟩ := hp
        have hgo : ¬ G o op := fun hgo => hg ⟨o, ho, hgo⟩
        cases hstep : k.step o op with
        | none => simp [next, ho, hstep, Every] at hq
        | some o' =>
          exact hbreak o op o' (hs o (List.mem_of_getElem? ho)) hpo hgo hstep
            (every_after ho hstep hq)
  have hstart : Every Inv (some ([] : List τ)) := by
    intro o ho
    cases ho
  exact always_iff_along hsafe hstay hleave hstart h

end Lev.Pool
