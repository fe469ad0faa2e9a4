import Mathlib

/-! Runs of a deterministic transition system driven by a list of operations.
The rules below lift what one step does to whole runs; nothing here is about
one particular program. -/
namespace Lev.Run

variable {σ ι : Type*}

/-- The state reached after performing the operations in order. -/
def exec (next : σ → ι → σ) (s : σ) (ops : List ι) : σ := ops.foldl next s

/-- Every operation of the run meets `P` in the state it is performed in. -/
def Along (next : σ → ι → σ) (P : σ → ι → Prop) : σ → List ι → Prop
  | _, [] => True
  | s, op :: ops => P s op ∧ Along next P (next s op) ops

/-- Every state of the run meets `Q`, the first and the last included. -/
def Always (next : σ → ι → σ) (Q : σ → Prop) : σ → List ι → Prop
  | s, [] => Q s
  | s, op :: ops => Q s ∧ Always next Q (next s op) ops

variable {next : σ → ι → σ} {P G : σ → ι → Prop} {Inv Q : σ → Prop}

@[simp] theorem exec_nil (s : σ) : exec next s [] = s := rfl

@[simp] theorem exec_cons (s : σ) (op : ι) (ops : List ι) :
    exec next s (op :: ops) = exec next (next s op) ops := rfl

instance decidableAlong [∀ s op, Decidable (P s op)] :
    (s : σ) → (ops : List ι) → Decidable (Along next P s ops)
  | _, [] => isTrue trivial
  | s, op :: ops =>
    have := decidableAlong (next s op) ops
    inferInstanceAs (Decidable (P s op ∧ Along next P (next s op) ops))

instance decidableAlways [∀ s, Decidable (Q s)] :
    (s : σ) → (ops : List ι) → Decidable (Always next Q s ops)
  | s, [] => inferInstanceAs (Decidable (Q s))
  | s, op :: ops =>
    have := decidableAlways (next s op) ops
    inferInstanceAs (Decidable (Q s ∧ Always next Q (next s op) ops))

theorem exec_append (s : σ) (ops ops' : List ι) :
    exec next s (ops ++ ops') = exec next (exec next s ops) ops' := by
  simp [exec, List.foldl_append]

theorem along_append {s : σ} {ops ops' : List ι} :
    Along next P s (ops ++ ops') ↔
      Along next P s ops ∧ Along next P (exec next s ops) ops' := by
  induction ops generalizing s with
  | nil => simp [Along]
  | cons op ops ih => simp [Along, ih, and_assoc]

theorem along_of_mem {s : σ} {ops : List ι} (h : ∀ op ∈ ops, ∀ s, P s op) :
    Along next P s ops := by
  induction ops generalizing s with
  | nil => trivial
  | cons op ops ih =>
    exact ⟨h op List.mem_cons_self s, ih fun op' hop' => h op' (List.mem_cons_of_mem _ hop')⟩

theorem Along.mono {s : σ} {ops : List ι} (hPG : ∀ s op, P s op → G s op)
    (h : Along next P s ops) : Along next G s ops := by
  induction ops generalizing s with
  | nil => trivial
  | cons op ops ih => exact ⟨hPG s op h.1, ih h.2⟩

theorem Along.and {s : σ} {ops : List ι} (h : Along next P s ops) (h' : Along next G s ops) :
    Along next (fun s op => P s op ∧ G s op) s ops := by
  induction ops generalizing s with
  | nil => trivial
  | cons op ops ih => exact ⟨⟨h.1, h'.1⟩, ih h.2 h'.2⟩

/-- Invariant rule: what every permitted step keeps, every permitted run keeps. -/
theorem inv_exec (hstep : ∀ s op, Inv s → P s op → Inv (next s op))
    {s : σ} {ops : List ι} (hs : Inv s) (h : Along next P s ops) :
    Inv (exec next s ops) := by
  induction ops generalizing s with
  | nil => exact hs
  | cons op ops ih => exact ih (hstep s op hs h.1) h.2

theorem always_of_inv (hQ : ∀ s, Inv s → Q s)
    (hstep : ∀ s op, Inv s → P s op → Inv (next s op))
    {s : σ} {ops : List ι} (hs : Inv s) (h : Along next P s ops) :
    Always next Q s ops := by
  induction ops generalizing s with
  | nil => exact hQ s hs
  | cons op ops ih => exact ⟨hQ s hs, ih (hstep s op hs h.1) h.2⟩

theorem along_of_inv (hstep : ∀ s op, Inv s → P s op → Inv (next s op) ∧ G s op)
    {s : σ} {ops : List ι} (hs : Inv s) (h : Along next P s ops) : Along next G s ops := by
  induction ops generalizing s with
  | nil => trivial
  | cons op ops ih =>
    obtain ⟨hinv, hg⟩ := hstep s op hs h.1
    exact ⟨hg, ih hinv h.2⟩

theorem Always.head {s : σ} {ops : List ι} (h : Always next Q s ops) : Q s := by
  cases ops with
  | nil => exact h
  | cons op ops => exact h.1

theorem Always.exec {s : σ} {ops : List ι} (h : Always next Q s ops) : Q (exec next s ops) := by
  induction ops generalizing s with
  | nil => exact h
  | cons op ops ih => exact ih h.2

theorem Always.and {Q' : σ → Prop} {s : σ} {ops : List ι} (h : Always next Q s ops)
    (h' : Always next Q' s ops) : Always next (fun s => Q s ∧ Q' s) s ops := by
  induction ops generalizing s with
  | nil => exact ⟨h, h'⟩
  | cons op ops ih => exact ⟨⟨h.1, h'.1⟩, ih h.2 h'.2⟩

/-- High-water rule. A measure that no step raises above the new value of another one stays
below the peak of the other, if it starts there. -/
theorem always_le_peak {f g : σ → ℕ} {m k : ℕ} (hinv : ∀ s op, Inv s → P s op → Inv (next s op))
    (hstep : ∀ s op, Inv s → P s op → f (next s op) ≤ max (f s) (g (next s op)))
    {s : σ} {ops : List ι} (hs : Inv s) (hm : f s ≤ m) (h : Along next P s ops)
    (hk : Always next (fun s => g s ≤ k) s ops) : Always next (fun s => f s ≤ max m k) s ops := by
  have hrun : ∀ (ops : List ι) (s : σ), Inv s → f s ≤ max m k → Along next P s ops →
      Always next (fun s => g s ≤ k) s ops → Always next (fun s => f s ≤ max m k) s ops := by
    intro ops
    induction ops with
    | nil => exact fun s _ hle _ _ => hle
    | cons op ops ih =>
      intro s hs hle h hk
      have hpeak : g (next s op) ≤ k := hk.2.head
      have hnext : f (next s op) ≤ max m k :=
        (hstep s op hs h.1).trans (max_le hle (hpeak.trans (le_max_right _ _)))
      exact ⟨hle, ih _ (hinv s op hs h.1) hnext h.2 hk.2⟩
  exact hrun ops s hs (hm.trans (le_max_left _ _)) h hk

/-- Guard rule. If a step keeps the invariant when its guard holds and breaks the
property when it does not, then the property holds along a run exactly when every
step of the run meets its guard. -/
theorem always_iff_along (hQ : ∀ s, Inv s → Q s)
    (hkeep : ∀ s op, Inv s → P s op → G s op → Inv (next s op))
    (hbreak : ∀ s op, Inv s → P s op → ¬ G s op → ¬ Q (next s op))
    {s : σ} {ops : List ι} (hs : Inv s) (h : Along next P s ops) :
    Always next Q s ops ↔ Along next G s ops := by
  induction ops generalizing s with
  | nil => exact ⟨fun _ => trivial, fun _ => hQ s hs⟩
  | cons op ops ih =>
    constructor
    · intro hall
      have hg : G s op := by
        by_contra hg
        exact hbreak s op hs h.1 hg hall.2.head
      exact ⟨hg, (ih (hkeep s op hs h.1 hg) h.2).mp hall.2⟩
    · intro hg
      exact ⟨hQ s hs, (ih (hkeep s op hs h.1 hg.1) h.2).mpr hg.2⟩

/-- Damage rule. If a step keeps the invariant when its guard holds and does lasting damage
when it does not, then a run ends in the invariant with every guard met, or in damage. -/
theorem along_or_damaged {Damaged : σ → Prop}
    (hkeep : ∀ s op, Inv s → P s op → G s op → Inv (next s op))
    (hdamage : ∀ s op, Inv s → P s op → ¬ G s op → Damaged (next s op))
    (hlasting : ∀ s op, Damaged s → P s op → Damaged (next s op))
    {s : σ} {ops : List ι} (hs : Inv s) (h : Along next P s ops) :
    (Along next G s ops ∧ Inv (exec next s ops)) ∨ Damaged (exec next s ops) := by
  induction ops generalizing s with
  | nil => exact .inl ⟨trivial, hs⟩
  | cons op ops ih =>
    by_cases hg : G s op
    · rcases ih (hkeep s op hs h.1 hg) h.2 with ⟨hrest, hinv⟩ | hend
      · exact .inl ⟨⟨hg, hrest⟩, hinv⟩
      · exact .inr hend
    · have hend := inv_exec hlasting (hdamage s op hs h.1 hg) h.2
      exact .inr hend

section refinement
variable {α : Type*} {step : α → ι → α → Prop} {abs : σ → α}

/-- A run of a relation, with one step for each operation. -/
inductive Path (step : α → ι → α → Prop) : α → List ι → α → Prop
  | nil (a : α) : Path step a [] a
  | cons {a b c : α} {op : ι} {ops : List ι} (h : step a op b) (hs : Path step b ops c) :
    Path step a (op :: ops) c

/-- Refinement rule. Where each permitted step, seen through `abs`, is one of the relation, each
permitted run is a run of it. -/
theorem path_of_along
    (hstep : ∀ s op, Inv s → P s op → Inv (next s op) ∧ step (abs s) op (abs (next s op)))
    {s : σ} {ops : List ι} (hs : Inv s) (h : Along next P s ops) :
    Path step (abs s) ops (abs (exec next s ops)) := by
  induction ops generalizing s with
  | nil => exact .nil _
  | cons op ops ih =>
    obtain ⟨hinv, hstep'⟩ := hstep s op hs h.1
    exact .cons hstep' (ih hinv h.2)

end refinement

end Lev.Run
