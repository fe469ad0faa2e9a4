import Mathlib

/-! Arrays on the stack of a C function. What is stored is kept at every index, inside the array
or not, and so are the indices that were stored to. -/
namespace Lev

/-- `written` is bookkeeping of ours: the indices stored to, the last one first. -/
structure LocalArray (α : Type) where
  size : ℕ
  cells : ℕ → α
  written : List ℕ

namespace LocalArray
variable {α : Type}

def fresh (size : ℕ) (junk : ℕ → α) : LocalArray α := ⟨size, junk, []⟩

def set (a : LocalArray α) (i : ℕ) (x : α) : LocalArray α :=
  ⟨a.size, Function.update a.cells i x, i :: a.written⟩

/-- Values stored one behind the other, the first at `i`. -/
def setFrom (a : LocalArray α) (i : ℕ) : List α → LocalArray α
  | [] => a
  | x :: xs => (a.set i x).setFrom (i + 1) xs

def toList (a : LocalArray α) : List α := (List.range a.size).map a.cells

def InBounds (a : LocalArray α) : Prop := ∀ i ∈ a.written, i < a.size

@[simp] theorem size_fresh (size : ℕ) (junk : ℕ → α) : (fresh size junk).size = size := rfl
@[simp] theorem written_fresh (size : ℕ) (junk : ℕ → α) : (fresh size junk).written = [] := rfl
@[simp] theorem size_set (a : LocalArray α) (i : ℕ) (x : α) : (a.set i x).size = a.size := rfl

@[simp] theorem size_setFrom (a : LocalArray α) (i : ℕ) (xs : List α) :
    (a.setFrom i xs).size = a.size := by
  induction xs generalizing a i with
  | nil => rfl
  | cons x xs ih => exact ih (a.set i x) (i + 1)

theorem setFrom_append (a : LocalArray α) (i : ℕ) (xs ys : List α) :
    a.setFrom i (xs ++ ys) = (a.setFrom i xs).setFrom (i + xs.length) ys := by
  induction xs generalizing a i with
  | nil => rfl
  | cons x xs ih =>
    rw [List.length_cons, Nat.add_comm xs.length, ← Nat.add_assoc]
    exact ih (a.set i x) (i + 1)

theorem mem_written_setFrom {a : LocalArray α} {i j : ℕ} {xs : List α} :
    j ∈ (a.setFrom i xs).written ↔ i ≤ j ∧ j < i + xs.length ∨ j ∈ a.written := by
  induction xs generalizing a i with
  | nil =>
    rw [setFrom, List.length_nil]
    exact ⟨.inr, fun h => h.elim (fun ⟨hle, hlt⟩ => by omega) id⟩
  | cons x xs ih =>
    rw [setFrom, ih, List.length_cons]
    simp only [set, List.mem_cons]
    constructor
    · rintro (h | rfl | h)
      · exact .inl (by omega)
      · exact .inl (by omega)
      · exact .inr h
    · rintro (h | h)
      · obtain rfl | hne := eq_or_ne j i
        · exact .inr (.inl rfl)
        · exact .inl (by omega)
      · exact .inr (.inr h)

theorem cells_setFrom_of_lt (a : LocalArray α) {i j : ℕ} (xs : List α) (hj : j < i) :
    (a.setFrom i xs).cells j = a.cells j := by
  induction xs generalizing a i with
  | nil => rfl
  | cons x xs ih =>
    have hrest := ih (a.set i x) (show j < i + 1 by omega)
    exact hrest.trans (Function.update_of_ne (by omega) _ _)

theorem cells_setFrom (a : LocalArray α) (i : ℕ) {j : ℕ} (xs : List α) (hj : j < xs.length) :
    (a.setFrom i xs).cells (i + j) = xs[j] := by
  induction xs generalizing a i j with
  | nil => exact absurd hj (Nat.not_lt_zero j)
  | cons x xs ih =>
    cases j with
    | zero =>
      have hfirst := cells_setFrom_of_lt (a.set i x) xs (Nat.lt_succ_self i)
      exact hfirst.trans (Function.update_self _ _ _)
    | succ j =>
      have hrest := ih (a.set i x) (i + 1) (Nat.lt_of_succ_lt_succ hj)
      rwa [Nat.add_right_comm, Nat.add_assoc] at hrest

/-- Stores from the start on: the last one tells whether all of them are inside. -/
theorem inBounds_setFrom {a : LocalArray α} {xs : List α} :
    (a.setFrom 0 xs).InBounds ↔ a.InBounds ∧ xs.length ≤ a.size := by
  simp only [InBounds, mem_written_setFrom, size_setFrom]
  constructor
  · intro hall
    refine ⟨fun j hj => hall j (.inr hj), ?_⟩
    by_contra hlt
    exact Nat.lt_irrefl _ (hall a.size (.inl (by omega)))
  · rintro ⟨hall, hle⟩ j (hj | hj)
    · omega
    · exact hall j hj

theorem inBounds_fill {size : ℕ} {junk : ℕ → α} {xs : List α} :
    ((fresh size junk).setFrom 0 xs).InBounds ↔ xs.length ≤ size := by
  rw [inBounds_setFrom]
  exact and_iff_right fun j hj => (List.not_mem_nil hj).elim

theorem toList_fill (a : LocalArray α) {xs : List α} (hle : xs.length ≤ a.size) :
    ∃ rest, (a.setFrom 0 xs).toList = xs ++ rest := by
  obtain ⟨k, hk⟩ : ∃ k, a.size = xs.length + k := ⟨a.size - xs.length, by omega⟩
  have hfront : (List.range xs.length).map (a.setFrom 0 xs).cells = xs := by
    refine List.ext_getElem (by rw [List.length_map, List.length_range]) fun j hj hj' => ?_
    have hcell := cells_setFrom a 0 xs hj'
    rw [Nat.zero_add] at hcell
    rw [List.getElem_map, List.getElem_range, hcell]
  rw [toList, size_setFrom, hk, List.range_add, List.map_append, hfront]
  exact ⟨_, rfl⟩

end LocalArray

end Lev
