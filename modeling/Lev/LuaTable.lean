import Mathlib

/-! Lua tables used as lists, with the holes that `nil` leaves in them. The length of such
a table is any of its borders. -/
namespace Lev.LuaTable

variable {α : Type*}

/-- `t[i]` is at place `i - 1`; there is nothing behind the end. -/
def get (t : List (Option α)) : ℕ → Option α
  | 0 => none
  | i + 1 => (t[i]?).join

/-- `t[i] = v` for an `i` from 1 on. -/
def set (t : List (Option α)) (i : ℕ) (v : Option α) : List (Option α) :=
  if i ≤ t.length then t.set (i - 1) v
  else t ++ List.replicate (i - 1 - t.length) none ++ [v]

/-- What `#t` may be. -/
def Border (t : List (Option α)) (n : ℕ) : Prop :=
  (n = 0 ∨ get t n ≠ none) ∧ get t (n + 1) = none

/-- `table.insert(t, v)`, `n` being `#t`. -/
def insert (t : List (Option α)) (n : ℕ) (v : α) : List (Option α) := set t (n + 1) (some v)

/-- The loop of `table.remove` that moves `k` values down from behind `pos`. -/
def shiftDown : ℕ → ℕ → List (Option α) → List (Option α)
  | 0, _, t => t
  | k + 1, pos, t => shiftDown k (pos + 1) (set t pos (get t (pos + 1)))

/-- `table.remove(t, pos)`, `n` being `#t`. -/
def remove (t : List (Option α)) (n pos : ℕ) : List (Option α) :=
  if 1 ≤ pos ∧ pos ≤ n then set (shiftDown (n - pos) pos t) n none else t

/-- The table has these values and no holes. -/
def Dense (t : List (Option α)) (ls : List α) : Prop :=
  ∃ k, t = ls.map some ++ List.replicate k none

variable {t : List (Option α)} {ls : List α} {n i : ℕ}

theorem Dense.nil : Dense [] ([] : List α) := ⟨0, rfl⟩

theorem Dense.eq_nil (h : Dense [] ls) : ls = [] := by
  obtain ⟨k, hk⟩ := h
  simpa using (List.append_eq_nil_iff.mp hk.symm).1

theorem Dense.length_le (h : Dense t ls) : ls.length ≤ t.length := by
  obtain ⟨k, rfl⟩ := h
  simp

theorem get_map_some (ls : List α) (rest : List (Option α)) (h : i < ls.length) :
    get (ls.map some ++ rest) (i + 1) = some ls[i] := by
  rw [get, List.getElem?_append_left (by simpa using h)]
  simp [h]

theorem Dense.get_lt (h : Dense t ls) (hi : i < ls.length) : get t (i + 1) = some ls[i] := by
  obtain ⟨k, rfl⟩ := h
  exact get_map_some ls _ hi

theorem Dense.get_ge (h : Dense t ls) (hi : ls.length ≤ i) : get t (i + 1) = none := by
  obtain ⟨k, rfl⟩ := h
  rw [get, List.getElem?_append_right (by simpa using hi), List.getElem?_replicate]
  split
  · rfl
  · rfl

theorem Dense.border (h : Dense t ls) (hn : Border t n) : n = ls.length := by
  obtain ⟨hlast, hnext⟩ := hn
  by_contra hne
  rcases Nat.lt_or_ge n ls.length with hlt | hge
  · rw [h.get_lt hlt] at hnext
    cases hnext
  · cases n with
    | zero => omega
    | succ n =>
      obtain hzero | hsome := hlast
      · cases hzero
      · exact hsome (h.get_ge (by omega))

theorem Dense.insert (h : Dense t ls) (hn : Border t n) (v : α) :
    Dense (insert t n v) (ls ++ [v]) := by
  obtain rfl := h.border hn
  obtain ⟨k, rfl⟩ := h
  cases k with
  | zero =>
    refine ⟨0, ?_⟩
    simp [LuaTable.insert, LuaTable.set]
  | succ k =>
    refine ⟨k, ?_⟩
    simp [LuaTable.insert, LuaTable.set, List.replicate_succ]

end Lev.LuaTable
