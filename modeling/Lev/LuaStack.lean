import Mathlib

/-! The stack through which C code talks to Lua, the top first. An index counts from the
bottom if it is positive and from the top if it is negative. -/
namespace Lev.LuaStack

variable {α : Type*}

def index2adr (s : List α) (idx : ℤ) : Option α :=
  if 0 < idx then s.reverse[(idx - 1).toNat]? else s[(-idx - 1).toNat]?

/-- `lua_settop`, which fills up with `null`. -/
def settop (null : α) (s : List α) (idx : ℤ) : List α :=
  if 0 ≤ idx then
    List.replicate (idx.toNat - s.length) null ++ s.drop (s.length - idx.toNat)
  else s.drop (-idx - 1).toNat

/-- `lua_pop` -/
def pop (null : α) (s : List α) (n : ℤ) : List α := settop null s (-n - 1)

/-- `lua_remove` at an index below 0. -/
def remove (s : List α) (idx : ℤ) : List α := s.eraseIdx (-idx - 1).toNat

/-- `lua_insert` at an index below 0. -/
def insert (s : List α) (idx : ℤ) : List α :=
  match s with
  | [] => []
  | v :: s => s.insertIdx (-idx - 1).toNat v

/-- What `lua_call` with no results calls, with its arguments, and what it leaves; `none`
where the function would lie below the stack. -/
def call (s : List α) (nargs : ℕ) : Option (α × List α × List α) :=
  s[nargs]?.map fun f => (f, (s.take nargs).reverse, s.drop (nargs + 1))

variable {null : α} {s : List α}

/-- `lua_pop(L, -n - 1)` keeps the `n` lowest values of a stack that has so many. -/
theorem pop_neg {n : ℕ} (h : n ≤ s.length) :
    pop null s (-n - 1) = s.drop (s.length - n) := by
  have hpos : (0 : ℤ) ≤ -(-(n : ℤ) - 1) - 1 := by omega
  have hcount : (-(-(n : ℤ) - 1) - 1).toNat = n := by omega
  rw [pop, settop, if_pos hpos, hcount, Nat.sub_eq_zero_of_le h]
  rfl

theorem call_append (f : α) (args : List α) :
    call (args.reverse ++ f :: s) args.length = some (f, args, s) := by
  have hf : (args.reverse ++ f :: s)[args.length]? = some f := by
    rw [List.getElem?_append_right (by simp)]
    simp
  have hargs : (args.reverse ++ f :: s).take args.length = args.reverse :=
    List.take_left' (List.length_reverse)
  have hrest : (args.reverse ++ f :: s).drop (args.length + 1) = s := by
    rw [List.append_cons, List.drop_left' (by simp)]
  rw [call, hf, hargs, hrest, List.reverse_reverse]
  rfl

theorem call_underflow {nargs : ℕ} (h : s.length ≤ nargs) : call s nargs = none := by
  rw [call, List.getElem?_eq_none h]
  rfl

end Lev.LuaStack
