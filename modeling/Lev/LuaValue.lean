import Lev.Double
import Lev.MemSlice

/-! Lua values as the C modules see them, and the raw table accesses of the C API. A
table is given by the values at 1, 2, …, `lua_objlen`, a nil standing for a hole,
and by its other pairs in the order `lua_next` visits them. -/
namespace Lev.Lua
open Memory

/-- The types the modules have no use for. -/
inductive Foreign
  | lightuserdata | function | userdata | thread | unknown
  deriving DecidableEq, Repr

inductive LuaValue
  | nil
  | boolean (b : Bool)
  | number (n : Double)
  | string (s : List UInt8)
  | buffer (ms : MemSlice)
  | foreign (t : Foreign)
  | table (id : ℕ) (arr : List LuaValue) (hash : List (LuaValue × LuaValue))

namespace LuaValue

theorem induct {P : LuaValue → Prop} (nil : P .nil) (boolean : ∀ b, P (.boolean b))
    (number : ∀ n, P (.number n)) (string : ∀ s, P (.string s)) (buffer : ∀ ms, P (.buffer ms))
    (foreign : ∀ t, P (.foreign t))
    (table : ∀ id arr hash, (∀ v ∈ arr, P v) → (∀ p ∈ hash, P p.1 ∧ P p.2) →
      P (.table id arr hash)) (v : LuaValue) : P v := by
  refine @LuaValue.rec P (fun arr => ∀ v ∈ arr, P v) (fun hash => ∀ p ∈ hash, P p.1 ∧ P p.2)
    (fun p => P p.1 ∧ P p.2) nil boolean number string buffer foreign
    (fun id arr hash harr hhash => table id arr hash harr hhash) ?_ ?_ ?_ ?_ ?_ v
  · simp
  · intro v arr hv harr u hu
    rcases List.mem_cons.mp hu with rfl | hu
    · exact hv
    · exact harr u hu
  · simp
  · intro p hash hp hhash q hq
    rcases List.mem_cons.mp hq with rfl | hq
    · exact hp
    · exact hhash q hq
  · exact fun k v hk hv => ⟨hk, hv⟩

def isNil : LuaValue → Bool
  | .nil => true
  | _ => false

def isNaN : LuaValue → Bool
  | .number n => n.isnan
  | _ => false

/-- `lua_rawequal` of two keys. Two Buffers or foreign values are never the same
object here. -/
def rawequal : LuaValue → LuaValue → Bool
  | .boolean b, .boolean b' => b == b'
  | .number n, .number n' => n.eq n'
  | .string s, .string s' => s == s'
  | .table id _ _, .table id' _ _ => id == id'
  | _, _ => false

end LuaValue

/-- The pairs after an assignment to a key outside the array part. -/
def setHash (k v : LuaValue) : List (LuaValue × LuaValue) → List (LuaValue × LuaValue)
  | [] => if v.isNil then [] else [(k, v)]
  | (k', v') :: hash =>
    if k'.rawequal k then (if v.isNil then hash else (k', v) :: hash)
    else (k', v') :: setHash k v hash

/-- The position of a key in an array part of length `n`. -/
def arrayIndex (n : ℕ) : LuaValue → Option ℕ
  | .number d =>
    match d.toInt? with
    | some z => if 1 ≤ z ∧ z ≤ n then some (z.toNat - 1) else none
    | none => none
  | _ => none

def rawset (arr : List LuaValue) (hash : List (LuaValue × LuaValue)) (k v : LuaValue) :
    List LuaValue × List (LuaValue × LuaValue) :=
  match arrayIndex arr.length k with
  | some i => (arr.set i v, hash)
  | none => (arr, setHash k v hash)

/-- `lua_rawseti`; an assignment just behind the array part extends it. -/
def rawseti (arr : List LuaValue) (hash : List (LuaValue × LuaValue)) (i : ℕ) (v : LuaValue) :
    List LuaValue × List (LuaValue × LuaValue) :=
  if i = arr.length + 1 then
    (arr ++ [v], hash.filter fun p => !p.1.rawequal (.number (.ofInt i)))
  else rawset arr hash (.number (.ofInt i)) v

theorem setHash_of_new {k v : LuaValue} (hv : v.isNil = false) {hash : List (LuaValue × LuaValue)}
    (hnew : ∀ p ∈ hash, p.1.rawequal k = false) : setHash k v hash = hash ++ [(k, v)] := by
  induction hash with
  | nil => simp [setHash, hv]
  | cons p hash ih =>
    obtain ⟨k', v'⟩ := p
    have hk := hnew (k', v') List.mem_cons_self
    rw [setHash, hk]
    simp only [Bool.false_eq_true, if_false, List.cons_append]
    rw [ih fun p hp => hnew p (List.mem_cons_of_mem _ hp)]

theorem rawset_nil_array (hash : List (LuaValue × LuaValue)) (k v : LuaValue) :
    rawset [] hash k v = ([], setHash k v hash) := by
  have hnone : arrayIndex 0 k = none := by
    cases k with
    | number d =>
      cases hz : d.toInt? with
      | none => simp [arrayIndex, hz]
      | some z =>
        simp only [arrayIndex, hz]
        rw [if_neg]
        omega
    | _ => rfl
  rw [rawset, List.length_nil, hnone]

theorem rawseti_append (arr : List LuaValue) (v : LuaValue) :
    rawseti arr [] (arr.length + 1) v = (arr ++ [v], []) := by
  simp [rawseti]

end Lev.Lua
