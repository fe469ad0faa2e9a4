import Lev.MPackDecode
import Lev.SlabOwnership

/-! What the decoder does at the encoding of a tree: it pushes the value the tree
stands for, moves behind the encoding and leaves everything else as it was. -/
namespace Lev.MPack
open CInt Endian Slab Memory Lua

theorem bind_eq_ok {ε α β : Type} {x : Except ε α} {f : α → Except ε β} {b : β} :
    (x >>= f) = .ok b ↔ ∃ a, x = .ok a ∧ f a = .ok b := by
  cases x with
  | error e => simp [bind, Except.bind]
  | ok a => simp [bind, Except.bind]

namespace Wire

/-- A tree that is not nil and not NaN, as far as its tag says. -/
def GoodKey : Wire → Prop
  | .single t => (singleValue t).isNil = false
  | .scalar s p => (s.value p).isnan = false
  | _ => True

/-- Keys and values in turn, with keys a Lua table takes. -/
def GoodKeys : List Wire → Prop
  | [] => True
  | [_] => False
  | k :: _ :: items => k.GoodKey ∧ GoodKeys items

mutual

/-- A tree the decoder accepts. A count from 2^31 on becomes a negative `int`, which
the loops take for an empty container. -/
def Legal : Wire → Prop
  | .single t => tagOf t = .single
  | .scalar s p => p.length = s.size
  | .raw w s => w.fits 32 s.length
  | .array w n items => w.fits 16 n ∧ items.length = (toInt n).toNat ∧ LegalList items
  | .map w n items =>
    w.fits 16 n ∧ items.length = 2 * (toInt n).toNat ∧ GoodKeys items ∧ LegalList items

def LegalList : List Wire → Prop
  | [] => True
  | x :: items => x.Legal ∧ LegalList items

end

mutual

/-- Followed by `after` bytes, no load of a `long` reaches beyond the end. -/
def Roomy (after : ℕ) : Wire → Prop
  | .scalar s _ => s.loadSize ≤ s.size + after
  | .array _ _ items => RoomyList after items
  | .map _ _ items => RoomyList after items
  | .single _ => True
  | .raw _ _ => True

def RoomyList (after : ℕ) : List Wire → Prop
  | [] => True
  | x :: items => x.Roomy ((bytesList items).length + after) ∧ RoomyList after items

end

mutual

/-- The flag `map_keying` after the tree was read; a map with pairs leaves it off. -/
def keyingAfter (k : Bool) : Wire → Bool
  | .array _ _ items => keyingAfterList k items
  | .map _ _ items => k && items.isEmpty
  | .single _ => k
  | .scalar _ _ => k
  | .raw _ _ => k

def keyingAfterList (k : Bool) : List Wire → Bool
  | [] => k
  | x :: items => keyingAfterList (x.keyingAfter k) items

end

mutual

/-- The sizes of the tables a tree is read into, the last one first. -/
def tables : Wire → List (ℤ × ℤ)
  | .array _ n items => tablesList items ++ [(toInt n, 0)]
  | .map _ n items => tablesList items ++ [(0, toInt n)]
  | .single _ => []
  | .scalar _ _ => []
  | .raw _ _ => []

def tablesList : List Wire → List (ℤ × ℤ)
  | [] => []
  | x :: items => tablesList items ++ x.tables

end

theorem legalList_iff {items : List Wire} : LegalList items ↔ ∀ x ∈ items, x.Legal := by
  induction items with
  | nil => simp [LegalList]
  | cons x items ih => simp [LegalList, ih]

end Wire

namespace Grants

/-- Lua makes each of these tables, the last one first, after the ones of `before`. -/
def All (grants : Grants) (before : List (ℤ × ℤ)) : List (ℤ × ℤ) → Prop
  | [] => True
  | t :: ts => grants.All before ts ∧ grants (t :: (ts ++ before)) = true

variable {grants : Grants} {before : List (ℤ × ℤ)}

theorem all_append {us ts : List (ℤ × ℤ)} :
    grants.All before (us ++ ts) ↔ grants.All before ts ∧ grants.All (ts ++ before) us := by
  induction us with
  | nil => simp [All]
  | cons u us ih => rw [List.cons_append, All, All, ih, List.append_assoc, and_assoc]

theorem all_singleton {t : ℤ × ℤ} : grants.All before [t] ↔ grants (t :: before) = true := by
  simp [All]

theorem all_true {ts : List (ℤ × ℤ)} : Grants.All (fun _ => true) before ts := by
  induction ts with
  | nil => trivial
  | cons t ts ih => exact ⟨ih, rfl⟩

end Grants

/-- A legal tree for which Lua makes the tables, in a call of its own. -/
structure Wire.Decodable (grants : Grants) (x : Wire) : Prop where
  legal : x.Legal
  granted : grants.All [] x.tables

theorem keyingAfter_false (x : Wire) : x.keyingAfter false = false := by
  induction x using Wire.induct with
  | single t => rfl
  | scalar s p => rfl
  | raw w s => rfl
  | array w n items ih =>
    rw [Wire.keyingAfter]
    induction items with
    | nil => rfl
    | cons y items hitems =>
      rw [Wire.keyingAfterList, ih y List.mem_cons_self]
      exact hitems fun z hz => ih z (List.mem_cons_of_mem _ hz)
  | map w n items ih => rfl

/-- Where strings are read from. `fill` is the length `lev_pushbuffer_from_mb` gives a
Buffer asked for with length 0. -/
structure Source where
  mb : Option BlockId
  base : ℕ
  fill : ℕ

def Source.string (c : Source) (keying : Bool) (ofs : ℕ) (s : List UInt8) : LuaValue :=
  match c.mb with
  | some mb =>
    if keying then .string s
    else .buffer ⟨mb, c.base + ofs, if s.length = 0 then c.fill else s.length⟩
  | none => .string s

namespace Wire

mutual

/-- The value a tree at offset `ofs` is read as. -/
def Reads (c : Source) : Bool → ℕ → Wire → LuaValue → Prop
  | _, _, .single t, v => v = singleValue t
  | _, _, .scalar s p, v => v = .number (s.value p)
  | k, ofs, .raw w s, v => v = c.string k (ofs + (1 + w.size)) s
  | k, ofs, .array w _ items, v =>
    ∃ id vs, v = .table id vs [] ∧ ReadsList c k (ofs + (1 + w.size)) items vs
  | _, ofs, .map w _ items, v =>
    ∃ id hash, v = .table id [] hash ∧ ReadsPairs c (ofs + (1 + w.size)) [] items hash

def ReadsList (c : Source) : Bool → ℕ → List Wire → List LuaValue → Prop
  | _, _, [], vs => vs = []
  | k, ofs, x :: items, vs => ∃ v vs', vs = v :: vs' ∧ Reads c k ofs x v ∧
    ReadsList c (x.keyingAfter k) (ofs + x.len) items vs'

/-- The pairs of a table that had the pairs `acc`, after the keys and values in turn. -/
def ReadsPairs (c : Source) :
    ℕ → List (LuaValue × LuaValue) → List Wire → List (LuaValue × LuaValue) → Prop
  | _, acc, [], hash => hash = acc
  | _, _, [_], _ => False
  | ofs, acc, k :: v :: items, hash => ∃ kv vv, Reads c true ofs k kv ∧
    Reads c false (ofs + k.len) v vv ∧
    ReadsPairs c (ofs + (k.len + v.len)) (setHash kv vv acc) items hash

end

end Wire

/-- The heap as far as the decoder looks at it. -/
structure SameFill (h h' : Heap) : Prop where
  bytes : h'.bytes = h.bytes
  stores : h'.stores = h.stores
  nbytes : ∀ b, (h'.blocks b).nbytes = (h.blocks b).nbytes
  size : ∀ b, (h'.blocks b).size = (h.blocks b).size

theorem SameFill.refl (h : Heap) : SameFill h h := ⟨rfl, rfl, fun _ => rfl, fun _ => rfl⟩

theorem SameFill.trans {h h' h'' : Heap} (a : SameFill h h') (b : SameFill h' h'') :
    SameFill h h'' :=
  ⟨b.bytes.trans a.bytes, b.stores.trans a.stores, fun x => (b.nbytes x).trans (a.nbytes x),
    fun x => (b.size x).trans (a.size x)⟩

namespace Machine

def source (m : Machine) : Source where
  mb := m.mb
  base := m.base
  fill := match m.mb with
    | some mb => if (m.heap.blocks mb).nbytes = 0 then (m.heap.blocks mb).size
      else (m.heap.blocks mb).nbytes
    | none => 0

end Machine

def Rawset.Good (r : Rawset) : Prop := r.target = r.own ∧ r.keyOwn = true

/-- What no successful call changes, and that its table accesses went to own tables. -/
structure Frame (m m' : Machine) : Prop where
  mb : m'.mb = m.mb
  base : m'.base = m.base
  data : m'.data = m.data
  heap : SameFill m.heap m'.heap
  created : m.created ≤ m'.created
  rawsets : ∃ rs, m'.rawsets = rs ++ m.rawsets ∧ ∀ r ∈ rs, r.Good

theorem Frame.refl (m : Machine) : Frame m m :=
  ⟨rfl, rfl, rfl, .refl _, le_rfl, [], rfl, by simp⟩

theorem Frame.trans {m m' m'' : Machine} (a : Frame m m') (b : Frame m' m'') : Frame m m'' where
  mb := b.mb.trans a.mb
  base := b.base.trans a.base
  data := b.data.trans a.data
  heap := a.heap.trans b.heap
  created := a.created.trans b.created
  rawsets := by
    obtain ⟨rs, hrs, hgood⟩ := a.rawsets
    obtain ⟨rs', hrs', hgood'⟩ := b.rawsets
    refine ⟨rs' ++ rs, by rw [hrs', hrs, List.append_assoc], fun r hr => ?_⟩
    rcases List.mem_append.mp hr with hr | hr
    · exact hgood' r hr
    · exact hgood r hr

theorem Frame.of_keying {m m' : Machine} {k : Bool} (a : Frame (m.keying k) m') : Frame m m' :=
  ⟨a.mb, a.base, a.data, a.heap, a.created, a.rawsets⟩

theorem Frame.source {m m' : Machine} (a : Frame m m') : m'.source = m.source := by
  simp only [Machine.source, a.mb, a.base, a.heap.nbytes, a.heap.size]

/-- The loads between two states, and when all of them were within the data. -/
def Loads (m m' : Machine) (inside : Prop) : Prop :=
  ∃ ls, m'.loads = ls ++ m.loads ∧ ((∀ l ∈ ls, l.1 + l.2 ≤ m.data.length) ↔ inside)

theorem Loads.refl (m : Machine) : Loads m m True := ⟨[], rfl, by simp⟩

theorem Loads.trans {m m' m'' : Machine} {p q : Prop} (a : Loads m m' p)
    (b : Loads m' m'' q) (hdata : m'.data = m.data) : Loads m m'' (p ∧ q) := by
  obtain ⟨ls, hls, hp⟩ := a
  obtain ⟨ls', hls', hq⟩ := b
  refine ⟨ls' ++ ls, by rw [hls', hls, List.append_assoc], ?_⟩
  rw [← hp, ← hq, hdata]
  constructor
  · exact fun h => ⟨fun l hl => h l (List.mem_append_right _ hl),
      fun l hl => h l (List.mem_append_left _ hl)⟩
  · rintro ⟨h, h'⟩ l hl
    rcases List.mem_append.mp hl with hl | hl
    · exact h' l hl
    · exact h l hl

theorem Loads.congr {m m' : Machine} {p q : Prop} (a : Loads m m' p) (h : p ↔ q) :
    Loads m m' q := h.eq ▸ a

def tableId : LuaValue → Option ℕ
  | .table id _ _ => some id
  | _ => none

/-- A call that read tree `x`, behind which `after` bytes are left, and pushed `v`. -/
structure Took (m m' : Machine) (x : Wire) (v : LuaValue) (after : ℕ) : Prop where
  frame : Frame m m'
  ofs : m'.ofs = m.ofs + x.len
  err : m'.err = false
  keying : m'.mapKeying = x.keyingAfter m.mapKeying
  stack : m'.stack = v :: m.stack
  fresh : ∀ id, tableId v = some id → m.created ≤ id ∧ id < m'.created
  tables : m'.tables = x.tables ++ m.tables
  loads : Loads m m' (x.Roomy after)
  reads : x.Reads m.source m.mapKeying m.ofs v

/-- `elem` reads tree `x` wherever it stands, given the tables it takes. -/
def TakesWith (grants : Grants) (elem : Machine → Except Fault Machine) (x : Wire) : Prop :=
  ∀ (m : Machine) (r : List UInt8), m.err = false → m.data.drop m.ofs = x.bytes ++ r →
    grants.All m.tables x.tables → ∃ m' v, elem m = .ok m' ∧ Took m m' x v r.length

section takes
variable {grants : Grants}

theorem drop_after {m m' : Machine} {bs r : List UInt8} (h : m.data.drop m.ofs = bs ++ r)
    (hdata : m'.data = m.data) (hofs : m'.ofs = m.ofs + bs.length) : m'.data.drop m'.ofs = r := by
  rw [hdata, hofs, ← List.drop_drop, h, List.drop_left]

theorem left_eq {m : Machine} {bs : List UInt8} (h : m.data.drop m.ofs = bs) :
    m.left = bs.length := by
  rw [Machine.left, ← List.length_drop, h]

theorem peek_eq {m : Machine} {bs r : List UInt8} {n : ℕ} (h : m.data.drop m.ofs = bs ++ r)
    (hn : bs.length = n) : m.peek n = bs := by
  rw [Machine.peek, h, ← hn, List.take_left]

theorem getD_eq {m : Machine} {t : UInt8} {r : List UInt8} (h : m.data.drop m.ofs = t :: r) :
    m.data.getD m.ofs 0 = t := by
  have hget : (m.data.drop m.ofs)[0]? = some t := by rw [h]; rfl
  rw [List.getElem?_drop, Nat.add_zero] at hget
  rw [List.getD_eq_getElem?_getD, hget, Option.getD_some]

/-- A run of the array loop that read `items` into table `own`. -/
structure TookItems (m m' : Machine) (own : ℕ) (arr : List LuaValue) (st : List LuaValue)
    (items : List Wire) (vs : List LuaValue) (after : ℕ) : Prop where
  frame : Frame m m'
  ofs : m'.ofs = m.ofs + (Wire.bytesList items).length
  err : m'.err = false
  keying : m'.mapKeying = Wire.keyingAfterList m.mapKeying items
  tables : m'.tables = Wire.tablesList items ++ m.tables
  stack : m'.stack = .table own (arr ++ vs) [] :: st
  loads : Loads m m' (Wire.RoomyList after items)
  reads : Wire.ReadsList m.source m.mapKeying m.ofs items vs

theorem arrayLoop_took {elem : Machine → Except Fault Machine} {items : List Wire}
    (helem : ∀ x ∈ items, TakesWith grants elem x) {m : Machine} {own i : ℕ}
    {arr st : List LuaValue} {r : List UInt8} (hi : arr.length = i) (herr : m.err = false)
    (hstack : m.stack = .table own arr [] :: st)
    (hdata : m.data.drop m.ofs = Wire.bytesList items ++ r)
    (hgrants : grants.All m.tables (Wire.tablesList items)) :
    ∃ m' vs, arrayLoop elem own i items.length m = .ok m' ∧
      TookItems m m' own arr st items vs r.length := by
  induction items generalizing m i arr with
  | nil =>
    refine ⟨m, [], rfl, .refl m, rfl, herr, rfl, rfl, by simpa using hstack, ?_, rfl⟩
    exact (Loads.refl m).congr (by simp [Wire.RoomyList])
  | cons x items ih =>
    rw [Wire.bytesList, List.append_assoc] at hdata
    obtain ⟨hfirst, hothers⟩ := Grants.all_append.mp hgrants
    obtain ⟨m₁, v, hm₁, ht⟩ := helem x List.mem_cons_self m _ herr hdata hfirst
    have hseti : m₁.rawseti own (i + 1) = .ok { m₁ with
        stack := .table own (arr ++ [v]) [] :: st
        rawsets := ⟨own, own, true⟩ :: m₁.rawsets } := by
      rw [Machine.rawseti, ht.stack, hstack]
      simp only [← hi, rawseti_append]
    generalize hm₂ : ({ m₁ with
        stack := .table own (arr ++ [v]) [] :: st
        rawsets := ⟨own, own, true⟩ :: m₁.rawsets } : Machine) = m₂ at hseti
    have hdata₁ : m₁.data.drop m₁.ofs = Wire.bytesList items ++ r :=
      drop_after hdata ht.frame.data ht.ofs
    obtain ⟨m', vs, hm', hi'⟩ := ih (fun y hy => helem y (List.mem_cons_of_mem _ hy))
      (show (arr ++ [v]).length = i + 1 by rw [List.length_append, hi]; rfl)
      (m := m₂) (by rw [← hm₂]; exact ht.err) (by rw [← hm₂]) (by rw [← hm₂]; exact hdata₁)
      (by rw [← hm₂, ht.tables]; exact hothers)
    have hframe : Frame m₁ m₂ := by
      subst hm₂
      refine ⟨rfl, rfl, rfl, .refl _, le_rfl, [⟨own, own, true⟩], rfl, fun e he => ?_⟩
      rw [List.mem_singleton.mp he]
      exact ⟨rfl, rfl⟩
    have hofs₂ : m₂.ofs = m.ofs + x.len := by
      rw [← hm₂]
      exact ht.ofs
    have hkeying₂ : m₂.mapKeying = x.keyingAfter m.mapKeying := by
      rw [← hm₂]
      exact ht.keying
    have htables₂ : m₂.tables = x.tables ++ m.tables := by
      rw [← hm₂]
      exact ht.tables
    have hloads₂ : Loads m₁ m₂ True := by
      subst hm₂
      exact ⟨[], rfl, by simp⟩
    refine ⟨m', v :: vs, ?_, ht.frame.trans (hframe.trans hi'.frame), ?_, hi'.err, ?_, ?_, ?_, ?_,
      ?_⟩
    · rw [List.length_cons, arrayLoop, hm₁]
      simp only [bind, Except.bind, ht.err, Bool.false_eq_true, if_false, hseti]
      exact hm'
    · rw [hi'.ofs, Wire.bytesList, List.length_append, hofs₂, Wire.len, Nat.add_assoc]
    · rw [hi'.keying, Wire.keyingAfterList, hkeying₂]
    · rw [hi'.tables, htables₂, Wire.tablesList, List.append_assoc]
    · rw [hi'.stack, List.append_assoc, List.singleton_append]
    · have hl := ht.loads.trans (hloads₂.trans hi'.loads hframe.data) ht.frame.data
      refine hl.congr ?_
      rw [Wire.RoomyList, List.length_append, true_and]
    · refine ⟨v, vs, rfl, ht.reads, ?_⟩
      have hreads := hi'.reads
      rwa [hframe.source, ht.frame.source, hkeying₂, hofs₂] at hreads

/-- A run of the map loop that read the pairs `items` into table `own`. -/
structure TookPairs (m m' : Machine) (own : ℕ) (acc : List (LuaValue × LuaValue))
    (st : List LuaValue) (items : List Wire) (hash : List (LuaValue × LuaValue)) (after : ℕ) :
    Prop where
  frame : Frame m m'
  ofs : m'.ofs = m.ofs + (Wire.bytesList items).length
  err : m'.err = false
  keying : m'.mapKeying = (m.mapKeying && items.isEmpty)
  tables : m'.tables = Wire.tablesList items ++ m.tables
  stack : m'.stack = .table own [] hash :: st
  loads : Loads m m' (Wire.RoomyList after items)
  reads : Wire.ReadsPairs m.source m.ofs acc items hash

theorem singleValue_isNaN (t : UInt8) : (singleValue t).isNaN = false := by
  have h : ∀ n < 256, (singleValue (UInt8.ofNat n)).isNaN = false := by decide +kernel
  have ht := h t.toNat t.toNat_lt
  rwa [UInt8.ofNat_toNat] at ht

theorem key_of_good {c : Source} {ofs : ℕ} {x : Wire} {v : LuaValue} (h : x.GoodKey)
    (hr : x.Reads c true ofs v) : v.isNil = false ∧ v.isNaN = false := by
  cases x with
  | single t =>
    simp only [Wire.Reads] at hr
    subst hr
    exact ⟨h, singleValue_isNaN t⟩
  | scalar s p =>
    simp only [Wire.Reads] at hr
    subst hr
    exact ⟨rfl, h⟩
  | raw w s =>
    simp only [Wire.Reads, Source.string] at hr
    subst hr
    cases c.mb <;> exact ⟨rfl, rfl⟩
  | array w n items =>
    obtain ⟨id, vs, rfl, _⟩ := hr
    exact ⟨rfl, rfl⟩
  | map w n items =>
    obtain ⟨id, hash, rfl, _⟩ := hr
    exact ⟨rfl, rfl⟩

/-- What `lua_rawset` does to the call's own table below the key and the value. -/
structure Stored (m m' : Machine) (stack : List LuaValue) : Prop where
  frame : Frame m m'
  stack : m'.stack = stack
  err : m'.err = m.err
  ofs : m'.ofs = m.ofs
  keying : m'.mapKeying = m.mapKeying
  tables : m'.tables = m.tables
  loads : Loads m m' True

theorem rawset_stores {m : Machine} {own : ℕ} {acc : List (LuaValue × LuaValue)}
    {st : List LuaValue} {k v : LuaValue} (hstack : m.stack = v :: k :: .table own [] acc :: st)
    (hgood : k.isNil = false ∧ k.isNaN = false) :
    ∃ m', m.rawset own true = .ok m' ∧ Stored m m' (.table own [] (setHash k v acc) :: st) := by
  have hset : m.rawset own true = .ok { m with
      stack := .table own [] (setHash k v acc) :: st
      rawsets := ⟨own, own, true⟩ :: m.rawsets } := by
    rw [Machine.rawset, hstack]
    simp only [hgood, Bool.false_eq_true, if_false, rawset_nil_array]
  refine ⟨_, hset, ⟨?_, rfl, rfl, rfl, rfl, rfl, [], rfl, by simp⟩⟩
  refine ⟨rfl, rfl, rfl, .refl _, le_rfl, [⟨own, own, true⟩], rfl, fun e he => ?_⟩
  rw [List.mem_singleton.mp he]
  exact ⟨rfl, rfl⟩

/-- What one pass of the loop did, which read the trees `x` and `y` as `k` and `v`. -/
structure TookPair (m m' : Machine) (x y : Wire) (k v : LuaValue) (stack : List LuaValue)
    (after : ℕ) : Prop where
  frame : Frame m m'
  ofs : m'.ofs = m.ofs + (x.len + y.len)
  err : m'.err = false
  keying : m'.mapKeying = y.keyingAfter false
  tables : m'.tables = y.tables ++ (x.tables ++ m.tables)
  stack : m'.stack = stack
  loads : Loads m m' (x.Roomy (y.len + after) ∧ y.Roomy after)
  key : x.Reads m.source true m.ofs k
  value : y.Reads m.source false (m.ofs + x.len) v

theorem mapLoop_tookPair {elem : Machine → Except Fault Machine} {x y : Wire}
    (hx : TakesWith grants elem x) (hy : TakesWith grants elem y) (hkey : x.GoodKey) {m : Machine}
    {own : ℕ} {acc : List (LuaValue × LuaValue)} {st : List LuaValue} {r : List UInt8}
    (herr : m.err = false) (hstack : m.stack = .table own [] acc :: st)
    (hdata : m.data.drop m.ofs = x.bytes ++ (y.bytes ++ r))
    (hgrants : grants.All m.tables (y.tables ++ x.tables)) :
    ∃ m' k v, (∀ n, mapLoop elem own (n + 1) m = mapLoop elem own n m') ∧
      TookPair m m' x y k v (.table own [] (setHash k v acc) :: st) r.length := by
  obtain ⟨hgrants, hgrants'⟩ := Grants.all_append.mp hgrants
  obtain ⟨m₁, k, hm₁, ht₁⟩ := hx (m.keying true) _ herr hdata hgrants
  have hdata₁ : (m₁.keying false).data.drop (m₁.keying false).ofs = y.bytes ++ r :=
    drop_after hdata ht₁.frame.data ht₁.ofs
  obtain ⟨m₂, v, hm₂, ht₂⟩ := hy (m₁.keying false) _ ht₁.err hdata₁ (ht₁.tables ▸ hgrants')
  have hstack₂ : m₂.stack = v :: k :: .table own [] acc :: st := by
    rw [ht₂.stack]
    show v :: m₁.stack = _
    rw [ht₁.stack]
    show v :: k :: m.stack = _
    rw [hstack]
  have hown : keyOwn m₁ m₂ = true := by
    rw [keyOwn, ht₁.err, ht₂.stack]
    simp [Machine.keying]
  obtain ⟨m₃, hset, hs⟩ := rawset_stores hstack₂ (key_of_good hkey ht₁.reads)
  have hframe₁ : Frame m m₁ := ht₁.frame.of_keying
  have hframe₂ : Frame m₁ m₂ := ht₂.frame.of_keying
  have hofs₁ : m₁.ofs = m.ofs + x.len := ht₁.ofs
  have hofs₂ : m₂.ofs = m₁.ofs + y.len := ht₂.ofs
  have hloads₁ : Loads m m₁ (x.Roomy (y.bytes ++ r).length) := ht₁.loads
  have hloads₂ : Loads m₁ m₂ (y.Roomy r.length) := ht₂.loads
  refine ⟨m₃, k, v, fun n => ?_, hframe₁.trans (hframe₂.trans hs.frame), ?_, hs.err.trans ht₂.err,
    hs.keying.trans ht₂.keying, ?_, hs.stack, ?_, ht₁.reads, ?_⟩
  · rw [mapLoop, hm₁]
    simp only [bind, Except.bind, hm₂, hown, hset]
  · rw [hs.ofs, hofs₂, hofs₁, Nat.add_assoc]
  · have htables₁ : m₁.tables = x.tables ++ m.tables := ht₁.tables
    rw [← htables₁]
    exact hs.tables.trans ht₂.tables
  · have hl := hloads₁.trans (hloads₂.trans hs.loads hframe₂.data) hframe₁.data
    refine hl.congr ?_
    rw [List.length_append, and_true, Wire.len]
  · have hreads := ht₂.reads
    have hsrc : (m₁.keying false).source = m.source := ht₁.frame.source
    rwa [hsrc, show (m₁.keying false).ofs = m.ofs + x.len from hofs₁] at hreads

theorem mapLoop_took {elem : Machine → Except Fault Machine} {n : ℕ} {items : List Wire}
    (helem : ∀ x ∈ items, TakesWith grants elem x) {m : Machine} {own : ℕ}
    {acc : List (LuaValue × LuaValue)} {st : List LuaValue} {r : List UInt8}
    (hlen : items.length = 2 * n) (hkeys : Wire.GoodKeys items) (herr : m.err = false)
    (hstack : m.stack = .table own [] acc :: st)
    (hdata : m.data.drop m.ofs = Wire.bytesList items ++ r)
    (hgrants : grants.All m.tables (Wire.tablesList items)) :
    ∃ m' hash, mapLoop elem own n m = .ok m' ∧ TookPairs m m' own acc st items hash r.length := by
  induction n generalizing items m acc with
  | zero =>
    obtain rfl : items = [] := List.eq_nil_of_length_eq_zero (by omega)
    refine ⟨m, acc, rfl, .refl m, rfl, herr, by simp, rfl, by simpa using hstack, ?_, rfl⟩
    exact (Loads.refl m).congr (by simp [Wire.RoomyList])
  | succ n ih =>
    obtain ⟨x, y, items, rfl⟩ : ∃ x y items', items = x :: y :: items' := by
      match items, hlen with
      | x :: y :: items, _ => exact ⟨x, y, items, rfl⟩
    rw [List.length_cons, List.length_cons] at hlen
    rw [Wire.bytesList, Wire.bytesList, List.append_assoc, List.append_assoc] at hdata
    rw [Wire.tablesList, Wire.tablesList, List.append_assoc] at hgrants
    obtain ⟨hpair, hothers⟩ := Grants.all_append.mp hgrants
    obtain ⟨m₁, k, v, hstep, hp⟩ := mapLoop_tookPair (helem x List.mem_cons_self)
      (helem y (List.mem_cons_of_mem _ List.mem_cons_self)) hkeys.1 herr hstack hdata hpair
    have hdata₁ : m₁.data.drop m₁.ofs = Wire.bytesList items ++ r := by
      rw [← List.append_assoc] at hdata
      exact drop_after hdata hp.frame.data (by rw [hp.ofs, List.length_append]; rfl)
    have hothers : grants.All m₁.tables (Wire.tablesList items) := by
      rw [hp.tables, ← List.append_assoc]
      exact hothers
    obtain ⟨m', hash, hm', hi⟩ := ih
      (fun z hz => helem z (List.mem_cons_of_mem _ (List.mem_cons_of_mem _ hz))) (by omega)
      hkeys.2 hp.err hp.stack hdata₁ hothers
    refine ⟨m', hash, (hstep n).trans hm', hp.frame.trans hi.frame, ?_, hi.err, ?_, ?_, hi.stack,
      ?_, k, v, hp.key, hp.value, ?_⟩
    · rw [hi.ofs, hp.ofs, Wire.bytesList, Wire.bytesList]
      simp only [List.length_append, Wire.len]
      omega
    · rw [hi.keying, hp.keying, keyingAfter_false]
      simp
    · rw [hi.tables, hp.tables, Wire.tablesList, Wire.tablesList]
      simp only [List.append_assoc]
    · refine (hp.loads.trans hi.loads hp.frame.data).congr ?_
      simp only [Wire.RoomyList, Wire.bytesList, List.length_append, Wire.len, Nat.add_assoc,
        and_assoc]
    · have hreads := hi.reads
      rwa [hp.frame.source, hp.ofs] at hreads

/-- A header is a tag byte that announces its count, and the count. -/
def Announces (tag : ℕ → Tag) (w : Width) (n : ℕ) (header : List UInt8) : Prop :=
  ∃ t count inTag, header = t :: count ∧ tagOf t = tag inTag ∧ count.length = w.size ∧
    ∀ m : Machine, m.peek w.size = count → m.readCount inTag w = n

theorem readCount_two {m : Machine} {n k : ℕ} (hn : n < 2 ^ 16) (hm : m.peek 2 = beBytes 2 n) :
    m.readCount k .two = n := by
  have hswap := bswap_leNat (beBytes 2 n)
  rw [beBytes_length] at hswap
  rw [Machine.readCount, hm, ntohs, hswap, beNat_beBytes]
  exact Nat.mod_eq_of_lt hn

theorem readCount_four {m : Machine} {n k : ℕ} (hn : n < 2 ^ 32) (hm : m.peek 4 = beBytes 4 n) :
    m.readCount k .four = n := by
  have hswap := bswap_leNat (beBytes 4 n)
  rw [beBytes_length] at hswap
  rw [Machine.readCount, hm, ntohl, hswap, beNat_beBytes]
  exact Nat.mod_eq_of_lt hn

theorem announces_header {tag : Width → ℕ → Tag} {base tag16 tag32 : UInt8} {inTag : ℕ}
    (hfix : ∀ n < inTag, tagOf (base + UInt8.ofNat n) = tag .fix n)
    (htwo : tagOf tag16 = tag .two 0) (hfour : tagOf tag32 = tag .four 0) {w : Width} {n : ℕ}
    (hn : w.fits inTag n) : Announces (tag w) w n (w.header base tag16 tag32 n) := by
  cases w with
  | fix => exact ⟨_, [], n, rfl, hfix n hn, rfl, fun _ _ => rfl⟩
  | two => exact ⟨_, _, 0, rfl, htwo, beBytes_length 2 n, fun m hm => readCount_two hn hm⟩
  | four => exact ⟨_, _, 0, rfl, hfour, beBytes_length 4 n, fun m hm => readCount_four hn hm⟩

theorem announces_array {w : Width} {n : ℕ} (hn : w.fits 16 n) :
    Announces (.array w) w n (Wire.arrayHeader w n) :=
  announces_header (by decide) rfl rfl hn

theorem announces_map {w : Width} {n : ℕ} (hn : w.fits 16 n) :
    Announces (.map w) w n (Wire.mapHeader w n) :=
  announces_header (by decide) rfl rfl hn

theorem announces_raw {w : Width} {n : ℕ} (hn : w.fits 32 n) :
    Announces (.raw w) w n (Wire.rawHeader w n) :=
  announces_header (by decide) rfl rfl hn

theorem tagOf_tag (s : Scalar) : tagOf s.tag = .scalar s := by
  cases s <;> rfl

def Machine.afterTag (m : Machine) : Machine := (m.load 1).advance 1

theorem afterTag_drop {m : Machine} {t : UInt8} {r : List UInt8} (h : m.data.drop m.ofs = t :: r) :
    m.afterTag.data.drop m.afterTag.ofs = r :=
  drop_after (show m.data.drop m.ofs = [t] ++ r from h) rfl rfl

theorem ofs_add_length {m : Machine} {bs : List UInt8} (h : m.data.drop m.ofs = bs)
    (hne : bs ≠ []) : m.ofs + bs.length = m.data.length := by
  have hlen : bs.length = m.data.length - m.ofs := by rw [← h, List.length_drop]
  have hpos := List.length_pos_iff.mpr hne
  omega

/-- One unfolding of the decoder, at a tag byte. -/
theorem unpackAnytype_tag {fuel : ℕ} {m : Machine} {t : UInt8} {r : List UInt8}
    (h : m.data.drop m.ofs = t :: r) :
    mprbufUnpackAnytype grants (fuel + 1) m =
      match tagOf t with
      | .single => .ok (m.afterTag.push (singleValue t))
      | .scalar s =>
        if m.afterTag.left < s.size then .ok m.afterTag.fail
        else .ok (((m.afterTag.load s.loadSize).push
          (.number (s.value (m.afterTag.peek s.size)))).advance s.size)
      | .raw w inTag => .ok (m.afterTag.unpackRaw w inTag)
      | .array w inTag =>
        if m.afterTag.left < w.size then .ok m.afterTag.fail
        else
          mprbufUnpackArray grants (mprbufUnpackAnytype grants fuel)
            (toInt (m.afterTag.readCount inTag w)) ((m.afterTag.load w.size).advance w.size)
      | .map w inTag =>
        if m.afterTag.left < w.size then .ok m.afterTag.fail
        else
          mprbufUnpackMap grants (mprbufUnpackAnytype grants fuel)
            (toInt (m.afterTag.readCount inTag w)) ((m.afterTag.load w.size).advance w.size)
      | .reserved => .ok m.afterTag.fail := by
  have hleft : ¬ m.left < 1 := by
    rw [left_eq h, List.length_cons]
    omega
  rw [mprbufUnpackAnytype, if_neg hleft]
  simp only [getD_eq h]
  rfl

theorem loads_tag {m : Machine} {bs : List UInt8} (h : m.data.drop m.ofs = bs) (hne : bs ≠ []) :
    Loads m m.afterTag True := by
  have hlen := ofs_add_length h hne
  have hpos := List.length_pos_iff.mpr hne
  refine ⟨[(m.ofs, 1)], rfl, iff_true_intro fun l hl => ?_⟩
  rw [List.mem_singleton.mp hl]
  show m.ofs + 1 ≤ m.data.length
  omega

theorem singleValue_tableId (t : UInt8) : tableId (singleValue t) = none := by
  unfold singleValue
  split
  · rfl
  · split
    · rfl
    · split <;> rfl

theorem single_takes {t : UInt8} (ht : tagOf t = .single) (fuel : ℕ) :
    TakesWith grants (mprbufUnpackAnytype grants (fuel + 1)) (.single t) := by
  intro m r herr hdata _
  have htag : m.data.drop m.ofs = t :: r := hdata
  refine ⟨m.afterTag.push (singleValue t), singleValue t, ?_, ?_, rfl, herr, rfl, rfl, ?_, rfl, ?_,
    rfl⟩
  · rw [unpackAnytype_tag htag, ht]
  · exact ⟨rfl, rfl, rfl, .refl _, le_rfl, [], rfl, by simp⟩
  · intro id hid
    rw [singleValue_tableId] at hid
    cases hid
  · exact (loads_tag htag (by simp)).congr (by simp [Wire.Roomy])

theorem scalar_takes {s : Scalar} {p : List UInt8} (hp : p.length = s.size) (fuel : ℕ) :
    TakesWith grants (mprbufUnpackAnytype grants (fuel + 1)) (.scalar s p) := by
  intro m r herr hdata _
  have htag : m.data.drop m.ofs = s.tag :: (p ++ r) := hdata
  have hafter := afterTag_drop htag
  have hleft : ¬ m.afterTag.left < s.size := by
    rw [left_eq hafter, List.length_append]
    omega
  have hlen := ofs_add_length htag (by simp)
  rw [List.length_cons, List.length_append] at hlen
  refine ⟨((m.afterTag.load s.loadSize).push (.number (s.value p))).advance s.size, _, ?_,
    ⟨rfl, rfl, rfl, .refl _, le_rfl, [], rfl, by simp⟩, ?_, herr, rfl, rfl, ?_, rfl, ?_, rfl⟩
  · rw [unpackAnytype_tag htag, tagOf_tag]
    simp only [if_neg hleft, peek_eq hafter hp]
  · show m.ofs + 1 + s.size = m.ofs + Wire.len (.scalar s p)
    simp only [Wire.len, Wire.bytes, List.length_cons, hp]
    omega
  · intro id hid
    cases hid
  · refine ⟨[(m.ofs + 1, s.loadSize), (m.ofs, 1)], rfl, ?_⟩
    simp only [List.forall_mem_cons, Wire.Roomy]
    constructor
    · rintro ⟨h, _⟩
      omega
    · intro h
      exact ⟨by omega, by omega, by simp⟩

def Machine.afterCount (m : Machine) (w : Width) : Machine :=
  (m.afterTag.load w.size).advance w.size

theorem afterCount_drop {m : Machine} {w : Width} {t : UInt8} {count r : List UInt8}
    (h : m.data.drop m.ofs = t :: (count ++ r)) (hc : count.length = w.size) :
    (m.afterCount w).data.drop (m.afterCount w).ofs = r :=
  drop_after (afterTag_drop h) rfl (by rw [hc]; rfl)

theorem loads_count {m : Machine} {w : Width} {t : UInt8} {count r : List UInt8}
    (h : m.data.drop m.ofs = t :: (count ++ r)) (hc : count.length = w.size) :
    Loads m (m.afterCount w) True := by
  have hlen := ofs_add_length h (by simp)
  rw [List.length_cons, List.length_append] at hlen
  refine ⟨[(m.ofs + 1, w.size), (m.ofs, 1)], rfl, iff_true_intro fun l hl => ?_⟩
  simp only [List.mem_cons, List.not_mem_nil, or_false] at hl
  rcases hl with rfl | rfl
  · show m.ofs + 1 + w.size ≤ m.data.length
    omega
  · show m.ofs + 1 ≤ m.data.length
    omega

theorem frame_afterCount (m : Machine) (w : Width) : Frame m (m.afterCount w) :=
  ⟨rfl, rfl, rfl, .refl _, le_rfl, [], rfl, by simp⟩

theorem pushString_spec {m : Machine} {s r : List UInt8} (h : m.data.drop m.ofs = s ++ r)
    (hofs : m.ofs ≤ m.data.length) :
    Frame m (m.pushString s.length) ∧
      (m.pushString s.length).stack = m.source.string m.mapKeying m.ofs s :: m.stack ∧
      (m.pushString s.length).ofs = m.ofs ∧ (m.pushString s.length).err = m.err ∧
      (m.pushString s.length).mapKeying = m.mapKeying ∧
      (m.pushString s.length).tables = m.tables ∧
      Loads m (m.pushString s.length) True := by
  have hpeek : m.peek s.length = s := peek_eq h rfl
  have hlen : m.ofs + s.length ≤ m.data.length := by
    have := congrArg List.length h
    rw [List.length_drop, List.length_append] at this
    omega
  have hframe : Frame m ((m.load s.length).push (.string s)) :=
    ⟨rfl, rfl, rfl, .refl _, le_rfl, [], rfl, by simp⟩
  have hloads : Loads m ((m.load s.length).push (.string s)) True := by
    refine ⟨[(m.ofs, s.length)], rfl, iff_true_intro fun l hl => ?_⟩
    rw [List.mem_singleton.mp hl]
    exact hlen
  unfold Machine.pushString
  cases hmb : m.mb with
  | none =>
    simp only [hpeek]
    exact ⟨hframe, by simp [Source.string, Machine.source, hmb, Machine.push, Machine.load],
      rfl, rfl,
      rfl, rfl, hloads⟩
  | some mb =>
    cases hk : m.mapKeying with
    | true =>
      simp only [hpeek, if_true]
      exact ⟨hframe, by simp [Source.string, Machine.source, hmb, Machine.push, Machine.load], rfl,
        rfl, hk, rfl, hloads⟩
    | false =>
      simp only [Bool.false_eq_true, if_false]
      refine ⟨⟨rfl, rfl, rfl, ?_, le_rfl, [], rfl,
        by simp⟩, ?_, rfl, rfl, hk, rfl, [], rfl, by simp⟩
      · refine ⟨rfl, rfl, fun b => ?_, fun b => ?_⟩
        · rcases eq_or_ne b mb with rfl | hb
          · simp [levPushbufferFromMb, levSlabIncRef, Machine.push]
          · simp [levPushbufferFromMb, levSlabIncRef, Machine.push, hb]
        · rcases eq_or_ne b mb with rfl | hb
          · simp [levPushbufferFromMb, levSlabIncRef, Machine.push]
          · simp [levPushbufferFromMb, levSlabIncRef, Machine.push, hb]
      · simp [levPushbufferFromMb, levSlabIncRef, Machine.push, Source.string, Machine.source, hmb]

theorem source_string_tableId (c : Source) (k : Bool) (ofs : ℕ) (s : List UInt8) :
    tableId (c.string k ofs s) = none := by
  unfold Source.string
  cases c.mb with
  | none => rfl
  | some mb => cases k <;> rfl

theorem raw_takes {w : Width} {s : List UInt8} (hs : w.fits 32 s.length) (fuel : ℕ) :
    TakesWith grants (mprbufUnpackAnytype grants (fuel + 1)) (.raw w s) := by
  intro m r herr hdata _
  obtain ⟨t, count, inTag, hhdr, htagOf, hcount, hread⟩ := announces_raw hs
  have htag : m.data.drop m.ofs = t :: (count ++ (s ++ r)) := by
    rw [hdata, Wire.bytes, hhdr]
    simp
  have hafter := afterTag_drop htag
  have hleft : ¬ m.afterTag.left < w.size := by
    rw [left_eq hafter, List.length_append]
    omega
  have hdata' := afterCount_drop htag hcount
  have hleft' : ¬ (m.afterCount w).left < s.length := by
    rw [left_eq hdata', List.length_append]
    omega
  have hlen := ofs_add_length htag (by simp)
  rw [List.length_cons, List.length_append, List.length_append] at hlen
  have hofs : (m.afterCount w).ofs = m.ofs + (1 + w.size) := Nat.add_assoc _ _ _
  obtain ⟨hframe, hstack, hofs', herr', hkey, htables, hloads⟩ := pushString_spec hdata'
    (show (m.afterCount w).ofs ≤ m.data.length by omega)
  have hn : m.afterTag.readCount inTag w = s.length := hread _ (peek_eq hafter hcount)
  refine ⟨((m.afterCount w).pushString s.length).advance s.length,
    m.source.string m.mapKeying (m.ofs + (1 + w.size)) s, ?_, ?_, ?_, ?_, hkey, ?_, ?_, htables, ?_,
    rfl⟩
  · rw [unpackAnytype_tag htag, htagOf]
    simp only [Machine.unpackRaw, if_neg hleft, hn]
    rw [if_neg]
    · rfl
    · exact hleft'
  · have hf := (frame_afterCount m w).trans hframe
    exact ⟨hf.mb, hf.base, hf.data, hf.heap, hf.created, hf.rawsets⟩
  · show ((m.afterCount w).pushString s.length).ofs + s.length = _
    rw [hofs', hofs]
    simp only [Wire.len, Wire.bytes, Wire.rawHeader, List.length_append, Width.header_length]
    omega
  · exact herr'.trans herr
  · show ((m.afterCount w).pushString s.length).stack = _
    rw [hstack, hofs, (frame_afterCount m w).source]
    rfl
  · intro id hid
    rw [source_string_tableId] at hid
    cases hid
  · have hl : Loads m ((m.afterCount w).pushString s.length) (True ∧ True) :=
      (loads_count htag hcount).trans hloads rfl
    exact Loads.congr hl (by simp [Wire.Roomy])

section newtable
variable (m : Machine) (narr nrec : ℤ)

theorem loads_newtable : Loads m (m.newtable narr nrec) True := ⟨[], rfl, by simp⟩

theorem frame_newtable : Frame m (m.newtable narr nrec) :=
  ⟨rfl, rfl, rfl, .refl _, Nat.le_succ _, [], rfl, by simp⟩

end newtable

section granted
variable {elem : Machine → Except Fault Machine} {m m' : Machine} {narr nrec : ℤ}

theorem createtable_ok :
    m.createtable grants narr nrec = .ok m' ↔
      grants ((narr, nrec) :: m.tables) = true ∧ m' = m.newtable narr nrec := by
  rw [Machine.createtable]
  split
  · next hg => simp [hg, eq_comm]
  · next hg => simp [hg]

theorem unpackArray_ok :
    mprbufUnpackArray grants elem narr m = .ok m' ↔ grants ((narr, 0) :: m.tables) = true ∧
      arrayLoop elem m.created 0 narr.toNat (m.newtable narr 0) = .ok m' := by
  rw [mprbufUnpackArray, bind_eq_ok]
  simp only [createtable_ok, and_assoc, exists_and_left, exists_eq_left]

theorem unpackMap_ok :
    mprbufUnpackMap grants elem nrec m = .ok m' ↔ grants ((0, nrec) :: m.tables) = true ∧
      mapLoop elem m.created nrec.toNat (m.newtable 0 nrec) = .ok m' := by
  rw [mprbufUnpackMap, bind_eq_ok]
  simp only [createtable_ok, and_assoc, exists_and_left, exists_eq_left]

end granted

theorem array_takes {w : Width} {n fuel : ℕ} {items : List Wire} (hn : w.fits 16 n)
    (hlen : items.length = (toInt n).toNat)
    (helem : ∀ x ∈ items, TakesWith grants (mprbufUnpackAnytype grants fuel) x) :
    TakesWith grants (mprbufUnpackAnytype grants (fuel + 1)) (.array w n items) := by
  intro m r herr hdata hgrants
  obtain ⟨t, count, inTag, hhdr, htagOf, hcount, hread⟩ := announces_array hn
  have htag : m.data.drop m.ofs = t :: (count ++ (Wire.bytesList items ++ r)) := by
    rw [hdata, Wire.bytes, hhdr]
    simp
  rw [Wire.tables] at hgrants
  obtain ⟨hown, hgrants⟩ := Grants.all_append.mp hgrants
  have hafter := afterTag_drop htag
  have hleft : ¬ m.afterTag.left < w.size := by
    rw [left_eq hafter, List.length_append]
    omega
  have hdata' := afterCount_drop htag hcount
  have hofs : (m.afterCount w).ofs = m.ofs + (1 + w.size) := Nat.add_assoc _ _ _
  have hcnt : m.afterTag.readCount inTag w = n := hread _ (peek_eq hafter hcount)
  have hstack :
      ((m.afterCount w).newtable (toInt n) 0).stack = .table m.created [] [] :: m.stack := rfl
  have herr' : ((m.afterCount w).newtable (toInt n) 0).err = false := herr
  obtain ⟨m', vs, hm', hi⟩ := arrayLoop_took helem List.length_nil herr' hstack hdata' hgrants
  have hframe := ((frame_afterCount m w).trans (frame_newtable _ _ _)).trans hi.frame
  refine ⟨m', .table m.created vs [], ?_, hframe, ?_, hi.err, hi.keying, by simpa using hi.stack,
    ?_, ?_, ?_, ?_⟩
  · rw [unpackAnytype_tag htag, htagOf]
    simp only [if_neg hleft, hcnt]
    exact unpackArray_ok.mpr ⟨Grants.all_singleton.mp hown, hlen ▸ hm'⟩
  · rw [hi.ofs]
    show (m.afterCount w).ofs + _ = _
    rw [hofs]
    simp only [Wire.len, Wire.bytes, Wire.arrayHeader, List.length_append, Width.header_length]
    omega
  · intro id hid
    cases hid
    exact ⟨le_rfl, lt_of_lt_of_le (Nat.lt_succ_self _) hi.frame.created⟩
  · rw [hi.tables, Wire.tables, List.append_assoc]
    rfl
  · have h₁ : Loads m ((m.afterCount w).newtable (toInt n) 0) (True ∧ True) :=
      (loads_count htag hcount).trans (loads_newtable _ _ _) rfl
    exact (h₁.trans hi.loads rfl).congr (by simp [Wire.Roomy])
  · refine ⟨m.created, vs, rfl, ?_⟩
    have hreads := hi.reads
    rw [((frame_afterCount m w).trans (frame_newtable _ _ _)).source] at hreads
    change Wire.ReadsList m.source m.mapKeying (m.afterCount w).ofs items vs at hreads
    rwa [hofs] at hreads

theorem map_takes {w : Width} {n fuel : ℕ} {items : List Wire} (hn : w.fits 16 n)
    (hlen : items.length = 2 * (toInt n).toNat) (hkeys : Wire.GoodKeys items)
    (helem : ∀ x ∈ items, TakesWith grants (mprbufUnpackAnytype grants fuel) x) :
    TakesWith grants (mprbufUnpackAnytype grants (fuel + 1)) (.map w n items) := by
  intro m r herr hdata hgrants
  obtain ⟨t, count, inTag, hhdr, htagOf, hcount, hread⟩ := announces_map hn
  have htag : m.data.drop m.ofs = t :: (count ++ (Wire.bytesList items ++ r)) := by
    rw [hdata, Wire.bytes, hhdr]
    simp
  rw [Wire.tables] at hgrants
  obtain ⟨hown, hgrants⟩ := Grants.all_append.mp hgrants
  have hafter := afterTag_drop htag
  have hleft : ¬ m.afterTag.left < w.size := by
    rw [left_eq hafter, List.length_append]
    omega
  have hdata' := afterCount_drop htag hcount
  have hofs : (m.afterCount w).ofs = m.ofs + (1 + w.size) := Nat.add_assoc _ _ _
  have hcnt : m.afterTag.readCount inTag w = n := hread _ (peek_eq hafter hcount)
  have hstack :
      ((m.afterCount w).newtable 0 (toInt n)).stack = .table m.created [] [] :: m.stack := rfl
  have herr' : ((m.afterCount w).newtable 0 (toInt n)).err = false := herr
  obtain ⟨m', hash, hm', hi⟩ := mapLoop_took helem hlen hkeys herr' hstack hdata' hgrants
  have hframe := ((frame_afterCount m w).trans (frame_newtable _ _ _)).trans hi.frame
  refine ⟨m', .table m.created [] hash, ?_, hframe, ?_, hi.err, hi.keying, hi.stack, ?_, ?_, ?_, ?_⟩
  · rw [unpackAnytype_tag htag, htagOf]
    simp only [if_neg hleft, hcnt]
    exact unpackMap_ok.mpr ⟨Grants.all_singleton.mp hown, hm'⟩
  · rw [hi.ofs]
    show (m.afterCount w).ofs + _ = _
    rw [hofs]
    simp only [Wire.len, Wire.bytes, Wire.mapHeader, List.length_append, Width.header_length]
    omega
  · intro id hid
    cases hid
    exact ⟨le_rfl, lt_of_lt_of_le (Nat.lt_succ_self _) hi.frame.created⟩
  · rw [hi.tables, Wire.tables, List.append_assoc]
    rfl
  · have h₁ : Loads m ((m.afterCount w).newtable 0 (toInt n)) (True ∧ True) :=
      (loads_count htag hcount).trans (loads_newtable _ _ _) rfl
    exact (h₁.trans hi.loads rfl).congr (by simp [Wire.Roomy])
  · refine ⟨m.created, hash, rfl, ?_⟩
    have hreads := hi.reads
    rw [((frame_afterCount m w).trans (frame_newtable _ _ _)).source] at hreads
    change Wire.ReadsPairs m.source (m.afterCount w).ofs [] items hash at hreads
    rwa [hofs] at hreads

theorem unpackAnytype_takes {x : Wire} (hx : x.Legal) {fuel : ℕ} (hfuel : x.depth < fuel) :
    TakesWith grants (mprbufUnpackAnytype grants fuel) x := by
  induction x using Wire.induct generalizing fuel with
  | single t =>
    obtain ⟨fuel, rfl⟩ : ∃ k, fuel = k + 1 := ⟨fuel - 1, by omega⟩
    exact single_takes hx fuel
  | scalar s p =>
    obtain ⟨fuel, rfl⟩ : ∃ k, fuel = k + 1 := ⟨fuel - 1, by omega⟩
    exact scalar_takes hx fuel
  | raw w s =>
    obtain ⟨fuel, rfl⟩ : ∃ k, fuel = k + 1 := ⟨fuel - 1, by omega⟩
    exact raw_takes hx fuel
  | array w n items ih =>
    obtain ⟨fuel, rfl⟩ : ∃ k, fuel = k + 1 := ⟨fuel - 1, by omega⟩
    obtain ⟨hn, hlen, hitems⟩ := hx
    refine array_takes hn hlen fun y hy => ih y hy (Wire.legalList_iff.mp hitems y hy) ?_
    have hdepth := Wire.depth_le_depthList hy
    simp only [Wire.depth] at hfuel
    omega
  | map w n items ih =>
    obtain ⟨fuel, rfl⟩ : ∃ k, fuel = k + 1 := ⟨fuel - 1, by omega⟩
    obtain ⟨hn, hlen, hkeys, hitems⟩ := hx
    refine map_takes hn hlen hkeys fun y hy => ih y hy (Wire.legalList_iff.mp hitems y hy) ?_
    have hdepth := Wire.depth_le_depthList hy
    simp only [Wire.depth] at hfuel
    omega

end takes

end Lev.MPack
