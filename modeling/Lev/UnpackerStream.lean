import Lev.MPackPlain
import Lev.Run
import Lev.UnpackerAgrees

/-! The unpacker as a queue of messages. However the encodings are cut and whenever pulls
are made, a pull returns the next message if all of it has come, and nil before. -/
namespace Lev.MPack
open CInt Endian Slab Memory Lua Run

inductive StreamOp
  | feed (chunk : List UInt8)
  | pull
  deriving DecidableEq, Repr

def fedBytes : List StreamOp → List UInt8
  | [] => []
  | .feed chunk :: ops => chunk ++ fedBytes ops
  | .pull :: ops => fedBytes ops

/-- What an operation should return: 0, the value of a message, or nil. -/
inductive Expect (α : Type)
  | zero
  | value (v : α)
  | nothing

/-- The messages that were not pulled yet, and how many of their bytes have come. -/
structure Queue (α : Type) where
  todo : List α
  fed : ℕ

namespace Queue

variable {α : Type}

/-- A pull takes the first message, which has `len` bytes, once all of them have come. -/
def next (len : α → ℕ) (q : Queue α) : StreamOp → Expect α × Queue α
  | .feed chunk => (.zero, { q with fed := q.fed + chunk.length })
  | .pull =>
    match q.todo with
    | [] => (.nothing, q)
    | v :: todo => if len v ≤ q.fed then (.value v, ⟨todo, q.fed - len v⟩) else (.nothing, q)

def run (len : α → ℕ) : Queue α → List StreamOp → List (Expect α) × Queue α
  | q, [] => ([], q)
  | q, op :: ops =>
    let (e, q) := q.next len op
    let (es, q) := run len q ops
    (e :: es, q)

def Fits (size : ℕ) (q : Queue α) : StreamOp → Prop
  | .feed chunk => q.fed + chunk.length ≤ size
  | .pull => True

end Queue

inductive StreamOut
  | fed (res : ℤ)
  | pulled (v : LuaValue)
  | raised (f : Fault)

namespace Unpacker

def next (grants : Grants) (h : Heap) (u : Unpacker) : StreamOp → StreamOut × Unpacker
  | .feed chunk =>
    let (res, u) := u.feed chunk
    (.fed res, u)
  | .pull =>
    match u.pull grants h with
    | .ok (v, u) => (.pulled v, u)
    | .error f => (.raised f, u)

def run (grants : Grants) (h : Heap) : Unpacker → List StreamOp → List StreamOut × Unpacker
  | u, [] => ([], u)
  | u, op :: ops =>
    let (out, u) := u.next grants h op
    let (outs, u) := run grants h u ops
    (out :: outs, u)

end Unpacker

/-- A Lua string of the bytes `s`. -/
def IsString (s : List UInt8) (w : LuaValue) : Prop := w = .string s

def Meets : Expect LuaValue → StreamOut → Prop
  | .zero, .fed res => res = 0
  | .value v, .pulled w => SameBy IsString v w
  | .nothing, .pulled w => w = .nil
  | _, _ => False

/-- The bytes `lev.mpack.pack(v)` holds. -/
def packed (h : Heap) (v : LuaValue) : List UInt8 :=
  match msgpackPack h v with
  | .ok (ms, h') => ms.contents h'
  | .error _ => []

/-- A value whose message fits and is not nested deeper than the stack of `feed` is high. -/
structure Streamable (h : Heap) (v : LuaValue) : Prop where
  plain : Plain v
  fits : (toWire h v).len ≤ 2 ^ 20
  depth : (toWire h v).depth ≤ 255

namespace Unpacker

variable {u u' : Unpacker}

/-- The state with other bytes kept and `k` messages more counted. -/
def frame (u : Unpacker) (buf : List UInt8) (size k : ℕ) : Unpacker :=
  ⟨buf, size, u.stack, u.resultnum + k⟩

theorem progress_frame (u : Unpacker) (buf : List UInt8) (size k : ℕ) (ch : UInt8) :
    (u.frame buf size k).progress ch = (u.progress ch).frame buf size k := by
  have hcount : (if (progressLoop ch u.stack).isEmpty then u.resultnum + k + 1
      else u.resultnum + k) =
      (if (progressLoop ch u.stack).isEmpty then u.resultnum + 1 else u.resultnum) + k := by
    split <;> omega
  exact congrArg (Unpacker.mk buf size (progressLoop ch u.stack)) hcount

theorem stepByte_frame (u : Unpacker) (buf : List UInt8) (size k : ℕ) (ch : UInt8) :
    (u.frame buf size k).stepByte ch = (u.stepByte ch).map fun u' => u'.frame buf size k := by
  have hpush : ∀ t n, (u.frame buf size k).push t n =
      (u.push t n).map fun u' => u'.frame buf size k := by
    intro t n
    have hheight : (u.frame buf size k).nstacked = u.nstacked := rfl
    rw [push, push, hheight]
    by_cases hfull : maxStack ≤ u.nstacked
    · rw [if_pos hfull, if_pos hfull]
      rfl
    · rw [if_neg hfull, if_neg hfull]
      by_cases hzero : t.sizesize = 0 ∧ n = 0
      · simp only [if_pos hzero]
        exact congrArg some (progress_frame { u with stack := .init t n :: u.stack } buf size k 0)
      · simp only [if_neg hzero]
        rfl
  have hsame : (u.frame buf size k).containerNeedsBytes = u.containerNeedsBytes := rfl
  rw [stepByte, stepByte, hsame]
  cases u.containerNeedsBytes with
  | none =>
    simp only [feedTag]
    cases actionOf ch with
    | progress => exact congrArg some (progress_frame u buf size k ch)
    | push t n => exact hpush t n
    | error => rfl
  | some need =>
    refine congrArg some ?_
    by_cases hneed : 0 < need
    · simp only [if_pos hneed]
      have hstack : (u.frame buf size k).stack = u.stack := rfl
      unfold progressDatasize
      rw [hstack]
      cases hst : u.stack with
      | nil => rfl
      | cons top stack =>
        by_cases hlast : top.sofar + 1 = top.expect
        · simp only [if_pos hlast]
          exact progress_frame { u with stack := { top with sofar := top.sofar + 1 - 1 } :: stack }
            buf size k 0
        · simp only [if_neg hlast]
          rfl
    · simp only [if_neg hneed]
      exact progress_frame u buf size k ch

theorem feedBytes_frame (u : Unpacker) (buf : List UInt8) (size k : ℕ) (p : List UInt8) :
    (u.frame buf size k).feedBytes p = (u.feedBytes p).map fun u' => u'.frame buf size k := by
  induction p generalizing u with
  | nil => rfl
  | cons ch p ih =>
    rw [feedBytes_cons, feedBytes_cons, stepByte_frame]
    cases u.stepByte ch with
    | none => rfl
    | some u' => exact ih u'

theorem stepByte_resultnum {ch : UInt8} (h : u.stepByte ch = some u') :
    u'.resultnum = if u'.stack = [] then u.resultnum + 1 else u.resultnum := by
  have hprog : ∀ (v : Unpacker) ch, (v.progress ch).resultnum =
      if (v.progress ch).stack = [] then v.resultnum + 1 else v.resultnum := by
    intro v ch
    simp only [progress, List.isEmpty_iff]
  rw [stepByte] at h
  cases hn : u.containerNeedsBytes with
  | none =>
    rw [hn] at h
    simp only [feedTag] at h
    cases ha : actionOf ch with
    | progress =>
      rw [ha] at h
      cases h
      exact hprog u ch
    | push t n =>
      rw [ha] at h
      simp only [push] at h
      by_cases hfull : maxStack ≤ u.nstacked
      · rw [if_pos hfull] at h
        cases h
      · rw [if_neg hfull] at h
        by_cases hzero : t.sizesize = 0 ∧ n = 0
        · simp only [if_pos hzero] at h
          cases h
          exact hprog { u with stack := .init t n :: u.stack } 0
        · simp only [if_neg hzero] at h
          cases h
          rfl
    | error =>
      rw [ha] at h
      cases h
  | some need =>
    rw [hn] at h
    by_cases hneed : 0 < need
    · simp only [if_pos hneed] at h
      obtain ⟨top, stack, hst, -⟩ := needsBytes_pos hn hneed
      by_cases hlast : top.sofar + 1 = top.expect
      · simp only [progressDatasize, hst, if_pos hlast] at h
        cases h
        exact hprog { u with stack := { top with sofar := top.sofar + 1 - 1 } :: stack } 0
      · simp only [progressDatasize, hst, if_neg hlast] at h
        cases h
        rfl
    · simp only [if_neg hneed] at h
      cases h
      exact hprog u ch

theorem feedBytes_resultnum_le {p : List UInt8} (h : u.feedBytes p = some u') :
    u.resultnum ≤ u'.resultnum := by
  induction p generalizing u with
  | nil =>
    cases h
    exact le_rfl
  | cons ch p ih =>
    rw [feedBytes_cons] at h
    obtain ⟨u₁, hone, hrest⟩ := Option.bind_eq_some_iff.mp h
    refine le_trans ?_ (ih hrest)
    rw [stepByte_resultnum hone]
    split <;> omega

theorem feedBytes_part {p q : List UInt8} {c : Unpacker} (hq : q ≠ [])
    (hp : u.feedBytes p = some c) (hall : u.feedBytes (p ++ q) = some u') (hst : u'.stack = [])
    (hnum : u'.resultnum = u.resultnum + 1) : c.resultnum = u.resultnum := by
  have hle := feedBytes_resultnum_le hp
  rw [← List.dropLast_append_getLast hq, ← List.append_assoc, feedBytes_append] at hall
  obtain ⟨c', hc', hlast⟩ := Option.bind_eq_some_iff.mp hall
  rw [feedBytes_append, hp, Option.bind_some] at hc'
  have hle' := feedBytes_resultnum_le hc'
  rw [feedBytes_cons] at hlast
  obtain ⟨c'', hone, hend⟩ := Option.bind_eq_some_iff.mp hlast
  cases hend
  have hcount := stepByte_resultnum hone
  rw [if_pos hst] at hcount
  omega

end Unpacker

section Streams

variable {h : Heap} {v : LuaValue}

theorem widthOf_eq_fix_or (inTag n : ℕ) (hpos : 0 < inTag) : widthOf inTag n = .fix ∨ n ≠ 0 := by
  unfold widthOf
  split
  · exact .inl rfl
  · exact .inr (by omega)

theorem numberWire_counted (n : Double) : (numberWire n).Counted := by
  unfold numberWire
  split
  · trivial
  · split
    · unfold integerWire
      split
      · split
        · trivial
        · split
          · trivial
          · split
            · trivial
            · split <;> trivial
      · split
        · trivial
        · split
          · trivial
          · split
            · trivial
            · split <;> trivial
    · trivial

/-- The encoder writes no count of 0 behind a tag, and none that is too large. -/
theorem toWire_counted (h : Heap) (v : LuaValue) (hfit : (toWire h v).len ≤ 2 ^ 20) :
    (toWire h v).Counted := by
  induction v using LuaValue.induct with
  | nil => rw [toWire]; trivial
  | boolean b => rw [toWire]; trivial
  | number n => rw [toWire]; exact numberWire_counted n
  | string s =>
    rw [toWire, stringWire, Wire.Counted]
    exact (widthOf_eq_fix_or 32 s.length (by decide)).imp_right
      fun hne hnil => hne (by rw [hnil]; rfl)
  | buffer ms =>
    rw [toWire, stringWire, Wire.Counted]
    exact (widthOf_eq_fix_or 32 (ms.contents h).length (by decide)).imp_right
      fun hne hnil => hne (by rw [hnil]; rfl)
  | foreign t => rw [toWire]; trivial
  | table id arr hash iharr ihhash =>
    rw [toWire] at hfit ⊢
    split at hfit
    · rename_i harr
      rw [if_pos harr]
      rw [Wire.len, Wire.bytes, List.length_append] at hfit
      have hcount := Wire.length_le_bytesList (toWireList h arr)
      rw [toWireList_length] at hcount
      refine ⟨⟨widthOf_eq_fix_or 16 arr.length (by decide), by omega⟩, ?_⟩
      have hlist : (Wire.bytesList (toWireList h arr)).length ≤ 2 ^ 20 := by omega
      clear hfit hcount harr
      induction arr with
      | nil => trivial
      | cons u arr hrec =>
        rw [toWireList, Wire.bytesList, List.length_append] at hlist
        exact ⟨iharr u List.mem_cons_self (by rw [Wire.len]; omega),
          hrec (fun x hx => iharr x (List.mem_cons_of_mem _ hx)) (by omega)⟩
    · rename_i harr
      rw [if_neg harr]
      rw [Wire.len, Wire.bytes, List.length_append] at hfit
      have hcount := Wire.length_le_bytesList (toWirePairs h hash)
      rw [toWirePairs_length_eq] at hcount
      refine ⟨⟨widthOf_eq_fix_or 16 hash.length (by decide), by omega⟩, ?_⟩
      have hlist : (Wire.bytesList (toWirePairs h hash)).length ≤ 2 ^ 20 := by omega
      clear hfit hcount harr
      induction hash with
      | nil => trivial
      | cons p hash hrec =>
        obtain ⟨k, u⟩ := p
        rw [toWirePairs, Wire.bytesList, Wire.bytesList, List.length_append, List.length_append]
          at hlist
        obtain ⟨hk, hu⟩ := ihhash (k, u) List.mem_cons_self
        exact ⟨hk (by simp only [Wire.len]; omega), hu (by simp only [Wire.len]; omega),
          hrec (fun x hx => ihhash x (List.mem_cons_of_mem _ hx)) (by omega)⟩

theorem Streamable.legal (s : Streamable h v) : (toWire h v).Legal :=
  (sound_of_plain s.plain s.fits).legal

theorem Streamable.decodable {grants : Grants} (hg : grants.Ample) (s : Streamable h v) :
    (toWire h v).Decodable grants :=
  ⟨s.legal, (sound_of_plain s.plain s.fits).granted hg s.fits⟩

theorem Streamable.packed_eq (s : Streamable h v) : packed h v = (toWire h v).bytes := by
  have hsound := sound_of_plain s.plain s.fits
  obtain ⟨hok, hbytes, -⟩ := pack_iff h v hsound.range
  obtain ⟨⟨ms, h'⟩, hpack⟩ := hok.mpr ⟨hsound.packable, s.fits⟩
  rw [packed, hpack]
  exact hbytes ms h' hpack

theorem flatMap_packed {vs : List LuaValue} (hs : ∀ v ∈ vs, Streamable h v) :
    vs.flatMap (packed h) = Wire.bytesList (vs.map (toWire h)) := by
  rw [Wire.bytesList_eq, List.flatMap_map]
  exact List.flatMap_congr fun v hv => (hs v hv).packed_eq

theorem Streamable.counted (s : Streamable h v) :
    ((toWire h v).Legal ∧ (toWire h v).Counted) ∧ (toWire h v).depth < Unpacker.maxStack :=
  ⟨⟨s.legal, toWire_counted h v s.fits⟩, Nat.lt_succ_of_le s.depth⟩

theorem Streamable.reads (s : Streamable h v) {w : LuaValue} {buf r : List UInt8}
    (hbuf : buf = (toWire h v).bytes ++ r) (hr : (toWire h v).Reads ⟨none, 0, 0⟩ false 0 w) :
    SameBy IsString v w := by
  have hstrings : ∀ u, Strings (fun _ => True) u := by
    intro u
    induction u using LuaValue.induct with
    | nil => trivial
    | boolean b => trivial
    | number n => trivial
    | string s => trivial
    | buffer ms => trivial
    | foreign t => trivial
    | table id arr hash iharr ihhash =>
      rw [Strings]
      constructor
      · induction arr with
        | nil => trivial
        | cons u arr hrec =>
          exact ⟨iharr u List.mem_cons_self, hrec fun x hx => iharr x (List.mem_cons_of_mem _ hx)⟩
      · induction hash with
        | nil => trivial
        | cons p hash hrec =>
          exact ⟨(ihhash p List.mem_cons_self).2,
            hrec fun x hx => ihhash x (List.mem_cons_of_mem _ hx)⟩
  have hstring : ∀ {s ofs r w}, (stringWire s).Reads ⟨none, 0, 0⟩ false ofs w →
      buf.drop ofs = (stringWire s).bytes ++ r → (IsString s w ↔ True) := by
    intro s ofs r w hs _
    rw [stringWire, Wire.Reads] at hs
    exact iff_of_true hs trivial
  exact (sameBy_iff hstring s.plain hr hbuf).mpr (hstrings v)

/-- The unpacker keeps what has come of the messages in the queue, and is where feeding
that to a new one leads; `rest` has not come yet. -/
structure Sim (h : Heap) (q : Queue LuaValue) (rest : List UInt8) (u : Unpacker) : Prop where
  bytes : u.buf ++ rest = q.todo.flatMap (packed h)
  fed : q.fed = u.used
  core : ∃ c, (Unpacker.init 0).feedBytes u.buf = some c ∧ u = c.frame u.buf u.size 0

variable {grants : Grants} {q : Queue LuaValue} {rest : List UInt8} {u : Unpacker}

theorem sim_init (size : ℕ) {vs : List LuaValue} (hrest : rest = vs.flatMap (packed h)) :
    Sim h ⟨vs, 0⟩ rest (.init size) :=
  ⟨hrest, rfl, .init 0, rfl, rfl⟩

theorem sim_feed {chunk : List UInt8} (hs : Sim h q (chunk ++ rest) u)
    (hgood : ∀ v ∈ q.todo, Streamable h v) (hfits : q.fed + chunk.length ≤ u.size) :
    ∃ u', u.feed chunk = (0, u') ∧ Sim h { q with fed := q.fed + chunk.length } rest u' ∧
      u'.size = u.size := by
  obtain ⟨c, hc, hu⟩ := hs.core
  have hcounted : ∀ x ∈ q.todo.map (toWire h),
      (x.Legal ∧ x.Counted) ∧ x.depth < Unpacker.maxStack := by
    intro x hx
    obtain ⟨v, hv, rfl⟩ := List.mem_map.mp hx
    exact (hgood v hv).counted
  have hempty : (Unpacker.init 0).stack = [] := rfl
  have hall := Unpacker.feedBytes_messages hcounted hempty
  rw [← flatMap_packed hgood, ← hs.bytes, Unpacker.feedBytes_append, hc, Option.bind_some,
    Unpacker.feedBytes_append] at hall
  obtain ⟨c', hc', -⟩ := Option.bind_eq_some_iff.mp hall
  have hrun : ({ u with buf := u.buf ++ chunk } : Unpacker).feedBytes chunk =
      some (c'.frame (u.buf ++ chunk) u.size 0) := by
    have hframe := Unpacker.feedBytes_frame c (u.buf ++ chunk) u.size 0 chunk
    rw [hc', Option.map_some] at hframe
    rw [← hframe]
    congr 1
    rw [hu]
    rfl
  refine ⟨_, Unpacker.feed_eq_zero_iff.mpr ⟨hs.fed ▸ hfits, hrun⟩, ⟨?_, ?_, c', ?_, rfl⟩, rfl⟩
  · exact (List.append_assoc _ _ _).trans hs.bytes
  · rw [hs.fed]
    exact List.length_append.symm
  · exact (Unpacker.feedBytes_append _ _ _).trans (by rw [hc]; exact hc')

theorem sim_pull (hg : grants.Ample) {todo : List LuaValue} {fed : ℕ}
    (hs : Sim h ⟨v :: todo, fed⟩ rest u) (hv : Streamable h v) (hcome : (packed h v).length ≤ fed) :
    ∃ w u', u.pull grants h = .ok (w, u') ∧ SameBy IsString v w ∧
      Sim h ⟨todo, fed - (packed h v).length⟩ rest u' ∧ u'.size = u.size := by
  obtain ⟨c, hc, hu⟩ := hs.core
  have hbytes : u.buf ++ rest = packed h v ++ todo.flatMap (packed h) := hs.bytes
  have hfed : fed = u.buf.length := hs.fed
  obtain ⟨r, hbuf⟩ : ∃ r, u.buf = packed h v ++ r := by
    have hfirst : packed h v <+: u.buf ++ rest := ⟨_, hbytes.symm⟩
    obtain ⟨r, hr⟩ := List.prefix_of_prefix_length_le hfirst ⟨rest, rfl⟩ (hfed ▸ hcome)
    exact ⟨r, hr.symm⟩
  have hrest : r ++ rest = todo.flatMap (packed h) := by
    rw [hbuf, List.append_assoc] at hbytes
    exact List.append_cancel_left hbytes
  rw [hv.packed_eq] at hbuf
  -- the first message counts one, and the others are where they are without it
  have hone : (Unpacker.init 0).feedBytes (toWire h v).bytes =
      some ((Unpacker.init 0).frame [] 0 1) :=
    Unpacker.feedBytes_counted hv.legal hv.counted.1.2 (fun e he => by cases he)
      (by rw [show (Unpacker.init 0).nstacked = 0 from rfl, Nat.zero_add]; exact hv.counted.2)
  rw [hbuf, Unpacker.feedBytes_append, hone, Option.bind_some, Unpacker.feedBytes_frame] at hc
  obtain ⟨c₀, hc₀, rfl⟩ := Option.map_eq_some_iff.mp hc
  have hnum : u.resultnum = c₀.resultnum + 1 := by rw [hu]; rfl
  obtain ⟨w, hpull, hreads⟩ := Unpacker.pull_legal h (hv.decodable hg) hbuf (by omega)
  refine ⟨w, _, hpull, hv.reads hbuf hreads, ⟨hrest, ?_, c₀, hc₀, ?_⟩, rfl⟩
  · simp only [Unpacker.used]
    rw [hfed, hv.packed_eq, hbuf, List.length_append]
    omega
  · have hstack : u.stack = c₀.stack := by rw [hu]; rfl
    simp only [Unpacker.frame, hstack, hnum, Nat.add_sub_cancel, Nat.add_zero]

theorem sim_wait (hs : Sim h q rest u) (hgood : ∀ v ∈ q.todo, Streamable h v)
    (hwait : ∀ v todo, q.todo = v :: todo → q.fed < (packed h v).length) :
    u.pull grants h = .ok (.nil, u) := by
  obtain ⟨c, hc, hu⟩ := hs.core
  have hzero : c.resultnum = 0 := by
    have hbytes := hs.bytes
    cases htodo : q.todo with
    | nil =>
      rw [htodo] at hbytes
      rw [(List.append_eq_nil_iff.mp hbytes).1] at hc
      cases hc
      rfl
    | cons v todo =>
      have hv := hgood v (by rw [htodo]; exact List.mem_cons_self)
      have hlt := hwait v todo htodo
      have hfed : q.fed = u.buf.length := hs.fed
      rw [hfed] at hlt
      rw [htodo, List.flatMap_cons] at hbytes
      have hcome : u.buf <+: packed h v ++ todo.flatMap (packed h) := ⟨rest, hbytes⟩
      obtain ⟨part, hpart⟩ := List.prefix_of_prefix_length_le hcome ⟨_, rfl⟩ (Nat.le_of_lt hlt)
      have hne : part ≠ [] := by
        rintro rfl
        rw [List.append_nil] at hpart
        rw [hpart] at hlt
        exact Nat.lt_irrefl _ hlt
      have hone : (Unpacker.init 0).feedBytes (u.buf ++ part) =
          some ((Unpacker.init 0).frame [] 0 1) := by
        rw [hpart, hv.packed_eq]
        exact Unpacker.feedBytes_counted hv.legal hv.counted.1.2 (fun e he => by cases he)
          (by rw [show (Unpacker.init 0).nstacked = 0 from rfl, Nat.zero_add]; exact hv.counted.2)
      exact Unpacker.feedBytes_part hne hc hone rfl rfl
  have hnum : u.resultnum = 0 := by
    rw [hu]
    exact hzero
  rw [Unpacker.pull, if_pos hnum]

/-- A run keeps the unpacker with the queue, and each operation returns what it should. -/
theorem run_sim (hg : grants.Ample) (ops : List StreamOp) (hs : Sim h q (fedBytes ops ++ rest) u)
    (hgood : ∀ v ∈ q.todo, Streamable h v)
    (hfits : Along (fun q op => (q.next (fun v => (packed h v).length) op).2)
      (Queue.Fits u.size) q ops) :
    List.Forall₂ Meets (q.run (fun v => (packed h v).length) ops).1 (u.run grants h ops).1 ∧
      Sim h (q.run (fun v => (packed h v).length) ops).2 rest (u.run grants h ops).2 := by
  induction ops generalizing q u with
  | nil => exact ⟨.nil, hs⟩
  | cons op ops ih =>
    obtain ⟨hnow, hlater⟩ := hfits
    cases op with
    | feed chunk =>
      rw [fedBytes, List.append_assoc] at hs
      obtain ⟨u', hfeed, hs', hsize⟩ := sim_feed hs hgood hnow
      obtain ⟨hmeet, hend⟩ := ih hs' hgood (hsize ▸ hlater)
      have hnext : u.next grants h (.feed chunk) = (.fed 0, u') := by rw [Unpacker.next, hfeed]
      rw [Queue.run, Unpacker.run, hnext]
      exact ⟨.cons rfl hmeet, hend⟩
    | pull =>
      have hwaits : (∀ v todo, q.todo = v :: todo → q.fed < (packed h v).length) →
          q.next (fun v => (packed h v).length) .pull = (.nothing, q) →
          List.Forall₂ Meets (q.run (fun v => (packed h v).length) (.pull :: ops)).1
              (u.run grants h (.pull :: ops)).1 ∧
            Sim h (q.run (fun v => (packed h v).length) (.pull :: ops)).2 rest
              (u.run grants h (.pull :: ops)).2 := by
        intro hwait hq
        have hpull : u.next grants h .pull = (.pulled .nil, u) := by
          rw [Unpacker.next, sim_wait hs hgood hwait]
        simp only [hq] at hlater
        obtain ⟨hmeet, hend⟩ := ih hs hgood hlater
        rw [Queue.run, Unpacker.run, hpull, hq]
        exact ⟨.cons rfl hmeet, hend⟩
      obtain ⟨todo, fed⟩ := q
      cases todo with
      | nil => exact hwaits (fun v todo he => by cases he) rfl
      | cons v todo =>
        by_cases hcome : (packed h v).length ≤ fed
        · obtain ⟨w, u', hpull, hsame, hs', hsize⟩ :=
            sim_pull hg hs (hgood v List.mem_cons_self) hcome
          have hq : Queue.next (fun v => (packed h v).length) ⟨v :: todo, fed⟩ .pull =
              (.value v, ⟨todo, fed - (packed h v).length⟩) := if_pos hcome
          have hu : u.next grants h .pull = (.pulled w, u') := by rw [Unpacker.next, hpull]
          simp only [hq] at hlater
          rw [← hsize] at hlater
          obtain ⟨hmeet, hend⟩ :=
            ih hs' (fun x hx => hgood x (List.mem_cons_of_mem _ hx)) hlater
          rw [Queue.run, Unpacker.run, hu, hq]
          exact ⟨.cons hsame hmeet, hend⟩
        · refine hwaits (fun x rest he => ?_) (if_neg hcome)
          obtain ⟨rfl, rfl⟩ := List.cons.inj he
          exact Nat.lt_of_not_le hcome

/-- However the encodings of plain values are cut into chunks and whenever pulls are made
between them, within the capacity every feed returns 0 and every pull the next value once
all of it has come, nil before; and the unpacker is empty when all were pulled. -/
theorem stream_delivers (hgrants : grants.Ample) (h : Heap) (vs : List LuaValue) (size : ℕ)
    (ops : List StreamOp) (rest : List UInt8) (hs : ∀ v ∈ vs, Streamable h v)
    (hcut : fedBytes ops ++ rest = vs.flatMap (packed h))
    (hfits : Along (fun q op => (Queue.next (fun v => (packed h v).length) q op).2)
      (Queue.Fits size) ⟨vs, 0⟩ ops) :
    List.Forall₂ Meets (Queue.run (fun v => (packed h v).length) ⟨vs, 0⟩ ops).1
        ((Unpacker.init size).run grants h ops).1 ∧
      ((Queue.run (fun v => (packed h v).length) ⟨vs, 0⟩ ops).2.todo = [] →
        ((Unpacker.init size).run grants h ops).2.used = 0 ∧
        ((Unpacker.init size).run grants h ops).2.nstacked = 0 ∧
        ((Unpacker.init size).run grants h ops).2.resultnum = 0) := by
  obtain ⟨hmeet, hend⟩ := run_sim hgrants ops (sim_init size hcut) hs hfits
  refine ⟨hmeet, fun hall => ?_⟩
  generalize ((Unpacker.init size).run grants h ops).2 = u at hend
  have hbytes := hend.bytes
  rw [hall, List.flatMap_nil] at hbytes
  have hbuf := (List.append_eq_nil_iff.mp hbytes).1
  obtain ⟨c, hc, hu⟩ := hend.core
  rw [hbuf] at hc
  cases hc
  refine ⟨?_, ?_, ?_⟩
  · rw [Unpacker.used, hbuf]
    rfl
  · rw [hu]
    rfl
  · rw [hu]
    rfl

end Streams

/-- The bits of the number that the second operation returns. -/
def pulledBits : List StreamOut → ℕ
  | [_, .pulled (.number n)] => n.bits
  | _ => 0

/-- The number 2^63, which is integral but no `long long`, comes back as -2^63. -/
theorem beyondInt64_changes :
    ¬ List.Forall₂ Meets
      (Queue.run (fun v => (packed (Heap.boot fun _ _ => 0) v).length)
        ⟨[.number (.ofBits 0x43E0000000000000)], 0⟩
        [.feed (packed (Heap.boot fun _ _ => 0) (.number (.ofBits 0x43E0000000000000))), .pull]).1
      ((Unpacker.init 1024).run luajitGrants (Heap.boot fun _ _ => 0)
        [.feed (packed (Heap.boot fun _ _ => 0) (.number (.ofBits 0x43E0000000000000))),
          .pull]).1 := by
  have hlen :
      (packed (Heap.boot fun _ _ => 0) (.number (.ofBits 0x43E0000000000000))).length = 9 := by
    decide +kernel
  have hrun : pulledBits ((Unpacker.init 1024).run luajitGrants (Heap.boot fun _ _ => 0)
      [.feed (packed (Heap.boot fun _ _ => 0) (.number (.ofBits 0x43E0000000000000))), .pull]).1 =
      0xC3E0000000000000 := by
    decide +kernel
  intro h
  simp only [Queue.run, Queue.next, hlen] at h
  generalize ((Unpacker.init 1024).run luajitGrants (Heap.boot fun _ _ => 0)
    [.feed (packed (Heap.boot fun _ _ => 0) (.number (.ofBits 0x43E0000000000000))),
      .pull]).1 = outs
    at h hrun
  rcases h with _ | ⟨-, _ | ⟨hmeet, htail⟩⟩
  rename_i first out outs
  cases htail
  cases out with
  | fed res => cases hmeet
  | raised f => cases hmeet
  | pulled w =>
    obtain ⟨n, rfl, hn⟩ := hmeet
    have hbits : n = .ofBits 0xC3E0000000000000 := Double.ext hrun
    rw [hbits] at hn
    exact absurd hn (by decide +kernel)

/-- A table cut in two, with a pull before its last byte has come. -/
def cutOps : List StreamOp := [.feed [0x81, 0xa1, 0x6b], .pull, .feed [0x05], .pull, .pull]

theorem stream_delivers_cut :
    List.Forall₂ Meets
        (Queue.run (fun v => (packed (Heap.boot fun _ _ => 0) v).length)
          ⟨[.table 0 [] [(.string [0x6b], .number (.ofInt 5))]], 0⟩ cutOps).1
        ((Unpacker.init 16).run luajitGrants (Heap.boot fun _ _ => 0) cutOps).1 ∧
      ((Queue.run (fun v => (packed (Heap.boot fun _ _ => 0) v).length)
          ⟨[.table 0 [] [(.string [0x6b], .number (.ofInt 5))]], 0⟩ cutOps).2.todo = [] →
        ((Unpacker.init 16).run luajitGrants (Heap.boot fun _ _ => 0) cutOps).2.used = 0 ∧
        ((Unpacker.init 16).run luajitGrants (Heap.boot fun _ _ => 0) cutOps).2.nstacked = 0 ∧
        ((Unpacker.init 16).run luajitGrants (Heap.boot fun _ _ => 0) cutOps).2.resultnum = 0) := by
  have hplain : Plain (.table 0 [] [(.string [0x6b], .number (.ofInt 5))]) := by
    have hint : (Double.ofInt 5).toInt? = some 5 := by decide +kernel
    have hnan : (Double.ofInt 5).isnan = false := by decide +kernel
    simp only [Plain, PlainPairs, PlainKey, PlainNumber, InInt64, LuaValue.isNil, hint, hnan]
    simp
  refine stream_delivers Grants.luajit_ample _ _ 16 cutOps [] ?_ (by decide +kernel) ?_
  · intro v hv
    rw [List.mem_singleton.mp hv]
    exact ⟨hplain, by decide +kernel, by decide +kernel⟩
  · have hlen : (packed (Heap.boot fun _ _ => 0)
        (.table 0 [] [(.string [0x6b], .number (.ofInt 5))])).length = 4 := by decide +kernel
    simp [cutOps, Along, Queue.next, Queue.Fits, hlen]

end Lev.MPack
