import Lev.UnpackerTrees

/-! Whether the messages that `feed` counts are the ones that `pull` decodes. -/
namespace Lev.MPack
open CInt Endian Slab Memory Lua

namespace Unpacker

section agrees
variable {grants : Grants}

theorem pull_legal (h : Heap) {u : Unpacker} {x : Wire} (hx : x.Decodable grants) {r : List UInt8}
    (hbuf : u.buf = x.bytes ++ r) (hn : u.resultnum ≠ 0) :
    ∃ v, u.pull grants h = .ok (v, { u with buf := r, resultnum := u.resultnum - 1 }) ∧
      x.Reads ⟨none, 0, 0⟩ false 0 v := by
  have hfuel : (x.bytes ++ r).length < u.used + 1 := by
    rw [used, hbuf]
    exact Nat.lt_succ_self _
  obtain ⟨m, v, hm, ht⟩ := takes_of_length hx.legal hfuel (u.pullStart h) r rfl hbuf hx.granted
  have hofs : m.ofs = x.bytes.length := ht.ofs.trans (Nat.zero_add _)
  refine ⟨v, ?_, ht.reads⟩
  rw [pull, if_neg hn, hm]
  simp only [bind, Except.bind, pure, Except.pure, ht.stack, List.headD_cons, shift, hofs, hbuf,
    List.drop_left]

/-- As many pulls as there are messages, each of which takes the bytes of one. -/
def Consumes (grants : Grants) (h : Heap) : List Wire → Unpacker → Prop
  | [], _ => True
  | x :: xs, u => ∃ v u', u.pull grants h = .ok (v, u') ∧ u.buf = x.bytes ++ u'.buf ∧
    Consumes grants h xs u'

/-- Fed with the messages `xs`, a new unpacker counts them, and pulls take them one by one. -/
def Agrees (grants : Grants) (h : Heap) (size : ℕ) (xs : List Wire) : Prop :=
  ∃ u, (init size).feed (Wire.bytesList xs) = (0, u) ∧ u.resultnum = xs.length ∧
    u.nstacked = 0 ∧ Consumes grants h xs u

theorem consumes_of_buf (h : Heap) {xs : List Wire} (hx : ∀ x ∈ xs, x.Decodable grants)
    {u : Unpacker} (hbuf : u.buf = Wire.bytesList xs) (hn : u.resultnum = xs.length) :
    Consumes grants h xs u := by
  induction xs generalizing u with
  | nil => trivial
  | cons x xs ih =>
    rw [List.length_cons] at hn
    obtain ⟨v, hpull, -⟩ := pull_legal h (hx x List.mem_cons_self) hbuf (by omega)
    exact ⟨v, _, hpull, hbuf, ih (fun y hy => hx y (List.mem_cons_of_mem _ hy)) rfl
      (by simp only; omega)⟩

/-- For messages the decoder accepts, nested as deep as the stack of `feed` is high, `feed`
and `pull` agree on where they end exactly if no count behind a tag is 0 and no container
has one of 2^31 or more. -/
theorem agrees_iff (grants : Grants) (h : Heap) (size : ℕ) (xs : List Wire)
    (hx : ∀ x ∈ xs, x.Decodable grants ∧ x.depth ≤ 255) (hfit : (Wire.bytesList xs).length ≤ size) :
    Agrees grants h size xs ↔ ∀ x ∈ xs, x.Counted := by
  have hlegal : ∀ x ∈ xs, x.Legal := fun x hm => (hx x hm).1.legal
  have hstart : (init size).used + (Wire.bytesList xs).length ≤ (init size).size := by
    rw [used, show (init size).buf = [] from rfl, List.length_nil, Nat.zero_add]
    exact hfit
  constructor
  · rintro ⟨u, hfeed, hnum, hstack, -⟩
    obtain ⟨-, hbytes⟩ := feed_eq_zero_iff.mp hfeed
    have hready :
        ({ init size with buf := (init size).buf ++ Wire.bytesList xs } : Unpacker).Ready :=
      fun e he => by cases he
    have hfed := feedBytes_list (fun x hm _ _ hr hb => feedBytes_fed (hlegal x hm) hr hb) hready
      hbytes
    -- the count falls short by what the headers wait for in vain
    have hbalance := hfed.balance
    have hempty : u.stack = [] := List.eq_nil_of_length_eq_zero hstack
    rw [balance, balance, hempty, hnum] at hbalance
    simp only [init, waits] at hbalance
    have hzero : Wire.excessList xs = 0 := by
      push_cast at hbalance
      omega
    intro x hm
    exact (Wire.counted_iff_excess (hlegal x hm)).mpr (Wire.excessList_eq_zero.mp hzero x hm)
  · intro hc
    have hmessages := feedBytes_messages
      (u := { init size with buf := (init size).buf ++ Wire.bytesList xs })
        (fun x hm => ⟨⟨hlegal x hm, hc x hm⟩, Nat.lt_succ_of_le (hx x hm).2⟩) rfl
    refine ⟨_, feed_eq_zero_iff.mpr ⟨hstart, hmessages⟩, ?_, rfl, ?_⟩
    · exact Nat.zero_add _
    · exact consumes_of_buf h (fun x hm => (hx x hm).1) rfl (Nat.zero_add _)

end agrees

/-- An empty array with a count of two bytes is not counted. -/
theorem emptyArray_disagrees :
    ¬ Agrees luajitGrants (Heap.boot fun _ _ => 0) 1024 [.array .two 0 []] := by
  rintro ⟨u, hfeed, hnum, -, -⟩
  have hzero : ((init 1024).feed (Wire.bytesList [.array .two 0 []])).2.resultnum = 0 := by
    decide +kernel
  rw [hfeed, hnum] at hzero
  cases hzero

theorem agrees_iff_array :
    Agrees luajitGrants (Heap.boot fun _ _ => 0) 1024 [.array .two 1 [.single 5], .single 6] := by
  refine (agrees_iff _ _ _ _ ?_ (by decide)).mpr ?_
  · have harray : (Wire.array .two 1 [.single 5]).Legal := by
      refine ⟨by decide, ?_, show tagOf 5 = .single by decide, trivial⟩
      rw [toInt_toNat_eq (by decide)]
      rfl
    simp only [List.mem_cons, List.not_mem_nil, or_false, forall_eq_or_imp, forall_eq]
    exact ⟨⟨⟨harray, trivial, by decide +kernel⟩, by decide⟩,
      ⟨show tagOf 6 = .single by decide, trivial⟩, by decide⟩
  · simp [Wire.Counted, Wire.CountedList]

end Unpacker

end Lev.MPack
