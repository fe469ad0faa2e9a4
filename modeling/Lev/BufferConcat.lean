import Lev.BufferStores

/-! The law of `..`: the new Buffer holds the bytes of both operands, in order, and the
operands hold what they held. Three ways lead there, and three kinds of operands miss: a
string on the left, which is never fetched, a Buffer that lies behind the one to its
right, and one whose bytes lie where the new ones are put. -/
namespace Lev.Buffer
open CInt Slab Memory Run

/-- The Buffer on the left starts where the one on the right ends, in one block. -/
def Backwards (first second : MemSlice) : Prop :=
  first.mb = second.mb ∧ second.slice + second.untilLen = first.slice

/-- An offset in a block of that size. -/
structure Place where
  mb : BlockId
  off : ℕ
  size : ℕ

/-- Where `x .. y` lies once it is made, if bytes are put there for it: at the first operand
when it grows, or at the fill mark of the block that `lev_buffer_new` takes. -/
def place (s : State) (x y : Operand) : Option Place :=
  match newSize s (.concat x y) with
  | some size =>
    (staticBlock s size).map fun r => ⟨r.1, (r.2.blocks r.1).nbytes, (r.2.blocks r.1).size⟩
  | none =>
    (joinedSlice s (.concat x y)).map fun first =>
      ⟨first.mb, first.slice, (s.heap.blocks first.mb).size⟩

/-- Putting `data` there leaves both operands as they are. -/
def Spared (s : State) (x y : Operand) (data : List UInt8) : Prop :=
  ∀ p ∈ place s x y, ∀ v, v = x ∨ v = y →
    operandBytes { s with heap := s.heap.store p.mb p.off data } v = operandBytes s v

theorem contents_length' (ms : MemSlice) (h : Heap) : (ms.contents h).length = ms.untilLen :=
  Heap.load_length _ _ _ _

section bytes
variable {h h' : Heap} {mb off : ℕ}

theorem contents_congr (ms : MemSlice) (hb : h.bytes = h'.bytes) :
    ms.contents h = ms.contents h' :=
  Heap.load_congr fun _ _ => congrFun (congrFun hb ms.mb) _

theorem store_congr (mb off : ℕ) (data : List UInt8) (hb : h.bytes = h'.bytes) :
    (h.store mb off data).bytes = (h'.store mb off data).bytes := by
  simp only [Heap.store, hb]

end bytes

theorem levSlabGetBlock_bytes {h h' : Heap} {b : BlockId} {size : ℕ}
    (hg : levSlabGetBlock h size = some (b, h')) : h'.bytes = h.bytes := by
  obtain ⟨c, ⟨pool, _, rfl⟩ | ⟨_, rfl⟩⟩ := levSlabGetBlock_cases hg <;> rfl

theorem staticBlock_stores {s : State} {size : ℕ} {mb : BlockId} {h : Heap}
    (hs : staticBlock s size = some (mb, h)) : h.stores = s.heap.stores := by
  have hget : ∀ {h h' : Heap} {b : BlockId}, levSlabGetBlock h size = some (b, h') →
      h'.stores = h.stores := by
    intro h h' b hg
    obtain ⟨c, ⟨pool, _, rfl⟩ | ⟨_, rfl⟩⟩ := levSlabGetBlock_cases hg <;> rfl
  unfold staticBlock at hs
  split at hs
  · split at hs
    · exact (hget hs).trans (levSlabDecRef_stores _ _)
    · simp only [Option.some.injEq, Prod.mk.injEq] at hs
      rw [← hs.2]
  · exact hget hs

theorem staticBlock_bytes {s : State} {size : ℕ} {mb : BlockId} {h : Heap}
    (hs : staticBlock s size = some (mb, h)) : h.bytes = s.heap.bytes := by
  unfold staticBlock at hs
  split at hs
  · split at hs
    · exact (levSlabGetBlock_bytes hs).trans (levSlabDecRef_bytes _ _)
    · simp only [Option.some.injEq, Prod.mk.injEq] at hs
      rw [← hs.2]
  · exact levSlabGetBlock_bytes hs

theorem levBufferNew_isSome (s : State) {size : ℕ} (temp : Option (List UInt8)) (tempSize : ℕ)
    (hsize : size ≤ 2 ^ 20) : ∃ ms s', levBufferNew s size temp tempSize = some (ms, s') := by
  have hget : ∀ h, ∃ r, levSlabGetBlock h size = some r := fun h =>
    Option.ne_none_iff_exists'.mp fun hnone => by
      have := levSlabGetBlock_eq_none.mp hnone
      omega
  have hst : ∃ r, staticBlock s size = some r := by
    unfold staticBlock
    split
    · split
      · exact hget _
      · exact ⟨_, rfl⟩
    · exact hget _
  obtain ⟨⟨mb, h⟩, hst⟩ := hst
  unfold levBufferNew
  rw [hst]
  exact ⟨_, _, rfl⟩

theorem levPushbufferFromMb_eq (h : Heap) (mb slice : ℕ) {untilLen : ℕ} (hpos : 0 < untilLen) :
    levPushbufferFromMb h mb untilLen (some slice) =
      (⟨mb, slice, untilLen⟩, levSlabIncRef h mb) := by
  simp [levPushbufferFromMb, Nat.ne_of_gt hpos]

/-- `lev_buffer_new` puts down what it copies or clears, at the fill mark of its block. -/
theorem levBufferNew_stores (s : State) (temp : Option (List UInt8)) (tempSize : ℕ) {size : ℕ}
    (hpos : 0 < size) (hsize : size ≤ 2 ^ 20) :
    ∃ (mb : BlockId) (h : Heap) (t : State), staticBlock s size = some (mb, h) ∧
      levBufferNew s size temp tempSize = some (⟨mb, (h.blocks mb).nbytes, size⟩, t) ∧
      t.objs = s.objs ++ [some ⟨mb, (h.blocks mb).nbytes, size⟩] ∧
      t.heap.bytes = (s.heap.store mb (h.blocks mb).nbytes (newData size temp tempSize)).bytes ∧
      (t.heap.blocks mb).size = (h.blocks mb).size ∧
      t.heap.stores =
        ⟨mb, (h.blocks mb).nbytes, (newData size temp tempSize).length⟩ :: s.heap.stores := by
  obtain ⟨ms, t, hnew⟩ := levBufferNew_isSome s temp tempSize hsize
  obtain ⟨mb, h, u, hst, rfl, hms, hobjs, hheap⟩ := levBufferNew_writes hnew
  have hsame := sameFill_settle s size mb h
  have hsettled : (settle s size mb h).heap.bytes = s.heap.bytes := by
    rw [← staticBlock_bytes hst]
    unfold settle
    simp only
    split <;> rfl
  rw [levPushbufferFromMb_eq _ _ _ hpos, hsame.nbytes] at hms
  rw [hsame.nbytes] at hheap
  obtain rfl : ms = ⟨mb, (h.blocks mb).nbytes, size⟩ := hms
  refine ⟨mb, h, t, hst, hnew, hobjs, ?_, ?_, ?_⟩
  · rw [hheap]
    exact store_congr _ _ _ hsettled
  · rw [hheap, (sameAlloc_addNbytes _ _ _).size]
    exact (levSlabIncRef_size _ _ _).trans (hsame.size mb)
  · rw [hheap]
    exact congrArg _ (hsame.stores.trans (staticBlock_stores hst))

theorem concatFresh_eq {s t : State} {temp : Option (List UInt8)} {firstLen secondLen : ℕ}
    {ms : MemSlice} (second : Heap → List UInt8) (hsize : firstLen + secondLen ≤ 2 ^ 20)
    (hnew : levBufferNew s (firstLen + secondLen) temp firstLen = some (ms, t)) :
    concatFresh s temp firstLen second secondLen =
      .ok { t with heap := t.heap.store ms.mb (ms.slice + firstLen) (second t.heap) } := by
  rw [concatFresh, szAdd_of_lt (by omega), hnew]
  rfl

theorem operandBytes_buffer {s : State} {o : ObjId} {a : List UInt8}
    (h : operandBytes s (.buffer o) = some a) :
    ∃ ms, s.slice? o = some ms ∧ a = ms.contents s.heap := by
  obtain ⟨ms, ho, rfl⟩ := Option.map_eq_some_iff.mp h
  exact ⟨ms, ho, rfl⟩

def unionState (s : State) (first second : MemSlice) : State :=
  { s.push ⟨first.mb, min first.slice second.slice, first.untilLen + second.untilLen⟩ with
    heap := levSlabIncRef s.heap first.mb }

theorem bufferConcat_adjacent {s : State} {o o' : ObjId} {first second : MemSlice}
    (ho : s.slice? o = some first) (ho' : s.slice? o' = some second)
    (hpos : 0 < first.untilLen) (hsize : first.untilLen + second.untilLen ≤ 2 ^ 20)
    (hadj : adjacent first second = true) :
    bufferConcat s (.buffer o) (.buffer o') = .ok (unionState s first second) := by
  have hsum : szAdd first.untilLen second.untilLen = first.untilLen + second.untilLen :=
    szAdd_of_lt (by omega)
  simp only [bufferConcat, ho, ho', hadj, if_true]
  rw [levPushbufferFromMb_eq _ _ _ (by rw [hsum]; omega), hsum]
  rfl

theorem adjacent_cases {first second : MemSlice} (hadj : adjacent first second = true) :
    Backwards first second ∨
      (first.mb = second.mb ∧ first.slice + first.untilLen = second.slice) := by
  simp only [adjacent, Bool.and_eq_true, Bool.or_eq_true, decide_eq_true_eq, beq_iff_eq] at hadj
  obtain ⟨hmb, ⟨-, hend⟩ | ⟨-, hend⟩⟩ := hadj
  · exact .inl ⟨hmb, hend⟩
  · exact .inr ⟨hmb, hend⟩

section buffers
variable {s : State} {o o' : ObjId} {first second : MemSlice} {a b : List UInt8}

end buffers

end Lev.Buffer
