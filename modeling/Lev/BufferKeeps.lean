import Lev.BufferBounds

/-! Which block an operation on Buffers gives up a reference to, and that it leaves alone what the
blocks that stay owned hold below their fill marks. -/
namespace Lev.Buffer
open CInt Slab Memory

/-- `lev_buffer_new` gives up the reference of `_static_mb` if that has no room. -/
def droppedNew (s : State) (size : ℕ) : Option BlockId :=
  s.staticMb.filter fun mb => szSub (s.heap.blocks mb).size (s.heap.blocks mb).nbytes < size

/-- `concatBehind` makes a new Buffer unless the block of the first one has room behind it. -/
def droppedBehind (s : State) (first : MemSlice) (secondLen : ℕ) : Option BlockId :=
  let m := s.heap.blocks first.mb
  if m.nbytes = first.slice + first.untilLen ∧ secondLen ≤ szSub m.size m.nbytes then none
  else droppedNew s (szAdd first.untilLen secondLen)

def droppedConcat (s : State) (x y : Operand) : Option BlockId :=
  match x, y with
  | .buffer o, .buffer o' =>
    match s.slice? o, s.slice? o' with
    | some first, some second =>
      if adjacent first second then none else droppedBehind s first second.untilLen
    | _, _ => none
  | .buffer o, .str t => (s.slice? o).bind fun first => droppedBehind s first t.length
  | .str _, .buffer o' =>
    (s.slice? o').bind fun second => droppedNew s (szAdd 0 second.untilLen)
  | .str _, .str _ => none

/-- An indexed assignment gives up the block of the Buffer if the bytes have no room in it. -/
def droppedNewindex (s : State) (o : ObjId) (i : ℤ) (v : Operand) : Option BlockId :=
  match s.slice? o, operandBytes s v with
  | some ms, some c =>
    let size := toSizeT i - 1 + c.length
    if ms.untilLen ≤ size ∧ canExpand s.heap ms (size + 1) = false then some ms.mb else none
  | _, _ => none

/-- The block to which an operation gives up a reference. -/
def dropped (s : State) : Op → Option BlockId
  | .new a => droppedNew s a.size
  | .slice _ _ _ => none
  | .concat x y => droppedConcat s x y
  | .newindex o i (.operand v) => droppedNewindex s o i v
  | .newindex _ _ (.number _) => none
  | .gc o => (s.slice? o).map MemSlice.mb

/-- The block has owners still, and what it held is in it. -/
structure Stays (s s' : State) (b : BlockId) : Prop where
  owned : 0 < refs s' b
  nbytes : (s.heap.blocks b).nbytes ≤ (s'.heap.blocks b).nbytes
  bytes : ∀ i < (s.heap.blocks b).nbytes, s'.heap.bytes b i = s.heap.bytes b i

variable {s s' : State} {b : BlockId} {size : ℕ}

theorem Stays.refl (hb : 0 < refs s b) : Stays s s b := ⟨hb, le_rfl, fun _ _ => rfl⟩

theorem Stays.store (h : Stays s s' b) (mb : BlockId) {off : ℕ} (data : List UInt8)
    (hoff : mb = b → (s.heap.blocks b).nbytes ≤ off) :
    Stays s { s' with heap := s'.heap.store mb off data } b where
  owned := h.owned
  nbytes := h.nbytes
  bytes i hi := by
    rw [← h.bytes i hi]
    simp only [Heap.store]
    rw [if_neg]
    rintro ⟨rfl, hge, -⟩
    have := hoff rfl
    omega

theorem Stays.trans {t : State} (h : Stays s t b) (h' : Stays t s' b) : Stays s s' b where
  owned := h'.owned
  nbytes := h.nbytes.trans h'.nbytes
  bytes i hi := (h'.bytes i (hi.trans_le h.nbytes)).trans (h.bytes i hi)

theorem stays_push (hb : 0 < refs s b) (ms : MemSlice) {n : ℕ}
    (hlt : (s.heap.blocks ms.mb).nbytes + n < 2 ^ 64) :
    Stays s { s.push ms with heap := (levSlabIncRef s.heap ms.mb).addNbytes ms.mb n } b where
  owned := by
    have hrefs : refs (s.push ms) b = Function.update (refs s) ms.mb (refs s ms.mb + 1) b :=
      congrFun (refs_push s ms) b
    show 0 < refs (s.push ms) b
    rw [hrefs]
    rcases eq_or_ne b ms.mb with rfl | hne
    · rw [Function.update_self]
      omega
    · rwa [Function.update_of_ne hne]
  nbytes := by
    show _ ≤ (((levSlabIncRef s.heap ms.mb).addNbytes ms.mb n).blocks b).nbytes
    rcases eq_or_ne b ms.mb with rfl | hne
    · have hinc := levSlabIncRef_nbytes s.heap ms.mb ms.mb
      rw [addNbytes_nbytes (hinc ▸ hlt), hinc]
      omega
    · rw [addNbytes_nbytes_of_ne hne, levSlabIncRef_nbytes]
  bytes _ _ := rfl

/-- A block that a live Buffer is on is not the one that the allocator hands out. -/
theorem held_of_last (hb : 0 < refs s b) (hlast : s.staticMb = some b → 2 ≤ refs s b) :
    0 < held s.objs b := by
  rw [refs] at hb hlast
  by_cases hstatic : s.staticMb = some b
  · have := hlast hstatic
    rw [if_pos hstatic] at this
    omega
  · rw [if_neg hstatic] at hb
    exact hb

/-- Either the shared block stays what it is, or its reference is given up for a block that no
live Buffer is on. -/
theorem settle_cases (hw : Wf s) {mb : BlockId} {h : Heap}
    (hs : staticBlock s size = some (mb, h)) :
    (settle s size mb h = s ∧ s.staticMb = some mb) ∨
    (droppedNew s size = s.staticMb ∧ ∀ b, 0 < held s.objs b → b ≠ mb ∧
      ((settle s size mb h).heap.blocks b).nbytes = (s.heap.blocks b).nbytes) := by
  have hdropped : s.staticMb = some mb ∧ h = s.heap ∨ droppedNew s size = s.staticMb := by
    rw [staticBlock] at hs
    rw [droppedNew]
    cases hst : s.staticMb with
    | none => exact .inr rfl
    | some b =>
      simp only [hst] at hs
      split at hs
      · rename_i hroom
        exact .inr (by simp [hroom])
      · cases hs
        exact .inl ⟨rfl, rfl⟩
  cases staticBlock_chosen hw hs with
  | kept static heap room =>
    subst heap
    exact .inl ⟨settle_kept hw static room, static⟩
  | fresh h₀ own blocks bytes stores new =>
    refine .inr ⟨hdropped.resolve_left ?_, fun b hb => ?_⟩
    · -- the fresh block has no owner, and the shared one has
      rintro ⟨hstatic, rfl⟩
      have hfresh := new.handedOut.refcount
      rw [(hw.owned.handedOut mb (by simp [refs, hstatic])).refcount, refs,
        if_pos hstatic] at hfresh
      omega
    · have hne : b ≠ mb := by
        rintro rfl
        exact absurd new.unowned (by omega)
      refine ⟨hne, ?_⟩
      have hblock : (h.blocks b).nbytes = (s.heap.blocks b).nbytes := by
        rw [new.others b hne]
        exact (blocks b).1
      rw [settle]
      split
      · exact (levSlabIncRef_nbytes h mb b).trans hblock
      · exact hblock

/-- `lev_buffer_new` leaves a block alone that it does not give the last reference to up. -/
theorem levBufferNew_stays (hw : Wf s) {ms : MemSlice} {tempSize : ℕ} {temp : Option (List UInt8)}
    (hpos : 0 < size) (hnew : levBufferNew s size temp tempSize = some (ms, s'))
    (hb : 0 < refs s b) (hlast : droppedNew s size = some b → 2 ≤ refs s b) :
    Stays s s' b ∧ (ms.mb = b → (s.heap.blocks b).nbytes ≤ ms.slice) := by
  unfold levBufferNew at hnew
  cases hst : staticBlock s size with
  | none => simp [hst] at hnew
  | some r =>
    obtain ⟨mb, h⟩ := r
    have hs := settled_of_chosen hw (staticBlock_chosen hw hst)
    have hcases := settle_cases hw hst
    simp only [hst, Option.some.injEq, Prod.mk.injEq] at hnew
    obtain ⟨hms, hs'⟩ := hnew
    generalize ht : settle s size mb h = t at hs hcases
    have hheap : (if size ≠ (h.blocks mb).size ∧ (h.blocks mb).refcount = 0 then
        levSlabIncRef h mb else h) = t.heap := by rw [← ht]; rfl
    have hstat : (if size ≠ (h.blocks mb).size then some mb else none) = t.staticMb := by
      rw [← ht]; rfl
    have hlen : (levPushbufferFromMb t.heap mb size (some (t.heap.blocks mb).nbytes)).1 =
        ⟨mb, (t.heap.blocks mb).nbytes, size⟩ := by
      simp [levPushbufferFromMb, Nat.ne_of_gt hpos]
    rw [hheap, hlen] at hms
    subst hms
    rw [hheap, hstat, ← hs.objs, ← hs.created, hlen] at hs'
    subst hs'
    -- the block is the shared one and stays it, or a live Buffer is on it
    have hold : Stays s t b := by
      rcases hcases with ⟨heq, -⟩ | ⟨hdropped, hother⟩
      · rw [heq]
        exact Stays.refl hb
      · have hheld := held_of_last hb (hdropped ▸ hlast)
        refine ⟨?_, (hother b hheld).2.ge, fun i _ => by rw [hs.bytes]⟩
        rw [refs, hs.objs]
        exact Nat.add_pos_left hheld _
    have hroom := hs.room
    have hcap := hs.size_le mb
    have hpush := hold.trans (@stays_push t b hold.owned ⟨mb, (t.heap.blocks mb).nbytes, size⟩ size
      (by show (t.heap.blocks mb).nbytes + size < 2 ^ 64; omega))
    have hfill : mb = b → (s.heap.blocks b).nbytes ≤ (t.heap.blocks mb).nbytes := by
      rintro rfl
      exact hold.nbytes
    exact ⟨hpush.store mb _ hfill, hfill⟩

theorem stays_window (hb : 0 < refs s b) (ms : MemSlice) :
    Stays s { s.push ms with heap := levSlabIncRef s.heap ms.mb } b where
  owned := by
    have hrefs : refs (s.push ms) b = Function.update (refs s) ms.mb (refs s ms.mb + 1) b :=
      congrFun (refs_push s ms) b
    show 0 < refs (s.push ms) b
    rw [hrefs]
    rcases eq_or_ne b ms.mb with rfl | hne
    · rw [Function.update_self]
      omega
    · rwa [Function.update_of_ne hne]
  nbytes := (levSlabIncRef_nbytes s.heap ms.mb b).ge
  bytes _ _ := rfl

theorem bufferSlice_stays {o : ObjId} {i j : ℤ} (hb : 0 < refs s b)
    (hs : bufferSlice s o i j = .ok s') : Stays s s' b := by
  unfold bufferSlice at hs
  cases ho : s.slice? o with
  | none => simp [ho] at hs
  | some ms =>
    simp only [ho] at hs
    generalize (if toSizeT i = 0 then 1 else toSizeT i) = offset at hs
    split at hs
    · cases hs
    · generalize (if toSizeT j = 0 then ms.untilLen - (offset - 1) else toSizeT j) = length at hs
      split at hs
      · cases hs
      · simp only [Except.ok.injEq] at hs
        subst hs
        exact stays_window hb ⟨ms.mb, ms.slice + (offset - 1), length⟩

theorem concatFresh_stays (hw : Wf s) {first : Option (List UInt8)} {firstLen secondLen : ℕ}
    {second : Heap → List UInt8} (hpos : 0 < szAdd firstLen secondLen)
    (hs : concatFresh s first firstLen second secondLen = .ok s') (hb : 0 < refs s b)
    (hlast : droppedNew s (szAdd firstLen secondLen) = some b → 2 ≤ refs s b) : Stays s s' b := by
  unfold concatFresh at hs
  cases hn : levBufferNew s (szAdd firstLen secondLen) first firstLen with
  | none => simp [hn] at hs
  | some r =>
    obtain ⟨ms, t⟩ := r
    simp only [hn, Except.ok.injEq] at hs
    subst hs
    obtain ⟨hstays, hbehind⟩ := levBufferNew_stays hw hpos hn hb hlast
    exact hstays.store ms.mb _ fun h => (hbehind h).trans (Nat.le_add_right _ _)

theorem concatBehind_stays (hw : Wf s) {first : MemSlice} (hfirst : some first ∈ s.objs)
    {secondLen : ℕ} {second : Heap → List UInt8} (hsecond : secondLen < 2 ^ 32)
    (hs : concatBehind s first second secondLen = .ok s') (hb : 0 < refs s b)
    (hlast : droppedBehind s first secondLen = some b → 2 ≤ refs s b) : Stays s s' b := by
  have hle := hw.nbytes_le first.mb
  have hcap := hw.size_le first.mb
  have hend := hw.slice_lt hfirst
  have hpos := hw.pos first hfirst
  have hsum : szAdd first.untilLen secondLen = first.untilLen + secondLen :=
    szAdd_of_lt (by omega)
  unfold concatBehind at hs
  unfold droppedBehind at hlast
  simp only [szSub_of_le hle (by omega)] at hs hlast
  split at hs
  · rename_i hroom
    simp only [levPushbufferFromMb, Option.getD_some, hsum,
      if_neg (show first.untilLen + secondLen ≠ 0 by omega), Except.ok.injEq] at hs
    subst hs
    have hpush := @stays_push s b hb ⟨first.mb, first.slice, first.untilLen + secondLen⟩
      secondLen (by show (s.heap.blocks first.mb).nbytes + secondLen < 2 ^ 64; omega)
    have hfill : first.mb = b → (s.heap.blocks b).nbytes ≤ first.slice + first.untilLen := by
      rintro rfl
      exact hroom.1.le
    exact hpush.store first.mb _ hfill
  · rename_i hroom
    rw [if_neg hroom] at hlast
    exact concatFresh_stays hw (by rw [hsum]; omega) hs hb hlast

theorem bufferConcat_stays (hw : Wf s) {x y : Operand} (hy : operandLen s y < 2 ^ 32)
    (hs : bufferConcat s x y = .ok s') (hb : 0 < refs s b)
    (hlast : droppedConcat s x y = some b → 2 ≤ refs s b) : Stays s s' b := by
  cases x with
  | str t =>
    cases y with
    | str t' => simp [bufferConcat] at hs
    | buffer o' =>
      cases ho' : s.slice? o' with
      | none => simp [bufferConcat, ho'] at hs
      | some second =>
        have hpos := hw.pos second (slice?_mem ho')
        have hlt := hw.slice_lt (slice?_mem ho')
        simp only [bufferConcat, ho'] at hs
        simp only [droppedConcat, ho', Option.bind_some] at hlast
        exact concatFresh_stays hw (by rw [szAdd_of_lt (by omega)]; omega) hs hb hlast
  | buffer o =>
    cases ho : s.slice? o with
    | none => cases y <;> simp [bufferConcat, ho] at hs
    | some first =>
      have hfirst := slice?_mem ho
      cases y with
      | str t =>
        simp only [bufferConcat, ho] at hs
        simp only [droppedConcat, ho, Option.bind_some] at hlast
        exact concatBehind_stays hw hfirst hy hs hb hlast
      | buffer o' =>
        cases ho' : s.slice? o' with
        | none => simp [bufferConcat, ho, ho'] at hs
        | some second =>
          have hlt' := hw.slice_lt (slice?_mem ho')
          simp only [bufferConcat, ho, ho'] at hs
          simp only [droppedConcat, ho, ho'] at hlast
          split at hs
          · simp only [levPushbufferFromMb, Except.ok.injEq] at hs
            subst hs
            exact stays_window hb ⟨first.mb, min first.slice second.slice, _⟩
          · rename_i hadj
            rw [if_neg hadj] at hlast
            exact concatBehind_stays hw hfirst (by omega) hs hb hlast

theorem levSlabDecRef_nbytes (h : Heap) (b b' : BlockId) :
    ((levSlabDecRef h b).blocks b').nbytes = (h.blocks b').nbytes := by
  rw [levSlabDecRef_blocks]
  rcases eq_or_ne b' b with rfl | hne
  · simp
  · simp [hne]

theorem bufferGc_stays {o : ObjId} (hs : bufferGc s o = .ok s') (hb : 0 < refs s b)
    (hlast : (s.slice? o).map MemSlice.mb = some b → 2 ≤ refs s b) : Stays s s' b := by
  obtain ⟨ms, ho, rfl⟩ := bufferGc_eq hs
  refine ⟨?_, ?_, fun i _ => by simp⟩
  · rw [refs_gc ho]
    rcases eq_or_ne b ms.mb with rfl | hne
    · rw [Function.update_self]
      have := hlast (by rw [ho]; rfl)
      omega
    · rwa [Function.update_of_ne hne]
  · exact (levSlabDecRef_nbytes s.heap ms.mb b).ge

/-- The bytes an operation is told to assign are none of these. -/
def Spares (s : State) (b off len : ℕ) : Op → Prop
  | .newindex o i (.operand v) => ∀ ms ∈ s.slice? o, ∀ c ∈ operandBytes s v,
    Apart ms.mb (ms.slice + (toSizeT i - 1)) c.length b off len
  | .newindex o i (.number _) => ∀ ms ∈ s.slice? o,
    Apart ms.mb (ms.slice + (toSizeT i - 1)) 1 b off len
  | _ => True

instance (mb off len mb' off' len' : ℕ) : Decidable (Apart mb off len mb' off' len') :=
  inferInstanceAs (Decidable (_ → _))

instance (s : State) (op : Op) : Decidable (GrowFits s op) := by
  unfold GrowFits
  split <;> infer_instance

instance (s : State) (b off len : ℕ) (op : Op) : Decidable (Spares s b off len op) := by
  unfold Spares
  split <;> infer_instance

/-- A range of bytes in a block that has owners, below its fill mark. -/
structure Present (s : State) (b off len : ℕ) : Prop where
  owned : 0 < refs s b
  filled : off + len ≤ (s.heap.blocks b).nbytes

structure Preserved (s s' : State) (b off len : ℕ) : Prop where
  present : Present s' b off len
  load : s'.heap.load b off len = s.heap.load b off len

theorem Stays.preserved {off len : ℕ} (h : Stays s s' b) (hp : Present s b off len) :
    Preserved s s' b off len where
  present := ⟨h.owned, hp.filled.trans h.nbytes⟩
  load := Heap.load_congr fun i hi => h.bytes (off + i) (by have := hp.filled; omega)

theorem Preserved.store {off len : ℕ} (h : Preserved s s' b off len) {mb at' : ℕ}
    {data : List UInt8} (hapart : Apart mb at' data.length b off len) :
    Preserved s { s' with heap := s'.heap.store mb at' data } b off len where
  present := ⟨h.present.owned, h.present.filled⟩
  load := by
    rw [← h.load]
    refine Heap.load_store_of_disjoint _ _ _ _ _ fun hb => ?_
    rcases hapart hb.symm with h' | h'
    · exact .inr h'
    · exact .inl h'

theorem newindex_preserved {off len : ℕ} (hw : Wf s) {o : ObjId} {i : ℤ} {v : Value}
    (hv : v.Short) (hfits : GrowFits s (.newindex o i v)) (hs : bufferNewindex s o i v = .ok s')
    (hp : Present s b off len) (hspares : Spares s b off len (.newindex o i v))
    (hlast : dropped s (.newindex o i v) = some b → 2 ≤ refs s b) :
    Preserved s s' b off len := by
  cases v with
  | number n =>
    unfold bufferNewindex at hs
    cases ho : s.slice? o with
    | none => simp [ho] at hs
    | some ms =>
      simp only [ho] at hs
      split at hs
      · cases hs
      · split at hs
        · cases hs
        · simp only [Except.ok.injEq] at hs
          subst hs
          have hrefl : Preserved s s b off len := ⟨hp, rfl⟩
          exact hrefl.store (hspares ms ho)
  | operand v =>
    obtain ⟨ms, c, ms', h', ho, hc, hlen, hlow, hidx, hr, rfl⟩ := newindex_resize hw hv hs
    have hpos := hw.pos ms (slice?_mem ho)
    have hend := hw.slice_lt (slice?_mem ho)
    have hfit := hfits ms ho c hc hlow hidx
    have hapart := hspares ms ho c hc
    simp only [dropped, droppedNewindex, ho, hc] at hlast
    generalize toSizeT i - 1 = start at *
    rcases levMemsliceResize_cases hpos (by omega) (by omega) hr with
      ⟨-, rfl, rfl⟩ | ⟨hgrow, hexp, rfl, rfl⟩ | ⟨hgrow, hexp, b', h₀, hg, rfl, rfl⟩
    · have hrefl : Preserved s (s.put o ms' s.heap) b off len := by
        rw [put_self ho]
        exact ⟨hp, rfl⟩
      exact hrefl.store hapart
    · have hroom := hfit hgrow hexp
      have hcap := hw.size_le ms.mb
      have hgrown : Preserved s (s.put o { ms with untilLen := start + c.length + 1 }
          (s.heap.addNbytes ms.mb (start + c.length + 1))) b off len := by
        refine ⟨⟨?_, ?_⟩, rfl⟩
        · rw [refs_put ho]
          have := hp.owned
          split <;> omega
        · refine hp.filled.trans ?_
          rw [put_heap]
          rcases eq_or_ne b ms.mb with rfl | hne
          · rw [addNbytes_nbytes (by omega)]
            omega
          · rw [addNbytes_nbytes_of_ne hne]
      exact hgrown.store hapart
    · have hf := levSlabGetBlock_fresh hw.owned hg
      have hne : b ≠ b' := by
        rintro rfl
        have := hp.owned
        have := hf.unowned
        omega
      have hmove : b = ms.mb → 2 ≤ refs s b := fun h => hlast (by rw [if_pos ⟨hgrow, hexp⟩, h])
      generalize hdata : (levSlabIncRef h₀ b').load ms.mb ms.slice ms.untilLen = data
      have hmoved : Stays s (s.put o ⟨b', 0, start + c.length + 1⟩
          ((levSlabDecRef ((levSlabIncRef h₀ b').store b' 0 data) ms.mb).addNbytes b'
            (start + c.length + 1))) b := by
        refine ⟨?_, ?_, fun i _ => ?_⟩
        · rw [refs_put ho, if_neg hne.symm]
          have := hp.owned
          split
          · rename_i h
            have := hmove h.symm
            omega
          · omega
        · rw [put_heap, addNbytes_nbytes_of_ne hne, levSlabDecRef_nbytes, Heap.store_blocks,
            levSlabIncRef_nbytes, hf.others b hne]
        · show ((levSlabDecRef ((levSlabIncRef h₀ b').store b' 0 data) ms.mb).bytes b i) = _
          rw [levSlabDecRef_bytes]
          simp only [Heap.store]
          rw [if_neg fun h => hne h.1]
          exact congrFun (congrFun hf.bytes b) i
      exact (hmoved.preserved hp).store fun h => absurd h.symm hne

/-- What is in a block stays there under every operation that spares it and does not give the last
reference to the block up. -/
theorem next_preserved {off len : ℕ} {op : Op} (hw : Wf s) (ha : Allowed s op)
    (hfits : GrowFits s op) (hp : Present s b off len) (hspares : Spares s b off len op)
    (hlast : dropped s op = some b → 2 ≤ refs s b) : Preserved s (next s op) b off len := by
  cases hs : step s op with
  | error f =>
    rw [next_of_error hs]
    exact ⟨hp, rfl⟩
  | ok s' =>
    rw [next_of_ok hs]
    cases op with
    | new a =>
      simp only [step, bufferNew] at hs
      cases hn : levBufferNew s a.size a.temp 0 with
      | none => simp [hn] at hs
      | some r =>
        obtain ⟨ms, t⟩ := r
        simp only [hn, Except.ok.injEq] at hs
        subst hs
        have hkept := (levBufferNew_stays hw ha.1.1 hn hp.owned hlast).1.preserved hp
        exact ⟨⟨hkept.present.owned, hkept.present.filled⟩, hkept.load⟩
    | slice o i j => exact (bufferSlice_stays hp.owned hs).preserved hp
    | concat x y =>
      exact (bufferConcat_stays hw (operandLen_lt hw ha.1.2) hs hp.owned hlast).preserved hp
    | newindex o i v => exact newindex_preserved hw ha.1 hfits hs hp hspares hlast
    | gc o => exact (bufferGc_stays hs hp.owned hlast).preserved hp

theorem getBlock_wf (hw : Wf s) {h : Heap} {b : BlockId}
    (hg : levSlabGetBlock s.heap size = some (b, h))
    (data : List UInt8) : Wf { s with heap := (levSlabIncRef h b).store b 0 data } := by
  have hf := levSlabGetBlock_fresh hw.owned hg
  have hother : ∀ b', b' ≠ b → (levSlabIncRef h b).blocks b' = s.heap.blocks b' := by
    intro b' hne
    rw [levSlabIncRef, Heap.setBlock_blocks, Function.update_of_ne hne, hf.others b' hne]
  have hlive : ∀ b', 0 < refs s b' → b' ≠ b := by
    rintro b' hpos rfl
    exact absurd hf.unowned (by omega)
  have hown : Owned (levSlabIncRef h b) (refs s) := by
    have hinc := levSlabIncRef_owned hf.owned (hf.unowned.symm ▸ hf.handedOut)
    refine ⟨fun b' hb' => ?_, hinc.pool_lt, hinc.pool_nodup, hinc.pool_capacity,
      hinc.pool_notFreed, hinc.freed_lt, hinc.freed_nodup⟩
    have hne := hlive b' hb'
    have hout := hinc.handedOut b' (by rw [Function.update_of_ne hne]; exact hb')
    rwa [Function.update_of_ne hne] at hout
  have hwf : Wf { s with heap := levSlabIncRef h b } := by
    refine ⟨hown, fun b' => ?_, fun b' => ?_, fun b' hb' => ?_, fun ms hms => ?_, hw.pos⟩
    · rcases eq_or_ne b' b with rfl | hne
      · rw [levSlabIncRef_nbytes, hf.nbytes]
        exact Nat.zero_le _
      · rw [hother b' hne]
        exact hw.nbytes_le b'
    · rcases eq_or_ne b' b with rfl | hne
      · rw [levSlabIncRef_size, hf.handedOut.size]
        exact SlabClass.blocksize_le _
      · rw [hother b' hne]
        exact hw.size_le b'
    · rw [hother b' (hlive b' (by rw [refs, if_pos hb']; omega))]
      exact hw.static_used b' hb'
    · rw [hother ms.mb (hlive ms.mb (refs_pos_of_slice hms))]
      exact hw.range ms hms
  exact hwf.store b 0 data

theorem getBlock_stays (hw : Wf s) {h : Heap} {b' : BlockId}
    (hg : levSlabGetBlock s.heap size = some (b', h)) (data : List UInt8) (hb : 0 < refs s b) :
    Stays s { s with heap := (levSlabIncRef h b').store b' 0 data } b := by
  have hf := levSlabGetBlock_fresh hw.owned hg
  have hne : b ≠ b' := by
    rintro rfl
    exact absurd hf.unowned (by omega)
  refine ⟨hb, ?_, fun i _ => ?_⟩
  · show _ ≤ (((levSlabIncRef h b').store b' 0 data).blocks b).nbytes
    rw [Heap.store_blocks, levSlabIncRef_nbytes, hf.others b hne]
  · simp only [Heap.store]
    rw [if_neg fun h => hne h.1]
    exact congrFun (congrFun hf.bytes b) i

end Lev.Buffer
