import Lev.MemSlice

/-! The write queue of a tcp object (lev_new_tcp.c). A write puts an iovec into the pending
request, a bit mask says which of them are copies to be freed, and the request goes to
libuv when the object is not bottled, when it is full, or when the caller flushes. -/
namespace Lev.TcpWrite
open Slab Memory

def bufferMaxChunks : ℕ := 16

/-- Where an iovec points to: nowhere yet, to a copy made with malloc, or into a MemBlock.
The copies are numbered as they were made. -/
inductive Base
  | null
  | copy (n : ℕ)
  | slice (mb : BlockId) (off : ℕ)
  deriving DecidableEq, Repr

structure UvBuf where
  base : Base
  len : ℕ
  deriving DecidableEq, Repr

/-- `write_req_t`; the array `bufs` has `BUFFER_MAX_CHUNKS` slots. -/
structure WriteReq where
  bufs : List UvBuf
  bufcnt : ℕ
  mask : BitVec 32
  deriving DecidableEq, Repr

inductive Chunk
  | str (t : List UInt8)
  | buffer (ms : MemSlice)
  deriving DecidableEq, Repr

/-- What a `tcp_obj` keeps for its writes. `copies` and `issued` are logs of ours: the
strings copied, and the requests given to `uv_write`. -/
structure Writer where
  bottleMode : Bool
  wreq : Option WriteReq
  copies : List (List UInt8)
  issued : List WriteReq
  deriving DecidableEq, Repr

/-- A new object is zeroed. -/
def Writer.fresh : Writer := ⟨false, none, [], []⟩

namespace WriteReq

/-- After `memset`. -/
def zeroed : WriteReq := ⟨List.replicate bufferMaxChunks ⟨.null, 0⟩, 0, 0⟩

/-- The iovecs given to `uv_write`. -/
def iovec (wr : WriteReq) : List UvBuf := wr.bufs.take wr.bufcnt

def markCopy (wr : WriteReq) : WriteReq := { wr with mask := wr.mask ||| (1#32 <<< wr.bufcnt) }

def markBuffer (wr : WriteReq) : WriteReq :=
  { wr with mask := wr.mask &&& ~~~(1#32 <<< wr.bufcnt) }

/-- `bufs[ bufcnt++ ] = buf`; `none` is a write behind the array. -/
def put (wr : WriteReq) (buf : UvBuf) : Option WriteReq :=
  if wr.bufcnt < wr.bufs.length then
    some { wr with bufs := wr.bufs.set wr.bufcnt buf, bufcnt := wr.bufcnt + 1 }
  else none

end WriteReq

def tcpBottle (s : Writer) : Writer := { s with bottleMode := true }

def tcpIsBottled (s : Writer) : Bool := s.bottleMode

/-- The branch of `tcp_write` that fills the next slot; strings are copied. -/
def putChunk (wr : WriteReq) (copies : List (List UInt8)) :
    Chunk → Option (WriteReq × List (List UInt8))
  | .str t =>
    (wr.markCopy.put ⟨.copy copies.length, t.length⟩).map fun wr => (wr, copies ++ [t])
  | .buffer ms => (wr.markBuffer.put ⟨.slice ms.mb ms.slice, ms.untilLen⟩).map fun wr =>
      (wr, copies)

/-- `tcp_write`; `flush` says that the second argument is a number. -/
def tcpWrite (s : Writer) (chunk : Chunk) (flush : Bool) : Option Writer :=
  (putChunk (s.wreq.getD .zeroed) s.copies chunk).map fun (wr, copies) =>
    let bottleMode := s.bottleMode && !flush
    if !bottleMode || wr.bufcnt == bufferMaxChunks then
      ⟨bottleMode, none, copies, s.issued ++ [wr]⟩
    else ⟨bottleMode, some wr, copies, s.issued⟩

/-- The body of the loop of `tcp_after_write`: what is freed for slot `k`. -/
def freeSlot (wr : WriteReq) (k : ℕ) : Option (List Base) :=
  if wr.mask.getLsbD k then (wr.bufs[k]?).map fun buf => [buf.base] else some []

/-- The loop of `tcp_after_write` runs from `bufcnt` itself, one past the last slot, down
to 0. -/
def freeLoop (wr : WriteReq) : ℕ → Option (List Base)
  | 0 => freeSlot wr 0
  | k + 1 => do return (← freeSlot wr (k + 1)) ++ (← freeLoop wr k)

/-- `tcp_after_write`: what it gives to free; `none` is a read behind the array. -/
def tcpAfterWrite (wr : WriteReq) : Option (List Base) := freeLoop wr wr.bufcnt

inductive Op
  | bottle
  | write (chunk : Chunk) (flush : Bool)
  deriving DecidableEq, Repr

def step (s : Writer) : Op → Option Writer
  | .bottle => some (tcpBottle s)
  | .write chunk flush => tcpWrite s chunk flush

def run (s : Writer) (ops : List Op) : Option Writer := ops.foldlM step s

def written : List Op → List Chunk
  | [] => []
  | .bottle :: ops => written ops
  | .write chunk _ :: ops => chunk :: written ops

def Carries (copies : List (List UInt8)) : Chunk → UvBuf → Prop
  | .str t, buf => ∃ n, buf = ⟨.copy n, t.length⟩ ∧ copies[n]? = some t
  | .buffer ms, buf => buf = ⟨.slice ms.mb ms.slice, ms.untilLen⟩

def Base.isCopy : Base → Bool
  | .copy _ => true
  | _ => false

def copiesIn (bufs : List UvBuf) : List Base := (bufs.map UvBuf.base).filter Base.isCopy

def Writer.pending (s : Writer) : List UvBuf := (s.wreq.map WriteReq.iovec).getD []

/-- The iovecs of the requests issued, then those of the pending one. -/
def Writer.queue (s : Writer) : List UvBuf := s.issued.flatMap WriteReq.iovec ++ s.pending

/-- The queue is the list of the chunks, in requests of 1 to 16 buffers, and completing a
request frees its copies, of which no two are the same. -/
structure Queued (s : Writer) (chunks : List Chunk) : Prop where
  queue : List.Forall₂ (Carries s.copies) chunks s.queue
  sizes : ∀ wr ∈ s.issued, 1 ≤ wr.iovec.length ∧ wr.iovec.length ≤ bufferMaxChunks
  frees : ∀ wr ∈ s.issued, ∃ bases, tcpAfterWrite wr = some bases ∧
    bases.Perm (copiesIn wr.iovec)
  once : (copiesIn s.queue).Nodup

/-- A request as the writes leave it: the mask marks the slots that hold copies. -/
structure Sound (wr : WriteReq) : Prop where
  length : wr.bufs.length = bufferMaxChunks
  le : wr.bufcnt ≤ bufferMaxChunks
  mask : ∀ k, wr.mask.getLsbD k = (wr.iovec[k]?).any fun buf => buf.base.isCopy

theorem sound_zeroed : Sound .zeroed where
  length := rfl
  le := Nat.zero_le _
  mask k := by simp [WriteReq.zeroed, WriteReq.iovec]

theorem Sound.iovec_length {wr : WriteReq} (hw : Sound wr) : wr.iovec.length = wr.bufcnt := by
  rw [WriteReq.iovec, List.length_take, hw.length]
  exact Nat.min_eq_left hw.le

theorem copiesIn_append (bufs bufs' : List UvBuf) :
    copiesIn (bufs ++ bufs') = copiesIn bufs ++ copiesIn bufs' := by
  rw [copiesIn, List.map_append, List.filter_append]
  rfl

/-- A slot is freed exactly if it holds a copy; there is none behind the last. -/
theorem freeSlot_eq {wr : WriteReq} (hw : Sound wr) (k : ℕ) :
    freeSlot wr k = some (copiesIn (wr.iovec[k]?).toList) := by
  rw [freeSlot, hw.mask]
  cases hk : wr.iovec[k]? with
  | none => rfl
  | some buf =>
    have hbuf : wr.bufs[k]? = some buf := by
      rw [WriteReq.iovec, List.getElem?_take] at hk
      split at hk
      · exact hk
      · cases hk
    cases hc : buf.base.isCopy <;> simp [copiesIn, hbuf, hc]

theorem freeLoop_eq {wr : WriteReq} (hw : Sound wr) (k : ℕ) :
    ∃ bases, freeLoop wr k = some bases ∧ bases.Perm (copiesIn (wr.iovec.take (k + 1))) := by
  induction k with
  | zero =>
    refine ⟨_, freeSlot_eq hw 0, ?_⟩
    rw [List.take_add_one, List.take_zero, List.nil_append]
  | succ k ih =>
    obtain ⟨bases, hloop, hperm⟩ := ih
    refine ⟨copiesIn (wr.iovec[k + 1]?).toList ++ bases, ?_, ?_⟩
    · rw [freeLoop, freeSlot_eq hw, hloop]
      rfl
    · rw [List.take_add_one, copiesIn_append]
      exact List.perm_append_comm.trans (hperm.append_right _)

/-- The walk from one past the last slot frees the copies of the request, each once. -/
theorem tcpAfterWrite_eq {wr : WriteReq} (hw : Sound wr) :
    ∃ bases, tcpAfterWrite wr = some bases ∧ bases.Perm (copiesIn wr.iovec) := by
  obtain ⟨bases, hloop, hperm⟩ := freeLoop_eq hw wr.bufcnt
  have hall : wr.iovec.take (wr.bufcnt + 1) = wr.iovec :=
    List.take_of_length_le (by rw [hw.iovec_length]; exact Nat.le_succ _)
  exact ⟨bases, hloop, hall ▸ hperm⟩

theorem markCopy_mask {wr : WriteReq} (hlt : wr.bufcnt < 32) (k : ℕ) :
    wr.markCopy.mask.getLsbD k = if k = wr.bufcnt then true else wr.mask.getLsbD k := by
  by_cases hk : k = wr.bufcnt
  · simp [WriteReq.markCopy, hk, hlt]
  · simp [WriteReq.markCopy, hk]
    omega

theorem markBuffer_mask {wr : WriteReq} (hlt : wr.bufcnt < 32) (k : ℕ) :
    wr.markBuffer.mask.getLsbD k = if k = wr.bufcnt then false else wr.mask.getLsbD k := by
  by_cases hk : k = wr.bufcnt
  · simp [WriteReq.markBuffer, hk, hlt]
  · by_cases hbit : k < 32
    · simp [WriteReq.markBuffer, hk, hbit]
      omega
    · rw [if_neg hk, BitVec.getLsbD_of_ge _ _ (Nat.le_of_not_lt hbit),
        BitVec.getLsbD_of_ge _ _ (Nat.le_of_not_lt hbit)]

/-- A slot filled in a request whose mask marks just it, beside those marked before. -/
theorem put_spec {wr marked : WriteReq} (hw : Sound wr) (hlt : wr.bufcnt < bufferMaxChunks)
    {buf : UvBuf} (hsame : marked.bufs = wr.bufs ∧ marked.bufcnt = wr.bufcnt)
    (hmask : ∀ k, marked.mask.getLsbD k =
      if k = wr.bufcnt then buf.base.isCopy else wr.mask.getLsbD k) :
    ∃ wr', marked.put buf = some wr' ∧ Sound wr' ∧ wr'.iovec = wr.iovec ++ [buf] ∧
      wr'.bufcnt = wr.bufcnt + 1 := by
  obtain ⟨bufs, bufcnt, mask⟩ := marked
  obtain ⟨rfl, rfl⟩ := hsame
  have hroom : wr.bufcnt < wr.bufs.length := hw.length ▸ hlt
  have hiovec : (wr.bufs.set wr.bufcnt buf).take (wr.bufcnt + 1) = wr.iovec ++ [buf] := by
    rw [List.take_add_one, List.take_set_of_le (Nat.le_refl _), List.getElem?_set_self hroom]
    rfl
  refine ⟨_, if_pos hroom, ⟨?_, hlt, fun k => ?_⟩, hiovec, rfl⟩
  · exact List.length_set.trans hw.length
  · rw [hmask, WriteReq.iovec, hiovec]
    by_cases hk : k = wr.bufcnt
    · rw [if_pos hk, hk, ← hw.iovec_length, List.getElem?_concat_length]
      rfl
    · rw [if_neg hk, hw.mask, List.getElem?_append]
      split
      · rfl
      · rename_i hge
        rw [hw.iovec_length] at hge
        rw [List.getElem?_eq_none (by rw [hw.iovec_length]; omega),
          List.getElem?_eq_none (by rw [hw.iovec_length, List.length_singleton]; omega)]

theorem Carries.mono {copies : List (List UInt8)} {chunk : Chunk} {buf : UvBuf}
    (h : Carries copies chunk buf) (more : List (List UInt8)) :
    Carries (copies ++ more) chunk buf := by
  cases chunk with
  | str t =>
    obtain ⟨n, hbuf, hn⟩ := h
    refine ⟨n, hbuf, ?_⟩
    rw [List.getElem?_append_left (List.getElem?_eq_some_iff.mp hn).1]
    exact hn
  | buffer ms => exact h

def copyBases (copies : List (List UInt8)) : List Base := (List.range copies.length).map .copy

theorem putChunk_spec {wr : WriteReq} (hw : Sound wr) (hlt : wr.bufcnt < bufferMaxChunks)
    (copies : List (List UInt8)) (chunk : Chunk) :
    ∃ wr' buf more, putChunk wr copies chunk = some (wr', copies ++ more) ∧ Sound wr' ∧
      wr'.iovec = wr.iovec ++ [buf] ∧ wr'.bufcnt = wr.bufcnt + 1 ∧
      Carries (copies ++ more) chunk buf ∧
      copyBases (copies ++ more) = copyBases copies ++ copiesIn [buf] := by
  have hlt' : wr.bufcnt < 32 := hlt.trans (by decide)
  cases chunk with
  | str t =>
    obtain ⟨wr', hput, hsound, hiovec, hcnt⟩ := @put_spec wr wr.markCopy hw hlt
      ⟨.copy copies.length, t.length⟩ ⟨rfl, rfl⟩ (markCopy_mask hlt')
    refine ⟨wr', _, [t], ?_, hsound, hiovec, hcnt, ⟨copies.length, rfl, ?_⟩, ?_⟩
    · rw [putChunk, hput]
      rfl
    · exact List.getElem?_concat_length
    · rw [copyBases, List.length_append, List.length_singleton, List.range_succ, List.map_append]
      rfl
  | buffer ms =>
    obtain ⟨wr', hput, hsound, hiovec, hcnt⟩ := @put_spec wr wr.markBuffer hw hlt
      ⟨.slice ms.mb ms.slice, ms.untilLen⟩ ⟨rfl, rfl⟩ (markBuffer_mask hlt')
    refine ⟨wr', _, [], ?_, hsound, hiovec, hcnt, rfl, ?_⟩
    · rw [putChunk, hput, List.append_nil]
      rfl
    · rw [List.append_nil]
      exact (List.append_nil _).symm

def Writer.pendingCount (s : Writer) : ℕ := (s.wreq.map WriteReq.bufcnt).getD 0

/-- The queue holds the chunks, its requests are sound, and only a bottled object has one
pending. -/
structure Inv (s : Writer) (chunks : List Chunk) : Prop where
  queue : List.Forall₂ (Carries s.copies) chunks s.queue
  issued : ∀ wr ∈ s.issued, Sound wr ∧ 0 < wr.bufcnt
  pending : ∀ wr, s.wreq = some wr → Sound wr ∧ 0 < wr.bufcnt ∧ wr.bufcnt < bufferMaxChunks
  unbottled : s.bottleMode = false → s.wreq = none
  copies : copiesIn s.queue = copyBases s.copies

theorem inv_fresh : Inv .fresh [] where
  queue := .nil
  issued wr h := by cases h
  pending wr h := by cases h
  unbottled _ := rfl
  copies := rfl

theorem inv_bottle {s : Writer} {chunks : List Chunk} (hs : Inv s chunks) :
    Inv (tcpBottle s) chunks :=
  ⟨hs.queue, hs.issued, hs.pending, (fun h => by cases h), hs.copies⟩

/-- What a write does: one iovec more at the end of the queue, and a request issued where
the object is not bottled or the request is full. -/
theorem tcpWrite_spec {s : Writer} {chunks : List Chunk} (hs : Inv s chunks) (chunk : Chunk)
    (flush : Bool) :
    ∃ s', tcpWrite s chunk flush = some s' ∧ Inv s' (chunks ++ [chunk]) ∧
      s'.bottleMode = (s.bottleMode && !flush) ∧
      s'.pendingCount = if s'.bottleMode then (s.pendingCount + 1) % bufferMaxChunks else 0 := by
  have hwr : Sound (s.wreq.getD .zeroed) ∧ (s.wreq.getD .zeroed).bufcnt < bufferMaxChunks ∧
      (s.wreq.getD .zeroed).bufcnt = s.pendingCount ∧
      (s.wreq.getD .zeroed).iovec = s.pending := by
    cases hw : s.wreq with
    | none =>
      rw [Writer.pendingCount, Writer.pending, hw]
      exact ⟨sound_zeroed, by decide, rfl, rfl⟩
    | some wr =>
      rw [Writer.pendingCount, Writer.pending, hw]
      exact ⟨(hs.pending wr hw).1, (hs.pending wr hw).2.2, rfl, rfl⟩
  generalize hg : s.wreq.getD .zeroed = wr at hwr
  obtain ⟨hsound, hlt, hcount, hpend⟩ := hwr
  obtain ⟨wr', buf, more, hput, hsound', hiovec, hcnt, hcarry, hcopies⟩ :=
    putChunk_spec hsound hlt s.copies chunk
  have hqueue : List.Forall₂ (Carries (s.copies ++ more)) (chunks ++ [chunk])
      (s.queue ++ [buf]) :=
    List.rel_append (hs.queue.imp fun _ _ h => h.mono more) (.cons hcarry .nil)
  have hold : s.queue = s.issued.flatMap WriteReq.iovec ++ wr.iovec := by
    rw [Writer.queue, hpend]
  have hnew : copiesIn (s.queue ++ [buf]) = copyBases (s.copies ++ more) := by
    rw [copiesIn_append, hs.copies, hcopies]
  rw [hold, List.append_assoc, ← hiovec] at hqueue hnew
  rw [tcpWrite, hg, hput, Option.map_some]
  refine ⟨_, rfl, ?_⟩
  by_cases hflush : (!(s.bottleMode && !flush) || wr'.bufcnt == bufferMaxChunks) = true
  · -- the request is issued
    simp only [if_pos hflush]
    have hq : (⟨s.bottleMode && !flush, none, s.copies ++ more, s.issued ++ [wr']⟩ :
        Writer).queue = s.issued.flatMap WriteReq.iovec ++ wr'.iovec := by
      rw [Writer.queue, List.flatMap_append, List.flatMap_singleton]
      exact List.append_nil _
    refine ⟨⟨hq ▸ hqueue, ?_, (fun wr h => by cases h), fun _ => rfl, hq ▸ hnew⟩, trivial, ?_⟩
    · intro x hx
      rcases List.mem_append.mp hx with hx | hx
      · exact hs.issued x hx
      · rw [List.mem_singleton.mp hx]
        exact ⟨hsound', by omega⟩
    · by_cases hb : (s.bottleMode && !flush) = true
      · rw [if_pos hb]
        have hfull : wr'.bufcnt = bufferMaxChunks := by simpa [hb] using hflush
        rw [← hcount, ← hcnt, hfull, Nat.mod_self]
        rfl
      · rw [if_neg hb]
        rfl
  · -- it stays pending
    simp only [if_neg hflush]
    have hq : (⟨s.bottleMode && !flush, some wr', s.copies ++ more, s.issued⟩ :
        Writer).queue = s.issued.flatMap WriteReq.iovec ++ wr'.iovec := rfl
    simp only [Bool.or_eq_true, Bool.not_eq_true', beq_iff_eq, not_or, Bool.not_eq_false] at hflush
    obtain ⟨hb, hroom⟩ := hflush
    refine ⟨⟨hq ▸ hqueue, hs.issued, ?_, ?_, hq ▸ hnew⟩, trivial, ?_⟩
    · rintro x hx
      cases hx
      exact ⟨hsound', by omega, Nat.lt_of_le_of_ne hsound'.le hroom⟩
    · intro h
      rw [hb] at h
      cases h
    · rw [if_pos hb, Nat.mod_eq_of_lt (by omega), ← hcount, ← hcnt]
      rfl

theorem run_inv (ops : List Op) {s : Writer} {chunks : List Chunk} (hs : Inv s chunks) :
    ∃ s', run s ops = some s' ∧ Inv s' (chunks ++ written ops) := by
  induction ops generalizing s chunks with
  | nil => exact ⟨s, rfl, by rw [written, List.append_nil]; exact hs⟩
  | cons op ops ih =>
    cases op with
    | bottle => exact ih (inv_bottle hs)
    | write chunk flush =>
      obtain ⟨s₁, hstep, hs₁, -⟩ := tcpWrite_spec hs chunk flush
      obtain ⟨s', hrun, hs'⟩ := ih hs₁
      refine ⟨s', ?_, ?_⟩
      · rw [run, List.foldlM_cons, step, hstep]
        exact hrun
      · rw [written, List.append_cons]
        exact hs'

theorem Inv.queued {s : Writer} {chunks : List Chunk} (hs : Inv s chunks) : Queued s chunks where
  queue := hs.queue
  sizes wr hwr := by
    obtain ⟨hsound, hpos⟩ := hs.issued wr hwr
    rw [hsound.iovec_length]
    exact ⟨hpos, hsound.le⟩
  frees wr hwr := tcpAfterWrite_eq (hs.issued wr hwr).1
  once := by
    rw [hs.copies, copyBases]
    refine List.Nodup.map ?_ List.nodup_range
    intro m n h
    cases h
    rfl

/-- Nothing is pending after a write that is not bottled, or that flushes. -/
def Flushed (ops : List Op) : Prop :=
  ∀ s, run .fresh ops = some s → ∀ chunk flush, flush = true ∨ tcpIsBottled s = false →
    ∀ s', tcpWrite s chunk flush = some s' → s'.wreq = none

/-- After every run of `bottle` and `write` the requests issued and the pending one hold the
chunks written, in order, in requests of 1 to 16 buffers; completing a request frees its
copies and nothing else; and a flush leaves nothing pending. -/
theorem write_queue (ops : List Op) :
    (∃ s, run .fresh ops = some s ∧ Queued s (written ops)) ∧ Flushed ops := by
  obtain ⟨s, hrun, hs⟩ := run_inv ops inv_fresh
  refine ⟨⟨s, hrun, hs.queued⟩, fun t ht chunk flush hflush s' hwrite => ?_⟩
  rw [hrun] at ht
  cases ht
  obtain ⟨t', hwrite', hinv, hbottle, -⟩ := tcpWrite_spec hs chunk flush
  rw [hwrite] at hwrite'
  cases hwrite'
  refine hinv.unbottled ?_
  rw [hbottle]
  rcases hflush with h | h
  · rw [h]
    exact Bool.and_false _
  · rw [show s.bottleMode = false from h]
    exact Bool.false_and _

end Lev.TcpWrite
