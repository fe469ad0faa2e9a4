import Lev.BufferKeeps
import Lev.BufferContents
import Lev.TcpWrite

/-! The write requests of tcp, pipe and udp objects on their way. Their iovecs point to copies, to
the bytes of Lua strings or into MemBlocks, and the kernel takes the bytes at any time before the
callback of the request. -/
namespace Lev.PendingWrites
open Slab Memory Run
open Buffer (Wf Present Preserved ObjId)

/-- Strings are known by their addresses. A copy is freed with its request only. -/
inductive Pointer
  | null
  | copy (t : List UInt8)
  | text (a : ℕ)
  | slice (mb : BlockId) (off : ℕ)
  deriving DecidableEq, Repr

structure Iovec where
  base : Pointer
  len : ℕ
  deriving DecidableEq, Repr

/-- The iovecs of a request. In `chunks` are the bytes of what was written, as they were at the
time of the call, which is a log of ours. -/
structure Request where
  bufs : List Iovec
  chunks : List (List UInt8)
  deriving DecidableEq, Repr

/-- A tcp object, with the log for the request that it is filling. -/
structure Tcp where
  writer : TcpWrite.Writer
  chunks : List (List UInt8)
  deriving DecidableEq, Repr

/-- The Buffers and the slab, the strings of Lua by their addresses, the tcp objects, and the
requests that libuv has. -/
structure State where
  mem : Buffer.State
  strings : ℕ → Option (List UInt8)
  tcps : List Tcp
  flight : List Request

def start (junk : BlockId → ℕ → UInt8) : State := ⟨Buffer.start junk, fun _ => none, [], []⟩

inductive Arg
  | string (a : ℕ)
  | buffer (o : ObjId)
  deriving DecidableEq, Repr

def iovecOf (w : TcpWrite.Writer) (buf : TcpWrite.UvBuf) : Iovec :=
  match buf.base with
  | .null => ⟨.null, buf.len⟩
  | .copy n => ⟨.copy (w.copies.getD n []), buf.len⟩
  | .slice mb off => ⟨.slice mb off, buf.len⟩

/-- The request that the object is filling. -/
def Tcp.pending (t : Tcp) : Request := ⟨t.writer.pending.map (iovecOf t.writer), t.chunks⟩

namespace State

variable (s : State)

def requests : List Request := s.flight ++ s.tcps.map Tcp.pending

/-- What an argument is to `tcp_write`, and its bytes. -/
def chunk : Arg → Option (TcpWrite.Chunk × List UInt8)
  | .string a => (s.strings a).map fun t => (.str t, t)
  | .buffer o => (s.mem.slice? o).map fun ms => (.buffer ms, ms.contents s.mem.heap)

/-- The `uv_buf_t` that `pipe_write` and `udp_send` make of an argument, and its bytes. -/
def uvBuf : Arg → Option (Iovec × List UInt8)
  | .string a => (s.strings a).map fun t => (⟨.text a, t.length⟩, t)
  | .buffer o => (s.mem.slice? o).map fun ms =>
    (⟨.slice ms.mb ms.slice, ms.untilLen⟩, ms.contents s.mem.heap)

def tcpWrite (i : ℕ) (arg : Arg) (flush : Bool) : Option State := do
  let tcp ← s.tcps[i]?
  let (chunk, bytes) ← s.chunk arg
  let w ← TcpWrite.tcpWrite tcp.writer chunk flush
  let chunks := tcp.chunks ++ [bytes]
  let issued := (w.issued.drop tcp.writer.issued.length).map fun wr =>
    (⟨wr.iovec.map (iovecOf w), chunks⟩ : Request)
  some { s with
    tcps := s.tcps.set i ⟨w, if issued.isEmpty then chunks else []⟩
    flight := s.flight ++ issued }

/-- `pipe_write` and `udp_send`, which have one iovec each. -/
def send (arg : Arg) : Option State :=
  (s.uvBuf arg).map fun (buf, bytes) => { s with flight := s.flight ++ [⟨[buf], [bytes]⟩] }

/-- A block that other code takes from the slab, fills and keeps. -/
def takeBlock (size : ℕ) (data : List UInt8) : Option State :=
  (levSlabGetBlock s.mem.heap size).map fun (b, h) =>
    { s with mem := { s.mem with heap := (levSlabIncRef h b).store b 0 (data.take size) } }

/-- What the kernel finds where an iovec points to; `none` where the memory has been given back. -/
def read (v : Iovec) : Option (List UInt8) :=
  match v.base with
  | .null => none
  | .copy t => some (t.take v.len)
  | .text a => (s.strings a).map (List.take v.len)
  | .slice mb off => some (s.mem.heap.load mb off v.len)

end State

/-- Buffers and strings are collected whenever the collector likes, and requests complete in any
order. A new string goes where there is none. -/
inductive Op
  | buffer (op : Buffer.Op)
  | slab (size : ℕ) (data : List UInt8)
  | string (a : ℕ) (t : List UInt8)
  | collect (a : ℕ)
  | tcpNew
  | bottle (i : ℕ)
  | tcpWrite (i : ℕ) (arg : Arg) (flush : Bool)
  | send (arg : Arg)
  | complete (k : ℕ)
  deriving DecidableEq, Repr

def next (s : State) : Op → State
  | .buffer op => { s with mem := Buffer.next s.mem op }
  | .slab size data => (s.takeBlock size data).getD s
  | .string a t =>
    if s.strings a = none then { s with strings := Function.update s.strings a (some t) } else s
  | .collect a => { s with strings := Function.update s.strings a none }
  | .tcpNew => { s with tcps := s.tcps ++ [⟨.fresh, []⟩] }
  | .bottle i =>
    { s with tcps := s.tcps.modify i fun t => { t with writer := TcpWrite.tcpBottle t.writer } }
  | .tcpWrite i arg flush => (s.tcpWrite i arg flush).getD s
  | .send arg => (s.send arg).getD s
  | .complete k => { s with flight := s.flight.eraseIdx k }

/-- The block has an owner and the allocator does not have it. -/
def InUse (h : Heap) (b : BlockId) : Prop :=
  1 ≤ (h.blocks b).refcount ∧ (∀ c, b ∉ (h.pools c).pool) ∧ b ∉ h.freed

/-- Taken now, the bytes of an iovec are those that were written, and if it points into a block
the block is in use. -/
def Taken (s : State) (v : Iovec) (chunk : List UInt8) : Prop :=
  s.read v = some chunk ∧ ∀ mb off, v.base = .slice mb off → InUse s.mem.heap mb

/-- Every request that has not completed has an iovec for each chunk, and its bytes. -/
def Delivered (s : State) : Prop :=
  ∀ r ∈ s.requests, List.Forall₂ (Taken s) r.bufs r.chunks

def Iovec.Spared (v : Iovec) (s : Buffer.State) (op : Buffer.Op) : Prop :=
  match v.base with
  | .slice mb off => Buffer.Spares s mb off v.len op
  | _ => True

/-- The operation does not give the last reference to the block of the iovec up. -/
def Iovec.Lasts (v : Iovec) (s : Buffer.State) (op : Buffer.Op) : Prop :=
  match v.base with
  | .slice mb _ => Buffer.dropped s op = some mb → 2 ≤ Buffer.refs s mb
  | _ => True

/-- The program changes no bytes that a request points to, and uses Buffers within the bounds that
their blocks have. -/
def Sane (s : State) : Op → Prop
  | .buffer op => Buffer.Allowed s.mem op ∧ Buffer.GrowFits s.mem op ∧
    ∀ r ∈ s.requests, ∀ v ∈ r.bufs, v.Spared s.mem op
  | _ => True

/-- No block loses its last reference, and no string is collected, while a request points to it. -/
def Lasting (s : State) : Op → Prop
  | .buffer op => ∀ r ∈ s.requests, ∀ v ∈ r.bufs, v.Lasts s.mem op
  | .collect a => ∀ r ∈ s.requests, ∀ v ∈ r.bufs, v.base ≠ .text a
  | _ => True

instance (v : Iovec) (s : Buffer.State) (op : Buffer.Op) : Decidable (v.Spared s op) := by
  unfold Iovec.Spared
  split <;> infer_instance

instance (v : Iovec) (s : Buffer.State) (op : Buffer.Op) : Decidable (v.Lasts s op) := by
  unfold Iovec.Lasts
  split <;> infer_instance

instance (s : State) : (op : Op) → Decidable (Sane s op)
  | .buffer op => inferInstanceAs (Decidable (Buffer.Allowed s.mem op ∧ Buffer.GrowFits s.mem op ∧
      ∀ r ∈ s.requests, ∀ v ∈ r.bufs, v.Spared s.mem op))
  | .slab _ _ | .string _ _ | .collect _ | .tcpNew | .bottle _ | .tcpWrite _ _ _ | .send _
  | .complete _ => isTrue trivial

instance (s : State) : (op : Op) → Decidable (Lasting s op)
  | .buffer op => inferInstanceAs (Decidable (∀ r ∈ s.requests, ∀ v ∈ r.bufs, v.Lasts s.mem op))
  | .collect a => inferInstanceAs (Decidable (∀ r ∈ s.requests, ∀ v ∈ r.bufs, v.base ≠ .text a))
  | .slab _ _ | .string _ _ | .tcpNew | .bottle _ | .tcpWrite _ _ _ | .send _ | .complete _ =>
    isTrue trivial

/-- What keeps an iovec good: a string that is there, or a range of an owned block. -/
def Safe (s : State) (v : Iovec) (chunk : List UInt8) : Prop :=
  match v.base with
  | .null => False
  | .copy t => t = chunk ∧ v.len = t.length
  | .text a => s.strings a = some chunk ∧ v.len = chunk.length
  | .slice mb off => Present s.mem mb off v.len ∧ s.mem.heap.load mb off v.len = chunk

structure Inv (s : State) : Prop where
  wf : Wf s.mem
  writers : ∀ t ∈ s.tcps, ∃ chunks, TcpWrite.Inv t.writer chunks
  safe : ∀ r ∈ s.requests, List.Forall₂ (Safe s) r.bufs r.chunks

variable {s s' : State}

theorem inv_start (junk : BlockId → ℕ → UInt8) : Inv (start junk) where
  wf := Buffer.wf_start junk
  writers _ ht := absurd ht List.not_mem_nil
  safe _ hr := absurd hr List.not_mem_nil

theorem Safe.taken (hw : Wf s.mem) {v : Iovec} {chunk : List UInt8} (h : Safe s v chunk) :
    Taken s v chunk := by
  obtain ⟨base, len⟩ := v
  cases base with
  | null => exact h.elim
  | copy t =>
    obtain ⟨rfl, rfl⟩ := h
    exact ⟨congrArg some List.take_length, fun mb off hbase => by cases hbase⟩
  | text a =>
    obtain ⟨ha, rfl⟩ := h
    refine ⟨?_, fun mb off hbase => by cases hbase⟩
    show (s.strings a).map (List.take chunk.length) = some chunk
    rw [ha, Option.map_some, List.take_length]
  | slice mb off =>
    obtain ⟨hpresent, hload⟩ := h
    refine ⟨congrArg some hload, fun mb' off' hbase => ?_⟩
    cases hbase
    have hout := hw.owned.handedOut mb hpresent.owned
    have := hpresent.owned
    exact ⟨by rw [hout.refcount]; omega, hout.notPooled, hout.notFreed⟩

theorem Inv.delivered (hi : Inv s) : Delivered s := fun r hr =>
  (hi.safe r hr).imp fun _ _ h => h.taken hi.wf

theorem safe_mono {bufs : List Iovec} {chunks : List (List UInt8)}
    (h : ∀ v ∈ bufs, ∀ chunk, Safe s v chunk → Safe s' v chunk)
    (hs : List.Forall₂ (Safe s) bufs chunks) : List.Forall₂ (Safe s') bufs chunks :=
  ((List.forall₂_and_left bufs chunks).mpr ⟨h, hs⟩).imp fun _ chunk hv => hv.1 chunk hv.2

/-- The iovecs stay good where the ranges of blocks that they point to are preserved. -/
theorem inv_mem (hi : Inv s) {m : Buffer.State} (hw : Wf m)
    (h : ∀ r ∈ s.requests, ∀ v ∈ r.bufs, ∀ mb off, v.base = .slice mb off →
      Present s.mem mb off v.len → Preserved s.mem m mb off v.len) :
    Inv { s with mem := m } where
  wf := hw
  writers := hi.writers
  safe r hr := by
    have hsafe : ∀ v ∈ r.bufs, ∀ chunk, Safe s v chunk → Safe { s with mem := m } v chunk := by
      intro v hv chunk hs
      obtain ⟨base, len⟩ := v
      cases base with
      | null => exact hs
      | copy t => exact hs
      | text a => exact hs
      | slice mb off =>
        have hkept := h r hr _ hv mb off rfl hs.1
        exact ⟨hkept.present, hkept.load.trans hs.2⟩
    exact safe_mono hsafe (hi.safe r hr)

theorem inv_strings (hi : Inv s) {strings : ℕ → Option (List UInt8)}
    (h : ∀ r ∈ s.requests, ∀ v ∈ r.bufs, ∀ a chunk, v.base = .text a →
      s.strings a = some chunk → strings a = some chunk) :
    Inv { s with strings := strings } where
  wf := hi.wf
  writers := hi.writers
  safe r hr := by
    have hsafe : ∀ v ∈ r.bufs, ∀ chunk, Safe s v chunk →
        Safe { s with strings := strings } v chunk := by
      intro v hv chunk hs
      obtain ⟨base, len⟩ := v
      cases base with
      | null => exact hs
      | copy t => exact hs
      | text a => exact ⟨h r hr _ hv a chunk rfl hs.1, hs.2⟩
      | slice mb off => exact hs
    exact safe_mono hsafe (hi.safe r hr)

theorem safe_slice (hw : Wf s.mem) {o : ObjId} {ms : MemSlice} (ho : s.mem.slice? o = some ms) :
    Safe s ⟨.slice ms.mb ms.slice, ms.untilLen⟩ (ms.contents s.mem.heap) :=
  ⟨⟨Buffer.refs_pos_of_slice (Buffer.slice?_mem ho), hw.range ms (Buffer.slice?_mem ho)⟩, rfl⟩

theorem send_inv (hi : Inv s) {arg : Arg} (hs : s.send arg = some s') : Inv s' := by
  rw [State.send, Option.map_eq_some_iff] at hs
  obtain ⟨⟨buf, bytes⟩, huv, rfl⟩ := hs
  have hbuf : Safe s buf bytes := by
    cases arg with
    | string a =>
      obtain ⟨t, ht, heq⟩ := Option.map_eq_some_iff.mp huv
      cases heq
      exact ⟨ht, rfl⟩
    | buffer o =>
      obtain ⟨ms, ho, heq⟩ := Option.map_eq_some_iff.mp huv
      cases heq
      exact safe_slice hi.wf ho
  refine ⟨hi.wf, hi.writers, fun r hr => ?_⟩
  rcases List.mem_append.mp hr with hr | hr
  · rcases List.mem_append.mp hr with hr | hr
    · exact hi.safe r (List.mem_append_left _ hr)
    · rw [List.mem_singleton.mp hr]
      exact .cons hbuf .nil
  · exact hi.safe r (List.mem_append_right _ hr)

/-- A write puts one iovec into the request that the object is filling, and gives it away or not. -/
theorem tcpWrite_iovec {w : TcpWrite.Writer} {chunks : List TcpWrite.Chunk}
    (hw : TcpWrite.Inv w chunks) (chunk : TcpWrite.Chunk) (flush : Bool) :
    ∃ w' buf more, TcpWrite.tcpWrite w chunk flush = some w' ∧ w'.copies = w.copies ++ more ∧
      TcpWrite.Carries w'.copies chunk buf ∧
      ((w'.issued = w.issued ∧ w'.pending = w.pending ++ [buf]) ∨
        ∃ wr, w'.issued = w.issued ++ [wr] ∧ wr.iovec = w.pending ++ [buf] ∧ w'.pending = []) := by
  have hwr : TcpWrite.Sound (w.wreq.getD .zeroed) ∧
      (w.wreq.getD .zeroed).bufcnt < TcpWrite.bufferMaxChunks ∧
      (w.wreq.getD .zeroed).iovec = w.pending := by
    cases hreq : w.wreq with
    | none =>
      rw [TcpWrite.Writer.pending, hreq]
      exact ⟨TcpWrite.sound_zeroed, by decide, rfl⟩
    | some wr =>
      rw [TcpWrite.Writer.pending, hreq]
      exact ⟨(hw.pending wr hreq).1, (hw.pending wr hreq).2.2, rfl⟩
  obtain ⟨hsound, hlt, hpend⟩ := hwr
  obtain ⟨wr', buf, more, hput, -, hiovec, -, hcarry, -⟩ :=
    TcpWrite.putChunk_spec hsound hlt w.copies chunk
  rw [hpend] at hiovec
  rw [TcpWrite.tcpWrite, hput, Option.map_some]
  by_cases hflush : (!(w.bottleMode && !flush) || wr'.bufcnt == TcpWrite.bufferMaxChunks) = true
  · simp only [if_pos hflush]
    exact ⟨_, buf, more, rfl, rfl, hcarry, .inr ⟨wr', rfl, hiovec, rfl⟩⟩
  · simp only [if_neg hflush]
    exact ⟨_, buf, more, rfl, rfl, hcarry, .inl ⟨rfl, hiovec⟩⟩

theorem iovecOf_append {w w' : TcpWrite.Writer} {more : List (List UInt8)}
    (hcopies : w'.copies = w.copies ++ more) {chunk : TcpWrite.Chunk} {buf : TcpWrite.UvBuf}
    (h : TcpWrite.Carries w.copies chunk buf) : iovecOf w' buf = iovecOf w buf := by
  cases chunk with
  | str t =>
    obtain ⟨n, rfl, hn⟩ := h
    have hlt := (List.getElem?_eq_some_iff.mp hn).1
    simp only [iovecOf, hcopies]
    rw [List.getD_append _ _ _ _ hlt]
  | buffer ms =>
    cases h
    rfl

theorem carries_of_mem {copies : List (List UInt8)} {chunks : List TcpWrite.Chunk}
    {bufs : List TcpWrite.UvBuf} (h : List.Forall₂ (TcpWrite.Carries copies) chunks bufs)
    {buf : TcpWrite.UvBuf} (hbuf : buf ∈ bufs) : ∃ chunk, TcpWrite.Carries copies chunk buf := by
  induction h with
  | nil => cases hbuf
  | cons hc _ ih =>
    rcases List.mem_cons.mp hbuf with rfl | hbuf
    · exact ⟨_, hc⟩
    · exact ih hbuf

theorem safe_chunk (hw : Wf s.mem) {arg : Arg} {chunk : TcpWrite.Chunk} {bytes : List UInt8}
    (harg : s.chunk arg = some (chunk, bytes)) {w : TcpWrite.Writer} {buf : TcpWrite.UvBuf}
    (h : TcpWrite.Carries w.copies chunk buf) : Safe s (iovecOf w buf) bytes := by
  cases arg with
  | string a =>
    obtain ⟨t, -, heq⟩ := Option.map_eq_some_iff.mp harg
    cases heq
    obtain ⟨n, rfl, hn⟩ := h
    have hcopy : w.copies.getD n [] = bytes := by rw [List.getD, hn, Option.getD_some]
    show w.copies.getD n [] = bytes ∧ bytes.length = (w.copies.getD n []).length
    rw [hcopy]
    exact ⟨rfl, rfl⟩
  | buffer o =>
    obtain ⟨ms, ho, heq⟩ := Option.map_eq_some_iff.mp harg
    cases heq
    cases h
    exact safe_slice hw ho

theorem tcpWrite_inv (hi : Inv s) {i : ℕ} {arg : Arg} {flush : Bool}
    (hs : s.tcpWrite i arg flush = some s') : Inv s' := by
  simp only [State.tcpWrite, Option.bind_eq_bind, Option.bind_eq_some_iff] at hs
  obtain ⟨tcp, htcp, ⟨chunk, bytes⟩, harg, w, hwrite, heq⟩ := hs
  have hmem : tcp ∈ s.tcps := List.mem_of_getElem? htcp
  obtain ⟨chunks, hinv⟩ := hi.writers tcp hmem
  obtain ⟨w', buf, more, hwrite', hcopies, hcarry, hcase⟩ := tcpWrite_iovec hinv chunk flush
  cases hwrite.symm.trans hwrite'
  obtain ⟨w', hwrite', hinv', -⟩ := TcpWrite.tcpWrite_spec hinv chunk flush
  cases hwrite.symm.trans hwrite'
  -- the iovecs of the request so far, and the new one
  have hpending : List.Forall₂ (Safe s) (tcp.writer.pending.map (iovecOf w)) tcp.chunks := by
    have hold := hi.safe tcp.pending (List.mem_append_right _ (List.mem_map_of_mem hmem))
    have hsame : tcp.writer.pending.map (iovecOf w) =
        tcp.writer.pending.map (iovecOf tcp.writer) := by
      refine List.map_congr_left fun b hb => ?_
      obtain ⟨c, hc⟩ := carries_of_mem hinv.queue (List.mem_append_right _ hb)
      exact iovecOf_append hcopies hc
    rw [hsame]
    exact hold
  have hfilled : List.Forall₂ (Safe s) ((tcp.writer.pending ++ [buf]).map (iovecOf w))
      (tcp.chunks ++ [bytes]) := by
    rw [List.map_append]
    exact List.rel_append hpending (.cons (safe_chunk hi.wf harg hcarry) .nil)
  have hwriters : ∀ cs, ∀ t ∈ s.tcps.set i ⟨w, cs⟩, ∃ chunks, TcpWrite.Inv t.writer chunks := by
    intro cs t ht
    rcases List.mem_or_eq_of_mem_set ht with ht | rfl
    · exact hi.writers t ht
    · exact ⟨_, hinv'⟩
  -- a request is one from before, the one given away, or the one being filled
  have hrequests : ∀ cs, ∀ flight : List Request,
      (∀ r ∈ flight, List.Forall₂ (Safe s) r.bufs r.chunks) →
      List.Forall₂ (Safe s) (w.pending.map (iovecOf w)) cs →
      ∀ r ∈ s.flight ++ flight ++ (s.tcps.set i ⟨w, cs⟩).map Tcp.pending,
        List.Forall₂ (Safe s) r.bufs r.chunks := by
    intro cs flight hflight hcs r hr
    rcases List.mem_append.mp hr with hr | hr
    · rcases List.mem_append.mp hr with hr | hr
      · exact hi.safe r (List.mem_append_left _ hr)
      · exact hflight r hr
    · obtain ⟨t, ht, rfl⟩ := List.mem_map.mp hr
      rcases List.mem_or_eq_of_mem_set ht with ht | rfl
      · exact hi.safe _ (List.mem_append_right _ (List.mem_map_of_mem ht))
      · exact hcs
  cases heq
  rcases hcase with ⟨hissued, hpend⟩ | ⟨wr, hissued, hiovec, hpend⟩
  · have hnone : w.issued.drop tcp.writer.issued.length = [] := by
      rw [hissued, List.drop_length]
    simp only [hnone, List.map_nil, List.isEmpty_nil, if_true]
    refine ⟨hi.wf, hwriters _, hrequests _ [] (fun r hr => absurd hr List.not_mem_nil) ?_⟩
    rw [hpend]
    exact hfilled
  · have hone : w.issued.drop tcp.writer.issued.length = [wr] := by
      rw [hissued, List.drop_left]
    simp only [hone, List.map_cons, List.map_nil, List.isEmpty_cons]
    refine ⟨hi.wf, hwriters _, hrequests _ _ (fun r hr => ?_) ?_⟩
    · rw [List.mem_singleton.mp hr]
      show List.Forall₂ (Safe s) (wr.iovec.map (iovecOf w)) _
      rw [hiovec]
      exact hfilled
    · rw [hpend]
      exact .nil

theorem bottle_inv (hi : Inv s) (i : ℕ) : Inv (next s (.bottle i)) := by
  have hmem : ∀ t ∈ s.tcps.modify i fun t => { t with writer := TcpWrite.tcpBottle t.writer },
      ∃ t₀ ∈ s.tcps, t = t₀ ∨ t = { t₀ with writer := TcpWrite.tcpBottle t₀.writer } := by
    intro t ht
    obtain ⟨k, hk, rfl⟩ := List.mem_iff_getElem.mp ht
    rw [List.length_modify] at hk
    refine ⟨s.tcps[k], List.getElem_mem hk, ?_⟩
    rw [List.getElem_modify]
    split
    · exact .inr rfl
    · exact .inl rfl
  refine ⟨hi.wf, fun t ht => ?_, fun r hr => ?_⟩
  · obtain ⟨t₀, ht₀, rfl | rfl⟩ := hmem t ht
    · exact hi.writers t ht₀
    · obtain ⟨chunks, hinv⟩ := hi.writers t₀ ht₀
      exact ⟨chunks, TcpWrite.inv_bottle hinv⟩
  · rcases List.mem_append.mp hr with hr | hr
    · exact hi.safe r (List.mem_append_left _ hr)
    · obtain ⟨t, ht, rfl⟩ := List.mem_map.mp hr
      obtain ⟨t₀, ht₀, rfl | rfl⟩ := hmem t ht
      · exact hi.safe _ (List.mem_append_right _ (List.mem_map_of_mem ht₀))
      · exact hi.safe t₀.pending (List.mem_append_right _ (List.mem_map_of_mem ht₀))

/-- The step lemma, one case for each operation. -/
theorem inv_next {op : Op} (hi : Inv s) (hs : Sane s op) (hl : Lasting s op) :
    Inv (next s op) := by
  cases op with
  | buffer op =>
    obtain ⟨ha, hfits, hspared⟩ := hs
    refine inv_mem hi (Buffer.wf_step hi.wf ha hfits) fun r hr v hv mb off hbase hp => ?_
    have hspares := hspared r hr v hv
    have hlasts := hl r hr v hv
    simp only [Iovec.Spared, Iovec.Lasts, hbase] at hspares hlasts
    exact Buffer.next_preserved hi.wf ha hfits hp hspares hlasts
  | slab size data =>
    cases hg : levSlabGetBlock s.mem.heap size with
    | none =>
      simp only [next, State.takeBlock, hg]
      exact hi
    | some r =>
      obtain ⟨b, h⟩ := r
      simp only [next, State.takeBlock, hg]
      exact inv_mem hi (Buffer.getBlock_wf hi.wf hg _) fun r _ v _ mb off _ hp =>
        (Buffer.getBlock_stays hi.wf hg _ hp.owned).preserved hp
  | string a t =>
    simp only [next]
    split
    · rename_i hfree
      refine inv_strings hi fun r _ v _ a' chunk _ ha' => ?_
      have hne : a' ≠ a := by
        rintro rfl
        rw [hfree] at ha'
        cases ha'
      rw [Function.update_of_ne hne]
      exact ha'
    · exact hi
  | collect a =>
    refine inv_strings hi fun r hr v hv a' chunk hbase ha' => ?_
    have hne : a' ≠ a := by
      rintro rfl
      exact hl r hr v hv hbase
    rw [Function.update_of_ne hne]
    exact ha'
  | tcpNew =>
    refine ⟨hi.wf, fun t ht => ?_, fun r hr => ?_⟩
    · rcases List.mem_append.mp ht with ht | ht
      · exact hi.writers t ht
      · rw [List.mem_singleton.mp ht]
        exact ⟨_, TcpWrite.inv_fresh⟩
    · simp only [next, State.requests, List.map_append, List.mem_append] at hr
      rcases hr with hr | hr | hr
      · exact hi.safe r (List.mem_append_left _ hr)
      · exact hi.safe r (List.mem_append_right _ hr)
      · rw [List.mem_singleton.mp hr]
        exact .nil
  | bottle i => exact bottle_inv hi i
  | tcpWrite i arg flush =>
    cases hw : s.tcpWrite i arg flush with
    | none =>
      simp only [next, hw]
      exact hi
    | some s' =>
      simp only [next, hw]
      exact tcpWrite_inv hi hw
  | send arg =>
    cases hw : s.send arg with
    | none =>
      simp only [next, hw]
      exact hi
    | some s' =>
      simp only [next, hw]
      exact send_inv hi hw
  | complete k =>
    refine ⟨hi.wf, hi.writers, fun r hr => ?_⟩
    rcases List.mem_append.mp hr with hr | hr
    · exact hi.safe r (List.mem_append_left _ (List.mem_of_mem_eraseIdx hr))
    · exact hi.safe r (List.mem_append_right _ hr)

/-- In every run in which no block loses its last reference and no string is collected while a
request points to it, the bytes of all requests stay what was written. -/
theorem writes_delivered (junk : BlockId → ℕ → UInt8) (ops : List Op)
    (h : Along next (fun s op => Sane s op ∧ Lasting s op) (start junk) ops) :
    Always next Delivered (start junk) ops := by
  have hstep : ∀ t op, Inv t → Sane t op ∧ Lasting t op → Inv (next t op) :=
    fun t op hi hop => inv_next hi hop.1 hop.2
  exact always_of_inv (fun t ht => ht.delivered) hstep (inv_start junk) h

/-- A Buffer written to a busy socket and dropped, whose block goes to the next Buffer. -/
def reusedRun : List Op :=
  [.buffer (.new (.str (List.replicate 1024 0x61))), .tcpNew, .tcpWrite 0 (.buffer 0) false,
    .buffer (.gc 0), .buffer (.new (.str (List.replicate 1024 0x62)))]

theorem contents_first {junk : BlockId → ℕ → UInt8} {t : List UInt8} {ms : MemSlice} (ht : t ≠ [])
    (h : (Buffer.next (Buffer.start junk) (.new (.str t))).objs = [some ms]) :
    ms.contents (Buffer.next (Buffer.start junk) (.new (.str t))).heap = t := by
  rw [Buffer.next] at h ⊢
  cases hs : Buffer.step (Buffer.start junk) (.new (.str t)) with
  | error e =>
    rw [hs] at h
    cases h
  | ok s' =>
    rw [hs] at h
    obtain ⟨ms', hlast, -, hholds⟩ := (Buffer.bufferNew_holds (Buffer.sized_start junk) hs).mpr
      fun hzero => ht (List.length_eq_zero_iff.mp hzero)
    change s'.objs = _ at h
    rw [h] at hlast
    cases hlast
    exact hholds

/-- A request keeps the bytes that the Buffer had at the time of the write. -/
theorem flight_first {junk : BlockId → ℕ → UInt8} {t : List UInt8} {ms : MemSlice} (ht : t ≠ [])
    (h : (Buffer.next (Buffer.start junk) (.new (.str t))).objs = [some ms]) (t' : List UInt8) :
    (exec next (start junk) [.buffer (.new (.str t)), .tcpNew, .tcpWrite 0 (.buffer 0) false,
      .buffer (.gc 0), .buffer (.new (.str t'))]).flight =
      [⟨[⟨.slice ms.mb ms.slice, ms.untilLen⟩], [t]⟩] := by
  have hwrite : ∀ m : Buffer.State, m.objs = [some ms] →
      (exec next ⟨m, fun _ => none, [], []⟩ [.tcpNew, .tcpWrite 0 (.buffer 0) false,
        .buffer (.gc 0), .buffer (.new (.str t'))]).flight =
        [⟨[⟨.slice ms.mb ms.slice, ms.untilLen⟩], [ms.contents m.heap]⟩] := by
    intro m hm
    cases m
    subst hm
    rfl
  have hfirst : next (start junk) (.buffer (.new (.str t))) =
      ⟨Buffer.next (Buffer.start junk) (.new (.str t)), fun _ => none, [], []⟩ := rfl
  rw [exec_cons, hfirst, hwrite _ h, contents_first ht h]

theorem reusedRun_corrupts :
    (exec next (start fun _ _ => 0) reusedRun).flight =
      [⟨[⟨.slice 1023 0, 1024⟩], [List.replicate 1024 0x61]⟩] ∧
    (exec next (start fun _ _ => 0) reusedRun).mem.heap.bytes 1023 0 = 0x62 ∧
    ¬ Always next Delivered (start fun _ _ => 0) reusedRun := by
  have hobjs : (Buffer.next (Buffer.start fun _ _ => 0)
      (.new (.str (List.replicate 1024 0x61)))).objs = [some ⟨1023, 0, 1024⟩] := by
    decide +kernel
  have hflight : (exec next (start fun _ _ => 0) reusedRun).flight =
      [⟨[⟨.slice 1023 0, 1024⟩], [List.replicate 1024 0x61]⟩] :=
    flight_first (List.cons_ne_nil _ _) hobjs _
  have hbyte : (exec next (start fun _ _ => 0) reusedRun).mem.heap.bytes 1023 0 = 0x62 := by
    decide +kernel
  refine ⟨hflight, hbyte, fun h => ?_⟩
  have hdel := h.exec
  generalize exec next (start fun _ _ => 0) reusedRun = s at hflight hbyte hdel
  have hone := hdel ⟨[⟨.slice 1023 0, 1024⟩], [List.replicate 1024 0x61]⟩
    (List.mem_append_left _ (by rw [hflight]; exact List.mem_singleton_self _))
  cases hone with
  | cons htaken _ =>
    have hread : s.mem.heap.load 1023 0 1024 = List.replicate 1024 0x61 :=
      Option.some.inj htaken.1
    have hhead : (s.mem.heap.load 1023 0 1024)[0]? = (List.replicate 1024 (0x61 : UInt8))[0]? :=
      congrArg (·[0]?) hread
    rw [Heap.load, List.getElem?_map, List.getElem?_range (by decide), List.getElem?_replicate,
      if_pos (by decide), Option.map_some, hbyte] at hhead
    exact absurd hhead (by decide)

/-- A Buffer that is kept until its write has completed, and a string that is not. -/
def keptRun : List Op :=
  [.buffer (.new (.str [1, 2, 3])), .string 0 [4, 5], .tcpNew, .bottle 0,
    .tcpWrite 0 (.buffer 0) false, .tcpWrite 0 (.string 0) true, .collect 0, .send (.buffer 0),
    .complete 0, .buffer (.new (.number 8)), .complete 0, .buffer (.gc 0)]

theorem writes_delivered_keptRun :
    Along next (fun s op => Sane s op ∧ Lasting s op) (start fun _ _ => 0) keptRun ∧
      Always next Delivered (start fun _ _ => 0) keptRun := by
  have h : Along next (fun s op => Sane s op ∧ Lasting s op) (start fun _ _ => 0) keptRun := by
    decide +kernel
  exact ⟨h, writes_delivered (fun _ _ => 0) keptRun h⟩

end Lev.PendingWrites
