import Lev.Response

/-! What the calls on a response write, and where they leave the client. -/
namespace Lev.Response
open CInt Slab Memory Buffer Lua HttpChunked TcpWrite

/-- Whether the client is bottled, and how many iovecs are pending. -/
structure View where
  bottled : Bool
  pending : ℕ
  deriving DecidableEq, Repr

/-- A call that writes `n` times and flushes at its end unless the client was bottled. -/
def View.after (v : View) (n : ℕ) : View :=
  if v.bottled then ⟨true, (v.pending + n) % bufferMaxChunks⟩ else ⟨false, 0⟩

theorem View.after_after (v : View) (m n : ℕ) : (v.after m).after n = v.after (m + n) := by
  obtain ⟨bottled, pending⟩ := v
  cases bottled
  · rfl
  · simp [View.after, Nat.add_assoc]

def State.view (r : State) : View := ⟨r.client.bottleMode, r.client.pendingCount⟩

def State.Sane (r : State) : Prop := ∃ chunks, TcpWrite.Inv r.client chunks

variable {env : Env} {r r' r'' : State}

theorem State.Sane.pending_eq_zero (hr : r.Sane) (h : r.client.bottleMode = false) :
    r.client.pendingCount = 0 := by
  obtain ⟨chunks, hinv⟩ := hr
  rw [Writer.pendingCount, hinv.unbottled h]
  rfl

theorem State.Sane.pending_lt (hr : r.Sane) : r.view.pending < bufferMaxChunks := by
  obtain ⟨chunks, hinv⟩ := hr
  rw [State.view, Writer.pendingCount]
  cases hw : r.client.wreq with
  | none => exact Nat.zero_lt_succ 15
  | some wr => exact (hinv.pending wr hw).2.2

theorem State.Sane.wreq_eq_none_iff (hr : r.Sane) :
    r.client.wreq = none ↔ r.client.pendingCount = 0 := by
  obtain ⟨chunks, hinv⟩ := hr
  rw [Writer.pendingCount]
  cases hw : r.client.wreq with
  | none => exact iff_of_true rfl rfl
  | some wr =>
    exact iff_of_false (Option.some_ne_none wr) (Nat.ne_of_gt (hinv.pending wr hw).2.1)

theorem State.Sane.after_zero (hr : r.Sane) : r.view.after 0 = r.view := by
  have hlt := hr.pending_lt
  cases hmode : r.view.bottled with
  | true =>
    rw [View.after, hmode, if_pos rfl, Nat.add_zero, Nat.mod_eq_of_lt hlt, ← hmode]
  | false =>
    have hzero : r.view.pending = 0 := hr.pending_eq_zero hmode
    rw [View.after, hmode, if_neg Bool.false_ne_true, ← hzero, ← hmode]

/-- The response has written these bytes, and its client is in that state. -/
structure Sent (r r' : State) (bs : List UInt8) (v : View) : Prop where
  sane : r'.Sane
  bytes : r'.bytes = r.bytes ++ bs
  view : r'.view = v
  headersSent : r'.headersSent = r.headersSent
  chunkedEncoding : r'.chunkedEncoding = r.chunkedEncoding
  inside : r'.inside = r.inside
  ended : r'.ended = r.ended

theorem Sent.trans {bs bs' : List UInt8} {v v' : View} (h : Sent r r' bs v)
    (h' : Sent r' r'' bs' v') : Sent r r'' (bs ++ bs') v' where
  sane := h'.sane
  bytes := by rw [h'.bytes, h.bytes, List.append_assoc]
  view := h'.view
  headersSent := h'.headersSent.trans h.headersSent
  chunkedEncoding := h'.chunkedEncoding.trans h.chunkedEncoding
  inside := h'.inside.trans h.inside
  ended := h'.ended.trans h.ended

theorem send_spec (hr : r.Sane) (h : Heap) (chunk : Chunk) (flush : Bool) :
    ∃ r', r.send h chunk flush = some r' ∧ Sent r r' (chunkBytes h chunk)
      (if r.client.bottleMode && !flush then
        ⟨true, (r.client.pendingCount + 1) % bufferMaxChunks⟩ else ⟨false, 0⟩) := by
  obtain ⟨chunks, hinv⟩ := hr
  obtain ⟨client, hwrite, hinv', hmode, hcount⟩ := tcpWrite_spec hinv chunk flush
  refine ⟨{ r with client := client, bytes := r.bytes ++ chunkBytes h chunk }, ?_,
    ⟨_, hinv'⟩, rfl, ?_, rfl, rfl, rfl, rfl⟩
  · rw [State.send, hwrite]
    rfl
  · rw [State.view]
    dsimp only
    rw [hcount, hmode]
    cases r.client.bottleMode && !flush
    · rfl
    · rfl

theorem send_bottled {p : ℕ} (hr : r.Sane) (hv : r.view = ⟨true, p⟩) (h : Heap) (chunk : Chunk) :
    ∃ r', r.send h chunk false = some r' ∧
      Sent r r' (chunkBytes h chunk) ⟨true, (p + 1) % bufferMaxChunks⟩ := by
  obtain ⟨hmode, hcount⟩ := View.mk.inj hv
  have hsend := send_spec hr h chunk false
  rwa [hmode, hcount] at hsend

theorem send_flush (hr : r.Sane) (h : Heap) (chunk : Chunk) :
    ∃ r', r.send h chunk true = some r' ∧ Sent r r' (chunkBytes h chunk) ⟨false, 0⟩ := by
  have hsend := send_spec hr h chunk true
  rwa [Bool.not_true, Bool.and_false] at hsend

/-- The last write of a call, which flushes unless the client was bottled when it began. -/
theorem send_last {p : ℕ} (hr : r.Sane) (hv : r.view = ⟨true, p⟩) (h : Heap) (chunk : Chunk)
    {v : View} {n : ℕ} (hp : v.bottled = true → p = (v.pending + n) % bufferMaxChunks) :
    ∃ r', r.send h chunk (!v.bottled) = some r' ∧
      Sent r r' (chunkBytes h chunk) (v.after (n + 1)) := by
  obtain ⟨bottled, pending⟩ := v
  cases bottled with
  | false => exact send_flush hr h chunk
  | true =>
    obtain ⟨r', hsend, hsent⟩ := send_bottled hr hv h chunk
    refine ⟨r', hsend, ?_⟩
    rw [hp rfl] at hsent
    simpa [View.after, Nat.add_assoc] using hsent

theorem sendAll_spec {p : ℕ} (hr : r.Sane) (hv : r.view = ⟨true, p % bufferMaxChunks⟩) (h : Heap)
    (fields : Fields) :
    ∃ r', fields.foldlM (fun r field => State.send r h (.str (headerLine env field)) false) r =
        some r' ∧
      Sent r r' (fields.flatMap (headerLine env))
        ⟨true, (p + fields.length) % bufferMaxChunks⟩ := by
  induction fields generalizing r p with
  | nil => exact ⟨r, rfl, hr, (List.append_nil _).symm, hv, rfl, rfl, rfl, rfl⟩
  | cons field fields ih =>
    obtain ⟨r', hsend, hsent⟩ := send_bottled hr hv h (.str (headerLine env field))
    rw [Nat.mod_add_mod] at hsent
    obtain ⟨r'', hall, hrest⟩ := ih hsent.sane hsent.view
    refine ⟨r'', ?_, ?_⟩
    · rw [List.foldlM_cons, hsend]
      exact hall
    · have htrans := hsent.trans hrest
      rw [Nat.add_assoc, Nat.add_comm 1] at htrans
      exact htrans

theorem bottle_spec (hr : r.Sane) : Sent r r.bottle [] ⟨true, r.view.pending⟩ := by
  rw [State.bottle, tcpIsBottled]
  cases hmode : r.client.bottleMode with
  | true =>
    have hview : r.view = ⟨true, r.view.pending⟩ := by
      rw [State.view, hmode]
    exact ⟨hr, (List.append_nil _).symm, hview, rfl, rfl, rfl, rfl⟩
  | false =>
    obtain ⟨chunks, hinv⟩ := hr
    exact ⟨⟨chunks, inv_bottle hinv⟩, (List.append_nil _).symm, rfl, rfl, rfl, rfl, rfl⟩

/-- The bytes of a status line, the header lines and the blank line. -/
def headBytes (env : Env) (status : Status) (headers : Option Fields) : List UInt8 :=
  statusLine env status ++ (headerFields env headers).flatMap (headerLine env) ++ crlf

/-- How often `writeHead` writes. -/
def headWrites (env : Env) (headers : Option Fields) : ℕ :=
  2 + (headerFields env headers).length

theorem writeHead_spec (hr : r.Sane) (hsent : r.headersSent = false) (h : Heap) (status : Status)
    (headers : Option Fields) :
    ∃ r', writeHead env h r status headers = some r' ∧
      r'.Sane ∧ r'.bytes = r.bytes ++ headBytes env status headers ∧
      r'.view = r.view.after (headWrites env headers) ∧ r'.headersSent = true ∧
      r'.chunkedEncoding = (r.chunkedEncoding && !hasLength env headers) ∧
      r'.inside = r.inside ∧ r'.ended = r.ended := by
  have hbottle := bottle_spec hr
  obtain ⟨r₁, hsend₁, hline⟩ := send_bottled hbottle.sane hbottle.view h
    (.str (statusLine env status))
  -- the flag for the encoding changes nothing that is sent
  let r₂ : State := if hasLength env headers then { r₁ with chunkedEncoding := false } else r₁
  have hr₂ : r₂.Sane ∧ r₂.bytes = r₁.bytes ∧ r₂.view = r₁.view ∧ r₂.headersSent = r₁.headersSent ∧
      r₂.chunkedEncoding = (r₁.chunkedEncoding && !hasLength env headers) ∧
      r₂.inside = r₁.inside ∧ r₂.ended = r₁.ended := by
    by_cases hlength : hasLength env headers = true
    · have hr₂ : r₂ = { r₁ with chunkedEncoding := false } := if_pos hlength
      rw [hr₂, hlength]
      exact ⟨hline.sane, rfl, rfl, rfl, (Bool.and_false _).symm, rfl, rfl⟩
    · have hr₂ : r₂ = r₁ := if_neg hlength
      rw [hr₂, Bool.not_eq_true _ |>.mp hlength]
      exact ⟨hline.sane, rfl, rfl, rfl, (Bool.and_true _).symm, rfl, rfl⟩
  obtain ⟨hsane₂, hbytes₂, hview₂, hsent₂, hchunked₂, hinside₂, hended₂⟩ := hr₂
  obtain ⟨r₃, hall, hfields⟩ := sendAll_spec hsane₂ (hview₂.trans hline.view) h
    (headerFields env headers)
  obtain ⟨r₄, hlast, hcrlf⟩ := send_last (v := r.view)
    (n := 1 + (headerFields env headers).length) hfields.sane hfields.view h (.str crlf)
    (fun _ => by rw [Nat.add_assoc])
  refine ⟨{ r₄ with headersSent := true }, ?_, hcrlf.sane, ?_, ?_, rfl, ?_, ?_, ?_⟩
  · rw [writeHead, if_neg (by rw [hsent]; exact Bool.false_ne_true)]
    simp only [hsend₁, Option.bind_eq_bind, Option.bind_some]
    change Option.bind (List.foldlM (fun r field =>
      State.send r h (.str (headerLine env field)) false) r₂ (headerFields env headers)) _ = _
    rw [hall, Option.bind_some]
    change Option.bind (r₃.send h (.str crlf) (!r.view.bottled)) _ = _
    rw [hlast]
    rfl
  · change r₄.bytes = _
    rw [hcrlf.bytes, hfields.bytes, hbytes₂, hline.bytes, hbottle.bytes]
    simp [headBytes, chunkBytes]
  · change r₄.view = _
    rw [hcrlf.view, headWrites]
    congr 1
    omega
  · change r₄.chunkedEncoding = _
    rw [hcrlf.chunkedEncoding, hfields.chunkedEncoding, hchunked₂, hline.chunkedEncoding,
      hbottle.chunkedEncoding]
  · change r₄.inside = _
    rw [hcrlf.inside, hfields.inside, hinside₂, hline.inside, hbottle.inside]
  · change r₄.ended = _
    rw [hcrlf.ended, hfields.ended, hended₂, hline.ended, hbottle.ended]

section chunkLen

variable {s s' : Buffer.State} {n : ℕ}

/-- The memory once the digits of a length are in the scratch Buffer that `write` makes: at the
fill mark of the block `lev_buffer_new` takes, with zeros behind them. -/
def scratch (s : Buffer.State) (n : ℕ) : Heap :=
  (staticBlock s 32).elim s.heap fun r => s.heap.store r.1 (r.2.blocks r.1).nbytes
    (hexText false n ++ List.replicate (32 - (hexText false n).length) 0)

/-- That Buffer lies inside its block. -/
def roomy (s : Buffer.State) : Bool :=
  (staticBlock s 32).all fun r => decide ((r.2.blocks r.1).nbytes + 32 ≤ (r.2.blocks r.1).size)

theorem hexText_length (n : ℕ) : 0 < (hexText false n).length ∧ (hexText false n).length ≤ 16 := by
  rw [hexText, List.length_map]
  exact hexDigits_length 15 n

theorem bufferWriteHexLower_eq (h : Heap) {ms : MemSlice} (hlen : ms.untilLen = 32)
    (hend : ms.slice < 2 ^ 64) (hn : n < 2 ^ 31) :
    (bufferWriteHexLower ms (some n) 1).ends h =
      .ok ((hexText false n).length, h.store ms.mb ms.slice (hexText false n)) := by
  obtain ⟨-, hle⟩ := hexText_length n
  have hint : toSizeT (toInt (toSizeT n)) = n := by
    rw [toSizeT_natCast (by omega), toInt_of_lt hn, toSizeT_natCast (by omega)]
  have hone : toSizeT 1 = 1 := toSizeT_natCast (n := 1) (by decide)
  have hroom : szSub ms.untilLen (hexText false n).length = 32 - (hexText false n).length := by
    rw [hlen, szSub_of_le (by omega) (by decide)]
  have hoffset : bufferGetoffset ms 3 1 (hexText false n).length = .ok 0 := by
    rw [bufferGetoffset, hone, hroom, if_neg (by omega)]
  have hstart : szAdd ms.slice 0 = ms.slice := by
    rw [szAdd_of_lt (by omega), Nat.add_zero]
  rw [Accessor.ends, bufferWriteHexLower, bufferWriteHex_eq, hint, hoffset]
  dsimp only
  rw [hstart]

theorem bufferSlice_prefix {o : ObjId} {ms : MemSlice} (ho : s.slice? o = some ms) {k : ℕ}
    (hpos : 0 < k) (hle : k ≤ ms.untilLen) (hlt : k < 2 ^ 64) :
    bufferSlice s o 1 k =
      .ok { s.push ⟨ms.mb, ms.slice, k⟩ with heap := levSlabIncRef s.heap ms.mb } := by
  have hone : toSizeT 1 = 1 := toSizeT_natCast (n := 1) (by decide)
  have hk : toSizeT k = k := toSizeT_natCast hlt
  rw [bufferSlice, ho]
  simp only [hone, hk, Nat.one_ne_zero, if_false, Nat.ne_of_gt hpos, Nat.sub_self, Nat.sub_zero,
    Nat.add_zero]
  rw [if_neg (by omega), if_neg (by omega)]

theorem store_front (h : Heap) (mb off : ℕ) {front : List UInt8} {m : ℕ} (hle : front.length ≤ m) :
    ((h.store mb off (List.replicate m 0)).store mb off front).bytes =
      (h.store mb off (front ++ List.replicate (m - front.length) 0)).bytes := by
  have hsplit : List.replicate m (0 : UInt8) =
      List.replicate front.length 0 ++ List.replicate (m - front.length) 0 := by
    rw [List.replicate_append_replicate, Nat.add_sub_cancel' hle]
  funext c i
  simp only [hsplit, Heap.store, List.length_append, List.length_replicate]
  by_cases hfirst : c = mb ∧ off ≤ i ∧ i < off + front.length
  · rw [if_pos hfirst, if_pos ⟨hfirst.1, hfirst.2.1, by omega⟩,
      List.getD_append _ _ _ _ (by omega)]
  · rw [if_neg hfirst]
    by_cases hboth : c = mb ∧ off ≤ i ∧ i < off + (front.length + (m - front.length))
    · have hge : off + front.length ≤ i := by
        by_contra hlt
        exact hfirst ⟨hboth.1, hboth.2.1, by omega⟩
      rw [if_pos hboth, if_pos hboth,
        List.getD_append_right _ _ _ _ (by rw [List.length_replicate]; omega),
        List.getD_append_right _ _ _ _ (by omega), List.length_replicate]
    · rw [if_neg hboth, if_neg hboth]

/-- The block `lev_buffer_new` takes is not filled past what a `size_t` counts. -/
theorem staticBlock_fill {size : ℕ} {mb : BlockId} {h : Heap}
    (hsizes : ∀ b, (s.heap.blocks b).nbytes < 2 ^ 64) (hs : staticBlock s size = some (mb, h)) :
    (h.blocks mb).nbytes < 2 ^ 64 := by
  have hnew : ∀ {g : Heap}, levSlabGetBlock g size = some (mb, h) →
      (h.blocks mb).nbytes < 2 ^ 64 := by
    intro g hg
    rw [(getBlock_block hg).1]
    decide
  unfold staticBlock at hs
  split at hs
  · split at hs
    · exact hnew hs
    · cases hs
      exact hsizes mb
  · exact hnew hs

/-- The Buffers of one state are those of another, and more, over the memory `h`. -/
structure Keeps (s s' : Buffer.State) (h : Heap) : Prop where
  slices : ∀ o ms, s.slice? o = some ms → s'.slice? o = some ms
  bytes : s'.heap.bytes = h.bytes

theorem keeps_refl (s : Buffer.State) : Keeps s s s.heap := ⟨fun _ _ ho => ho, rfl⟩

theorem chunkLen_spec (hsizes : ∀ b, (s.heap.blocks b).nbytes < 2 ^ 64) (hn : n < 2 ^ 31) :
    ∃ digits s', chunkLen s n = some (digits, s') ∧ digits.contents s'.heap = hexText false n ∧
      Keeps s s' (scratch s n) ∧
      decide (digits.slice + 32 ≤ (s'.heap.blocks digits.mb).size) = roomy s := by
  obtain ⟨hpos, hle⟩ := hexText_length n
  obtain ⟨mb, g, t, hst, hnew, hobjs, hbytes, hblock, -⟩ :=
    levBufferNew_stores s none 0 (show 0 < 32 by decide) (by decide)
  have hfill := staticBlock_fill hsizes hst
  have hscratch : scratch s n = s.heap.store mb (g.blocks mb).nbytes
      (hexText false n ++ List.replicate (32 - (hexText false n).length) 0) := by
    rw [scratch, hst, Option.elim_some]
  have hroomy : roomy s = decide ((g.blocks mb).nbytes + 32 ≤ (g.blocks mb).size) := by
    rw [roomy, hst, Option.all_some]
  generalize (g.blocks mb).nbytes = off at *
  let ms : MemSlice := ⟨mb, off, 32⟩
  have hsize : NewArg.size (.number 32) = 32 := toSizeT_natCast (n := 32) (by decide)
  have hbuffer : bufferNew s (.number 32) =
      .ok { t with created := s.objs.length :: s.created } := by
    rw [bufferNew, hsize]
    simp only [NewArg.temp, hnew]
  have hlen : ms.untilLen = 32 := rfl
  have hhex := bufferWriteHexLower_eq (n := n) t.heap hlen hfill hn
  let t' : Buffer.State := { t with
    created := s.objs.length :: s.created
    heap := t.heap.store mb off (hexText false n) }
  let digits : MemSlice := ⟨mb, off, (hexText false n).length⟩
  have hlast : ∀ (objs : List (Option MemSlice)) (x : MemSlice),
      ((objs ++ [some x])[(objs ++ [some x]).length - 1]?).join = some x := by
    intro objs x
    simp
  have hnewest : (t.objs[t.objs.length - 1]?).join = some ms := by
    rw [hobjs]
    exact hlast _ ms
  have hslice : bufferSlice t' (t.objs.length - 1) 1 (hexText false n).length =
      .ok { t'.push digits with heap := levSlabIncRef t'.heap mb } :=
    bufferSlice_prefix (s := t') hnewest hpos (hle.trans (show 16 ≤ 32 by decide)) (by omega)
  have hok : ∀ {α : Type} (x : α), (Except.ok x : Except Fault α).toOption = some x := fun _ => rfl
  refine ⟨digits, { t'.push digits with heap := levSlabIncRef t'.heap mb }, ?_, ?_, ⟨?_, ?_⟩, ?_⟩
  · simp only [chunkLen, hbuffer, hok, Option.bind_eq_bind, Option.bind_some, State.slice?,
      hnewest, hhex]
    change Option.bind (bufferSlice t' (t.objs.length - 1) 1 (hexText false n).length).toOption
      _ = _
    rw [hslice, hok, Option.bind_some]
    change Option.bind ((t.objs ++ [some digits])[(t.objs ++ [some digits]).length - 1]?).join
      _ = _
    rw [hlast]
    rfl
  · exact Heap.load_store_self _ _ _ _
  · intro o old ho
    change ((t.objs ++ [some digits])[o]?).join = some old
    rw [hobjs, List.append_assoc, List.getElem?_append_left (slice?_lt ho)]
    exact ho
  · rw [hscratch, ← store_front s.heap mb off (m := 32) (by omega)]
    exact store_congr mb off (hexText false n) hbytes
  · rw [hroomy, levSlabIncRef_size, ← hblock]
    rfl

end chunkLen

/-- The memory when a chunk is sent. -/
def Piece.memory (p : Piece env) (chunked : Bool) : Heap :=
  if chunked then scratch p.state p.bytes.length else p.state.heap

/-- The bytes of a chunk when it is sent. -/
def Piece.sent (p : Piece env) (chunked : Bool) : List UInt8 :=
  (operandBytes { p.state with heap := p.memory chunked } p.operand).getD []

def Piece.inside (p : Piece env) (chunked : Bool) : Bool := !chunked || roomy p.state

/-- What a chunk is sent as. -/
def bodyBytes (chunked : Bool) (p : Piece env) : List UInt8 :=
  if chunked then chunk (hexText false p.bytes.length) (p.sent true) else p.bytes

def bodyWrites (chunked : Bool) : ℕ := if chunked then 4 else 1

theorem chunkBytes_congr {h h' : Heap} (hb : h.bytes = h'.bytes) (data : Chunk) :
    chunkBytes h data = chunkBytes h' data := by
  cases data with
  | str t => rfl
  | buffer ms => exact contents_congr ms hb

theorem Piece.toChunk_eq (p : Piece env) :
    ∃ data, toChunk p.state p.operand = some data ∧
      operandLen p.state p.operand = p.bytes.length ∧ chunkBytes p.state.heap data = p.bytes ∧
      ∀ chunked, chunkBytes (p.memory chunked) data = p.sent chunked := by
  have heq := p.eq
  cases ho : p.operand with
  | str t =>
    rw [ho, operandBytes, Option.some.injEq] at heq
    refine ⟨.str t, rfl, by rw [← heq]; rfl, heq, fun chunked => ?_⟩
    rw [Piece.sent, ho]
    rfl
  | buffer o =>
    rw [ho] at heq
    obtain ⟨ms, hms, hbytes⟩ := operandBytes_buffer heq
    refine ⟨.buffer ms, by rw [toChunk, hms]; rfl, ?_, hbytes.symm, fun chunked => ?_⟩
    · rw [operandLen, hms, hbytes, contents_length']
      rfl
    · have hlive : State.slice? { p.state with heap := p.memory chunked } o = some ms := hms
      rw [Piece.sent, ho, operandBytes, hlive]
      rfl

/-- A scratch Buffer is noted in the log. -/
def State.note (r : State) (ok : Bool) : State := { r with inside := r.inside && ok }

/-- What comes behind the headers, `n` writes after the call began in `v`. -/
theorem sendBody_spec {q n : ℕ} {v : View} (hr : r.Sane) (hv : r.view = ⟨true, q⟩)
    (hq : v.bottled = true → q = (v.pending + n) % bufferMaxChunks) (p : Piece env) :
    ∃ r' s', sendBody p.state r p.operand v.bottled = some (r', s') ∧
      Sent (r.note (p.inside r.chunkedEncoding)) r' (bodyBytes r.chunkedEncoding p)
        (v.after (n + bodyWrites r.chunkedEncoding)) ∧
      Keeps p.state s' (p.memory r.chunkedEncoding) := by
  obtain ⟨data, hdata, hlength, hbytes, hsentBytes⟩ := p.toChunk_eq
  cases hchunked : r.chunkedEncoding with
  | false =>
    obtain ⟨r', hsend, hsent⟩ := send_last hr hv p.state.heap data hq
    rw [hbytes] at hsent
    refine ⟨r', p.state, ?_, ?_, keeps_refl _⟩
    · simp only [sendBody, hdata, hchunked, hsend, Option.bind_eq_bind, Option.bind_some]
      rfl
    · have hsame : r.note (p.inside false) = r := by
        rw [State.note, Piece.inside, Bool.not_false, Bool.true_or, Bool.and_true]
      rw [hsame]
      exact hsent
  | true =>
    obtain ⟨digits, s', hdigits, hcontents, hkeeps, hroomy⟩ := chunkLen_spec p.sizes p.short
    have hr₀ : (r.note (roomy p.state)).Sane := hr
    obtain ⟨r₁, hsend₁, hsent₁⟩ := send_bottled hr₀ hv s'.heap (.buffer digits)
    obtain ⟨r₂, hsend₂, hsent₂⟩ := send_bottled hsent₁.sane hsent₁.view s'.heap (.str crlf)
    obtain ⟨r₃, hsend₃, hsent₃⟩ := send_bottled hsent₂.sane hsent₂.view s'.heap data
    have hthree : v.bottled = true → (((q + 1) % bufferMaxChunks + 1) % bufferMaxChunks + 1) %
        bufferMaxChunks = (v.pending + (n + 3)) % bufferMaxChunks := by
      intro hbottled
      have := hq hbottled
      rw [bufferMaxChunks] at this ⊢
      omega
    obtain ⟨r₄, hsend₄, hsent₄⟩ := send_last hsent₃.sane hsent₃.view s'.heap (.str crlf) hthree
    refine ⟨r₄, s', ?_, ?_, hkeeps⟩
    · simp only [sendBody, hdata, hlength, Option.bind_eq_bind, Option.bind_some]
      rw [if_pos hchunked]
      simp only [hdigits, hroomy, Option.bind_some]
      change Option.bind ((r.note (roomy p.state)).send s'.heap (.buffer digits) false) _ = _
      simp only [hsend₁, hsend₂, hsend₃, hsend₄, Option.bind_some]
      rfl
    · have hall := ((hsent₁.trans hsent₂).trans hsent₃).trans hsent₄
      have hdataBytes : chunkBytes s'.heap data = p.sent true :=
        (chunkBytes_congr hkeeps.bytes data).trans (hsentBytes true)
      rw [hdataBytes] at hall
      simp only [chunkBytes, hcontents] at hall
      exact hall

theorem hasLength_none (env : Env) : hasLength env none = false := by
  have hkeys : (allFields env none).map Prod.fst = [ascii "server", ascii "connection",
      ascii "content-type", ascii "date"] := rfl
  rw [hasLength, ← Bool.not_eq_true, List.any_eq_true]
  rintro ⟨field, hfield, hkey⟩
  have hmem := List.mem_map_of_mem (f := Prod.fst) hfield
  rw [hkeys, beq_iff_eq.mp hkey] at hmem
  revert hmem
  decide

/-- The headers that `write` sends first, if that was not done. -/
def openBytes (env : Env) (sent : Bool) : List UInt8 :=
  if sent then [] else headBytes env (.number 200) none

def openWrites (env : Env) (sent : Bool) : ℕ := if sent then 0 else headWrites env none

theorem openHead_spec (env : Env) {q : ℕ} (hr : r.Sane) (hv : r.view = ⟨true, q⟩) (h : Heap) :
    ∃ r', openHead env h r = some r' ∧
      r'.Sane ∧ r'.bytes = r.bytes ++ openBytes env r.headersSent ∧
      r'.view = ⟨true, (q + openWrites env r.headersSent) % bufferMaxChunks⟩ ∧
      r'.headersSent = true ∧ r'.chunkedEncoding = r.chunkedEncoding ∧ r'.inside = r.inside ∧
      r'.ended = r.ended := by
  rw [openHead]
  cases hsent : r.headersSent with
  | true =>
    have hlt := hr.pending_lt
    rw [hv] at hlt
    refine ⟨r, rfl, hr, (List.append_nil _).symm, ?_, hsent, rfl, rfl, rfl⟩
    rw [hv, openWrites, if_pos rfl, Nat.add_zero, Nat.mod_eq_of_lt hlt]
  | false =>
    obtain ⟨r', hhead, hsane, hbytes, hview, hsent', hchunked, hinside, hended⟩ :=
      writeHead_spec hr hsent h (.number 200) none
    refine ⟨r', hhead, hsane, hbytes, ?_, hsent', ?_, hinside, hended⟩
    · rw [hview, hv]
      rfl
    · rw [hchunked, hasLength_none, Bool.not_false, Bool.and_true]

/-- What a call has written and where it leaves the response. -/
structure Did (r r' : State) (bs : List UInt8) (n : ℕ) (inside : Bool) : Prop where
  sane : r'.Sane
  bytes : r'.bytes = r.bytes ++ bs
  view : r'.view = r.view.after n
  headersSent : r'.headersSent = true
  inside : r'.inside = (r.inside && inside)
  ended : r'.ended = r.ended

/-- A call of `write`, which sends the headers first, if that was not done. -/
theorem write_spec (hr : r.Sane) (p : Piece env) :
    ∃ r' s', write env p.state r p.operand = some (r', s') ∧
      Did r r' (openBytes env r.headersSent ++ bodyBytes r.chunkedEncoding p)
        (openWrites env r.headersSent + bodyWrites r.chunkedEncoding)
        (p.inside r.chunkedEncoding) ∧
      r'.chunkedEncoding = r.chunkedEncoding ∧
      Keeps p.state s' (p.memory r.chunkedEncoding) := by
  have hbottle := bottle_spec hr
  obtain ⟨r₁, hopen, hsane₁, hbytes₁, hview₁, hsent₁, hchunked₁, hinside₁, hended₁⟩ :=
    openHead_spec env hbottle.sane hbottle.view p.state.heap
  rw [hbottle.headersSent] at hbytes₁ hview₁
  rw [hbottle.chunkedEncoding] at hchunked₁
  obtain ⟨r₂, s', hbody, hsent₂, hkeeps⟩ := sendBody_spec (v := r.view) hsane₁ hview₁
    (fun _ => rfl) p
  rw [hchunked₁] at hsent₂ hkeeps
  refine ⟨r₂, s', ?_, ⟨hsent₂.sane, ?_, hsent₂.view, ?_, ?_, ?_⟩, ?_, hkeeps⟩
  · simp only [write, hopen, Option.bind_eq_bind, Option.bind_some]
    exact hbody
  · rw [hsent₂.bytes, State.note, hbytes₁, hbottle.bytes, List.append_nil, List.append_assoc]
  · rw [hsent₂.headersSent, State.note, hsent₁]
  · rw [hsent₂.inside, State.note, hinside₁, hbottle.inside]
  · rw [hsent₂.ended, State.note, hended₁, hbottle.ended]
  · rw [hsent₂.chunkedEncoding]
    exact hchunked₁

/-- The bytes of `CHUNKED_NO_TRAILER` in the memory `h`. -/
def Buffers.terminator (b : Buffers env) (h : Heap) : List UInt8 :=
  (operandBytes { b.state with heap := h } (.buffer env.noTrailer)).getD []

theorem Buffers.terminator_length (b : Buffers env) (h : Heap) : (b.terminator h).length = 5 := by
  obtain ⟨ms, hms, hlen⟩ := b.trailer
  have hlive : State.slice? { b.state with heap := h } env.noTrailer = some ms := hms
  rw [Buffers.terminator, operandBytes, hlive, Option.map_some, Option.getD_some, contents_length',
    hlen]

/-- What ends a chunked body. -/
def Last.terminator : Last env → List UInt8
  | .none b => b.terminator b.state.heap
  | .some p => p.terminator (p.memory true)

/-- What `fin` writes on a response with these flags. -/
def Last.bytes (sent chunked : Bool) (last : Last env) : List UInt8 :=
  match last with
  | .none _ => if chunked then last.terminator else []
  | .some p =>
    if chunked then openBytes env sent ++ bodyBytes true p ++ last.terminator else p.bytes

/-- The chunk that is passed to `fin`, if one is. -/
def Last.piece? : Last env → Option (Piece env)
  | .none _ => Option.none
  | .some p => Option.some p

/-- Whether `fin` writes at all; its last write flushes. -/
def Last.writes (chunked : Bool) : Last env → Bool
  | .none _ => chunked
  | .some _ => true

theorem trailer_spec (hr : r.Sane) (b : Buffers env) {s : Buffer.State} {h : Heap}
    (hkeeps : Keeps b.state s h) :
    ∃ trailer r', toChunk s (.buffer env.noTrailer) = some trailer ∧
      r.send s.heap trailer true = some r' ∧ Sent r r' (b.terminator h) ⟨false, 0⟩ := by
  obtain ⟨ms, hms, -⟩ := b.trailer
  obtain ⟨r', hsend, hsent⟩ := send_flush hr s.heap (.buffer ms)
  refine ⟨.buffer ms, r', by rw [toChunk, hkeeps.slices _ ms hms]; rfl, hsend, ?_⟩
  have hlive : State.slice? { b.state with heap := h } env.noTrailer = some ms := hms
  have hbytes : chunkBytes s.heap (.buffer ms) = b.terminator h := by
    rw [Buffers.terminator, operandBytes, hlive]
    exact contents_congr ms hkeeps.bytes
  rwa [hbytes] at hsent

theorem fin_spec (hr : r.Sane) (last : Last env) :
    ∃ r', last.run r = some r' ∧ r'.Sane ∧
      r'.bytes = r.bytes ++ last.bytes r.headersSent r.chunkedEncoding ∧
      r'.view = (if last.writes r.chunkedEncoding then ⟨false, 0⟩ else r.view) ∧
      r'.inside = (r.inside && last.piece?.all fun p => p.inside r.chunkedEncoding) := by
  cases last with
  | none b =>
    cases hchunked : r.chunkedEncoding with
    | true =>
      obtain ⟨trailer, r', htrailer, hsend, hsent⟩ := trailer_spec hr b (keeps_refl _)
      refine ⟨{ r' with ended := some (if env.keepAlive then .reinit else .close) }, ?_,
        hsent.sane, hsent.bytes, hsent.view, hsent.inside.trans (Bool.and_true _).symm⟩
      simp only [Last.run, fin, hchunked, htrailer, hsend, if_true, Option.bind_eq_bind,
        Option.bind_some]
      rfl
    | false =>
      refine ⟨{ r with ended := some (if env.keepAlive then .reinit else .close) }, ?_, hr,
        (List.append_nil _).symm, rfl, (Bool.and_true _).symm⟩
      simp only [Last.run, fin, hchunked, Bool.false_eq_true, if_false, Option.bind_eq_bind,
        Option.bind_some]
      rfl
  | some p =>
    cases hchunked : r.chunkedEncoding with
    | true =>
      have hr₁ : State.Sane { r with client := tcpBottle r.client } := by
        obtain ⟨chunks, hinv⟩ := hr
        exact ⟨chunks, inv_bottle hinv⟩
      obtain ⟨r₂, s', hwrite, hdid, -, hkeeps⟩ := write_spec hr₁ p
      simp only [hchunked] at hdid hkeeps
      obtain ⟨trailer, r₃, htrailer, hsend, hsent⟩ := trailer_spec hdid.sane p.toBuffers hkeeps
      refine ⟨{ r₃ with ended := some (if env.keepAlive then .reinit else .close) }, ?_,
        hsent.sane, ?_, hsent.view, ?_⟩
      · simp only [Last.run, fin, if_pos hchunked, hwrite, htrailer, hsend,
          Option.bind_eq_bind, Option.bind_some]
        rfl
      · change r₃.bytes = _
        rw [hsent.bytes, hdid.bytes]
        simp only [Last.bytes, Last.terminator, if_true, List.append_assoc]
      · change r₃.inside = _
        rw [hsent.inside, hdid.inside]
        rfl
    | false =>
      obtain ⟨data, hdata, -, hbytes, -⟩ := p.toChunk_eq
      obtain ⟨r', hsend, hsent⟩ := send_flush hr p.state.heap data
      rw [hbytes] at hsent
      refine ⟨{ r' with ended := some (if env.keepAlive then .reinit else .close) }, ?_,
        hsent.sane, hsent.bytes, hsent.view, hsent.inside.trans (Bool.and_true _).symm⟩
      simp only [Last.run, fin, hchunked, hdata, hsend, Bool.false_eq_true, if_false,
        Option.bind_eq_bind, Option.bind_some]
      rfl

/-- The chunks that are passed to `write`. -/
def Call.piece? : Call env → Option (Piece env)
  | .writeHead _ _ _ => none
  | .write p => some p

/-- `writes` calls of `write` on a response whose headers are sent. -/
theorem writes_spec (hr : r.Sane) (hsent : r.headersSent = true) (pieces : List (Piece env)) :
    ∃ r', (pieces.map Call.write).foldlM Call.run r = some r' ∧
      Did r r' (pieces.flatMap (bodyBytes r.chunkedEncoding))
        (pieces.length * bodyWrites r.chunkedEncoding)
        (pieces.all fun p => p.inside r.chunkedEncoding) ∧
      r'.chunkedEncoding = r.chunkedEncoding := by
  induction pieces generalizing r with
  | nil =>
    refine ⟨r, rfl, ⟨hr, (List.append_nil _).symm, ?_, hsent, (Bool.and_true _).symm, rfl⟩, rfl⟩
    rw [List.length_nil, Nat.zero_mul, hr.after_zero]
  | cons p pieces ih =>
    obtain ⟨r₁, s', hwrite, hdid, hchunked, -⟩ := write_spec hr p
    obtain ⟨r₂, hrest, hdid₂, hchunked₂⟩ := ih hdid.sane hdid.headersSent
    rw [hchunked] at hdid₂ hchunked₂
    refine ⟨r₂, ?_, ⟨hdid₂.sane, ?_, ?_, hdid₂.headersSent, ?_, hdid₂.ended.trans hdid.ended⟩,
      hchunked₂⟩
    · rw [List.map_cons, List.foldlM_cons, Call.run, hwrite]
      exact hrest
    · rw [hdid₂.bytes, hdid.bytes, hsent]
      simp [openBytes]
    · rw [hdid₂.view, hdid.view, View.after_after, hsent]
      congr 1
      simp [openWrites]
      ring
    · rw [hdid₂.inside, hdid.inside, List.all_cons, Bool.and_assoc]

end Lev.Response
