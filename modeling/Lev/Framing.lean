import Lev.BufferContents
import Lev.MPackRoundTrip
import Lev.ReadLoop

/-! The framing of packets on the IPC pipe. The read callbacks keep nothing from one read
to the next, so a packet is processed only if one read holds all of it. -/
namespace Lev.Ipc
open CInt Endian Slab Memory Lua MPack

/-- A read: the memory at that time, and the bytes that have come. -/
structure PipeRead where
  memory : Reader
  data : List UInt8
  sized : ∀ mb, memory.staticMb = some mb → 0 < (memory.heap.blocks mb).size
  small : data.length ≤ staticMbSize

/-- A `process_packet` that writes down its calls. -/
def record : Process (List Received) :=
  fun rs h packet len buf => some (rs ++ [⟨h, packet, len, buf⟩])

/-- The read callback, behind the calls of `process_packet` made so far. -/
def handleRead (grants : Grants) (rs : List Received) (t : PipeRead) : Option (List Received) :=
  match readData t.memory t.data with
  | some (some buf, s) => onRead grants record s.heap buf t.data.length rs
  | _ => none

/-- All calls of `process_packet`; `none` where a callback raised an error. -/
def handleReads (grants : Grants) (ts : List PipeRead) : Option (List Received) :=
  ts.foldlM (handleRead grants) []

/-- The packet `v` as it was packed in heap `h`. -/
structure AsSent (h : Heap) (v : LuaValue) (r : Received) : Prop where
  same : Same r.heap v r.packet
  len_eq : r.len = (toWire h v).len
  front : ∃ rest, r.buf.contents r.heap = (toWire h v).bytes ++ rest

/-- What is written for the packets `vs`. -/
def written (h : Heap) (vs : List LuaValue) : List UInt8 := Wire.bytesList (vs.map (toWire h))

def WholeReads (h : Heap) (vs : List LuaValue) (ts : List PipeRead) : Prop :=
  ∃ vss : List (List LuaValue), vss.flatten = vs ∧
    List.Forall₂ (fun ws t => ws ≠ [] ∧ t.data = written h ws) vss ts

theorem onAlloc_isSome (s : Reader) : ∃ buf s', onAlloc s = some (buf, s') := by
  have hblock : ∀ h, ∃ r, levSlabGetBlock h staticMbSize = some r := by
    intro h
    refine Option.ne_none_iff_exists'.mp fun hnone => ?_
    rw [levSlabGetBlock_eq_none, staticMbSize] at hnone
    omega
  unfold onAlloc
  split
  · rename_i mb _
    split
    · obtain ⟨r, hr⟩ := hblock (levSlabDecRef s.heap mb)
      exact ⟨_, _, by rw [hr]; rfl⟩
    · exact ⟨_, _, rfl⟩
  · obtain ⟨r, hr⟩ := hblock s.heap
    exact ⟨_, _, by rw [hr]; rfl⟩

theorem readData_isSome (t : PipeRead) :
    ∃ buf s, readData t.memory t.data = some (some buf, s) ∧ 0 < (s.heap.blocks buf.mb).size := by
  obtain ⟨buf, s, ha⟩ := onAlloc_isSome t.memory
  obtain ⟨hst, -, hpos⟩ := Buffer.onAlloc_sized t.sized ha
  have hread : (t.data.length : ℤ) ≠ -1 := by omega
  simp only [readData, ha, Option.bind_some, levPushbufferFromStaticMb, hst, Option.map_some,
    if_neg hread, levPushbufferFromMb]
  refine ⟨_, _, rfl, ?_⟩
  simp only [Heap.addNbytes, Heap.setBlock_blocks, Function.update_self]
  split <;> simpa [levSlabIncRef_size] using hpos

theorem bytes_eq_of_legal {x y : Wire} (hx : x.Legal) (hy : y.Legal) {r r' : List UInt8}
    (h : x.bytes ++ r = y.bytes ++ r') : x.bytes = y.bytes := by
  let m : Machine :=
    { mb := none, base := 0, data := x.bytes ++ r, ofs := 0, err := false, mapKeying := false,
      heap := Heap.boot fun _ _ => 0, stack := [], tables := [], loads := [], rawsets := [] }
  have hfuel : (x.bytes ++ r).length < (x.bytes ++ r).length + 1 := Nat.lt_succ_self _
  obtain ⟨m₁, v, hm₁, ht₁⟩ := takes_of_length hx hfuel m r rfl rfl Grants.all_true
  obtain ⟨m₂, w, hm₂, ht₂⟩ := takes_of_length hy (h ▸ hfuel) m r' rfl h Grants.all_true
  rw [h] at hm₁
  cases hm₁.symm.trans hm₂
  have hlen : x.len = y.len := Nat.add_left_cancel (ht₁.ofs.symm.trans ht₂.ofs)
  exact (List.append_inj h hlen).1

theorem err_of_unpackResults {m : Machine} {n : Double} {v : LuaValue}
    (hr : unpackResults m = [.number n, v]) : m.err = false := by
  by_contra herr
  have hnot : ¬ (0 < m.ofs ∧ m.err = false) := fun h => herr h.2
  rw [unpackResults, if_neg hnot] at hr
  rcases hst : m.stack with _ | ⟨v, _ | ⟨w, stack⟩⟩
  · simp [hst, luaReplace] at hr
  · simp [hst, luaReplace] at hr
  · simp [hst, luaReplace] at hr

section granted
variable {grants : Grants}

theorem legal_of_unpack {h h' : Heap} {buf : MemSlice} {len : ℕ} {v : LuaValue}
    (hu : unpack grants h buf = some (len, v, h')) :
    ∃ (x : Wire) (rest : List UInt8), x.Legal ∧ buf.contents h = x.bytes ++ rest := by
  unfold unpack msgpackUnpack at hu
  split at hu
  · rename_i n packet h₁ hres
    split at hres
    · cases hres
    · obtain ⟨m, hrun, hret⟩ := bind_eq_ok.mp hres
      have herr : m.err = false := by
        have heq := Except.ok.inj hret
        rw [Prod.mk.injEq] at heq
        exact err_of_unpackResults heq.1
      have hfuel : (unpackStart h buf).left < buf.untilLen + 1 := by
        rw [unpackStart_left]
        exact Nat.lt_succ_self _
      obtain ⟨x, rest, _, hx, hdata, _⟩ := unpackAnytype_accepted hfuel hrun herr
      exact ⟨x, rest, hx, hdata⟩
  · cases hu

/-- A loop that succeeds on a part of a stream of legal trees has found whole ones. -/
theorem readLoop_ok {σ : Type} {process : Process σ} {fuel at_ nread : ℕ} {h : Heap}
    {buf : MemSlice} {s s' : σ} (hrun : readLoop grants process fuel at_ nread h buf s = some s')
    {xs : List Wire} (hx : ∀ x ∈ xs, x.Decodable grants) {rest : List UInt8}
    (hdata : buf.contents h ++ rest = Wire.bytesList xs) (hpos : buf.untilLen ≠ 0)
    (hsmall : buf.untilLen < 2 ^ 31) (hat : at_ + buf.untilLen = nread) :
    ∃ ys zs, xs = ys ++ zs ∧ ys ≠ [] ∧ buf.contents h = Wire.bytesList ys := by
  induction fuel generalizing at_ h buf s xs with
  | zero => cases hrun
  | succ fuel ih =>
    have hlen := contents_length h buf
    cases xs with
    | nil =>
      have hnil : buf.contents h = [] := (List.append_eq_nil_iff.mp hdata).1
      rw [hnil] at hlen
      exact absurd hlen.symm hpos
    | cons x xs =>
      have hfirst := hx x List.mem_cons_self
      rw [readLoop] at hrun
      cases hu : unpack grants h buf with
      | none =>
        rw [hu] at hrun
        cases hrun
      | some r =>
        obtain ⟨len, packet, h'⟩ := r
        obtain ⟨y, rest', hy, hcontents⟩ := legal_of_unpack hu
        -- the tree that was found is the one that was written
        have hxy : x.bytes = y.bytes := by
          rw [hcontents, List.append_assoc, Wire.bytesList] at hdata
          exact bytes_eq_of_legal hfirst.legal hy hdata.symm
        rw [← hxy] at hcontents
        obtain ⟨v, h'', hu', hsame, -⟩ := unpack_legal hfirst hcontents hsmall
        cases hu.symm.trans hu'
        have hrest : rest' ++ rest = Wire.bytesList xs := by
          rw [hcontents, Wire.bytesList, List.append_assoc] at hdata
          exact List.append_cancel_left hdata
        have hcount : buf.untilLen = x.bytes.length + rest'.length := by
          rw [← hlen, hcontents, List.length_append]
        simp only [hu] at hrun
        split at hrun
        · cases hrun
        · split at hrun
          · rename_i hmore
            have hin : x.bytes.length < buf.untilLen := by
              simp only [Wire.len] at hmore
              omega
            have hslice := slice_rest (h := h') hin hsmall
            have hl : x.len = x.bytes.length := rfl
            rw [hl, hslice] at hrun
            have hbytes : (levSlabIncRef h' buf.mb).bytes = h.bytes := hsame.bytes
            have hnext := (contents_congr hbytes _).trans (contents_slice hcontents)
            obtain ⟨ys, zs, hyz, _, hys⟩ := ih hrun (fun z hz => hx z (List.mem_cons_of_mem _ hz))
              (hnext ▸ hrest) (Nat.sub_ne_zero_of_lt hin)
              (show buf.untilLen - x.bytes.length < 2 ^ 31 by omega)
              (show at_ + x.bytes.length + (buf.untilLen - x.bytes.length) = nread by omega)
            refine ⟨x :: ys, zs, by rw [hyz]; rfl, List.cons_ne_nil _ _, ?_⟩
            rw [hcontents, Wire.bytesList, ← hys, hnext]
          · rename_i hend
            have hnil : rest' = [] := by
              refine List.eq_nil_of_length_eq_zero ?_
              simp only [Wire.len] at hend
              omega
            refine ⟨[x], xs, rfl, List.cons_ne_nil _ _, ?_⟩
            rw [hcontents, hnil, Wire.bytesList, Wire.bytesList]

theorem foldlM_record (rs₀ rs : List Received) :
    rs.foldlM (process1 record) rs₀ = some (rs₀ ++ rs) := by
  induction rs generalizing rs₀ with
  | nil => simp
  | cons r rs ih =>
    rw [List.foldlM_cons]
    have hone : process1 record rs₀ r = some (rs₀ ++ [r]) := rfl
    rw [hone, Option.bind_eq_bind, Option.bind_some, ih, List.append_assoc]
    rfl

/-- A call for tree `x`, out of a block that was handed out. -/
def Called (x : Wire) (r : Received) : Prop := ∃ h mb, Got h mb x r ∧ 0 < (h.blocks mb).size

section Reads

variable {rs rs' : List Received} {t : PipeRead} {xs : List Wire}

theorem data_small (t : PipeRead) : t.data.length < 2 ^ 31 := by
  have := t.small
  rw [staticMbSize] at this
  omega

theorem handleRead_ok (hrun : handleRead grants rs t = some rs') (hne : t.data ≠ [])
    (hx : ∀ x ∈ xs, x.Decodable grants) {rest : List UInt8}
    (hdata : t.data ++ rest = Wire.bytesList xs) :
    ∃ ys zs, xs = ys ++ zs ∧ ys ≠ [] ∧ t.data = Wire.bytesList ys := by
  obtain ⟨buf, s, hr, -⟩ := readData_isSome t
  have hlen : t.data.length ≠ 0 := fun hz => hne (List.eq_nil_of_length_eq_zero hz)
  obtain ⟨huntil, hcontents⟩ := (Buffer.readData_holds (data_small t) t.sized hr).mpr hlen
  simp only [handleRead, hr, onRead] at hrun
  obtain ⟨ys, zs, heq, hys, hd⟩ := readLoop_ok hrun hx (hcontents.symm ▸ hdata) (huntil ▸ hlen)
    (huntil ▸ data_small t) (by rw [huntil, Nat.zero_add])
  exact ⟨ys, zs, heq, hys, hcontents.symm.trans hd⟩

theorem handleRead_whole (hne : xs ≠ []) (hx : ∀ x ∈ xs, x.Decodable grants)
    (hdata : t.data = Wire.bytesList xs) :
    ∃ rs', (∀ rs, handleRead grants rs t = some (rs ++ rs')) ∧ List.Forall₂ Called xs rs' := by
  obtain ⟨buf, s, hr, hsize⟩ := readData_isSome t
  have hlen : t.data.length ≠ 0 := by
    have hcount := Wire.length_le_bytesList xs
    have := List.length_pos_of_ne_nil hne
    rw [hdata]
    omega
  obtain ⟨huntil, hcontents⟩ := (Buffer.readData_holds (data_small t) t.sized hr).mpr hlen
  have hfuel : (Wire.bytesList xs).length < t.data.length + 1 := by
    rw [← hdata]
    exact Nat.lt_succ_self _
  obtain ⟨rs', hgot, hloop⟩ := readLoop_whole record hne hx hfuel (hcontents.trans hdata)
    (huntil ▸ data_small t)
    (Nat.zero_add buf.untilLen)
  refine ⟨rs', fun rs => ?_, hgot.imp fun _ _ g => ⟨_, _, g, hsize⟩⟩
  simp only [handleRead, hr, onRead]
  rw [← foldlM_record, ← hloop rs, huntil]

/-- A read of nothing raises an error or makes a call for what the block held. -/
theorem handleRead_empty (hdata : t.data = []) (hrun : handleRead grants rs t = some rs') :
    rs'.length = rs.length + 1 := by
  obtain ⟨buf, s, hr, -⟩ := readData_isSome t
  simp only [handleRead, hr] at hrun
  rw [hdata, onRead, List.length_nil, readLoop] at hrun
  cases hu : unpack grants s.heap buf with
  | none =>
    rw [hu] at hrun
    cases hrun
  | some r =>
    rw [hu] at hrun
    simp only [record, Nat.not_lt_zero, if_false, Option.some.injEq] at hrun
    rw [← hrun, List.length_append, List.length_singleton]

end Reads

theorem written_append (h : Heap) (vs ws : List LuaValue) :
    written h (vs ++ ws) = written h vs ++ written h ws := by
  rw [written, List.map_append, Wire.bytesList_append]
  rfl

/-- Without an error the stream was cut between packets. A call too many was made for
each read of nothing. -/
theorem handleReads_ok {h : Heap} {vs : List LuaValue}
    (hlegal : ∀ v ∈ vs, (toWire h v).Decodable grants)
    {ts : List PipeRead} (hcut : (ts.map PipeRead.data).flatten = written h vs)
    {rs rs' : List Received} (hrun : ts.foldlM (handleRead grants) rs = some rs') :
    ∃ vss : List (List LuaValue), vss.flatten = vs ∧
      List.Forall₂ (fun ws t => t.data = written h ws) vss ts ∧
      rs'.length = rs.length + vs.length + vss.countP List.isEmpty := by
  induction ts generalizing vs rs with
  | nil =>
    have hnil : vs = [] := by
      have hcount := Wire.length_le_bytesList (vs.map (toWire h))
      have hbytes : Wire.bytesList (vs.map (toWire h)) = [] := hcut.symm
      rw [hbytes, List.length_map] at hcount
      exact List.eq_nil_of_length_eq_zero (Nat.le_zero.mp hcount)
    cases hrun
    exact ⟨[], hnil.symm, .nil, by rw [hnil]; rfl⟩
  | cons t ts ih =>
    rw [List.map_cons, List.flatten_cons] at hcut
    rw [List.foldlM_cons] at hrun
    obtain ⟨rs₁, hone, hrest⟩ := Option.bind_eq_some_iff.mp hrun
    rcases eq_or_ne t.data [] with hnil | hne
    · rw [hnil, List.nil_append] at hcut
      obtain ⟨vss, hflat, hall, hlen⟩ := ih hlegal hcut hrest
      refine ⟨[] :: vss, hflat, .cons hnil hall, ?_⟩
      rw [hlen, handleRead_empty hnil hone]
      simp only [List.countP_cons, List.isEmpty_nil, if_true]
      omega
    · have hx : ∀ x ∈ vs.map (toWire h), x.Decodable grants := by
        intro x hx
        obtain ⟨v, hv, rfl⟩ := List.mem_map.mp hx
        exact hlegal v hv
      obtain ⟨ys, zs, hsplit, hys, hdata⟩ := handleRead_ok hone hne hx hcut
      obtain ⟨ws, us, rfl, rfl, rfl⟩ := List.map_eq_append_iff.mp hsplit
      rw [written_append] at hcut
      have hdata' : t.data = written h ws := hdata
      have hrest' : (ts.map PipeRead.data).flatten = written h us :=
        List.append_cancel_left (hdata' ▸ hcut)
      obtain ⟨vss, hflat, hall, hlen⟩ := ih
        (fun v hv => hlegal v (List.mem_append_right _ hv)) hrest' hrest
      obtain ⟨new, hnew, hcalled⟩ := handleRead_whole hys
        (fun x hm => hx x (by rw [List.map_append]; exact List.mem_append_left _ hm)) hdata
      cases hone.symm.trans (hnew rs)
      have hcount := hcalled.length_eq
      rw [List.length_map] at hcount
      have hws : ws ≠ [] := fun hz => hys (by rw [hz]; rfl)
      refine ⟨ws :: vss, by rw [List.flatten_cons, hflat], .cons hdata' hall, ?_⟩
      rw [hlen, List.length_append, List.length_append, ← hcount, List.countP_cons,
        List.isEmpty_eq_false_iff.mpr hws]
      simp only [Bool.false_eq_true, if_false]
      omega

theorem handleReads_whole {h : Heap} {vss : List (List LuaValue)} {ts : List PipeRead}
    (hlegal : ∀ v ∈ vss.flatten, (toWire h v).Decodable grants)
    (hall : List.Forall₂ (fun ws t => ws ≠ [] ∧ t.data = written h ws) vss ts) :
    ∃ rs', (∀ rs, ts.foldlM (handleRead grants) rs = some (rs ++ rs')) ∧
      List.Forall₂ (fun v r => Called (toWire h v) r) vss.flatten rs' := by
  induction hall with
  | nil => exact ⟨[], fun rs => by simp, .nil⟩
  | cons hone _ ih =>
    rename_i ws t vss ts _
    rw [List.flatten_cons] at hlegal
    have hx : ∀ x ∈ ws.map (toWire h), x.Decodable grants := by
      intro x hx
      obtain ⟨v, hv, rfl⟩ := List.mem_map.mp hx
      exact hlegal v (List.mem_append_left _ hv)
    have hne : ws.map (toWire h) ≠ [] := fun hz => hone.1 (List.map_eq_nil_iff.mp hz)
    obtain ⟨new, hnew, hcalled⟩ := handleRead_whole hne hx hone.2
    obtain ⟨rs', hrun, hrest⟩ := ih fun v hv => hlegal v (List.mem_append_right _ hv)
    refine ⟨new ++ rs', fun rs => ?_, ?_⟩
    · rw [List.foldlM_cons, hnew, Option.bind_eq_bind, Option.bind_some, hrun, List.append_assoc]
    · rw [List.flatten_cons]
      exact List.rel_append (List.forall₂_map_left_iff.mp hcalled) hrest

theorem asSent_iff {h : Heap} {v : LuaValue} {r : Received} (hv : Plain v)
    (hc : Called (toWire h v) r) : AsSent h v r ↔ NoEmpty v := by
  obtain ⟨h₁, mb, g, hsize⟩ := hc
  obtain ⟨rest, hfront⟩ := g.front
  have hfill : (unpackStart r.heap r.buf).source.fill ≠ 0 := by
    have hpos : 0 < (r.heap.blocks r.buf.mb).size := by
      rw [g.heap, g.mb_eq]
      exact hsize
    have hdef : (unpackStart r.heap r.buf).source.fill =
        if (r.heap.blocks r.buf.mb).nbytes = 0 then (r.heap.blocks r.buf.mb).size
        else (r.heap.blocks r.buf.mb).nbytes := rfl
    rw [hdef]
    split
    · exact Nat.ne_of_gt hpos
    · assumption
  have hsame : Same r.heap v r.packet ↔ NoEmpty v :=
    same_iff_noEmpty hfill hv g.reads hfront
  rw [← hsame]
  exact ⟨fun a => a.same, fun s => ⟨s, g.len_eq, rest, hfront⟩⟩

theorem forall_asSent {h : Heap} {vs : List LuaValue} {rs : List Received}
    (hv : ∀ v ∈ vs, Plain v) (hc : List.Forall₂ (fun v r => Called (toWire h v) r) vs rs) :
    List.Forall₂ (AsSent h) vs rs ↔ ∀ v ∈ vs, NoEmpty v := by
  induction hc with
  | nil => simp
  | cons hone _ ih =>
    rw [List.forall_mem_cons] at hv
    rw [List.forall₂_cons, List.forall_mem_cons, asSent_iff hv.1 hone, ih hv.2]

/-- However packets are cut into reads, they are processed one by one, in order and as
they were sent, exactly if every read is of whole packets and none of them contains an
empty string. -/
theorem framing_iff (hgrants : grants.Ample) (h : Heap) (vs : List LuaValue)
    (hv : ∀ v ∈ vs, Plain v ∧ (toWire h v).len ≤ 2 ^ 20) (ts : List PipeRead)
    (hcut : (ts.map PipeRead.data).flatten = written h vs) :
    (∃ rs, handleReads grants ts = some rs ∧ List.Forall₂ (AsSent h) vs rs) ↔
      WholeReads h vs ts ∧ ∀ v ∈ vs, NoEmpty v := by
  have hplain : ∀ v ∈ vs, Plain v := fun v hm => (hv v hm).1
  have hlegal : ∀ v ∈ vs, (toWire h v).Decodable grants := fun v hm => by
    have hsound := sound_of_plain (hv v hm).1 (hv v hm).2
    exact ⟨hsound.legal, hsound.granted hgrants (hv v hm).2⟩
  constructor
  · rintro ⟨rs, hrun, hsent⟩
    obtain ⟨vss, rfl, hall, hlen⟩ := handleReads_ok hlegal hcut hrun
    have hzero : vss.countP List.isEmpty = 0 := by
      rw [← hsent.length_eq, List.length_nil] at hlen
      omega
    have hne : ∀ ws ∈ vss, ws ≠ [] := fun ws hm hnil =>
      List.countP_eq_zero.mp hzero ws hm (List.isEmpty_iff.mpr hnil)
    have hwhole := (List.forall₂_and_left vss ts).mpr ⟨hne, hall⟩
    obtain ⟨rs', hrun', hcalled⟩ := handleReads_whole hlegal hwhole
    cases hrun.symm.trans (hrun' [])
    exact ⟨⟨vss, rfl, hwhole⟩, (forall_asSent hplain hcalled).mp hsent⟩
  · rintro ⟨⟨vss, rfl, hwhole⟩, hno⟩
    obtain ⟨rs, hrun, hcalled⟩ := handleReads_whole hlegal hwhole
    exact ⟨rs, hrun [], (forall_asSent hplain hcalled).mpr hno⟩

end granted

def firstRead (data : List UInt8) (hs : data.length ≤ staticMbSize) : PipeRead where
  memory := ⟨Heap.boot fun _ _ => 0, none⟩
  data := data
  sized := fun _ hmb => by cases hmb
  small := hs

/-- The packet `{ k = "v" }`. -/
def smallPacket : LuaValue := .table 0 [] [(.string [107], .string [118])]

def splitReads : List PipeRead :=
  [firstRead [0x81, 0xa1] (by decide), firstRead [107, 0xa1, 118] (by decide)]

/-- The first read raises an error. -/
theorem splitPacket_raises :
    (splitReads.map PipeRead.data).flatten = written (Heap.boot fun _ _ => 0) [smallPacket] ∧
      ¬ ∃ rs, handleReads luajitGrants splitReads = some rs ∧
        List.Forall₂ (AsSent (Heap.boot fun _ _ => 0)) [smallPacket] rs := by
  have hnone : handleReads luajitGrants splitReads = none :=
    Option.isNone_iff_eq_none.mp (by decide +kernel)
  refine ⟨by decide +kernel, ?_⟩
  rintro ⟨rs, hrun, -⟩
  rw [hnone] at hrun
  cases hrun

theorem framing_iff_twoPackets :
    ∃ rs, handleReads luajitGrants
      [firstRead ([0x81, 0xa1, 107, 0xa1, 118] ++ [0x81, 0xa1, 107, 0xa1, 118])
        (by decide)] = some rs ∧
      List.Forall₂ (AsSent (Heap.boot fun _ _ => 0)) [smallPacket, smallPacket] rs := by
  refine (framing_iff Grants.luajit_ample _ [smallPacket, smallPacket]
    ?_ _ (by decide +kernel)).mpr ⟨?_, ?_⟩
  · simp only [List.mem_cons, List.not_mem_nil, or_false, or_self, forall_eq]
    exact ⟨by simp [smallPacket, Plain, PlainPairs, PlainKey, LuaValue.isNil], by decide +kernel⟩
  · exact ⟨[[smallPacket, smallPacket]], rfl, .cons ⟨List.cons_ne_nil _ _, by decide +kernel⟩ .nil⟩
  · simp [smallPacket, NoEmpty, Strings, StringsList, StringsPairs]

end Lev.Ipc
