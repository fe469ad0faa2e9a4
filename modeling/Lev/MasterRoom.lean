import Lev.Master
import Lev.Packets
import Lev.Room

/-! Broadcasts from worker to worker. The master's pool refines a room in which those who
said hello hear what the others say, and a worker calls the callbacks of the key. -/
namespace Lev.Ipc
open Slab Memory Lua MPack Fanout Run

structure WholeRead where
  heap : Heap
  buf : MemSlice
  packets : List Packet
  nonempty : packets ≠ []
  holds : buf.contents heap = packetBytes packets
  small : buf.untilLen < 2 ^ 31

theorem Arrived.cmd {p : Packet} {h : Heap} {packet : LuaValue} {len : ℕ} {buf : MemSlice}
    (a : Arrived p h packet len buf) {name : String} {s : List UInt8} (ht : p.text name = some s)
    (hs : s ≠ []) : ∃ v, index packet name = some v ∧ toString h v = some s := by
  obtain ⟨ms, hi, hc⟩ := a.text ht
  exact ⟨.buffer ms, hi, congrArg some (hc hs)⟩

/-- `buf:slice(1, packet_len)` is the packet and nothing else of the read. -/
theorem slice_packet {h : Heap} {buf : MemSlice} {p : Packet} {r : List UInt8}
    (hfront : buf.contents h = p.wire.bytes ++ r) (hsmall : buf.untilLen < 2 ^ 31) :
    ∃ copy h', slice h buf 1 p.wire.len = some (copy, h') ∧ h'.bytes = h.bytes ∧
      copy.contents h' = p.wire.bytes := by
  have hlen := contents_length h buf
  rw [hfront, List.length_append] at hlen
  have hin : 0 + p.wire.len ≤ buf.untilLen := by
    simp only [Wire.len]
    omega
  have hslice := bufferSlice_window (h := h) p.wire.len_pos hin hsmall
  refine ⟨⟨buf.mb, buf.slice + 0, p.wire.len⟩, levSlabIncRef h buf.mb, hslice, rfl, ?_⟩
  exact load_of_drop (o := 0) hfront

/-- `worker_pool[w]['id']` as a condition. -/
def greeted (pool : List (ℕ × LuaValue)) (w : ℕ) : Bool :=
  pool.any fun q => decide (q.1 = w) && truthy q.2

theorem greeted_cons (q : ℕ × LuaValue) (pool : List (ℕ × LuaValue)) (w : ℕ) :
    greeted (q :: pool) w = (decide (q.1 = w) && truthy q.2 || greeted pool w) := List.any_cons

theorem greeted_of_notMem {pool : List (ℕ × LuaValue)} {w : ℕ} (h : w ∉ pool.map Prod.fst) :
    greeted pool w = false := by
  rw [greeted, List.any_eq_false]
  intro q hq hw
  rw [Bool.and_eq_true, decide_eq_true_eq] at hw
  exact h (hw.1 ▸ List.mem_map_of_mem hq)

theorem broadcast_eq {p : Packet} {c : ℕ} {buf : MemSlice} {rest : List UInt8}
    (hsmall : buf.untilLen < 2 ^ 31) {pool : List (ℕ × LuaValue)} {h : Heap} {s : Master}
    (hfront : buf.contents h = p.wire.bytes ++ rest) (hkeys : (pool.map Prod.fst).Nodup) :
    Master.broadcast c h buf p.wire.len pool s =
      some { s with
        written := fun w => s.written w ++
          if greeted pool w && decide (w ≠ c) then [⟨p.wire.bytes, none⟩] else [] } := by
  induction pool generalizing h s with
  | nil =>
    simp only [Master.broadcast, greeted, List.any_nil, Bool.false_and, Bool.false_eq_true,
      if_false,
      List.append_nil]
  | cons q pool ih =>
    obtain ⟨wc, id⟩ := q
    obtain ⟨hnew, hkeys⟩ := List.nodup_cons.mp hkeys
    have hlater := greeted_of_notMem hnew
    by_cases hto : (truthy id && decide (c ≠ wc)) = true
    · obtain ⟨copy, h', hslice, hbytes, hcopy⟩ := slice_packet hfront hsmall
      rw [Master.broadcast, if_pos hto, hslice]
      simp only [hcopy]
      rw [ih ((contents_congr hbytes buf).trans hfront) hkeys]
      simp only [Master.write]
      congr 2
      funext w
      rw [greeted_cons]
      rw [Bool.and_eq_true, decide_eq_true_eq] at hto
      rcases eq_or_ne wc w with rfl | hw
      · simp only [Function.update_self, hlater, hto.1, Ne.symm hto.2, Bool.false_and,
          Bool.false_eq_true, if_false, List.append_nil, decide_true, Bool.true_and, Bool.or_false,
          ne_eq, not_false_eq_true, if_true]
      · rw [Function.update_of_ne hw.symm, decide_eq_false hw, Bool.false_and, Bool.false_or]
    · rw [Master.broadcast, if_neg hto, ih hfront hkeys]
      congr 2
      funext w
      rw [greeted_cons]
      rcases eq_or_ne wc w with rfl | hw
      · have hnot : (truthy id && decide (wc ≠ c)) = false := by
          rw [← Bool.not_eq_true]
          intro ht
          rw [Bool.and_eq_true, decide_eq_true_eq] at ht hto
          exact hto ⟨ht.1, ht.2.symm⟩
        rw [hlater, decide_eq_true rfl, Bool.true_and, Bool.or_false, hnot, Bool.false_and]
      · rw [decide_eq_false hw, Bool.false_and, Bool.false_or]

theorem lookup_of_mem {pool : List (ℕ × LuaValue)} {c : ℕ} (hc : c ∈ pool.map Prod.fst) :
    ∃ id, pool.lookup c = some id := by
  cases hid : pool.lookup c with
  | some id => exact ⟨id, rfl⟩
  | none =>
    obtain ⟨q, hq, rfl⟩ := List.mem_map.mp hc
    have hnone := List.lookup_eq_none_iff.mp hid q hq
    rw [bne_self_eq_false] at hnone
    cases hnone

/-- What a packet from worker `c` is in the room. -/
def Packet.events (c : ℕ) (p : Packet) : List (Event ℕ Packet) :=
  if p.text "cmd" = some (ascii "hello") then [.hello c]
  else if p.text "cmd" = some (ascii "broadcast") then [.broadcast c p]
  else []

/-- The packets a worker sends for its hello, for broadcasts and for requests other than
`bind`. -/
structure Packet.FromWorker (p : Packet) : Prop where
  cmd : ∃ cmd, p.text "cmd" = some cmd ∧ cmd ≠ ascii "bind"
  id : p.text "cmd" = some (ascii "hello") → ∃ id, p.text "id" = some id

structure Tracks (s : Master) (r : Room ℕ Packet) : Prop where
  running : s.running = true
  keys : (s.workerPool.map Prod.fst).Nodup
  born : ∀ q ∈ s.workerPool, q.1 < s.accepted
  unborn : ∀ w, s.accepted ≤ w → r.said w = false ∧ r.gone w = false
  present : ∀ q ∈ s.workerPool, r.gone q.1 = false ∧ truthy q.2 = r.said q.1
  absent : ∀ w, w ∉ s.workerPool.map Prod.fst → r.said w = true → r.gone w = true
  written : ∀ w, s.written w = (r.delivered w).map fun p => ⟨p.wire.bytes, none⟩

theorem tracks_start : Tracks Master.start (Room.empty : Room ℕ Packet) where
  running := rfl
  keys := List.nodup_nil
  born := fun q hq => by cases hq
  unborn := fun w _ => ⟨rfl, rfl⟩
  present := fun q hq => by cases hq
  absent := fun w _ hw => by cases hw
  written := fun w => rfl

namespace Tracks

variable {s s' : Master} {r : Room ℕ Packet} {c : ℕ}

theorem greeted_eq (t : Tracks s r) (w : ℕ) :
    greeted s.workerPool w = (r.said w && !r.gone w) := by
  by_cases hw : w ∈ s.workerPool.map Prod.fst
  · obtain ⟨q, hq, rfl⟩ := List.mem_map.mp hw
    obtain ⟨hgone, hsaid⟩ := t.present q hq
    rw [hgone, Bool.not_false, Bool.and_true, ← hsaid]
    cases hid : truthy q.2 with
    | true =>
      refine List.any_eq_true.mpr ⟨q, hq, ?_⟩
      rw [hid, decide_eq_true rfl, Bool.and_self]
    | false =>
      refine List.any_eq_false.mpr fun q' hq' hboth => ?_
      rw [Bool.and_eq_true, decide_eq_true_eq] at hboth
      have hsame := (t.present q' hq').2
      rw [hboth.1, ← hsaid, hid, hboth.2] at hsame
      cases hsame
  · rw [greeted_of_notMem hw]
    cases hsaid : r.said w with
    | false => rfl
    | true => rw [t.absent w hw hsaid]; rfl

theorem connection (t : Tracks s r) : Tracks s.onConnection r where
  running := t.running
  keys := by
    simp only [Master.onConnection, List.map_append, List.map_cons, List.map_nil]
    refine List.nodup_append'.mpr ⟨t.keys, List.nodup_singleton _, ?_⟩
    rw [List.disjoint_singleton]
    intro hmem
    obtain ⟨q, hq, heq⟩ := List.mem_map.mp hmem
    exact absurd (t.born q hq) (by omega)
  born := by
    intro q hq
    simp only [Master.onConnection] at hq ⊢
    rcases List.mem_append.mp hq with hq | hq
    · exact Nat.lt_succ_of_lt (t.born q hq)
    · rw [List.mem_singleton.mp hq]
      exact Nat.lt_succ_self _
  unborn := fun w hw => t.unborn w (Nat.le_of_succ_le hw)
  present := by
    intro q hq
    rcases List.mem_append.mp hq with hq | hq
    · exact t.present q hq
    · obtain ⟨hsaid, hgone⟩ := t.unborn s.accepted le_rfl
      rw [List.mem_singleton.mp hq]
      exact ⟨hgone, hsaid.symm⟩
  absent := by
    intro w hw
    refine t.absent w fun hmem => hw ?_
    rw [Master.onConnection, List.map_append]
    exact List.mem_append_left _ hmem
  written := t.written

theorem close (t : Tracks s r) (hc : c ∈ s.workerPool.map Prod.fst) :
    ∃ s', s.clientOnClose c = some s' ∧ Tracks s' (Fanout.next r (.leave c)) := by
  obtain ⟨id, hid⟩ := lookup_of_mem hc
  have hkept : ∀ q : ℕ × LuaValue,
      q ∈ s.workerPool.filter (fun q => decide (q.1 ≠ c)) ↔ q ∈ s.workerPool ∧ q.1 ≠ c := by
    intro q
    rw [List.mem_filter, decide_eq_true_eq]
  rw [Master.clientOnClose, hid]
  refine ⟨_, rfl, t.running, ?_, ?_, ?_, ?_, ?_, t.written⟩
  · exact t.keys.sublist (List.filter_sublist.map _)
  · exact fun q hq => t.born q ((hkept q).mp hq).1
  · intro w hw
    obtain ⟨q, hq, rfl⟩ := List.mem_map.mp hc
    have hne : w ≠ q.1 := Nat.ne_of_gt (Nat.lt_of_lt_of_le (t.born q hq) hw)
    simp only [Fanout.next, Function.update_of_ne hne]
    exact t.unborn w hw
  · intro q hq
    obtain ⟨hq, hne⟩ := (hkept q).mp hq
    simp only [Fanout.next, Function.update_of_ne hne]
    exact t.present q hq
  · intro w hw hsaid
    rcases eq_or_ne w c with rfl | hne
    · simp only [Fanout.next, Function.update_self]
    · simp only [Fanout.next, Function.update_of_ne hne]
      refine t.absent w (fun hmem => hw ?_) hsaid
      obtain ⟨q, hq, rfl⟩ := List.mem_map.mp hmem
      exact List.mem_map_of_mem ((hkept q).mpr ⟨hq, hne⟩)

theorem hello (t : Tracks s r) (hc : c ∈ s.workerPool.map Prod.fst) (ms : MemSlice) :
    ∃ s', s.hello c (.buffer ms) = some s' ∧ Tracks s' (Fanout.next r (.hello c)) ∧
      s'.workerPool.map Prod.fst = s.workerPool.map Prod.fst := by
  obtain ⟨old, hold⟩ := lookup_of_mem hc
  have hset : s.hello c (.buffer ms) = some { s with
      workerPool := s.workerPool.map fun q => (q.1, if q.1 = c then .buffer ms else q.2) } := by
    rw [Master.hello, hold]
    refine congrArg (fun pool => some { s with workerPool := pool }) (List.map_congr_left ?_)
    rintro ⟨wc, old⟩ -
    by_cases hwc : wc = c
    · simp only [if_pos hwc]
    · simp only [if_neg hwc]
  have hkeys : (s.workerPool.map fun q => (q.1, if q.1 = c then LuaValue.buffer ms else q.2)).map
      Prod.fst = s.workerPool.map Prod.fst := by
    rw [List.map_map]
    rfl
  refine ⟨_, hset, ⟨t.running, ?_, ?_, ?_, ?_, ?_, t.written⟩, hkeys⟩
  · exact hkeys ▸ t.keys
  · intro q hq
    obtain ⟨q, hold, rfl⟩ := List.mem_map.mp hq
    exact t.born q hold
  · intro w hw
    obtain ⟨q, hq, rfl⟩ := List.mem_map.mp hc
    have hne : w ≠ q.1 := Nat.ne_of_gt (Nat.lt_of_lt_of_le (t.born q hq) hw)
    simp only [Fanout.next, Function.update_of_ne hne]
    exact t.unborn w hw
  · intro q hq
    obtain ⟨q, hold, rfl⟩ := List.mem_map.mp hq
    obtain ⟨hgone, hsaid⟩ := t.present q hold
    refine ⟨hgone, ?_⟩
    by_cases hqc : q.1 = c
    · simp only [Fanout.next, hqc, if_true, Function.update_self, truthy]
    · simp only [Fanout.next, if_neg hqc, Function.update_of_ne hqc, hsaid]
  · intro w hw hsaid
    rw [hkeys] at hw
    rcases eq_or_ne w c with rfl | hne
    · exact absurd hc hw
    · simp only [Fanout.next, Function.update_of_ne hne] at hsaid
      exact t.absent w hw hsaid

theorem broadcast (t : Tracks s r) {p : Packet} {h : Heap} {buf : MemSlice} {rest : List UInt8}
    (hfront : buf.contents h = p.wire.bytes ++ rest) (hsmall : buf.untilLen < 2 ^ 31) :
    ∃ s', Master.broadcast c h buf p.wire.len s.workerPool s = some s' ∧
      Tracks s' (Fanout.next r (.broadcast c p)) ∧
      s'.workerPool.map Prod.fst = s.workerPool.map Prod.fst := by
  rw [broadcast_eq hsmall hfront t.keys]
  refine ⟨_, rfl, ⟨t.running, t.keys, t.born, t.unborn, t.present, t.absent, ?_⟩, rfl⟩
  intro w
  have hears : (greeted s.workerPool w && decide (w ≠ c)) = r.hears c w :=
    congrArg (· && decide (w ≠ c)) (t.greeted_eq w)
  simp only [next_broadcast_delivered, List.map_append, ← t.written w, hears]
  congr 1
  cases r.hears c w <;> rfl

end Tracks

theorem clientProcessPacket_tracks (host : Host) {s : Master} {r : Room ℕ Packet} {c : ℕ}
    {p : Packet} {a : Received} (t : Tracks s r) (hc : c ∈ s.workerPool.map Prod.fst)
    (hp : p.FromWorker) (hcmd : p.text "cmd" ≠ some []) (ha : a.Of p) :
    ∃ s', process1 (Master.clientProcessPacket host c) s a = some s' ∧
      Tracks s' (exec Fanout.next r (p.events c)) ∧
      s'.workerPool.map Prod.fst = s.workerPool.map Prod.fst := by
  obtain ⟨cmd, htext, hbind⟩ := hp.cmd
  obtain ⟨v, hindex, hstring⟩ := ha.cmd htext fun hnil => hcmd (hnil ▸ htext)
  rw [process1, Master.clientProcessPacket, hindex]
  simp only [Option.bind_eq_bind, Option.bind_some, hstring, if_neg hbind]
  rw [Packet.events, htext]
  simp only [Option.some.injEq]
  by_cases hhello : cmd = ascii "hello"
  · obtain ⟨id, hid⟩ := hp.id (hhello ▸ htext)
    obtain ⟨ms, hms, _⟩ := ha.text hid
    simp only [if_pos hhello, hms, Option.bind_some]
    exact t.hello hc ms
  · by_cases hbc : cmd = ascii "broadcast"
    · simp only [if_neg hhello, if_pos hbc, ha.len_eq]
      obtain ⟨rest, hfront⟩ := ha.front
      exact t.broadcast hfront ha.small
    · simp only [if_neg hhello, if_neg hbc]
      exact ⟨s, rfl, t, rfl⟩

theorem packets_tracks (host : Host) {s : Master} {r : Room ℕ Packet} {c : ℕ} {ps : List Packet}
    {rs : List Received} (hrs : List.Forall₂ (fun p a => Received.Of a p) ps rs)
    (t : Tracks s r) (hc : c ∈ s.workerPool.map Prod.fst) (hps : ∀ p ∈ ps, p.FromWorker)
    (hcmd : ∀ p ∈ ps, p.text "cmd" ≠ some []) :
    ∃ s', rs.foldlM (process1 (Master.clientProcessPacket host c)) s = some s' ∧
      Tracks s' (exec Fanout.next r (ps.flatMap (Packet.events c))) := by
  induction hrs generalizing s r with
  | nil => exact ⟨s, rfl, t⟩
  | @cons p a ps rs ha _ ih =>
    obtain ⟨s₁, hfirst, t₁, hpool⟩ := clientProcessPacket_tracks host t hc
      (hps p List.mem_cons_self) (hcmd p List.mem_cons_self) ha
    obtain ⟨s', hrest, t'⟩ := ih t₁ (hpool ▸ hc) (fun q hq => hps q (List.mem_cons_of_mem _ hq))
      fun q hq => hcmd q (List.mem_cons_of_mem _ hq)
    refine ⟨s', ?_, ?_⟩
    · rw [List.foldlM_cons, hfirst]
      exact hrest
    · rw [List.flatMap_cons, exec_append]
      exact t'

theorem read_tracks (host : Host) {s : Master} {r : Room ℕ Packet} {c : ℕ} {wr : WholeRead}
    (t : Tracks s r) (hc : c ∈ s.workerPool.map Prod.fst)
    (hps : ∀ p ∈ wr.packets, p.FromWorker) (hcmd : ∀ p ∈ wr.packets, p.text "cmd" ≠ some [])
    (hgrants : ∀ p ∈ wr.packets, host.grants.All [] p.wire.tables) :
    Tracks (Master.next host s (.read c wr.heap wr.buf))
      (exec Fanout.next r (wr.packets.flatMap (Packet.events c))) := by
  obtain ⟨rs, hrs, hloop⟩ :=
    onRead_whole (Master.clientProcessPacket host c) wr.nonempty hgrants wr.holds wr.small
  obtain ⟨s', hrun, t'⟩ := packets_tracks host hrs t hc hps hcmd
  rw [Master.next, if_pos t.running]
  simp only [hloop, hrun, Master.orStop, Option.getD_some]
  exact t'

end Lev.Ipc
