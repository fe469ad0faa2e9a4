import Lev.MailboxBroadcast
import Lev.MasterRoom

/-! Broadcasts through the whole system: the master and the mailboxes of its workers. -/
namespace Lev.Broadcast
open Slab Memory Lua MPack Ipc Fanout Run

/-- The master, and the mailbox of each worker under the number the master gave it. -/
structure System where
  master : Master
  mailbox : ℕ → Mailbox.Worker

structure Env where
  host : Host
  mailbox : ℕ → Mailbox.Env

/-- A worker connects; the master reads whole packets from a worker or hears of its close; a
worker reads whole packets, its program calls `mbox`, or its channel connects. -/
inductive Op
  | connection
  | read (c : ℕ) (r : WholeRead)
  | close (c : ℕ)
  | hear (w : ℕ) (r : WholeRead) (fd : Option ℤ) (type : List UInt8)
  | call (w : ℕ) (c : Mailbox.Call)
  | onConnect (w : ℕ) (err : Bool)

def start : System := ⟨Master.start, fun _ => Mailbox.start⟩

/-- `ipc__on_read` of a worker; `none` is a Lua error. -/
def hear (env : Env) (s : System) (w : ℕ) (r : WholeRead) (fd : Option ℤ) (type : List UInt8) :
    Option Mailbox.Worker :=
  onRead env.host.grants (Mailbox.ipcProcessPacket (env.mailbox w) fd type) r.heap r.buf
    r.buf.untilLen (s.mailbox w)

def next (env : Env) (s : System) : Op → System
  | .connection => { s with master := s.master.next env.host .connection }
  | .read c r => { s with master := s.master.next env.host (.read c r.heap r.buf) }
  | .close c => { s with master := s.master.next env.host (.close c) }
  | .hear w r fd type =>
    { s with
      mailbox := Function.update s.mailbox w ((hear env s w r fd type).getD (s.mailbox w)) }
  | .call w c =>
    { s with
      mailbox :=
        Function.update s.mailbox w (Mailbox.next (env.mailbox w) (s.mailbox w) (.call c)) }
  | .onConnect w err =>
    { s with
      mailbox :=
        Function.update s.mailbox w (Mailbox.next (env.mailbox w) (s.mailbox w) (.onConnect err)) }

/-- A worker is read from and closed between its connect and its close, and the packets are
those the two sides send. -/
def Allowed (s : System) : Op → Prop
  | .read c r => c ∈ s.master.workerPool.map Prod.fst ∧ ∀ p ∈ r.packets, p.FromWorker
  | .close c => c ∈ s.master.workerPool.map Prod.fst
  | .hear _ r _ _ => ∀ p ∈ r.packets, Mailbox.FromMaster p
  | _ => True

/-- The packets that are processed as what they were sent as, with the tables they take. -/
def Plain (env : Env) : Op → Prop
  | .read _ r => ∀ p ∈ r.packets, p.text "cmd" ≠ some [] ∧ env.host.grants.All [] p.wire.tables
  | .hear _ r fd _ => ∀ p ∈ r.packets, Mailbox.Heard fd p ∧ env.host.grants.All [] p.wire.tables
  | _ => True

def Op.events : Op → List (Event ℕ Packet)
  | .read c r => r.packets.flatMap (Packet.events c)
  | .close c => [.leave c]
  | _ => []

def room (ops : List Op) : Room ℕ Packet :=
  exec Fanout.next Room.empty (ops.flatMap Op.events)

/-- A read at a worker runs the callbacks of each broadcast. -/
def Invokes (env : Env) (s : System) : Op → Prop
  | .hear w r fd type =>
    ∃ s', hear env s w r fd type = some s' ∧ Mailbox.Hears fd type r.packets (s.mailbox w) s'
  | _ => True

/-- After the run `ops`: the master has written to each worker the packets that the room
delivered to it, and nothing else, and every read at a worker has run its callbacks. -/
structure Delivers (env : Env) (ops : List Op) : Prop where
  running : (exec (next env) start ops).master.running = true
  written : ∀ w, (exec (next env) start ops).master.written w =
    ((room ops).delivered w).map fun p => ⟨p.wire.bytes, none⟩
  invoked : Along (next env) (Invokes env) start ops

theorem hear_some (env : Env) (s : System) {w : ℕ} {r : WholeRead} {fd : Option ℤ}
    {type : List UInt8} (hallowed : ∀ p ∈ r.packets, Mailbox.FromMaster p)
    (hplain : ∀ p ∈ r.packets, Mailbox.Heard fd p ∧ env.host.grants.All [] p.wire.tables) :
    ∃ s', hear env s w r fd type = some s' ∧
      Mailbox.Hears fd type r.packets (s.mailbox w) s' := by
  obtain ⟨rs, hrs, hloop⟩ := onRead_whole (Mailbox.ipcProcessPacket (env.mailbox w) fd type)
    r.nonempty (fun p hp => (hplain p hp).2) r.holds r.small
  obtain ⟨s', hrun, hhears⟩ := Mailbox.packets_heard (env.mailbox w) type (s.mailbox w) hrs
    hallowed fun p hp => (hplain p hp).1
  exact ⟨s', (hloop _).trans hrun, hhears⟩

theorem tracks_next (env : Env) {s : System} {r : Room ℕ Packet} {op : Op}
    (t : Tracks s.master r) (hallowed : Allowed s op) (hplain : Plain env op) :
    Tracks (next env s op).master (exec Fanout.next r op.events) := by
  cases op with
  | connection =>
    have hnext : s.master.next env.host .connection = s.master.onConnection := by
      rw [Master.next, if_pos t.running]
    simp only [next, hnext]
    exact t.connection
  | read c wr =>
    exact read_tracks env.host t hallowed.1 hallowed.2 (fun p hp => (hplain p hp).1)
      fun p hp => (hplain p hp).2
  | close c =>
    obtain ⟨s', hclose, t'⟩ := t.close hallowed
    have hnext : s.master.next env.host (.close c) = s' := by
      rw [Master.next, if_pos t.running]
      simp only [hclose, Master.orStop, Option.getD_some]
    simp only [next, hnext]
    exact t'
  | hear w wr fd type => exact t
  | call w c => exact t
  | onConnect w err => exact t

theorem tracks_run (env : Env) {s : System} {r : Room ℕ Packet} {ops : List Op}
    (t : Tracks s.master r) (hallowed : Along (next env) Allowed s ops)
    (hplain : ∀ op ∈ ops, Plain env op) :
    Tracks (exec (next env) s ops).master (exec Fanout.next r (ops.flatMap Op.events)) := by
  induction ops generalizing s r with
  | nil => exact t
  | cons op ops ih =>
    rw [exec_cons, List.flatMap_cons, exec_append]
    exact ih (tracks_next env t hallowed.1 (hplain op List.mem_cons_self)) hallowed.2
      fun o ho => hplain o (List.mem_cons_of_mem _ ho)

theorem invokes_run (env : Env) {s : System} {ops : List Op}
    (hallowed : Along (next env) Allowed s ops) (hplain : ∀ op ∈ ops, Plain env op) :
    Along (next env) (Invokes env) s ops := by
  induction ops generalizing s with
  | nil => trivial
  | cons op ops ih =>
    refine ⟨?_, ih hallowed.2 fun o ho => hplain o (List.mem_cons_of_mem _ ho)⟩
    have hfirst := hplain op List.mem_cons_self
    cases op with
    | hear w r fd type => exact hear_some env s hallowed.1 hfirst
    | _ => trivial

/-- Broadcast delivery over every run of plain packets. -/
theorem broadcast_delivers (env : Env) (ops : List Op)
    (hallowed : Along (next env) Allowed start ops) (hplain : ∀ op ∈ ops, Plain env op) :
    Delivers env ops := by
  have t := tracks_run env (s := start) tracks_start hallowed hplain
  exact ⟨t.running, t.written, invokes_run env hallowed hplain⟩

def ofTexts (fields : List (List UInt8 × List UInt8)) (distinct : (fields.map Prod.fst).Nodup)
    (small : ∀ f ∈ fields, f.1.length < 2 ^ 32 ∧ f.2.length < 2 ^ 32)
    (few : fields.length < 2 ^ 31) : Packet where
  fields := fields.map fun f => (f.1, stringWire f.2)
  distinct := by
    rw [List.map_map]
    exact distinct
  present := by
    intro f hf
    obtain ⟨g, _, rfl⟩ := List.mem_map.mp hf
    trivial
  legal := by
    intro f hf
    obtain ⟨g, hg, rfl⟩ := List.mem_map.mp hf
    exact ⟨(small g hg).1, widthOf_fits (small g hg).2⟩
  few := by
    rw [List.length_map]
    exact few

def helloPacket : Packet :=
  ofTexts [(ascii "cmd", ascii "hello"), (ascii "id", ascii "1")]
    (by decide) (by decide) (by decide)

def broadcastPacket (key : List UInt8) (h : key.length < 2 ^ 32) : Packet :=
  ofTexts [(ascii "cmd", ascii "broadcast"), (ascii "key", key)]
    (by decide : [ascii "cmd", ascii "key"].Nodup) (by simpa [ascii] using h) (by simp)

/-- The read block after a read of some bytes into it. -/
def readHeap (data : List UInt8) : Heap :=
  { (Heap.boot fun _ _ => 0).store 0 0 data with blocks := fun _ => ⟨.mem8k, 2, 8192, data.length⟩ }

theorem readHeap_contents (data : List UInt8) :
    (⟨0, 0, data.length⟩ : MemSlice).contents (readHeap data) = data :=
  Heap.load_store_self _ _ _ _

def readOf (p : Packet) (h : p.wire.bytes.length < 2 ^ 31) : WholeRead where
  heap := readHeap p.wire.bytes
  buf := ⟨0, 0, p.wire.bytes.length⟩
  packets := [p]
  nonempty := List.cons_ne_nil _ _
  holds := by
    rw [readHeap_contents]
    exact (List.append_nil _).symm
  small := h

/-- Workers whose callbacks make no calls. -/
def quietWorkers : Env :=
  ⟨⟨fun _ => [], luajitGrants, fun _ _ _ => ⟨3, true⟩⟩,
    fun _ => ⟨Mailbox.mpPack (Heap.boot fun _ _ => 0), .string (ascii "1"), fun _ => []⟩⟩

theorem fromWorker_hello : helloPacket.FromWorker where
  cmd := ⟨ascii "hello", rfl, by decide⟩
  id := fun _ => ⟨ascii "1", rfl⟩

section broadcastPacket

variable (key : List UInt8) (h : key.length < 2 ^ 32)

theorem fromWorker_broadcast : (broadcastPacket key h).FromWorker where
  cmd := ⟨ascii "broadcast", rfl, by decide⟩
  id := fun hello => absurd (Option.some.inj hello) (by decide)

theorem fromMaster_broadcast : Mailbox.FromMaster (broadcastPacket key h) where
  cmd := ⟨ascii "broadcast", rfl⟩
  id := fun reply => absurd (Option.some.inj reply) (by decide)

theorem heard_broadcast (hkey : key ≠ []) : Mailbox.Heard none (broadcastPacket key h) where
  cmd := fun empty => absurd (Option.some.inj empty) (by decide)
  key := fun _ => .inr ⟨key, rfl, hkey⟩
  cmsg := fun hfd => absurd rfl hfd

end broadcastPacket

/-- Worker 1 says hello, worker 0 sends a broadcast, and worker 1, which has two callbacks
for its key, reads it. Worker 1 closes, and worker 0 sends the broadcast again. -/
def oneBroadcast : List Op :=
  let p := broadcastPacket (ascii "chat") (by decide)
  [.connection, .connection, .read 1 (readOf helloPacket (by decide +kernel)),
    .read 0 (readOf p (by decide +kernel)), .call 1 (.recvBroadcast (ascii "chat") 5),
    .call 1 (.recvBroadcast (ascii "chat") 6), .hear 1 (readOf p (by decide +kernel)) none [],
    .close 1, .read 0 (readOf p (by decide +kernel))]

theorem broadcast_delivers_oneBroadcast : Delivers quietWorkers oneBroadcast := by
  have hsent := fromWorker_broadcast (ascii "chat") (by decide)
  have hopen : 1 ∈ (exec (next quietWorkers) start (oneBroadcast.take 7)).master.workerPool.map
      Prod.fst := by decide +kernel
  have hallowed : Along (next quietWorkers) Allowed start oneBroadcast :=
    ⟨trivial, trivial, ⟨by decide +kernel, List.forall_mem_singleton.mpr fromWorker_hello⟩,
      ⟨by decide +kernel, List.forall_mem_singleton.mpr hsent⟩, trivial, trivial,
      List.forall_mem_singleton.mpr (fromMaster_broadcast _ _), hopen,
      ⟨by decide +kernel, List.forall_mem_singleton.mpr hsent⟩, trivial⟩
  have hcmd : (broadcastPacket (ascii "chat") (by decide)).text "cmd" ≠ some [] := by decide
  refine broadcast_delivers quietWorkers oneBroadcast hallowed ?_
  simp only [oneBroadcast, List.forall_mem_cons]
  have htables : luajitGrants.All [] (broadcastPacket (ascii "chat") (by decide)).wire.tables :=
    ⟨trivial, by decide +kernel⟩
  exact ⟨trivial, trivial, List.forall_mem_singleton.mpr ⟨by decide, trivial, by decide +kernel⟩,
    List.forall_mem_singleton.mpr ⟨hcmd, htables⟩, trivial, trivial,
    List.forall_mem_singleton.mpr ⟨heard_broadcast _ _ (by decide), htables⟩, trivial,
    List.forall_mem_singleton.mpr ⟨hcmd, htables⟩, fun _ h => by cases h⟩

/-- A worker has a callback for the empty key and reads a broadcast with that key. -/
def emptyKey : List Op :=
  [.call 0 (.recvBroadcast [] 5),
    .hear 0 (readOf (broadcastPacket [] (by decide)) (by decide +kernel)) none []]

/-- The empty key arrives as the rest of the read block, for which there is no callback. -/
theorem emptyKey_unheard :
    Along (next quietWorkers) Allowed start emptyKey ∧ ¬ Delivers quietWorkers emptyKey := by
  refine ⟨⟨trivial, List.forall_mem_singleton.mpr (fromMaster_broadcast _ _), trivial⟩, ?_⟩
  intro hdelivers
  obtain ⟨s', hs', hhears⟩ := hdelivers.invoked.2.1
  have hsilent : (hear quietWorkers (next quietWorkers start (.call 0 (.recvBroadcast [] 5))) 0
      (readOf (broadcastPacket [] (by decide)) (by decide +kernel)) none []).map
      (fun w => w.heard.length) = some 0 := by decide +kernel
  rw [hs'] at hsilent
  cases hhears with
  | cons first rest =>
    cases rest with
    | nil =>
      obtain ⟨a, packet, _, _, hheard⟩ := first
      have hlength : s'.heard.length = 0 := Option.some.inj hsilent
      rw [hheard] at hlength
      cases hlength

end Lev.Broadcast
