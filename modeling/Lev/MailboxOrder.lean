import Lev.Mailbox

/-! Requests and replies of a worker belong together, and the channel carries the messages
in the order they were issued, in every run of the mailbox. -/
namespace Lev.Mailbox
open Slab Memory Lua Ipc Run

def Invocation.request : Invocation → Option ℕ
  | .reply r _ => some r
  | .broadcast _ _ => none

def Worker.ran (s : Worker) : List ℕ := s.invoked.filterMap Invocation.request

/-- The messages carry the numbers of the counter. -/
structure Numbered (s : Worker) : Prop where
  counter : s.reqId = s.issued.length + 1
  ids : s.issued.map Message.id =
    (List.range s.issued.length).map fun i => .string (tostring (i + 1))

/-- The callbacks registered belong to their requests and have not run, save the one that
is running. -/
structure Registered (running : Option (List UInt8)) (s : Worker) : Prop where
  known : ∀ id r, s.callbacks id = some r → ∃ m, s.asked[r]? = some m ∧ m.id = .string id
  waiting : ∀ id r, s.callbacks id = some r → r ∈ s.ran → running = some id
  once : s.ran.Nodup
  asked : ∀ r ∈ s.ran, r < s.asked.length
  own : ∀ r p, Invocation.reply r p ∈ s.invoked →
    ∃ id m, s.asked[r]? = some m ∧ m.id = .string id ∧ (id, p) ∈ s.replies

/-- Until the channel is connected the messages are in the queue, and then on the channel.
A message that cannot be packed keeps the channel from being connected. -/
structure Ordered (env : Env) (s : Worker) : Prop where
  idle : s.ipcChannel = false → s.greeted = false ∧ s.connecting = false
  ungreeted : s.greeted = false →
    s.ipcConnected = false ∧ s.queue = s.issued ∧ s.written = []
  connecting : s.connecting = true → s.greeted = false
  sent : s.ipcConnected = true →
    s.written.map some = (Worker.hello env :: s.issued).map env.pack
  stuck : s.greeted = true → s.ipcConnected = false →
    ∃ m ∈ Worker.hello env :: s.issued, env.pack m = none
  sofar : s.written.map some <+: (Worker.hello env :: s.issued).map env.pack

/-- The invariant, while the callback of a reply with id `running` runs. -/
structure Inv (env : Env) (running : Option (List UInt8)) (s : Worker) : Prop where
  numbered : Numbered s
  registered : Registered running s
  ordered : Ordered env s

variable {env : Env} {running : Option (List UInt8)} {s s' : Worker}

theorem inv_start : Inv env none start where
  numbered := ⟨rfl, rfl⟩
  registered := {
    known := fun _ _ h => by cases h
    waiting := fun _ _ h => by cases h
    once := List.nodup_nil
    asked := fun _ h => by cases h
    own := fun _ _ h => by cases h }
  ordered := {
    idle := fun _ => ⟨rfl, rfl⟩
    ungreeted := fun _ => ⟨rfl, rfl, rfl⟩
    connecting := fun h => by cases h
    sent := fun h => by cases h
    stuck := fun h => by cases h
    sofar := List.nil_prefix }

structure SameCallbacks (s s' : Worker) : Prop where
  callbacks : s'.callbacks = s.callbacks
  asked : s'.asked = s.asked
  replies : s'.replies = s.replies
  invoked : s'.invoked = s.invoked

theorem Registered.congr (h : Registered running s) (e : SameCallbacks s s') :
    Registered running s' := by
  obtain ⟨hc, ha, hr, hi⟩ := e
  refine ⟨?_, ?_, ?_, ?_, ?_⟩
  · rw [hc, ha]
    exact h.known
  · rw [hc, Worker.ran, hi]
    exact h.waiting
  · rw [Worker.ran, hi]
    exact h.once
  · rw [Worker.ran, hi, ha]
    exact h.asked
  · rw [hi, ha, hr]
    exact h.own

structure SameChannel (s s' : Worker) : Prop where
  ipcChannel : s'.ipcChannel = s.ipcChannel
  ipcConnected : s'.ipcConnected = s.ipcConnected
  connecting : s'.connecting = s.connecting
  queue : s'.queue = s.queue
  greeted : s'.greeted = s.greeted
  written : s'.written = s.written
  issued : s'.issued = s.issued

theorem Ordered.congr (h : Ordered env s) (e : SameChannel s s') : Ordered env s' := by
  obtain ⟨hc, hn, hw, hq, hg, hwr, hi⟩ := e
  refine ⟨?_, ?_, ?_, ?_, ?_, ?_⟩
  · rw [hc, hg, hw]
    exact h.idle
  · rw [hg, hn, hq, hi, hwr]
    exact h.ungreeted
  · rw [hw, hg]
    exact h.connecting
  · rw [hn, hwr, hi]
    exact h.sent
  · rw [hg, hn, hi]
    exact h.stuck
  · rw [hwr, hi]
    exact h.sofar

theorem Numbered.issue (h : Numbered s) {pkt : Message} (hid : pkt.id = .string (tostring s.reqId))
    (hreq : s'.reqId = s.reqId + 1) (hissued : s'.issued = s.issued ++ [pkt]) : Numbered s' := by
  refine ⟨?_, ?_⟩
  · rw [hreq, hissued, List.length_append, h.counter]
    rfl
  · rw [hissued, List.map_append, h.ids, List.length_append, List.length_singleton,
      List.range_succ, List.map_append, List.map_singleton, List.map_singleton, hid, h.counter]

theorem ipcConnect_cases (s : Worker) :
    (s.ipcChannel = true ∧ s.ipcConnect = s) ∨
    (s.ipcChannel = false ∧ s.ipcConnect = { s with ipcChannel := true, connecting := true }) := by
  unfold Worker.ipcConnect
  cases s.ipcChannel with
  | true => exact .inl ⟨rfl, rfl⟩
  | false => exact .inr ⟨rfl, rfl⟩

theorem Ordered.write (h : Ordered env s) (hconn : s.ipcConnected = true) {pkt : Message}
    {packed : List UInt8} (hpack : env.pack pkt = some packed) (n : ℕ) :
    Ordered env
      { s with written := s.written ++ [packed], reqId := n, issued := s.issued ++ [pkt] } := by
  have hgreeted : s.greeted = true := by
    cases hg : s.greeted with
    | true => rfl
    | false => exact absurd hconn (by rw [(h.ungreeted hg).1]; decide)
  have hsent : (s.written ++ [packed]).map some =
      (Worker.hello env :: (s.issued ++ [pkt])).map env.pack := by
    rw [List.map_append, h.sent hconn, ← List.cons_append, List.map_append, List.map_singleton,
      List.map_singleton, hpack]
  refine ⟨fun hc => ?_, fun hg => ?_, h.connecting, fun _ => hsent, fun _ hn => ?_, ?_⟩
  · exact absurd (h.idle hc).1 (by rw [hgreeted]; decide)
  · exact absurd hg (by rw [hgreeted]; decide)
  · exact absurd hconn (by rw [hn]; decide)
  · exact hsent ▸ List.prefix_refl _

theorem Ordered.enqueue (h : Ordered env s) (hconn : s.ipcConnected = false) (pkt : Message)
    (n : ℕ) :
    Ordered env { { s with queue := s.queue ++ [pkt] }.ipcConnect with
      reqId := n, issued := s.issued ++ [pkt] } := by
  have hlonger : (Worker.hello env :: s.issued).map env.pack <+:
      (Worker.hello env :: (s.issued ++ [pkt])).map env.pack := by
    rw [← List.cons_append, List.map_append]
    exact List.prefix_append _ _
  have hqueue : s.greeted = false →
      s.ipcConnected = false ∧ s.queue ++ [pkt] = s.issued ++ [pkt] ∧ s.written = [] := by
    intro hg
    obtain ⟨hn, hq, hw⟩ := h.ungreeted hg
    exact ⟨hn, by rw [hq], hw⟩
  have hstuck : s.greeted = true → s.ipcConnected = false →
      ∃ m ∈ Worker.hello env :: (s.issued ++ [pkt]), env.pack m = none := by
    intro hg hn
    obtain ⟨m, hm, hnone⟩ := h.stuck hg hn
    rw [← List.cons_append]
    exact ⟨m, List.mem_append_left _ hm, hnone⟩
  rcases ipcConnect_cases { s with queue := s.queue ++ [pkt] } with ⟨hc, he⟩ | ⟨hc, he⟩
  · rw [he]
    exact ⟨h.idle, hqueue, h.connecting, fun hn => absurd hn (by rw [hconn]; decide), hstuck,
      h.sofar.trans hlonger⟩
  · rw [he]
    exact ⟨fun hn => (by cases hn), hqueue, fun _ => (h.idle hc).1,
      fun hn => absurd hn (by rw [hconn]; decide), hstuck, h.sofar.trans hlonger⟩

theorem ipcConnect_callbacks (s : Worker) : SameCallbacks s s.ipcConnect := by
  rcases ipcConnect_cases s with ⟨_, he⟩ | ⟨_, he⟩
  · rw [he]
    exact ⟨rfl, rfl, rfl, rfl⟩
  · rw [he]
    exact ⟨rfl, rfl, rfl, rfl⟩

theorem inv_sendMsg (h : Inv env running s) {pkt : Message}
    (hid : pkt.id = .string (tostring s.reqId)) (hs : s.sendMsg env pkt = some s') :
    Inv env running s' := by
  unfold Worker.sendMsg at hs
  cases hconn : s.ipcConnected with
  | true =>
    rw [if_pos hconn] at hs
    obtain ⟨packed, hpack, rfl⟩ := Option.map_eq_some_iff.mp hs
    exact ⟨h.numbered.issue hid rfl rfl, h.registered.congr ⟨rfl, rfl, rfl, rfl⟩,
      h.ordered.write hconn hpack _⟩
  | false =>
    rw [if_neg (by rw [hconn]; decide)] at hs
    simp only [Option.some.injEq] at hs
    subst hs
    have hreq : { s with queue := s.queue ++ [pkt] }.ipcConnect.reqId = s.reqId := by
      rcases ipcConnect_cases { s with queue := s.queue ++ [pkt] }
        with ⟨_, he⟩ | ⟨_, he⟩ <;> rw [he]
    have hissued : { s with queue := s.queue ++ [pkt] }.ipcConnect.issued = s.issued := by
      rcases ipcConnect_cases { s with queue := s.queue ++ [pkt] }
        with ⟨_, he⟩ | ⟨_, he⟩ <;> rw [he]
    have hsame := ipcConnect_callbacks { s with queue := s.queue ++ [pkt] }
    rw [hreq, hissued]
    exact ⟨h.numbered.issue hid rfl rfl,
      h.registered.congr ⟨hsame.callbacks, hsame.asked, hsame.replies, hsame.invoked⟩,
      h.ordered.enqueue hconn pkt _⟩

theorem inv_register (h : Inv env running s) (pkt : Message) {id : List UInt8}
    (hid : pkt.id = .string id) :
    Inv env running { s with
      callbacks := Function.update s.callbacks id (some s.asked.length)
      asked := s.asked ++ [pkt] } := by
  have hr := h.registered
  have hold : ∀ (r : ℕ) (m : Message), s.asked[r]? = some m → (s.asked ++ [pkt])[r]? = some m := by
    intro r m hm
    rw [List.getElem?_append_left (List.getElem?_eq_some_iff.mp hm).1]
    exact hm
  refine ⟨⟨h.numbered.counter, h.numbered.ids⟩, ⟨?_, ?_, hr.once, ?_, ?_⟩,
    h.ordered.congr ⟨rfl, rfl, rfl, rfl, rfl, rfl, rfl⟩⟩
  · intro id' r hc
    simp only at hc
    rcases eq_or_ne id' id with rfl | hne
    · rw [Function.update_self, Option.some.injEq] at hc
      subst hc
      exact ⟨pkt, by simp, hid⟩
    · rw [Function.update_of_ne hne] at hc
      obtain ⟨m, hm, hmid⟩ := hr.known id' r hc
      exact ⟨m, hold r m hm, hmid⟩
  · intro id' r hc hran
    simp only at hc
    rcases eq_or_ne id' id with rfl | hne
    · rw [Function.update_self, Option.some.injEq] at hc
      have hlt := hr.asked r hran
      omega
    · rw [Function.update_of_ne hne] at hc
      exact hr.waiting id' r hc hran
  · intro r hran
    rw [List.length_append]
    exact Nat.lt_add_right _ (hr.asked r hran)
  · intro r p hinv
    obtain ⟨id', m, hm, hmid, hrep⟩ := hr.own r p hinv
    exact ⟨id', m, hold r m hm, hmid, hrep⟩

theorem inv_getD_sendMsg (h : Inv env running s) {pkt : Message}
    (hid : pkt.id = .string (tostring s.reqId)) : Inv env running ((s.sendMsg env pkt).getD s) := by
  cases hs : s.sendMsg env pkt with
  | none => exact h
  | some s' => exact inv_sendMsg h hid hs

theorem inv_doCall (h : Inv env running s) (c : Call) : Inv env running (s.doCall env c) := by
  cases c with
  | toMaster cmd package callback =>
    cases callback with
    | true => exact inv_getD_sendMsg (inv_register h _ rfl) rfl
    | false => exact inv_getD_sendMsg h rfl
  | sendBroadcast package key => exact inv_getD_sendMsg h rfl
  | recvBroadcast key callback =>
    exact ⟨⟨h.numbered.counter, h.numbered.ids⟩, h.registered.congr ⟨rfl, rfl, rfl, rfl⟩,
      h.ordered.congr ⟨rfl, rfl, rfl, rfl, rfl, rfl, rfl⟩⟩

theorem inv_calls (h : Inv env running s) (cs : List Call) :
    Inv env running (cs.foldl (Worker.doCall env) s) := by
  induction cs generalizing s with
  | nil => exact h
  | cons c cs ih => exact ih (inv_doCall h c)

theorem registered_broadcast (hr : Registered running s) (callback : ℕ) (packet : LuaValue) :
    Registered running { s with invoked := s.invoked ++ [.broadcast callback packet] } := by
  have hran :
      (s.invoked ++ [Invocation.broadcast callback packet]).filterMap Invocation.request
        = s.ran := by
    simp [Worker.ran, Invocation.request]
  refine ⟨hr.known, fun id r hc => ?_, ?_, fun r => ?_, fun r p hinv => ?_⟩
  · rw [Worker.ran, hran]
    exact hr.waiting id r hc
  · rw [Worker.ran, hran]
    exact hr.once
  · rw [Worker.ran, hran]
    exact hr.asked r
  · rcases List.mem_append.mp hinv with hinv | hinv
    · exact hr.own r p hinv
    · cases List.mem_singleton.mp hinv

theorem inv_broadcast (h : Inv env running s) (callback : ℕ) (packet : LuaValue) :
    Inv env running (s.invoke env (.broadcast callback packet)) := by
  have hcalled :
      Inv env running { s with invoked := s.invoked ++ [.broadcast callback packet] } := by
    refine ⟨⟨h.numbered.counter, h.numbered.ids⟩, ?_,
      h.ordered.congr ⟨rfl, rfl, rfl, rfl, rfl, rfl, rfl⟩⟩
    exact registered_broadcast h.registered callback packet
  exact inv_calls hcalled _

theorem registered_reply (hr : Registered none s) {id : List UInt8} {r : ℕ} {p : LuaValue}
    (hc : s.callbacks id = some r) (hrep : (id, p) ∈ s.replies) :
    Registered (some id) { s with invoked := s.invoked ++ [.reply r p] } := by
  obtain ⟨m, hm, hmid⟩ := hr.known id r hc
  have hnew : r ∉ s.ran := fun hran => by cases hr.waiting id r hc hran
  have hran :
      (s.invoked ++ [Invocation.reply r p]).filterMap Invocation.request = s.ran ++ [r] := by
    simp [Worker.ran, Invocation.request]
  refine ⟨hr.known, fun id' r' hc' => ?_, ?_, fun r' => ?_, fun r' p' hinv => ?_⟩
  · rw [Worker.ran, hran]
    intro hmem
    rcases List.mem_append.mp hmem with hmem | hmem
    · cases hr.waiting id' r' hc' hmem
    · -- one request has one id
      obtain rfl := List.mem_singleton.mp hmem
      obtain ⟨m', hm', hmid'⟩ := hr.known id' r' hc'
      obtain rfl : m = m' := Option.some.inj (hm.symm.trans hm')
      rw [hmid, LuaValue.string.injEq] at hmid'
      rw [hmid']
  · rw [Worker.ran, hran]
    exact List.nodup_append.mpr ⟨hr.once, List.nodup_singleton r, fun a ha b hb hab =>
      hnew (List.mem_singleton.mp hb ▸ hab ▸ ha)⟩
  · rw [Worker.ran, hran]
    intro hmem
    rcases List.mem_append.mp hmem with hmem | hmem
    · exact hr.asked r' hmem
    · rw [List.mem_singleton.mp hmem]
      exact (List.getElem?_eq_some_iff.mp hm).1
  · rcases List.mem_append.mp hinv with hinv | hinv
    · exact hr.own r' p' hinv
    · cases List.mem_singleton.mp hinv
      exact ⟨id, m, hm, hmid, hrep⟩

theorem inv_invoke (h : Inv env none s) {id : List UInt8} {r : ℕ} {p : LuaValue}
    (hc : s.callbacks id = some r) (hrep : (id, p) ∈ s.replies) :
    Inv env (some id) (s.invoke env (.reply r p)) := by
  have hcalled : Inv env (some id) { s with invoked := s.invoked ++ [.reply r p] } := by
    refine ⟨⟨h.numbered.counter, h.numbered.ids⟩, registered_reply h.registered hc hrep,
      h.ordered.congr ⟨rfl, rfl, rfl, rfl, rfl, rfl, rfl⟩⟩
  exact inv_calls hcalled _

theorem inv_clear {id : List UInt8} (h : Inv env (some id) s) :
    Inv env none { s with callbacks := Function.update s.callbacks id none } := by
  have hr := h.registered
  refine ⟨⟨h.numbered.counter, h.numbered.ids⟩, ⟨?_, ?_, hr.once, hr.asked, hr.own⟩,
    h.ordered.congr ⟨rfl, rfl, rfl, rfl, rfl, rfl, rfl⟩⟩
  · intro id' r hc
    simp only at hc
    rcases eq_or_ne id' id with rfl | hne
    · rw [Function.update_self] at hc
      cases hc
    · rw [Function.update_of_ne hne] at hc
      exact hr.known id' r hc
  · intro id' r hc hran
    simp only at hc
    rcases eq_or_ne id' id with rfl | hne
    · rw [Function.update_self] at hc
      cases hc
    · rw [Function.update_of_ne hne] at hc
      exact absurd (Option.some.inj (hr.waiting id' r hc hran)).symm hne

theorem inv_runCallbacks {key : List UInt8} {packet : LuaValue} {i n : ℕ} (h : Inv env none s)
    (hs : s.runCallbacks env key packet i n = some s') : Inv env none s' := by
  induction n generalizing i s with
  | zero =>
    simp only [Worker.runCallbacks, Option.some.injEq] at hs
    exact hs ▸ h
  | succ n ih =>
    rw [Worker.runCallbacks] at hs
    split at hs
    · cases hs
    · exact ih (inv_broadcast h _ _) hs

theorem inv_reply (h : Inv env none s) (id : List UInt8) (p : LuaValue) :
    Inv env none { s with replies := s.replies ++ [(id, p)] } := by
  have hr := h.registered
  refine ⟨⟨h.numbered.counter, h.numbered.ids⟩, ⟨hr.known, hr.waiting, hr.once, hr.asked, ?_⟩,
    h.ordered.congr ⟨rfl, rfl, rfl, rfl, rfl, rfl, rfl⟩⟩
  intro r p' hinv
  obtain ⟨id', m, hm, hmid, hrep⟩ := hr.own r p' hinv
  exact ⟨id', m, hm, hmid, List.mem_append_left _ hrep⟩

theorem inv_packet {fd : Option ℤ} {type : List UInt8} {heap : Heap} {packet : LuaValue} {n : ℕ}
    {buf : MemSlice} (h : Inv env none s)
    (hs : ipcProcessPacket env fd type s heap packet n buf = some s') : Inv env none s' := by
  simp only [ipcProcessPacket, Option.bind_eq_bind, Option.bind_eq_some_iff] at hs
  obtain ⟨packet', _, cmd₀, _, cmd, _, hs⟩ := hs
  split at hs
  · obtain ⟨key, _, hs⟩ := Option.bind_eq_some_iff.mp hs
    split at hs
    · obtain ⟨pktKey, _, hs⟩ := Option.bind_eq_some_iff.mp hs
      split at hs
      · cases hs
        exact h
      · exact inv_runCallbacks h hs
    · cases hs
      exact h
  · split at hs
    · simp only [Option.bind_eq_some_iff] at hs
      obtain ⟨id₀, _, idstr, _, p, _, hs⟩ := hs
      have hrep := inv_reply h idstr p
      split at hs
      · cases hs
        exact hrep
      · rename_i r hc
        cases hs
        exact inv_clear (inv_invoke hrep hc (List.mem_append_right _ (List.mem_singleton.mpr rfl)))
    · cases hs
      exact h

/-- What emptying the queue does: it gets to the end, or stops at the first message that
cannot be packed. -/
theorem drain_cases (env : Env) (queue : List Message) (s : Worker) :
    ∃ packed rest, packed.map some <+: queue.map env.pack ∧
      (Worker.drain env queue s = { s with
          written := s.written ++ packed, queue := rest, ipcConnected := true } ∧
        packed.map some = queue.map env.pack ∨
      Worker.drain env queue s = { s with written := s.written ++ packed, queue := rest } ∧
        ∃ m ∈ queue, env.pack m = none) := by
  induction queue generalizing s with
  | nil => exact ⟨[], [], List.nil_prefix, .inl ⟨by simp [Worker.drain], rfl⟩⟩
  | cons qi queue ih =>
    cases hpack : env.pack qi with
    | none =>
      refine ⟨[], queue, List.nil_prefix, .inr ⟨?_, qi, List.mem_cons_self, hpack⟩⟩
      rw [Worker.drain, hpack, List.append_nil]
    | some packed =>
      obtain ⟨more, rest, hpre, hend⟩ := ih { s with written := s.written ++ [packed] }
      have hcons : (packed :: more).map some <+: (qi :: queue).map env.pack := by
        rw [List.map_cons, List.map_cons, hpack]
        exact List.prefix_cons_inj _ |>.mpr hpre
      refine ⟨packed :: more, rest, hcons, ?_⟩
      rw [Worker.drain, hpack]
      rcases hend with ⟨he, hall⟩ | ⟨he, m, hm, hnone⟩
      · refine .inl ⟨?_, ?_⟩
        · simp only [he, List.append_assoc, List.singleton_append]
        · rw [List.map_cons, List.map_cons, hpack, hall]
      · refine .inr ⟨?_, m, List.mem_cons_of_mem _ hm, hnone⟩
        simp only [he, List.append_assoc, List.singleton_append]

theorem inv_onConnect (h : Inv env none s) (hconn : s.connecting = true) (err : Bool) :
    Inv env none (s.onConnect env err) := by
  have ho := h.ordered
  have hg := ho.connecting hconn
  obtain ⟨hnot, hqueue, hwritten⟩ := ho.ungreeted hg
  have hchannel : s.ipcChannel = true := by
    cases hc : s.ipcChannel with
    | true => rfl
    | false => exact absurd hconn (by rw [(ho.idle hc).2]; decide)
  have hidle : ∀ {p : Prop}, s.ipcChannel = false → p := fun hc =>
    absurd hchannel (by rw [hc]; decide)
  unfold Worker.onConnect
  cases err with
  | true =>
    refine ⟨⟨h.numbered.counter, h.numbered.ids⟩, h.registered.congr ⟨rfl, rfl, rfl, rfl⟩, ?_⟩
    exact ⟨hidle, ho.ungreeted, fun hc => (by cases hc), ho.sent, ho.stuck, ho.sofar⟩
  | false =>
    simp only [Bool.false_eq_true, if_false]
    cases hhello : env.pack (Worker.hello env) with
    | none =>
      refine ⟨⟨h.numbered.counter, h.numbered.ids⟩, h.registered.congr ⟨rfl, rfl, rfl, rfl⟩, ?_⟩
      exact ⟨hidle, fun hc => (by cases hc), fun hc => (by cases hc), ho.sent,
        fun _ _ => ⟨_, List.mem_cons_self, hhello⟩, ho.sofar⟩
    | some packed =>
      simp only
      obtain ⟨more, rest, hpre, hend⟩ := drain_cases env s.queue
        { s with connecting := false, greeted := true, written := s.written ++ [packed] }
      rw [hqueue] at hpre hend
      have hsofar : (s.written ++ [packed] ++ more).map some <+:
          (Worker.hello env :: s.issued).map env.pack := by
        rw [hwritten, List.nil_append, List.singleton_append, List.map_cons, List.map_cons, hhello]
        exact List.prefix_cons_inj _ |>.mpr hpre
      rw [hqueue]
      rcases hend with ⟨he, hall⟩ | ⟨he, m, hm, hnone⟩
      · rw [he]
        refine ⟨⟨h.numbered.counter, h.numbered.ids⟩, h.registered.congr ⟨rfl, rfl, rfl, rfl⟩, ?_⟩
        refine ⟨hidle, fun hc => (by cases hc), fun hc => (by cases hc), fun _ => ?_,
          fun _ hc => (by cases hc), hsofar⟩
        rw [hwritten, List.nil_append, List.singleton_append, List.map_cons, List.map_cons, hhello,
          hall]
      · rw [he]
        refine ⟨⟨h.numbered.counter, h.numbered.ids⟩, h.registered.congr ⟨rfl, rfl, rfl, rfl⟩, ?_⟩
        exact ⟨hidle, fun hc => (by cases hc), fun hc => (by cases hc),
          fun hc => absurd hc (by rw [hnot]; decide),
          fun _ _ => ⟨m, List.mem_cons_of_mem _ hm, hnone⟩, hsofar⟩

theorem inv_next (h : Inv env none s) (op : Op) : Inv env none (next env s op) := by
  cases op with
  | call c => exact inv_doCall h c
  | onConnect err =>
    simp only [next]
    split
    · rename_i hconn
      exact inv_onConnect h hconn err
    · exact h
  | packet heap packet fd type =>
    simp only [next]
    cases hs : ipcProcessPacket env fd type s heap packet 0 ⟨0, 0, 0⟩ with
    | none => exact h
    | some s' => exact inv_packet h hs

/-- A worker that packs with the encoder and whose callbacks make no calls. -/
def quietEnv : Env := ⟨mpPack (Heap.boot fun _ _ => 0), .string (ascii "7"), fun _ => []⟩

end Lev.Mailbox
