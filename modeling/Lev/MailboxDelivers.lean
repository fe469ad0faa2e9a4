import Lev.MailboxConnects

/-! What a worker puts on its channel, told from outside: by the calls that the program and its
callbacks make, the connect, and the replies that arrive. -/
namespace Lev.Mailbox
open Slab Memory Lua Ipc Run

/-- The messages of these calls, numbered from `n` on. -/
def messagesOf (env : Env) : ℕ → List Call → List Message
  | _, [] => []
  | n, .toMaster cmd package _ :: cs =>
    ⟨cmd, .string (tostring n), env.workerId, .nil, package⟩ :: messagesOf env (n + 1) cs
  | n, .sendBroadcast package key :: cs =>
    ⟨ascii "broadcast", .string (tostring n), env.workerId, key, package⟩ ::
      messagesOf env (n + 1) cs
  | n, .recvBroadcast _ _ :: cs => messagesOf env n cs

def requestsOf (env : Env) : ℕ → List Call → List Message
  | _, [] => []
  | n, .toMaster cmd package true :: cs =>
    ⟨cmd, .string (tostring n), env.workerId, .nil, package⟩ :: requestsOf env (n + 1) cs
  | n, .toMaster _ _ false :: cs => requestsOf env (n + 1) cs
  | n, .sendBroadcast _ _ :: cs => requestsOf env (n + 1) cs
  | n, .recvBroadcast _ _ :: cs => requestsOf env n cs

/-- The calls of `n` callbacks in a row. -/
def callbackCalls (env : Env) (first n : ℕ) : List Call :=
  (List.range' first n).flatMap env.behave

/-- The calls of one step: the program's own, or those of the callbacks that a packet runs. -/
def made (env : Env) (s : Worker) (op : Op) : List Call :=
  match op with
  | .call c => [c]
  | .onConnect _ => []
  | .packet _ _ _ _ =>
    callbackCalls env s.invoked.length ((next env s op).invoked.length - s.invoked.length)

def callsOf (env : Env) : Worker → List Op → List Call
  | _, [] => []
  | s, op :: ops => made env s op ++ callsOf env (next env s op) ops

def replyOf : Op → Option (List UInt8 × LuaValue)
  | .packet h packet fd type => do
    let packet ← withCmsg fd type packet
    let cmd ← toString h (← index packet "cmd")
    if cmd = ascii "reply" then
      let id ← toString h (← index packet "id")
      return (id, ← index packet "p")
    else none
  | _ => none

def Call.sends : Call → Bool
  | .recvBroadcast _ _ => false
  | _ => true

/-- The channel, as it can be told from the calls and the connects that end: the first message
starts a connect, and that succeeds or fails. -/
inductive Link
  | idle | waiting | up | down
  deriving DecidableEq, Repr

def Link.next (sends : Bool) : Link → Op → Link
  | .waiting, .onConnect err => if err then .down else .up
  | .idle, .onConnect _ => .idle
  | .idle, _ => if sends then .waiting else .idle
  | l, _ => l

def linkOf (env : Env) : Link → Worker → List Op → Link
  | l, _, [] => l
  | l, s, op :: ops =>
    linkOf env (l.next ((made env s op).any Call.sends) op) (next env s op) ops

/-- What the program can rely on after a run. -/
structure Delivers (env : Env) (ops : List Op) : Prop where
  /-- Distinct requests have distinct ids. -/
  ids : ((messagesOf env 1 (callsOf env start ops)).map Message.id).Nodup
  /-- Every callback runs at most once, -/
  once : (exec (next env) start ops).ran.Nodup
  /-- with the payload of a reply that has the id of its request. -/
  own : ∀ r p, Invocation.reply r p ∈ (exec (next env) start ops).invoked →
    ∃ id m, (requestsOf env 1 (callsOf env start ops))[r]? = some m ∧ m.id = .string id ∧
      (id, p) ∈ ops.filterMap replyOf
  /-- Until the channel is up nothing is written, and the messages wait in their order. -/
  before : linkOf env .idle start ops ≠ .up → (exec (next env) start ops).written = [] ∧
    (exec (next env) start ops).queue = messagesOf env 1 (callsOf env start ops)
  /-- Then hello and the messages are written, in their order and each of them once. -/
  after : linkOf env .idle start ops = .up → (exec (next env) start ops).written.map some =
    (Worker.hello env :: messagesOf env 1 (callsOf env start ops)).map env.pack

variable {env : Env} {s t u : Worker} {n : ℕ} {cs cs' : List Call}

theorem messagesOf_append : messagesOf env n (cs ++ cs') =
    messagesOf env n cs ++ messagesOf env (n + (messagesOf env n cs).length) cs' := by
  induction cs generalizing n with
  | nil => rfl
  | cons c cs ih =>
    cases c with
    | toMaster cmd package callback =>
      rw [List.cons_append, messagesOf, messagesOf, ih, List.cons_append, List.length_cons,
        Nat.add_right_comm, Nat.add_assoc n]
    | sendBroadcast package key =>
      rw [List.cons_append, messagesOf, messagesOf, ih, List.cons_append, List.length_cons,
        Nat.add_right_comm, Nat.add_assoc n]
    | recvBroadcast key callback => rw [List.cons_append, messagesOf, messagesOf, ih]

theorem requestsOf_append : requestsOf env n (cs ++ cs') =
    requestsOf env n cs ++ requestsOf env (n + (messagesOf env n cs).length) cs' := by
  induction cs generalizing n with
  | nil => rfl
  | cons c cs ih =>
    cases c with
    | toMaster cmd package callback =>
      cases callback with
      | true =>
        rw [List.cons_append, requestsOf, requestsOf, messagesOf, ih, List.cons_append,
          List.length_cons, Nat.add_right_comm, Nat.add_assoc n]
      | false =>
        rw [List.cons_append, requestsOf, requestsOf, messagesOf, ih, List.length_cons,
          Nat.add_right_comm, Nat.add_assoc n]
    | sendBroadcast package key =>
      rw [List.cons_append, requestsOf, requestsOf, messagesOf, ih, List.length_cons,
        Nat.add_right_comm, Nat.add_assoc n]
    | recvBroadcast key callback =>
      rw [List.cons_append, requestsOf, requestsOf, messagesOf, ih]

theorem callbackCalls_succ (first : ℕ) : callbackCalls env first (n + 1) =
    env.behave first ++ callbackCalls env (first + 1) n := by
  rw [callbackCalls, List.range'_succ, List.flatMap_cons, callbackCalls]

/-- What calls do to the messages and to the channel. -/
structure Made (env : Env) (cs : List Call) (s t : Worker) : Prop where
  issued : t.issued = s.issued ++ messagesOf env s.reqId cs
  reqId : t.reqId = s.reqId + (messagesOf env s.reqId cs).length
  asked : t.asked = s.asked ++ requestsOf env s.reqId cs
  greeted : t.greeted = s.greeted
  ipcConnected : t.ipcConnected = s.ipcConnected
  silent : cs.any Call.sends = false →
    t.ipcChannel = s.ipcChannel ∧ t.connecting = s.connecting
  linked : s.ipcChannel = true → t.ipcChannel = true ∧ t.connecting = s.connecting
  links : s.ipcChannel = false → s.ipcConnected = false → cs.any Call.sends = true →
    t.ipcChannel = true ∧ t.connecting = true

theorem Made.nil (env : Env) (s : Worker) : Made env [] s s where
  issued := (List.append_nil _).symm
  reqId := rfl
  asked := (List.append_nil _).symm
  greeted := rfl
  ipcConnected := rfl
  silent _ := ⟨rfl, rfl⟩
  linked hc := ⟨hc, rfl⟩
  links _ _ h := by cases h

theorem Made.append (h : Made env cs s t) (h' : Made env cs' t u) : Made env (cs ++ cs') s u where
  issued := by rw [h'.issued, h.issued, h.reqId, messagesOf_append, List.append_assoc]
  reqId := by rw [h'.reqId, h.reqId, messagesOf_append, List.length_append, Nat.add_assoc]
  asked := by rw [h'.asked, h.asked, h.reqId, requestsOf_append, List.append_assoc]
  greeted := h'.greeted.trans h.greeted
  ipcConnected := h'.ipcConnected.trans h.ipcConnected
  silent hs := by
    rw [List.any_append, Bool.or_eq_false_iff] at hs
    obtain ⟨hc, hw⟩ := h.silent hs.1
    obtain ⟨hc', hw'⟩ := h'.silent hs.2
    exact ⟨hc'.trans hc, hw'.trans hw⟩
  linked hc := by
    obtain ⟨hc, hw⟩ := h.linked hc
    obtain ⟨hc', hw'⟩ := h'.linked hc
    exact ⟨hc', hw'.trans hw⟩
  links hc hn hs := by
    cases hfirst : cs.any Call.sends with
    | true =>
      obtain ⟨hc, hw⟩ := h.links hc hn hfirst
      obtain ⟨hc', hw'⟩ := h'.linked hc
      exact ⟨hc', hw'.trans hw⟩
    | false =>
      rw [List.any_append, hfirst, Bool.false_or] at hs
      exact h'.links ((h.silent hfirst).1.trans hc) (h.ipcConnected.trans hn) hs

/-- A message goes out or into the queue, unless the channel is connected and the message cannot
be packed. -/
theorem made_sendMsg {c : Call} {m : Message} (hc : c.sends = true)
    (hm : messagesOf env s.reqId [c] = [m])
    (hreq : requestsOf env s.reqId [c] = []) (hok : s.ipcConnected = true → (env.pack m).isSome) :
    Made env [c] s ((s.sendMsg env m).getD s) := by
  have hany : [c].any Call.sends = true := by rw [List.any_cons, hc, Bool.true_or]
  have hnot : [c].any Call.sends ≠ false := by rw [hany]; decide
  unfold Worker.sendMsg
  by_cases hconn : s.ipcConnected = true
  · obtain ⟨packed, hpack⟩ := Option.isSome_iff_exists.mp (hok hconn)
    rw [if_pos hconn, hpack, Option.map_some, Option.getD_some]
    refine ⟨?_, ?_, ?_, rfl, rfl, fun h => absurd h hnot, fun hc => ⟨hc, rfl⟩, fun _ hn => ?_⟩
    · rw [hm]
    · rw [hm]
      rfl
    · rw [hreq, List.append_nil]
    · exact absurd (hconn.symm.trans hn) (by decide)
  · rw [if_neg hconn]
    dsimp only
    rw [Option.getD_some]
    rcases ipcConnect_cases { s with queue := s.queue ++ [m] } with ⟨hch, he⟩ | ⟨hch, he⟩
    · rw [he]
      refine ⟨?_, ?_, ?_, rfl, rfl, fun h => absurd h hnot, fun hc => ⟨hc, rfl⟩, fun hc => ?_⟩
      · rw [hm]
      · rw [hm]
        rfl
      · rw [hreq, List.append_nil]
      · exact absurd (hch.symm.trans hc) (by decide)
    · rw [he]
      refine ⟨?_, ?_, ?_, rfl, rfl, fun h => absurd h hnot, fun hc => ?_, fun _ _ _ => ⟨rfl, rfl⟩⟩
      · rw [hm]
      · rw [hm]
        rfl
      · rw [hreq, List.append_nil]
      · exact absurd (hch.symm.trans hc) (by decide)

theorem made_doCall (c : Call)
    (hok : s.ipcConnected = true → ∀ m ∈ messagesOf env s.reqId [c], (env.pack m).isSome) :
    Made env [c] s (s.doCall env c) := by
  cases c with
  | toMaster cmd package callback =>
    have hsent : ∀ t : Worker, t.reqId = s.reqId → t.ipcConnected = s.ipcConnected →
        Made env [.toMaster cmd package false] t ((t.sendMsg env
          ⟨cmd, .string (tostring s.reqId), env.workerId, .nil, package⟩).getD t) := by
      intro t hn hconn
      refine made_sendMsg rfl (by rw [hn]; rfl) rfl fun hup => ?_
      exact hok (hconn.symm.trans hup) _ List.mem_cons_self
    cases callback with
    | false => exact hsent s rfl rfl
    | true =>
      obtain ⟨hi, hn, ha, hg, hconn, hsilent, hlinked, hlinks⟩ := hsent { s with
        callbacks := Function.update s.callbacks (tostring s.reqId) (some s.asked.length)
        asked := s.asked ++ [⟨cmd, .string (tostring s.reqId), env.workerId, .nil, package⟩] }
        rfl rfl
      exact ⟨hi, hn, ha.trans (List.append_nil _), hg, hconn, hsilent, hlinked, hlinks⟩
  | sendBroadcast package key =>
    exact made_sendMsg rfl rfl rfl fun hup => hok hup _ List.mem_cons_self
  | recvBroadcast key callback =>
    exact ⟨(List.append_nil _).symm, rfl, (List.append_nil _).symm, rfl, rfl,
      fun _ => ⟨rfl, rfl⟩, fun hc => ⟨hc, rfl⟩, fun _ _ h => by cases h⟩

/-- All messages of the calls can be packed, where they go out at once. -/
def Packs (env : Env) (s : Worker) (cs : List Call) : Prop :=
  s.ipcConnected = true → ∀ m ∈ messagesOf env s.reqId cs, (env.pack m).isSome

theorem Packs.left (h : Packs env s (cs ++ cs')) : Packs env s cs := by
  intro hconn m hm
  refine h hconn m ?_
  rw [messagesOf_append]
  exact List.mem_append_left _ hm

theorem Packs.right (h : Packs env s (cs ++ cs')) (hmade : Made env cs s t) : Packs env t cs' := by
  intro hconn m hm
  refine h (hmade.ipcConnected.symm.trans hconn) m ?_
  rw [messagesOf_append, ← hmade.reqId]
  exact List.mem_append_right _ hm

theorem made_calls (hok : Packs env s cs) : Made env cs s (cs.foldl (Worker.doCall env) s) := by
  induction cs generalizing s with
  | nil => exact .nil env s
  | cons c cs ih =>
    have hsplit : Packs env s ([c] ++ cs) := hok
    have hfirst : Made env [c] s (s.doCall env c) := made_doCall c hsplit.left
    exact hfirst.append (ih (hsplit.right hfirst))

theorem doCall_logs (env : Env) (s : Worker) (c : Call) :
    (s.doCall env c).invoked = s.invoked ∧ (s.doCall env c).replies = s.replies := by
  have hsend : ∀ (t : Worker) (m : Message), ((t.sendMsg env m).getD t).invoked = t.invoked ∧
      ((t.sendMsg env m).getD t).replies = t.replies := by
    intro t m
    cases hs : t.sendMsg env m with
    | none => exact ⟨rfl, rfl⟩
    | some t' =>
      unfold Worker.sendMsg at hs
      split at hs
      · obtain ⟨packed, -, rfl⟩ := Option.map_eq_some_iff.mp hs
        exact ⟨rfl, rfl⟩
      · cases hs
        have hsame := ipcConnect_callbacks { t with queue := t.queue ++ [m] }
        exact ⟨hsame.invoked, hsame.replies⟩
  cases c with
  | toMaster cmd package callback =>
    cases callback with
    | true => exact hsend _ _
    | false => exact hsend s _
  | sendBroadcast package key => exact hsend s _
  | recvBroadcast key callback => exact ⟨rfl, rfl⟩

theorem invoke_logs (env : Env) (s : Worker) (inv : Invocation) :
    (s.invoke env inv).invoked = s.invoked ++ [inv] ∧ (s.invoke env inv).replies = s.replies := by
  have hcalls : ∀ (cs : List Call) (t : Worker),
      (cs.foldl (Worker.doCall env) t).invoked = t.invoked ∧
      (cs.foldl (Worker.doCall env) t).replies = t.replies := by
    intro cs
    induction cs with
    | nil => exact fun t => ⟨rfl, rfl⟩
    | cons c cs ih =>
      intro t
      obtain ⟨hi, hr⟩ := ih (t.doCall env c)
      obtain ⟨hi', hr'⟩ := doCall_logs env t c
      exact ⟨hi.trans hi', hr.trans hr'⟩
  exact hcalls _ _

theorem made_invoke {inv : Invocation} (hok : Packs env s (callbackCalls env s.invoked.length 1)) :
    Made env (callbackCalls env s.invoked.length 1) s (s.invoke env inv) := by
  have hone : callbackCalls env s.invoked.length 1 = env.behave s.invoked.length :=
    List.append_nil _
  rw [hone] at hok ⊢
  obtain ⟨hi, hn, ha, hg, hconn, hsilent, hlinked, hlinks⟩ :=
    made_calls (s := { s with invoked := s.invoked ++ [inv] }) hok
  exact ⟨hi, hn, ha, hg, hconn, hsilent, hlinked, hlinks⟩

/-- What a packet does: it runs `n` callbacks, and is logged where it is a reply. -/
structure Handled (env : Env) (n : ℕ) (rs : List (List UInt8 × LuaValue)) (s t : Worker) :
    Prop where
  invoked : t.invoked.length = s.invoked.length + n
  calls : Packs env s (callbackCalls env s.invoked.length n) →
    Made env (callbackCalls env s.invoked.length n) s t
  replies : t.replies = s.replies ++ rs

theorem handled_invoke (env : Env) (s : Worker) (inv : Invocation) :
    Handled env 1 [] s (s.invoke env inv) := by
  obtain ⟨hi, hr⟩ := invoke_logs env s inv
  exact ⟨by rw [hi, List.length_append, List.length_singleton], made_invoke,
    hr.trans (List.append_nil _).symm⟩

theorem handled_runCallbacks {key : List UInt8} {packet : LuaValue} {i : ℕ}
    (hs : s.runCallbacks env key packet i n = some t) : Handled env n [] s t := by
  induction n generalizing i s with
  | zero =>
    cases hs
    exact ⟨rfl, fun _ => .nil env _, (List.append_nil _).symm⟩
  | succ n ih =>
    rw [Worker.runCallbacks] at hs
    split at hs
    · cases hs
    · next callback _ =>
      obtain ⟨hi, hm, hr⟩ := handled_invoke env s (.broadcast callback packet)
      obtain ⟨hi', hm', hr'⟩ := ih hs
      have hsplit : callbackCalls env s.invoked.length (n + 1) =
          callbackCalls env s.invoked.length 1 ++ callbackCalls env (s.invoked.length + 1) n := by
        rw [callbackCalls_succ, callbackCalls_succ, List.append_assoc]
        rfl
      rw [hi] at hi' hm'
      refine ⟨by omega, fun hok => ?_, by rw [hr', hr, List.append_assoc, List.append_nil]⟩
      rw [hsplit] at hok ⊢
      have hfirst := hm hok.left
      exact hfirst.append (hm' (hok.right hfirst))

theorem handled_packet {h : Heap} {packet : LuaValue} {fd : Option ℤ} {type : List UInt8}
    (hs : ipcProcessPacket env fd type s h packet 0 ⟨0, 0, 0⟩ = some t) :
    ∃ n, Handled env n (replyOf (.packet h packet fd type)).toList s t := by
  simp only [ipcProcessPacket, Option.bind_eq_bind, Option.bind_eq_some_iff] at hs
  obtain ⟨packet', hcmsg, cmd₀, hcmd₀, cmd, hcmd, hs⟩ := hs
  have hreply : replyOf (.packet h packet fd type) = if cmd = ascii "reply" then
      (index packet' "id").bind fun id => (toString h id).bind fun id =>
        (index packet' "p").bind fun p => some (id, p) else none := by
    simp only [replyOf, hcmsg, hcmd₀, hcmd, Option.bind_eq_bind, Option.bind_some]
    split
    · rfl
    · rfl
  have hidle : Handled env 0 [] s s := ⟨rfl, fun _ => .nil env s, (List.append_nil _).symm⟩
  split at hs
  · next hbroadcast =>
    have hnot : ¬ cmd = ascii "reply" := by
      rw [hbroadcast]
      decide +kernel
    rw [hreply, if_neg hnot]
    obtain ⟨key, _, hs⟩ := Option.bind_eq_some_iff.mp hs
    split at hs
    · obtain ⟨pktKey, _, hs⟩ := Option.bind_eq_some_iff.mp hs
      split at hs
      · cases hs
        exact ⟨0, hidle⟩
      · exact ⟨_, handled_runCallbacks hs⟩
    · cases hs
      exact ⟨0, hidle⟩
  · split at hs
    · next hcmd =>
      simp only [Option.bind_eq_some_iff] at hs
      obtain ⟨id₀, hid₀, id, hid, p, hp, hs⟩ := hs
      rw [hreply, if_pos hcmd, hid₀, Option.bind_some, hid, Option.bind_some, hp]
      split at hs
      · cases hs
        obtain ⟨hi, hn, ha, hg, hconn, hsilent, hlinked, hlinks⟩ := Made.nil env s
        exact ⟨0, rfl, fun _ => ⟨hi, hn, ha, hg, hconn, hsilent, hlinked, hlinks⟩, rfl⟩
      · next r _ =>
        cases hs
        obtain ⟨hi, hm, hr⟩ := handled_invoke env { s with replies := s.replies ++ [(id, p)] }
          (.reply r p)
        refine ⟨1, hi, fun hok => ?_, hr.trans (List.append_nil _)⟩
        obtain ⟨hi, hn, ha, hg, hconn, hsilent, hlinked, hlinks⟩ := hm hok
        exact ⟨hi, hn, ha, hg, hconn, hsilent, hlinked, hlinks⟩
    · next hnot =>
      cases hs
      rw [hreply, if_neg hnot]
      exact ⟨0, hidle⟩

theorem replyOf_none {h : Heap} {packet : LuaValue} {fd : Option ℤ} {type : List UInt8}
    (hs : ipcProcessPacket env fd type s h packet 0 ⟨0, 0, 0⟩ = none) :
    replyOf (.packet h packet fd type) = none := by
  by_contra hsome
  obtain ⟨r, hr⟩ := Option.ne_none_iff_exists'.mp hsome
  simp only [replyOf, Option.bind_eq_bind, Option.bind_eq_some_iff] at hr
  obtain ⟨packet', hcmsg, cmd₀, hcmd₀, cmd, hcmd, hr⟩ := hr
  split at hr
  · next hreply =>
    simp only [Option.bind_eq_some_iff] at hr
    obtain ⟨id₀, hid₀, id, hid, p, hp, -⟩ := hr
    have hnot : ¬ cmd = ascii "broadcast" := by
      rw [hreply]
      decide +kernel
    simp only [ipcProcessPacket, hcmsg, hcmd₀, hcmd, Option.bind_eq_bind, Option.bind_some,
      if_neg hnot, if_pos hreply, hid₀, hid, hp] at hs
    split at hs
    · cases hs
    · cases hs
  · cases hr

/-- Where the state of the channel comes from. -/
def Linked : Link → Worker → Prop
  | .idle, s => s.ipcChannel = false ∧ s.greeted = false
  | .waiting, s => s.ipcChannel = true ∧ s.connecting = true ∧ s.greeted = false
  | .up, s => s.ipcChannel = true ∧ s.connecting = false ∧ s.greeted = true
  | .down, s => s.ipcChannel = true ∧ s.connecting = false ∧ s.greeted = false

/-- The logs of a worker agree with the calls `cs`, the replies `rs` and the link. -/
structure Agrees (env : Env) (l : Link) (cs : List Call) (rs : List (List UInt8 × LuaValue))
    (s : Worker) : Prop where
  inv : Inv env none s
  issued : s.issued = messagesOf env 1 cs
  asked : s.asked = requestsOf env 1 cs
  replies : s.replies = rs
  linked : Linked l s

theorem agrees_start (env : Env) : Agrees env .idle [] [] start :=
  ⟨inv_start, rfl, rfl, rfl, rfl, rfl⟩

/-- All messages of the calls can be packed, if the channel gets up. -/
def Packable (env : Env) (l : Link) (cs : List Call) : Prop :=
  l = .up → ∀ m ∈ Worker.hello env :: messagesOf env 1 cs, (env.pack m).isSome

section step
variable {l : Link} {rs rs' : List (List UInt8 × LuaValue)}

theorem Agrees.reqId (h : Agrees env l cs rs s) :
    s.reqId = 1 + (messagesOf env 1 cs).length := by
  rw [h.inv.numbered.counter, h.issued, Nat.add_comm]

theorem Agrees.not_connected (h : Agrees env l cs rs s) (hl : l ≠ .up) :
    s.ipcConnected = false := by
  have hg : s.greeted = false := by
    cases l with
    | idle => exact h.linked.2
    | waiting => exact h.linked.2.2
    | up => exact absurd rfl hl
    | down => exact h.linked.2.2
  exact (h.inv.ordered.ungreeted hg).1

theorem Agrees.packs (h : Agrees env l cs rs s) (hok : Packable env l (cs ++ cs')) :
    Packs env s cs' := by
  intro hconn m hm
  have hup : l = .up := by
    by_contra hl
    exact absurd (hconn.symm.trans (h.not_connected hl)) (by decide)
  refine hok hup m (List.mem_cons_of_mem _ ?_)
  rw [messagesOf_append, ← h.reqId]
  exact List.mem_append_right _ hm

theorem linked_made (h : Linked l s) (hnot : l ≠ .up → s.ipcConnected = false)
    (hm : Made env cs s t) {op : Op} (hop : ∀ err, op ≠ .onConnect err) :
    Linked (l.next (cs.any Call.sends) op) t := by
  have hidle : l.next (cs.any Call.sends) op =
      if l = .idle ∧ cs.any Call.sends = true then .waiting else l := by
    cases op with
    | call c =>
      cases l with
      | idle => simp [Link.next]
      | waiting | up | down => rfl
    | onConnect err => exact absurd rfl (hop err)
    | packet heap packet fd type =>
      cases l with
      | idle => simp [Link.next]
      | waiting | up | down => rfl
  rw [hidle]
  cases l with
  | idle =>
    cases hs : cs.any Call.sends with
    | true =>
      obtain ⟨hc, hw⟩ := hm.links h.1 (hnot (by decide)) hs
      exact ⟨hc, hw, hm.greeted.trans h.2⟩
    | false => exact ⟨(hm.silent hs).1.trans h.1, hm.greeted.trans h.2⟩
  | waiting =>
    obtain ⟨hc, hw⟩ := hm.linked h.1
    exact ⟨hc, hw.trans h.2.1, hm.greeted.trans h.2.2⟩
  | up =>
    obtain ⟨hc, hw⟩ := hm.linked h.1
    exact ⟨hc, hw.trans h.2.1, hm.greeted.trans h.2.2⟩
  | down =>
    obtain ⟨hc, hw⟩ := hm.linked h.1
    exact ⟨hc, hw.trans h.2.1, hm.greeted.trans h.2.2⟩

theorem Agrees.made (h : Agrees env l cs rs s) (ht : Inv env none t) (hm : Made env cs' s t)
    (hr : t.replies = rs') {op : Op} (hop : ∀ err, op ≠ .onConnect err) :
    Agrees env (l.next (cs'.any Call.sends) op) (cs ++ cs') rs' t where
  inv := ht
  issued := by rw [hm.issued, h.issued, h.reqId, messagesOf_append]
  asked := by rw [hm.asked, h.asked, h.reqId, requestsOf_append]
  replies := hr
  linked := linked_made h.linked h.not_connected hm hop

theorem drain_logs (env : Env) (queue : List Message) (s : Worker) :
    (Worker.drain env queue s).issued = s.issued ∧ (Worker.drain env queue s).asked = s.asked ∧
      (Worker.drain env queue s).replies = s.replies ∧
      (Worker.drain env queue s).ipcChannel = s.ipcChannel ∧
      (Worker.drain env queue s).connecting = s.connecting ∧
      (Worker.drain env queue s).greeted = s.greeted := by
  induction queue generalizing s with
  | nil => exact ⟨rfl, rfl, rfl, rfl, rfl, rfl⟩
  | cons qi queue ih =>
    rw [Worker.drain]
    split
    · exact ⟨rfl, rfl, rfl, rfl, rfl, rfl⟩
    · exact ih _

theorem agrees_onConnect (h : Agrees env l cs rs s) (err : Bool) :
    Agrees env (l.next false (.onConnect err)) cs rs (next env s (.onConnect err)) := by
  have ht := inv_next h.inv (.onConnect err)
  rw [next] at ht ⊢
  by_cases hw : s.connecting = true
  · rw [if_pos hw] at ht ⊢
    have hl : l = .waiting := by
      have hlinked := h.linked
      cases l with
      | idle => exact absurd (hw.symm.trans (h.inv.ordered.idle hlinked.1).2) (by decide)
      | waiting => rfl
      | up => exact absurd (hw.symm.trans hlinked.2.1) (by decide)
      | down => exact absurd (hw.symm.trans hlinked.2.1) (by decide)
    subst hl
    obtain ⟨hc, -, hg⟩ := h.linked
    cases err with
    | true => exact ⟨ht, h.issued, h.asked, h.replies, hc, rfl, hg⟩
    | false =>
      rw [Worker.onConnect, if_neg Bool.false_ne_true] at ht ⊢
      dsimp only at ht ⊢
      cases hpack : env.pack (Worker.hello env) with
      | none =>
        rw [hpack] at ht
        exact ⟨ht, h.issued, h.asked, h.replies, hc, rfl, rfl⟩
      | some packed =>
        rw [hpack] at ht
        obtain ⟨hi, ha, hr, hc', hw', hg'⟩ := drain_logs env s.queue { s with
          connecting := false, greeted := true, written := s.written ++ [packed] }
        exact ⟨ht, hi.trans h.issued, ha.trans h.asked, hr.trans h.replies, hc'.trans hc, hw', hg'⟩
  · rw [if_neg hw] at ht ⊢
    have hl : l.next false (.onConnect err) = l := by
      have hlinked := h.linked
      cases l with
      | waiting => exact absurd hlinked.2.1 hw
      | idle | up | down => rfl
    rw [hl]
    exact h

theorem Link.next_up (sends : Bool) (op : Op) : Link.next sends .up op = .up := by
  cases op with
  | call c => rfl
  | onConnect err => rfl
  | packet heap packet fd type => rfl

theorem linkOf_up (s : Worker) (ops : List Op) : linkOf env .up s ops = .up := by
  induction ops generalizing s with
  | nil => rfl
  | cons op ops ih => rw [linkOf, Link.next_up, ih]

/-- The step lemma: one case for each kind of operation. -/
theorem agrees_next (h : Agrees env l cs rs s) (op : Op)
    (hok : Packable env l (cs ++ made env s op)) :
    Agrees env (l.next ((made env s op).any Call.sends) op) (cs ++ made env s op)
      (rs ++ (replyOf op).toList) (next env s op) := by
  have ht := inv_next h.inv op
  have hpacks := h.packs hok
  cases op with
  | call c =>
    have hnone : replyOf (.call c) = none := rfl
    rw [hnone, Option.toList_none, List.append_nil]
    have hm : Made env [c] s (s.doCall env c) := made_doCall c hpacks
    exact h.made ht hm ((doCall_logs env s c).2.trans h.replies) fun _ => Op.noConfusion
  | onConnect err =>
    have hnone : replyOf (.onConnect err) = none := rfl
    rw [made, hnone, Option.toList_none, List.append_nil, List.append_nil]
    exact agrees_onConnect h err
  | packet heap packet fd type =>
    cases hs : ipcProcessPacket env fd type s heap packet 0 ⟨0, 0, 0⟩ with
    | none =>
      have hnext : next env s (.packet heap packet fd type) = s := by
        rw [next, hs, Option.getD_none]
      have hmade : made env s (.packet heap packet fd type) = [] := by
        rw [made, hnext, Nat.sub_self]
        rfl
      rw [replyOf_none hs, Option.toList_none, List.append_nil, hmade, hnext]
      exact h.made h.inv (.nil env s) h.replies fun _ => Op.noConfusion
    | some t =>
      have hnext : next env s (.packet heap packet fd type) = t := by
        rw [next, hs, Option.getD_some]
      obtain ⟨n, hi, hm, hr⟩ := handled_packet hs
      have hmade : made env s (.packet heap packet fd type) =
          callbackCalls env s.invoked.length n := by
        rw [made, hnext, hi, Nat.add_sub_cancel_left]
      rw [hmade] at hpacks ⊢
      rw [hnext] at ht ⊢
      exact h.made ht (hm hpacks) (by rw [hr, h.replies]) fun _ => Op.noConfusion

theorem agrees_run {ops : List Op} (h : Agrees env l cs rs s)
    (hok : Packable env (linkOf env l s ops) (cs ++ callsOf env s ops)) :
    Agrees env (linkOf env l s ops) (cs ++ callsOf env s ops) (rs ++ ops.filterMap replyOf)
      (exec (next env) s ops) := by
  induction ops generalizing l cs rs s with
  | nil =>
    rw [callsOf, List.filterMap_nil, List.append_nil, List.append_nil]
    exact h
  | cons op ops ih =>
    rw [linkOf, callsOf, ← List.append_assoc] at hok
    have hfirst : Packable env l (cs ++ made env s op) := by
      rintro rfl m hm
      rw [Link.next_up, linkOf_up] at hok
      refine hok rfl m ?_
      rw [messagesOf_append]
      rcases List.mem_cons.mp hm with hm | hm
      · exact List.mem_cons.mpr (.inl hm)
      · exact List.mem_cons_of_mem _ (List.mem_append_left _ hm)
    have hrun := ih (agrees_next h op hfirst) hok
    rw [linkOf, callsOf, ← List.append_assoc, List.filterMap_cons]
    cases hr : replyOf op with
    | none =>
      rw [hr, Option.toList_none, List.append_nil] at hrun
      exact hrun
    | some r =>
      rw [hr, Option.toList_some] at hrun
      dsimp only
      rw [List.append_cons]
      exact hrun

end step

theorem messagesOf_ids : (messagesOf env n cs).map Message.id =
    (List.range' n (messagesOf env n cs).length).map fun i => .string (tostring i) := by
  induction cs generalizing n with
  | nil => rfl
  | cons c cs ih =>
    cases c with
    | toMaster cmd package callback =>
      rw [messagesOf, List.map_cons, ih, List.length_cons, List.range'_succ, List.map_cons]
    | sendBroadcast package key =>
      rw [messagesOf, List.map_cons, ih, List.length_cons, List.range'_succ, List.map_cons]
    | recvBroadcast key callback => exact ih

theorem ids_nodup (hfew : n + (messagesOf env n cs).length ≤ 10 ^ 14) :
    ((messagesOf env n cs).map Message.id).Nodup := by
  rw [messagesOf_ids]
  refine (List.nodup_range' ..).map_on fun i hi j hj he => ?_
  rw [List.mem_range'_1] at hi hj
  rw [LuaValue.string.injEq] at he
  exact tostring_inj (by omega) (by omega) he

theorem Agrees.delivers {ops : List Op}
    (h : Agrees env (linkOf env .idle start ops) (callsOf env start ops) (ops.filterMap replyOf)
      (exec (next env) start ops))
    (hok : Packable env (linkOf env .idle start ops) (callsOf env start ops))
    (hfew : (messagesOf env 1 (callsOf env start ops)).length < 10 ^ 14) : Delivers env ops where
  ids := ids_nodup (by omega)
  once := h.inv.registered.once
  own r p hrun := by
    obtain ⟨id, m, hm, hid, hrep⟩ := h.inv.registered.own r p hrun
    rw [h.asked] at hm
    rw [h.replies] at hrep
    exact ⟨id, m, hm, hid, hrep⟩
  before hl := by
    have hg : (exec (next env) start ops).greeted = false := by
      have hlinked := h.linked
      revert hlinked hl
      cases linkOf env .idle start ops with
      | idle => exact fun _ hlinked => hlinked.2
      | waiting => exact fun _ hlinked => hlinked.2.2
      | up => exact fun hl _ => absurd rfl hl
      | down => exact fun _ hlinked => hlinked.2.2
    obtain ⟨-, hqueue, hwritten⟩ := h.inv.ordered.ungreeted hg
    exact ⟨hwritten, hqueue.trans h.issued⟩
  after hl := by
    have hlinked := h.linked
    rw [hl] at hlinked
    cases hconn : (exec (next env) start ops).ipcConnected with
    | true => rw [h.inv.ordered.sent hconn, h.issued]
    | false =>
      obtain ⟨m, hm, hnone⟩ := h.inv.ordered.stuck hlinked.2.2 hconn
      rw [h.issued] at hm
      have hsome := hok hl m hm
      rw [hnone] at hsome
      cases hsome

/-- The mailbox keeps its promises in the runs in which the channel does not get up or everything
that is sent can be packed, and in no others. -/
theorem mailbox_delivers_iff (env : Env) (ops : List Op)
    (hfew : (messagesOf env 1 (callsOf env start ops)).length < 10 ^ 14) :
    Delivers env ops ↔ (linkOf env .idle start ops = .up →
      ∀ m ∈ Worker.hello env :: messagesOf env 1 (callsOf env start ops), (env.pack m).isSome) := by
  constructor
  · intro h hl m hm
    have hmem : env.pack m ∈ (exec (next env) start ops).written.map some := by
      rw [h.after hl]
      exact List.mem_map_of_mem hm
    obtain ⟨packed, -, hpack⟩ := List.mem_map.mp hmem
    rw [← hpack]
    rfl
  · intro hok
    exact (agrees_run (agrees_start env) hok).delivers hok hfew

/-- A request before the channel is connected, one after it, and the reply to the first,
twice. -/
def twoRequests : List Op :=
  let h := (Heap.boot fun _ _ => 0).store 0 0 (ascii "reply1")
  let reply : LuaValue := .table 0 []
    [(.string (ascii "cmd"), .buffer ⟨0, 0, 5⟩), (.string (ascii "id"), .buffer ⟨0, 5, 1⟩)]
  [.call (.toMaster (ascii "bind") (.table 0 [] []) true), .onConnect false,
    .call (.toMaster (ascii "bind") (.table 0 [] []) true), .packet h reply none [],
    .packet h reply none []]

theorem mailbox_delivers_iff_twoRequests : Delivers quietEnv twoRequests :=
  (mailbox_delivers_iff quietEnv twoRequests (by decide +kernel)).mpr (by decide +kernel)

/-- A request with a function in it waits in front of another one. The connect succeeds, the first
cannot be packed, and the second is never written. -/
def functionRequest : List Op :=
  [.call (.toMaster (ascii "log") (.foreign .function) false),
    .call (.toMaster (ascii "bind") (.table 0 [] []) false), .onConnect false]

theorem functionRequest_strands : ¬ Delivers quietEnv functionRequest := by
  intro h
  have hwritten := congrArg List.length (h.after (by decide +kernel))
  revert hwritten
  decide +kernel

end Lev.Mailbox
