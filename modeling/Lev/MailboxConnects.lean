import Lev.MailboxOrder

/-! Whether a message that waits in the queue of a mailbox has a connect to wait for. A failed
connect leaves `ipc_channel` set, and no later send starts another. -/
namespace Lev.Mailbox
open Slab Memory Lua Ipc Run

variable {env : Env} {s s' : Worker}

section preserves
variable {P : Worker → Prop} (hsame : ∀ s s', SameChannel s s' → P s → P s')
  (hsend : ∀ s s' pkt, P s → s.sendMsg env pkt = some s' → P s')

include hsend in
theorem preserves_getD_sendMsg (h : P s) (pkt : Message) : P ((s.sendMsg env pkt).getD s) := by
  cases hs : s.sendMsg env pkt with
  | none => exact h
  | some s' => exact hsend s s' pkt h hs

include hsame hsend

theorem preserves_doCall (h : P s) (c : Call) : P (s.doCall env c) := by
  cases c with
  | toMaster cmd package callback =>
    cases callback with
    | true =>
      have hregistered := hsame s { s with
        callbacks := Function.update s.callbacks (tostring s.reqId) (some s.asked.length)
        asked := s.asked ++ [⟨cmd, .string (tostring s.reqId), env.workerId, .nil, package⟩] }
        ⟨rfl, rfl, rfl, rfl, rfl, rfl, rfl⟩ h
      exact preserves_getD_sendMsg hsend hregistered _
    | false => exact preserves_getD_sendMsg hsend h _
  | sendBroadcast package key => exact preserves_getD_sendMsg hsend h _
  | recvBroadcast key callback => exact hsame s _ ⟨rfl, rfl, rfl, rfl, rfl, rfl, rfl⟩ h

theorem preserves_invoke (h : P s) (inv : Invocation) : P (s.invoke env inv) := by
  have hcalls : ∀ (cs : List Call) {s : Worker}, P s → P (cs.foldl (Worker.doCall env) s) := by
    intro cs
    induction cs with
    | nil => exact fun h => h
    | cons c cs ih => exact fun h => ih (preserves_doCall hsame hsend h c)
  exact hcalls _ (hsame s _ ⟨rfl, rfl, rfl, rfl, rfl, rfl, rfl⟩ h)

theorem preserves_runCallbacks {key : List UInt8} {packet : LuaValue} {i n : ℕ} (h : P s)
    (hs : s.runCallbacks env key packet i n = some s') : P s' := by
  induction n generalizing i s with
  | zero =>
    cases hs
    exact h
  | succ n ih =>
    rw [Worker.runCallbacks] at hs
    split at hs
    · cases hs
    · exact ih (preserves_invoke hsame hsend h _) hs

/-- What sends keep, and what has nothing to do with the channel, packets keep as well. -/
theorem preserves_packet {fd : Option ℤ} {type : List UInt8} {heap : Heap} {packet : LuaValue}
    {n : ℕ}
    {buf : MemSlice} (h : P s)
    (hs : ipcProcessPacket env fd type s heap packet n buf = some s') : P s' := by
  simp only [ipcProcessPacket, Option.bind_eq_bind, Option.bind_eq_some_iff] at hs
  obtain ⟨packet', _, cmd₀, _, cmd, _, hs⟩ := hs
  split at hs
  · obtain ⟨key, _, hs⟩ := Option.bind_eq_some_iff.mp hs
    split at hs
    · obtain ⟨pktKey, _, hs⟩ := Option.bind_eq_some_iff.mp hs
      split at hs
      · cases hs
        exact h
      · exact preserves_runCallbacks hsame hsend h hs
    · cases hs
      exact h
  · split at hs
    · simp only [Option.bind_eq_some_iff] at hs
      obtain ⟨id₀, _, idstr, _, p, _, hs⟩ := hs
      have hlogged := hsame s { s with replies := s.replies ++ [(idstr, p)] }
        ⟨rfl, rfl, rfl, rfl, rfl, rfl, rfl⟩ h
      split at hs
      · cases hs
        exact hlogged
      · rename_i r hc
        cases hs
        have hran := preserves_invoke hsame hsend hlogged (.reply r p)
        exact hsame _ _ (by exact ⟨rfl, rfl, rfl, rfl, rfl, rfl, rfl⟩) hran
    · cases hs
      exact h

end preserves

/-- Messages that wait have a connect to wait for. Where neither a channel is connected nor a
connect outstanding, the next send starts one. -/
structure Connects (env : Env) (s : Worker) : Prop where
  waiting : s.queue ≠ [] → s.connecting = true
  restarts : s.ipcConnected = false → s.connecting = false →
    ∀ pkt s', s.sendMsg env pkt = some s' → s'.connecting = true

/-- A connect that ends succeeds, and hello and all that waits can be packed. -/
def Succeeds (env : Env) (s : Worker) : Op → Prop
  | .onConnect err => s.connecting = true →
    err = false ∧ ∀ m ∈ Worker.hello env :: s.queue, (env.pack m).isSome
  | _ => True

/-- The channel is not there yet, being connected, or connected. -/
inductive Phase (s : Worker) : Prop
  | idle (hc : s.ipcChannel = false) (hn : s.ipcConnected = false) (hw : s.connecting = false)
    (hq : s.queue = [])
  | connecting (hc : s.ipcChannel = true) (hn : s.ipcConnected = false) (hw : s.connecting = true)
  | connected (hn : s.ipcConnected = true) (hw : s.connecting = false) (hq : s.queue = [])

theorem Phase.congr (h : Phase s) (e : SameChannel s s') : Phase s' := by
  obtain ⟨hc, hn, hw, hq, -, -, -⟩ := e
  cases h with
  | idle hc' hn' hw' hq' =>
    exact .idle (hc.trans hc') (hn.trans hn') (hw.trans hw') (hq.trans hq')
  | connecting hc' hn' hw' => exact .connecting (hc.trans hc') (hn.trans hn') (hw.trans hw')
  | connected hn' hw' hq' => exact .connected (hn.trans hn') (hw.trans hw') (hq.trans hq')

/-- What a send does: it writes, it waits, or it starts a connect and waits. -/
theorem sendMsg_cases {pkt : Message} (hs : s.sendMsg env pkt = some s') :
    (s.ipcConnected = true ∧ s'.ipcConnected = true ∧ s'.connecting = s.connecting ∧
      s'.queue = s.queue) ∨
    (s.ipcConnected = false ∧ s'.ipcConnected = false ∧ s'.ipcChannel = true ∧
      s'.queue = s.queue ++ [pkt] ∧ (s.ipcChannel = true → s'.connecting = s.connecting) ∧
      (s.ipcChannel = false → s'.connecting = true)) := by
  unfold Worker.sendMsg at hs
  cases hconn : s.ipcConnected with
  | true =>
    rw [if_pos hconn] at hs
    obtain ⟨packed, -, rfl⟩ := Option.map_eq_some_iff.mp hs
    exact .inl ⟨rfl, hconn, rfl, rfl⟩
  | false =>
    rw [if_neg (by rw [hconn]; decide)] at hs
    cases hs
    rcases ipcConnect_cases { s with queue := s.queue ++ [pkt] } with ⟨hc, he⟩ | ⟨hc, he⟩
    · rw [he]
      exact .inr ⟨rfl, hconn, hc, rfl, fun _ => rfl, fun h => absurd (h.symm.trans hc) (by decide)⟩
    · rw [he]
      exact .inr ⟨rfl, hconn, rfl, rfl, fun h => absurd (h.symm.trans hc) (by decide), fun _ => rfl⟩

theorem Phase.send {pkt : Message} (h : Phase s) (hs : s.sendMsg env pkt = some s') :
    Phase s' := by
  rcases sendMsg_cases hs with ⟨hconn, hn, hw, hq⟩ | ⟨hconn, hn, hc, hq, hold, hnew⟩
  · cases h with
    | idle hc' hn' hw' hq' => exact absurd (hconn.symm.trans hn') (by decide)
    | connecting hc' hn' hw' => exact absurd (hconn.symm.trans hn') (by decide)
    | connected hn' hw' hq' => exact .connected hn (hw.trans hw') (hq.trans hq')
  · cases h with
    | idle hc' hn' hw' hq' => exact .connecting hc hn (hnew hc')
    | connecting hc' hn' hw' => exact .connecting hc hn ((hold hc').trans hw')
    | connected hn' hw' hq' => exact absurd (hconn.symm.trans hn') (by decide)

theorem Phase.connects (h : Phase s) : Connects env s := by
  cases h with
  | idle hc hn hw hq =>
    refine ⟨fun hne => absurd hq hne, fun _ _ pkt s' hs => ?_⟩
    rcases sendMsg_cases hs with ⟨hconn, -⟩ | ⟨-, -, -, -, -, hnew⟩
    · exact absurd (hconn.symm.trans hn) (by decide)
    · exact hnew hc
  | connecting hc hn hw => exact ⟨fun _ => hw, fun _ h => absurd (hw.symm.trans h) (by decide)⟩
  | connected hn hw hq =>
    exact ⟨fun hne => absurd hq hne, fun h => absurd (hn.symm.trans h) (by decide)⟩

/-- The loop gets to the end of a queue that can be packed, and then the channel is connected. -/
theorem drain_all {queue : List Message} (hall : ∀ m ∈ queue, (env.pack m).isSome) :
    (Worker.drain env queue s).ipcConnected = true ∧ (Worker.drain env queue s).queue = [] ∧
      (Worker.drain env queue s).connecting = s.connecting := by
  induction queue generalizing s with
  | nil => exact ⟨rfl, rfl, rfl⟩
  | cons qi queue ih =>
    obtain ⟨hqi, hall⟩ := List.forall_mem_cons.mp hall
    obtain ⟨packed, hpack⟩ := Option.isSome_iff_exists.mp hqi
    rw [Worker.drain, hpack]
    exact ih hall

/-- Where the loop is left by an error, the channel never becomes connected. -/
theorem drain_stuck {queue : List Message} (hstuck : ¬ ∀ m ∈ queue, (env.pack m).isSome) :
    (Worker.drain env queue s).ipcConnected = s.ipcConnected ∧
      (Worker.drain env queue s).ipcChannel = s.ipcChannel ∧
      (Worker.drain env queue s).connecting = s.connecting := by
  induction queue generalizing s with
  | nil => exact absurd (List.forall_mem_nil _) hstuck
  | cons qi queue ih =>
    rw [Worker.drain]
    cases hpack : env.pack qi with
    | none => exact ⟨rfl, rfl, rfl⟩
    | some packed =>
      refine ih fun hall => hstuck (List.forall_mem_cons.mpr ⟨?_, hall⟩)
      rw [hpack]
      rfl

theorem Phase.onConnect (hall : ∀ m ∈ Worker.hello env :: s.queue, (env.pack m).isSome) :
    Phase (s.onConnect env false) := by
  obtain ⟨hhello, hall⟩ := List.forall_mem_cons.mp hall
  obtain ⟨packed, hpack⟩ := Option.isSome_iff_exists.mp hhello
  rw [Worker.onConnect, if_neg Bool.false_ne_true]
  dsimp only
  rw [hpack]
  obtain ⟨hn, hq, hw⟩ := drain_all (s := { s with
    connecting := false, greeted := true, written := s.written ++ [packed] }) hall
  exact .connected hn hw hq

theorem not_connects (hc : s.ipcChannel = true) (hn : s.ipcConnected = false)
    (hw : s.connecting = false) : ¬ Connects env s := by
  intro h
  obtain ⟨s', hs⟩ : ∃ s', s.sendMsg env (Worker.hello env) = some s' := by
    rw [Worker.sendMsg, if_neg (by rw [hn]; decide)]
    exact ⟨_, rfl⟩
  have hstarted := h.restarts hn hw _ s' hs
  rcases sendMsg_cases hs with ⟨hconn, -⟩ | ⟨-, -, -, -, hold, -⟩
  · exact absurd (hconn.symm.trans hn) (by decide)
  · exact absurd (hstarted.symm.trans ((hold hc).trans hw)) (by decide)

theorem onConnect_stuck (hc : s.ipcChannel = true) (hn : s.ipcConnected = false) {err : Bool}
    (hfails : ¬ (err = false ∧ ∀ m ∈ Worker.hello env :: s.queue, (env.pack m).isSome)) :
    ¬ Connects env (s.onConnect env err) := by
  cases err with
  | true => exact not_connects hc hn rfl
  | false =>
    rw [Worker.onConnect, if_neg Bool.false_ne_true]
    dsimp only
    cases hpack : env.pack (Worker.hello env) with
    | none => exact not_connects hc hn rfl
    | some packed =>
      have hstuck : ¬ ∀ m ∈ s.queue, (env.pack m).isSome := fun hall =>
        hfails ⟨rfl, List.forall_mem_cons.mpr ⟨by rw [hpack]; rfl, hall⟩⟩
      obtain ⟨hn', hc', hw'⟩ := drain_stuck (s := { s with
        connecting := false, greeted := true, written := s.written ++ [packed] }) hstuck
      exact not_connects (hc'.trans hc) (hn'.trans hn) hw'

theorem phase_next (h : Phase s) (op : Op) (hop : Succeeds env s op) :
    Phase (next env s op) := by
  have hsame : ∀ s s', SameChannel s s' → Phase s → Phase s' := fun _ _ e h => h.congr e
  have hsend : ∀ s s' pkt, Phase s → s.sendMsg env pkt = some s' → Phase s' :=
    fun _ _ _ h hs => h.send hs
  cases op with
  | call c => exact preserves_doCall hsame hsend h c
  | onConnect err =>
    rw [next]
    split
    · next hw =>
      obtain ⟨rfl, hall⟩ := hop hw
      exact Phase.onConnect hall
    · exact h
  | packet heap packet fd type =>
    rw [next]
    cases hs : ipcProcessPacket env fd type s heap packet 0 ⟨0, 0, 0⟩ with
    | none => exact h
    | some s' => exact preserves_packet hsame hsend h hs

theorem phase_fails (h : Phase s) (op : Op) (hop : ¬ Succeeds env s op) :
    ¬ Connects env (next env s op) := by
  cases op with
  | call c => exact absurd trivial hop
  | packet heap packet fd type => exact absurd trivial hop
  | onConnect err =>
    obtain ⟨hw, hfails⟩ := Classical.not_imp.mp hop
    rw [next, if_pos hw]
    cases h with
    | idle hc hn hw' hq => exact absurd (hw.symm.trans hw') (by decide)
    | connecting hc hn hw' => exact onConnect_stuck hc hn hfails
    | connected hn hw' hq => exact absurd (hw.symm.trans hw') (by decide)

/-- No message is left behind just in the runs in which each connect that ends succeeds, and
what waits for it can be packed. -/
theorem connects_iff (env : Env) (ops : List Op) :
    Always (next env) (Connects env) start ops ↔ Along (next env) (Succeeds env) start ops :=
  always_iff_along (P := fun _ _ => True) (fun _ h => h.connects)
    (fun _ op h _ hop => phase_next h op hop) (fun _ op h _ hop => phase_fails h op hop)
    (.idle rfl rfl rfl rfl) (along_of_mem fun _ _ _ => trivial)

/-- A message is sent, the connect fails, and the message stays where it is. -/
theorem failedConnect_strands :
    ¬ Always (next quietEnv) (Connects quietEnv) start
      [.call (.toMaster (ascii "bind") .nil false), .onConnect true] := by
  intro h
  exact absurd (h.exec.waiting (List.cons_ne_nil _ _)) (by decide)

end Lev.Mailbox
