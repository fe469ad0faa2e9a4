import Lev.Mailbox
import Lev.Packets

/-! What a worker does with the packets of a read: on a broadcast the callbacks that are
registered for its key run in order, each once. -/
namespace Lev.Mailbox
open Slab Memory Lua MPack Ipc

variable {env : Env} {s s' : Worker} {key : List UInt8}

/-- The callbacks for a key, in the order of their registration. -/
def Worker.registered (s : Worker) (key : List UInt8) : List ℕ := (s.callbacksBc key).getD []

/-- The callback and the packet, where a broadcast callback ran. -/
def Invocation.heard : Invocation → Option (ℕ × LuaValue)
  | .broadcast callback packet => some (callback, packet)
  | .reply _ _ => none

/-- The broadcast callbacks that ran, oldest first. -/
def Worker.heard (s : Worker) : List (ℕ × LuaValue) := s.invoked.filterMap Invocation.heard

/-- No callback has run, and those registered for the key stay in front. -/
structure Keeps (key : List UInt8) (s s' : Worker) : Prop where
  invoked : s'.invoked = s.invoked
  registered : s.registered key <+: s'.registered key

theorem Keeps.of_eq (hinvoked : s'.invoked = s.invoked) (hbc : s'.callbacksBc = s.callbacksBc) :
    Keeps key s s' := by
  refine ⟨hinvoked, ?_⟩
  rw [Worker.registered, Worker.registered, hbc]

theorem Keeps.trans {s'' : Worker} (h : Keeps key s s') (h' : Keeps key s' s'') :
    Keeps key s s'' := ⟨h'.invoked.trans h.invoked, h.registered.trans h'.registered⟩

theorem keeps_sendMsg (pkt : Message) : Keeps key s ((s.sendMsg env pkt).getD s) := by
  unfold Worker.sendMsg
  split
  · cases env.pack pkt with
    | none => exact .of_eq rfl rfl
    | some packed => exact .of_eq rfl rfl
  · unfold Worker.ipcConnect
    split
    · exact .of_eq rfl rfl
    · exact .of_eq rfl rfl

theorem keeps_doCall (c : Call) : Keeps key s (s.doCall env c) := by
  cases c with
  | toMaster cmd package callback =>
    cases callback with
    | true =>
      have hregister (asked : List Message) : Keeps key s { s with
          callbacks := Function.update s.callbacks (tostring s.reqId) (some s.asked.length)
          asked := asked } := .of_eq rfl rfl
      exact (hregister _).trans (keeps_sendMsg _)
    | false => exact keeps_sendMsg _
  | sendBroadcast package key' => exact keeps_sendMsg _
  | recvBroadcast key' callback =>
    refine ⟨rfl, ?_⟩
    simp only [Worker.registered, Worker.doCall, Worker.recvBroadcast]
    rcases eq_or_ne key key' with rfl | hne
    · rw [Function.update_self]
      exact List.prefix_append _ _
    · rw [Function.update_of_ne hne]

theorem keeps_calls (cs : List Call) : Keeps key s (cs.foldl (Worker.doCall env) s) := by
  induction cs generalizing s with
  | nil => exact .of_eq rfl rfl
  | cons c cs ih => exact (keeps_doCall c).trans ih

theorem invoke_registered (env : Env) (s : Worker) (key : List UInt8) (inv : Invocation) :
    (s.invoke env inv).invoked = s.invoked ++ [inv] ∧
      s.registered key <+: (s.invoke env inv).registered key := by
  have hkeeps : Keeps key { s with invoked := s.invoked ++ [inv] } (s.invoke env inv) :=
    keeps_calls _
  exact ⟨hkeeps.invoked, hkeeps.registered⟩

theorem runCallbacks_eq (env : Env) {s : Worker} (packet : LuaValue) {i n : ℕ}
    (hle : i + n ≤ (s.registered key).length) :
    ∃ s', s.runCallbacks env key packet i n = some s' ∧
      s'.invoked = s.invoked ++
        (((s.registered key).drop i).take n).map fun cb => .broadcast cb packet := by
  induction n generalizing i s with
  | zero => exact ⟨s, rfl, (List.append_nil _).symm⟩
  | succ n ih =>
    have hi : i < (s.registered key).length := by omega
    have hget : ((s.callbacksBc key).getD [])[i]? = some ((s.registered key)[i]) :=
      List.getElem?_eq_getElem hi
    obtain ⟨hinvoked, more, hmore⟩ :=
      invoke_registered env s key (.broadcast ((s.registered key)[i]) packet)
    have hlater : i + 1 + n ≤
        ((s.invoke env (.broadcast ((s.registered key)[i]) packet)).registered key).length := by
      rw [← hmore, List.length_append]
      omega
    obtain ⟨s', hrun, hs'⟩ := ih hlater
    refine ⟨s', ?_, ?_⟩
    · rw [Worker.runCallbacks, hget]
      exact hrun
    · have htail : (((s.registered key) ++ more).drop (i + 1)).take n =
          ((s.registered key).drop (i + 1)).take n := by
        rw [List.drop_append_of_le_length hi, List.take_append_of_le_length]
        rw [List.length_drop]
        omega
      rw [hs', hinvoked, ← hmore, htail, List.drop_eq_getElem_cons hi, List.take_succ_cons,
        List.map_cons, List.append_assoc, List.singleton_append]

theorem lookup_setHash_of_ne {name name' : List UInt8} (hne : name ≠ name') (v : LuaValue)
    (hash : List (LuaValue × LuaValue)) :
    lookup name (setHash (.string name') v hash) = lookup name hash := by
  have hother : ∀ k : LuaValue, k.rawequal (.string name') = true →
      k.rawequal (.string name) = false := by
    intro k hk
    cases k with
    | string t =>
      rw [rawequal_string, beq_iff_eq] at hk
      rw [rawequal_string, hk, beq_eq_false_iff_ne]
      exact hne.symm
    | _ => rfl
  induction hash with
  | nil =>
    rw [setHash]
    split
    · rfl
    · have hskip := hother (.string name') (by rw [rawequal_string, beq_self_eq_true])
      rw [lookup, lookup, hskip]
      rfl
  | cons q hash ih =>
    obtain ⟨k, v'⟩ := q
    rw [setHash]
    by_cases hk : k.rawequal (.string name') = true
    · have hskip := hother k hk
      rw [if_pos hk]
      split
      · rw [lookup, hskip]
        rfl
      · rw [lookup, lookup, hskip]
        rfl
    · rw [if_neg hk, lookup, lookup, ih]

/-- A tree that `packet['p']['_cmsg'] = ..` can be done to: a table, or `false`, which the
worker replaces by one. -/
def Tabled (x : Wire) : Prop :=
  match x with
  | .single t => truthy (singleValue t) = false
  | .array _ _ _ => True
  | .map _ _ _ => True
  | _ => False

/-- The packets the master sends: broadcasts, replies, and others that a worker ignores. -/
structure FromMaster (p : Packet) : Prop where
  cmd : ∃ cmd, p.text "cmd" = some cmd
  id : p.text "cmd" = some (ascii "reply") → ∃ id, p.text "id" = some id

/-- The packets a worker hears: no command is empty, a key is a string that is not empty,
and where a descriptor comes with the read, `p` is a table if it is there. -/
structure Heard (fd : Option ℤ) (p : Packet) : Prop where
  cmd : p.text "cmd" ≠ some []
  key : p.text "cmd" = some (ascii "broadcast") →
    p.field "key" = none ∨ ∃ key, p.text "key" = some key ∧ key ≠ []
  cmsg : fd ≠ none → ∀ x, p.field "p" = some x → Tabled x

/-- The packet after `_cmsg` has been put into it, the same in every other field. -/
theorem withCmsg_some {p : Packet} {h : Heap} {packet : LuaValue} {len : ℕ} {buf : MemSlice}
    (a : Arrived p h packet len buf) {fd : Option ℤ} (type : List UInt8)
    (hp : fd ≠ none → ∀ x, p.field "p" = some x → Tabled x) :
    ∃ packet', withCmsg fd type packet = some packet' ∧
      ∀ name, ascii name ≠ ascii "p" → index packet' name = index packet name := by
  obtain ⟨fill, id, hash, rfl, hfields⟩ := a.fields
  cases fd with
  | none =>
    refine ⟨_, rfl, fun name hname => ?_⟩
    exact congrArg some (lookup_setHash_of_ne hname _ hash)
  | some fd =>
    have htable : ∃ i arr f,
        (if truthy (lookup (ascii "p") hash) then lookup (ascii "p") hash
          else LuaValue.table 0 [] []) = .table i arr f := by
      have hfield := hfields "p"
      cases hx : p.field "p" with
      | none =>
        rw [hx] at hfield
        rw [hfield]
        exact ⟨0, [], [], rfl⟩
      | some x =>
        rw [hx] at hfield
        obtain ⟨ofs, r, hread, _⟩ := hfield.read
        have ht := hp (by simp) x hx
        cases x with
        | single t =>
          simp only [Wire.Reads] at hread
          rw [hread, show truthy (singleValue t) = false from ht]
          exact ⟨0, [], [], rfl⟩
        | array w n items =>
          obtain ⟨i, vs, heq, _⟩ := hread
          rw [heq]
          exact ⟨i, vs, [], rfl⟩
        | map w n items =>
          obtain ⟨i, f, heq, _⟩ := hread
          rw [heq]
          exact ⟨i, [], f, rfl⟩
        | scalar s b => exact False.elim ht
        | raw w s => exact False.elim ht
    obtain ⟨i, arr, f, htable⟩ := htable
    unfold withCmsg
    simp only [htable]
    refine ⟨_, rfl, fun name hname => ?_⟩
    exact congrArg some (lookup_setHash_of_ne hname _ hash)

def broadcastKey (p : Packet) : Option (List UInt8) :=
  if p.text "cmd" = some (ascii "broadcast") then p.text "key" else none

/-- What a worker does with a packet: on a broadcast it runs the callbacks of the key once
each, in order, with the packet, and otherwise no broadcast callback. -/
def Processed (fd : Option ℤ) (type : List UInt8) (p : Packet) (s s' : Worker) : Prop :=
  ∃ (a : Received) (packet : LuaValue), a.Of p ∧ withCmsg fd type a.packet = some packet ∧
    s'.heard = s.heard ++
      match broadcastKey p with
      | some key => (s.registered key).map fun cb => (cb, packet)
      | none => []

theorem heard_broadcasts {callbacks : List ℕ} {packet : LuaValue}
    (h : s'.invoked = s.invoked ++ callbacks.map fun cb => .broadcast cb packet) :
    s'.heard = s.heard ++ callbacks.map fun cb => (cb, packet) := by
  rw [Worker.heard, h, List.filterMap_append, List.filterMap_map]
  exact congrArg (s.heard ++ ·)
    (congrFun (List.filterMap_eq_map (f := fun cb => (cb, packet))) callbacks)

theorem ipcProcessPacket_heard (env : Env) {fd : Option ℤ} (type : List UInt8) {p : Packet}
    {a : Received} (s : Worker) (ha : a.Of p) (hp : FromMaster p) (hheard : Heard fd p) :
    ∃ s', process1 (ipcProcessPacket env fd type) s a = some s' ∧ Processed fd type p s s' := by
  obtain ⟨cmd, hcmd⟩ := hp.cmd
  have hne : cmd ≠ [] := fun hnil => hheard.cmd (hnil ▸ hcmd)
  obtain ⟨packet, hpacket, hsame⟩ := withCmsg_some ha type hheard.cmsg
  obtain ⟨ms, hindex, htext⟩ := ha.text hcmd
  have hsilent : broadcastKey p = none → ∀ s' : Worker, s'.heard = s.heard →
      Processed fd type p s s' := by
    intro hnone s' hs'
    refine ⟨a, packet, ha, hpacket, ?_⟩
    rw [hnone, hs', List.append_nil]
  rw [process1, ipcProcessPacket, hpacket]
  simp only [Option.bind_eq_bind, Option.bind_some, hsame "cmd" (by decide), hindex, Ipc.toString,
    htext hne]
  by_cases hbc : cmd = ascii "broadcast"
  · rw [if_pos hbc]
    have hkeyOf : broadcastKey p = p.text "key" := by rw [broadcastKey, hcmd, hbc, if_pos rfl]
    rcases hheard.key (hbc ▸ hcmd) with habsent | ⟨key, hkey, hkeyne⟩
    · rw [hsame "key" (by decide), ha.absent habsent]
      refine ⟨s, rfl, hsilent ?_ s rfl⟩
      rw [hkeyOf, Packet.text, habsent]
    · obtain ⟨kms, hkindex, hktext⟩ := ha.text hkey
      have hloud : ∀ s' : Worker,
          (s'.invoked = s.invoked ++ (s.registered key).map fun cb => .broadcast cb packet) →
          Processed fd type p s s' := by
        intro s' hs'
        refine ⟨a, packet, ha, hpacket, ?_⟩
        rw [hkeyOf, hkey]
        exact heard_broadcasts hs'
      rw [hsame "key" (by decide), hkindex]
      simp only [Option.bind_some, truthy, if_true, hktext hkeyne]
      cases hreg : s.callbacksBc key with
      | none =>
        refine ⟨s, rfl, hloud s ?_⟩
        rw [Worker.registered, hreg]
        exact (List.append_nil _).symm
      | some bc =>
        have hlist : s.registered key = bc := by rw [Worker.registered, hreg]; rfl
        have hall : 0 + bc.length ≤ (s.registered key).length := by rw [hlist, Nat.zero_add]
        obtain ⟨s', hrun, hs'⟩ := runCallbacks_eq env packet hall
        refine ⟨s', hrun, hloud s' ?_⟩
        rw [hs', List.drop_zero, hlist, List.take_length]
  · have hnone : broadcastKey p = none := by
      rw [broadcastKey, hcmd, if_neg fun heq => hbc (Option.some.inj heq)]
    rw [if_neg hbc]
    by_cases hreply : cmd = ascii "reply"
    · obtain ⟨id, hid⟩ := hp.id (hreply ▸ hcmd)
      obtain ⟨ims, hiindex, _⟩ := ha.text hid
      obtain ⟨i, arr, hash, rfl⟩ : ∃ i arr hash, packet = .table i arr hash := by
        cases packet with
        | table i arr hash => exact ⟨i, arr, hash, rfl⟩
        | _ => cases (hsame "cmd" (by decide)).trans hindex
      rw [if_pos hreply, hsame "id" (by decide), hiindex]
      simp only [Option.bind_some, index]
      split
      · exact ⟨_, rfl, hsilent hnone _ rfl⟩
      · rename_i r _
        refine ⟨_, rfl, hsilent hnone _ ?_⟩
        simp only [Worker.heard]
        rw [(invoke_registered env _ [] _).1]
        simp only [List.filterMap_append, List.filterMap_cons, Invocation.heard, List.filterMap_nil,
          List.append_nil]
    · rw [if_neg hreply]
      exact ⟨s, rfl, hsilent hnone s rfl⟩

/-- The packets of a read, each processed in the state the one before it left. -/
inductive Hears (fd : Option ℤ) (type : List UInt8) : List Packet → Worker → Worker → Prop
  | nil (s : Worker) : Hears fd type [] s s
  | cons {p : Packet} {ps : List Packet} {s s' s'' : Worker} (first : Processed fd type p s s')
      (rest : Hears fd type ps s' s'') : Hears fd type (p :: ps) s s''

theorem packets_heard (env : Env) {fd : Option ℤ} (type : List UInt8) (s : Worker)
    {ps : List Packet} {rs : List Received}
    (hrs : List.Forall₂ (fun p a => Received.Of a p) ps rs) (hps : ∀ p ∈ ps, FromMaster p)
    (hheard : ∀ p ∈ ps, Heard fd p) :
    ∃ s', rs.foldlM (process1 (ipcProcessPacket env fd type)) s = some s' ∧
      Hears fd type ps s s' := by
  induction hrs generalizing s with
  | nil => exact ⟨s, rfl, .nil s⟩
  | @cons p a ps rs ha _ ih =>
    obtain ⟨s₁, hfirst, hprocessed⟩ := ipcProcessPacket_heard env type s ha
      (hps p List.mem_cons_self) (hheard p List.mem_cons_self)
    obtain ⟨s', hrest, hhears⟩ := ih s₁ (fun q hq => hps q (List.mem_cons_of_mem _ hq))
      fun q hq => hheard q (List.mem_cons_of_mem _ hq)
    refine ⟨s', ?_, .cons hprocessed hhears⟩
    rw [List.foldlM_cons, hfirst]
    exact hrest

end Lev.Mailbox
