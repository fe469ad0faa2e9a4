import Lev.Timer

/-! udp objects (lev_new_udp.c), and the lifetimes of timer and udp objects together. A
socket takes a reference for each bind, recv_start and send, but only a sent datagram and
the close give one up. -/
namespace Lev.Udp
open Handle Run

/-- `sends` and `closing` count the sends and closes whose callback has not run yet,
`callbacks` the close callbacks that are in their `on_close`. -/
structure UdpObj where
  ledger : Ledger
  receiving : Bool
  sends : ℕ
  closing : ℕ
  callbacks : ℕ
  deriving DecidableEq, Repr

/-- The methods and callbacks, with what the libuv call returns. `udp_after_close` is in
two steps, as its `on_close` may call methods of the object before the reference goes. -/
inductive Op
  | bind (r : ℤ)
  | bind6 (r : ℤ)
  | send (r : ℤ)
  | recvStart (r : ℤ)
  | close
  | afterSend (status : ℤ)
  | onRecv (nread : ℤ)
  | afterClose
  | afterCloseUnref
  deriving DecidableEq, Repr

def udpNew (inCoroutine : Bool) : UdpObj := ⟨.fresh inCoroutine, false, 0, 0, 0⟩

namespace UdpObj

variable (self : UdpObj)

def post (e : Entry) : Option UdpObj :=
  (self.ledger.post e).map fun l => { self with ledger := l }

/-- `UV_UDP_CLOSE` -/
def uvUdpClose : UdpObj := { self with receiving := false, closing := self.closing + 1 }

/-- `udp_bind` and `udp_bind6` -/
def udpBind (r : ℤ) : Option UdpObj := if r = -1 then some self else self.post .use

def udpSend (r : ℤ) : Option UdpObj :=
  if r = -1 then some self else { self with sends := self.sends + 1 }.post .request

def udpAfterSend (_status : ℤ) : Option UdpObj := { self with sends := self.sends - 1 }.post .answer

/-- A datagram ends the receiving, and everything else the socket. -/
def onRecv (nread : ℤ) : UdpObj :=
  if nread ≤ 0 then self.uvUdpClose else { self with receiving := false }

def udpRecvStart (r : ℤ) : Option UdpObj :=
  if r = -1 then some self else { self with receiving := true }.post .use

/-- The end of `udp_after_close`. -/
def udpAfterClose : Option UdpObj := { self with callbacks := self.callbacks - 1 }.post .close

end UdpObj

def step (self : UdpObj) : Op → Option UdpObj
  | .bind r => self.udpBind r
  | .bind6 r => self.udpBind r
  | .send r => self.udpSend r
  | .recvStart r => self.udpRecvStart r
  | .close => some self.uvUdpClose
  | .afterSend status => self.udpAfterSend status
  | .onRecv nread => some (self.onRecv nread)
  | .afterClose => some { self with closing := self.closing - 1, callbacks := self.callbacks + 1 }
  | .afterCloseUnref => self.udpAfterClose

def kind : Pool.Kind UdpObj Bool Op := ⟨udpNew, step⟩

/-- libuv runs each callback once, in any order, and receives only where it was asked to. -/
def Allowed (self : UdpObj) : Op → Prop
  | .afterSend _ => 0 < self.sends
  | .onRecv _ => self.receiving = true
  | .afterClose => 0 < self.closing
  | .afterCloseUnref => 0 < self.callbacks
  | _ => True

/-- The count is never negative, and a closed socket can be collected. -/
def Lifetime (self : UdpObj) : Prop := self.ledger.Sound

/-- The steps that keep the lifetime right: the close callback runs once, where the
successful binds and recv_starts and the sends in flight are one together; and no call
takes and no send gives up a reference afterwards. -/
def Orderly (self : UdpObj) : Op → Prop
  | .bind r | .bind6 r | .send r | .recvStart r => r ≠ -1 → self.ledger.closes = 0
  | .afterSend _ => self.ledger.closes = 0
  | .afterCloseUnref => self.ledger.closes = 0 ∧ self.ledger.uses + self.sends = 1
  | _ => True

instance (self : UdpObj) : (op : Op) → Decidable (Allowed self op)
  | .afterSend _ => inferInstanceAs (Decidable (_ < _))
  | .onRecv _ => inferInstanceAs (Decidable (_ = _))
  | .afterClose => inferInstanceAs (Decidable (_ < _))
  | .afterCloseUnref => inferInstanceAs (Decidable (_ < _))
  | .bind _ | .bind6 _ | .send _ | .recvStart _ | .close => isTrue trivial

instance (self : UdpObj) : (op : Op) → Decidable (Orderly self op)
  | .bind _ | .bind6 _ | .send _ | .recvStart _ => inferInstanceAs (Decidable (_ → _))
  | .afterSend _ => inferInstanceAs (Decidable (_ = _))
  | .afterCloseUnref => inferInstanceAs (Decidable (_ ∧ _))
  | .close | .onRecv _ | .afterClose => isTrue trivial

/-- The books are kept, and name every send in flight. -/
structure Inv (o : UdpObj) : Prop where
  kept : o.ledger.Kept
  flight : o.ledger.requests = o.sends

variable {self self' : UdpObj}

theorem inv_new (inCoroutine : Bool) : Inv (udpNew inCoroutine) :=
  ⟨Ledger.kept_fresh inCoroutine, rfl⟩

theorem inOrder_close_iff (hi : Inv self) :
    self.ledger.InOrder .close ↔ self.ledger.closes = 0 ∧ self.ledger.uses + self.sends = 1 := by
  show _ ∧ _ ↔ _
  rw [hi.flight]

theorem inv_use (hi : Inv self) (receiving : Bool) (hc : self.ledger.closes = 0) :
    ∃ self', { self with receiving := receiving }.post .use = some self' ∧ Inv self' :=
  ⟨_, rfl, Ledger.kept_take hi.kept hc, hi.flight⟩

theorem inv_udpBind (hi : Inv self) {r : ℤ} (ho : r ≠ -1 → self.ledger.closes = 0) :
    ∃ self', self.udpBind r = some self' ∧ Inv self' := by
  unfold UdpObj.udpBind
  split
  · exact ⟨self, rfl, hi⟩
  · rename_i hr
    exact inv_use hi self.receiving (ho hr)

theorem inv_step {op : Op} (hi : Inv self) (ha : Allowed self op) (ho : Orderly self op) :
    ∃ self', step self op = some self' ∧ Inv self' := by
  cases op with
  | bind r => exact inv_udpBind hi ho
  | bind6 r => exact inv_udpBind hi ho
  | send r =>
    simp only [step, UdpObj.udpSend]
    split
    · exact ⟨self, rfl, hi⟩
    · rename_i hr
      obtain ⟨l, hl, hkept⟩ := hi.kept.post (e := .request) trivial (ho hr)
      refine ⟨{ self with sends := self.sends + 1, ledger := l }, ?_, hkept, ?_⟩
      · simp only [UdpObj.post, hl]
        rfl
      · cases hl
        exact congrArg Nat.succ hi.flight
  | recvStart r =>
    simp only [step, UdpObj.udpRecvStart]
    split
    · exact ⟨self, rfl, hi⟩
    · rename_i hr
      exact inv_use hi true (ho hr)
  | close => exact ⟨_, rfl, hi.kept, hi.flight⟩
  | afterSend status =>
    have hpos : 0 < self.ledger.requests := by
      rw [hi.flight]
      exact ha
    obtain ⟨l, hl, hkept⟩ := hi.kept.post (e := .answer) hpos ho
    obtain ⟨s, -, rfl⟩ := Option.map_eq_some_iff.mp hl
    refine ⟨{ self with sends := self.sends - 1, ledger := _ }, ?_, hkept,
      congrArg (· - 1) hi.flight⟩
    simp only [step, UdpObj.udpAfterSend, UdpObj.post, hl]
    rfl
  | onRecv nread =>
    refine ⟨_, rfl, ?_⟩
    unfold UdpObj.onRecv
    split
    · exact ⟨hi.kept, hi.flight⟩
    · exact ⟨hi.kept, hi.flight⟩
  | afterClose => exact ⟨_, rfl, hi.kept, hi.flight⟩
  | afterCloseUnref =>
    obtain ⟨l, hl, hkept⟩ := hi.kept.post (e := .close) trivial ((inOrder_close_iff hi).mpr ho)
    obtain ⟨s, -, rfl⟩ := Option.map_eq_some_iff.mp hl
    refine ⟨{ self with callbacks := self.callbacks - 1, ledger := _ }, ?_, hkept, hi.flight⟩
    simp only [step, UdpObj.udpAfterClose, UdpObj.post, hl]
    rfl

theorem not_lifetime_of_post {e : Entry} (h : self.post e = some self') (hk : self.ledger.Kept)
    (ho : ¬ self.ledger.InOrder e) : ¬ Lifetime self' := by
  obtain ⟨l, hl, rfl⟩ := Option.map_eq_some_iff.mp h
  exact hk.not_sound ho hl

theorem not_lifetime_of_bind (hi : Inv self) {r : ℤ}
    (ho : ¬ (r ≠ -1 → self.ledger.closes = 0)) (h : self.udpBind r = some self') :
    ¬ Lifetime self' := by
  obtain ⟨hr, ho⟩ := Classical.not_imp.mp ho
  rw [UdpObj.udpBind, if_neg hr] at h
  exact not_lifetime_of_post h hi.kept ho

theorem not_lifetime_of_step {op : Op} (hi : Inv self) (ho : ¬ Orderly self op)
    (h : step self op = some self') : ¬ Lifetime self' := by
  cases op with
  | bind r => exact not_lifetime_of_bind hi ho h
  | bind6 r => exact not_lifetime_of_bind hi ho h
  | send r =>
    obtain ⟨hr, ho⟩ := Classical.not_imp.mp ho
    simp only [step, UdpObj.udpSend, if_neg hr] at h
    exact not_lifetime_of_post h hi.kept ho
  | recvStart r =>
    obtain ⟨hr, ho⟩ := Classical.not_imp.mp ho
    simp only [step, UdpObj.udpRecvStart, if_neg hr] at h
    exact not_lifetime_of_post h hi.kept ho
  | afterSend status =>
    simp only [step, UdpObj.udpAfterSend] at h
    exact not_lifetime_of_post h hi.kept ho
  | afterCloseUnref =>
    simp only [step, UdpObj.udpAfterClose] at h
    exact not_lifetime_of_post h hi.kept fun hin => ho ((inOrder_close_iff hi).mp hin)
  | close => exact absurd trivial ho
  | onRecv nread => exact absurd trivial ho
  | afterClose => exact absurd trivial ho

/-- Exactly the runs with orderly steps keep the lifetimes of all sockets right. -/
theorem udp_run (ops : List (Pool.Op Bool Op))
    (h : Along (Pool.next kind) (Pool.Acts Allowed) (some []) ops) :
    Always (Pool.next kind) (Pool.Every Lifetime) (some []) ops ↔
      Along (Pool.next kind) (Pool.Acts Orderly) (some []) ops := by
  have hlife : ∀ o, Inv o → Lifetime o := fun _ hi => hi.kept.sound
  have hkeep : ∀ o op, Inv o → Allowed o op → Orderly o op →
      ∃ o', kind.step o op = some o' ∧ Inv o' := fun _ _ hi ha ho => inv_step hi ha ho
  have hbreak : ∀ o op o', Inv o → Allowed o op → ¬ Orderly o op → kind.step o op = some o' →
      ¬ Lifetime o' := fun _ _ _ hi _ ho hs => not_lifetime_of_step hi ho hs
  exact Pool.always_iff_acts inv_new hlife hkeep hbreak h

/-- Timers and sockets alike keep their lifetimes right in exactly the runs with orderly
steps. -/
theorem timer_udp_lifetime_iff (timers : List (Pool.Op Bool Timer.Op))
    (sockets : List (Pool.Op Bool Op))
    (htimers : Along (Pool.next Timer.kind) (Pool.Acts Timer.Allowed) (some []) timers)
    (hsockets : Along (Pool.next kind) (Pool.Acts Allowed) (some []) sockets) :
    (Always (Pool.next Timer.kind) (Pool.Every Timer.Lifetime) (some []) timers ↔
      Along (Pool.next Timer.kind) (Pool.Acts Timer.Orderly) (some []) timers) ∧
    (Always (Pool.next kind) (Pool.Every Lifetime) (some []) sockets ↔
      Along (Pool.next kind) (Pool.Acts Orderly) (some []) sockets) :=
  ⟨Timer.timer_run timers htimers, udp_run sockets hsockets⟩

/-- A timer that is closed without having been started. -/
def idleTimer : List (Pool.Op Bool Timer.Op) :=
  [.create false, .act 0 .close, .act 0 .onClose, .act 0 .onCloseUnref]

/-- A server that is bound and receives before it is closed. -/
def server : List (Pool.Op Bool Op) :=
  [.create false, .act 0 (.bind 0), .act 0 (.recvStart 0), .act 0 .close, .act 0 .afterClose,
    .act 0 .afterCloseUnref]

/-- The assertion fails for the timer, and the server is never collected. -/
theorem idleTimer_server_fail :
    (Along (Pool.next Timer.kind) (Pool.Acts Timer.Allowed) (some []) idleTimer ∧
      ¬ Always (Pool.next Timer.kind) (Pool.Every Timer.Lifetime) (some []) idleTimer) ∧
    (Along (Pool.next kind) (Pool.Acts Allowed) (some []) server ∧
      ¬ Always (Pool.next kind) (Pool.Every Lifetime) (some []) server) := by
  refine ⟨⟨by decide, fun h => ?_⟩, by decide, fun h => ?_⟩
  · have hend : exec (Pool.next Timer.kind) (some []) idleTimer = none := by decide
    have hlife := h.exec
    rw [hend] at hlife
    exact hlife
  · have hend : exec (Pool.next kind) (some []) server =
        some [⟨⟨⟨1, true, false⟩, 2, 0, 1⟩, false, 0, 0, 0⟩] := by decide
    have hlife := h.exec
    rw [hend] at hlife
    have hrel := (hlife _ (List.mem_singleton.mpr rfl)).2 Nat.one_pos
    exact absurd hrel (by decide)

def oneStart : List (Pool.Op Bool Timer.Op) :=
  [.create false, .act 0 (.start 10 0), .act 0 (.onTimer 0), .act 0 .close, .act 0 .onClose,
    .act 0 .onCloseUnref]

def sender : List (Pool.Op Bool Op) :=
  [.create false, .act 0 (.bind 0), .act 0 (.send 0), .act 0 (.afterSend 0), .act 0 .close,
    .act 0 .afterClose, .act 0 .afterCloseUnref]

theorem timer_udp_lifetime_iff_single :
    Always (Pool.next Timer.kind) (Pool.Every Timer.Lifetime) (some []) oneStart ∧
      Always (Pool.next kind) (Pool.Every Lifetime) (some []) sender := by
  obtain ⟨htimer, hsocket⟩ := timer_udp_lifetime_iff oneStart sender (by decide) (by decide)
  exact ⟨htimer.mpr (by decide), hsocket.mpr (by decide)⟩

end Lev.Udp
