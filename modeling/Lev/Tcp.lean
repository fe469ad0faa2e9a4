import Lev.Handle
import Lev.Pool

/-! tcp objects (lev_new_tcp.c) from their creation to their close callback, and exactly
which runs keep their reference counts right. -/
namespace Lev.Tcp
open Handle Run

/-- `fd` is the one of the uv handle. `connects`, `shutdowns` and `closing` count the
requests and closes whose callback has not run yet, `uvCloses` the calls of `uv_close`. -/
structure TcpObj where
  ledger : Ledger
  fd : ℤ
  reading : Bool
  connects : ℕ
  shutdowns : ℕ
  closing : ℕ
  uvCloses : ℕ
  deriving DecidableEq, Repr

/-- How an object comes to be: `tcp_new` with its argument, or `tcp_accept` with the result
of `uv_accept` and the fd accepted. -/
inductive Birth
  | new (inCoroutine : Bool) (useThisFd : ℤ)
  | accept (inCoroutine : Bool) (r fd : ℤ)
  deriving DecidableEq, Repr

/-- The methods and callbacks of an object. `r` is what the libuv call returns and `fd` the
one it leaves in the handle; `shut` says whether `uv_shutdown` took the request. -/
inductive Op
  | bind (r fd : ℤ)
  | connect (r fd : ℤ)
  | listen (r fd : ℤ)
  | fdSet (fd : ℤ)
  | readStart (r : ℤ)
  | readStop (r : ℤ)
  | close (shut : Bool)
  | onConnect (status : ℤ)
  | onRead (nread : ℤ) (shut : Bool)
  | afterShutdown (status fd : ℤ)
  | afterClose
  deriving DecidableEq, Repr

/-- `uv_tcp_init` leaves no fd. -/
def uvTcpInit (ledger : Ledger) : TcpObj := ⟨ledger, -1, false, 0, 0, 0, 0⟩

def tcpNew (inCoroutine : Bool) (useThisFd : ℤ) : TcpObj :=
  let self := uvTcpInit (.fresh inCoroutine)
  if useThisFd ≠ 0 then { self with fd := useThisFd } else self

/-- The object `tcp_accept` makes. -/
def tcpAccept (inCoroutine : Bool) (r fd : ℤ) : TcpObj :=
  let obj := { uvTcpInit (.fresh inCoroutine) with fd := fd }
  if r = 0 then { obj with ledger := obj.ledger.take } else obj

def birth : Birth → TcpObj
  | .new inCoroutine useThisFd => tcpNew inCoroutine useThisFd
  | .accept inCoroutine r fd => tcpAccept inCoroutine r fd

namespace TcpObj

variable (self : TcpObj)

def post (e : Entry) : Option TcpObj :=
  (self.ledger.post e).map fun l => { self with ledger := l }

def tcpAfterClose : Option TcpObj := self.post .close

/-- `UV_CLOSE_CLIENT`; nothing marks the object as closing, and what `uv_shutdown` returns
is not looked at. -/
def uvCloseClient (shut : Bool) : Option TcpObj :=
  let self := { self with reading := false }
  if 0 ≤ self.fd then
    some (if shut then { self with shutdowns := self.shutdowns + 1 } else self)
  else self.tcpAfterClose

def tcpConnect (r fd : ℤ) : Option TcpObj :=
  let self := { self with fd := fd }
  if r = 0 then { self with connects := self.connects + 1 }.post .use else some self

def onConnect (status : ℤ) : Option TcpObj :=
  let self := { self with connects := self.connects - 1 }
  if status = 0 then some self else self.post .drop

def tcpListen (r fd : ℤ) : Option TcpObj :=
  let self := { self with fd := fd }
  if r = 0 then self.post .use else some self

def onRead (nread : ℤ) (shut : Bool) : Option TcpObj :=
  if nread = -1 then self.uvCloseClient shut else some self

def tcpAfterShutdown (fd : ℤ) : TcpObj :=
  { self with
    fd := fd
    shutdowns := self.shutdowns - 1
    closing := self.closing + 1
    uvCloses := self.uvCloses + 1 }

end TcpObj

def step (self : TcpObj) : Op → Option TcpObj
  | .bind _ fd => some { self with fd := fd }
  | .connect r fd => self.tcpConnect r fd
  | .listen r fd => self.tcpListen r fd
  | .fdSet fd => some { self with fd := fd }
  | .readStart r => some { self with reading := self.reading || r == 0 }
  | .readStop r => some { self with reading := self.reading && r != 0 }
  | .close shut => self.uvCloseClient shut
  | .onConnect status => self.onConnect status
  | .onRead nread shut => self.onRead nread shut
  | .afterShutdown _ fd => some (self.tcpAfterShutdown fd)
  | .afterClose => { self with closing := self.closing - 1 }.tcpAfterClose

def kind : Pool.Kind TcpObj Birth Op := ⟨birth, step⟩

/-- libuv runs each callback once, in any order, and reads only where it was asked to. -/
def Allowed (self : TcpObj) : Op → Prop
  | .onConnect _ => 0 < self.connects
  | .onRead _ _ => self.reading = true
  | .afterShutdown _ _ => 0 < self.shutdowns
  | .afterClose => 0 < self.closing
  | _ => True

/-- At most one `uv_close`, a count that is never negative, and no reference left over
after the close callback. -/
def Lifetime (self : TcpObj) : Prop := self.uvCloses ≤ 1 ∧ self.ledger.Sound

/-- The steps that keep the lifetime right: the close callback runs once, where exactly
one accept, connect or listen holds the object and no failed connect gave that up; there
is one `uv_close`; and nothing takes a reference afterwards. -/
def Orderly (self : TcpObj) : Op → Prop
  | .connect r _ => r = 0 → self.ledger.InOrder .use
  | .listen r _ => r = 0 → self.ledger.InOrder .use
  | .onConnect status => status ≠ 0 → self.ledger.InOrder .drop
  | .close _ => self.fd < 0 → self.ledger.InOrder .close
  | .onRead nread _ => nread = -1 → self.fd < 0 → self.ledger.InOrder .close
  | .afterShutdown _ _ => self.uvCloses = 0
  | .afterClose => self.ledger.InOrder .close
  | _ => True

instance (self : TcpObj) : (op : Op) → Decidable (Allowed self op)
  | .onConnect _ => inferInstanceAs (Decidable (_ < _))
  | .onRead _ _ => inferInstanceAs (Decidable (_ = _))
  | .afterShutdown _ _ => inferInstanceAs (Decidable (_ < _))
  | .afterClose => inferInstanceAs (Decidable (_ < _))
  | .bind _ _ | .connect _ _ | .listen _ _ | .fdSet _ | .readStart _ | .readStop _ | .close _ =>
    isTrue trivial

instance (self : TcpObj) : (op : Op) → Decidable (Orderly self op)
  | .connect _ _ => inferInstanceAs (Decidable (_ → _))
  | .listen _ _ => inferInstanceAs (Decidable (_ → _))
  | .onConnect _ => inferInstanceAs (Decidable (_ → _))
  | .close _ => inferInstanceAs (Decidable (_ → _))
  | .onRead _ _ => inferInstanceAs (Decidable (_ → _ → _))
  | .afterShutdown _ _ => inferInstanceAs (Decidable (_ = _))
  | .afterClose => inferInstanceAs (Decidable (self.ledger.InOrder .close))
  | .bind _ _ | .fdSet _ | .readStart _ | .readStop _ => isTrue trivial

/-- The books are kept, and every pending connect has its reference. -/
structure Inv (o : TcpObj) : Prop where
  kept : o.ledger.Kept
  backed : o.ledger.closes = 0 → o.connects ≤ o.ledger.uses
  once : o.uvCloses ≤ 1

variable {self self' : TcpObj}

theorem inv_birth (b : Birth) : Inv (birth b) := by
  cases b with
  | new inCoroutine useThisFd =>
    have hinit : Inv (uvTcpInit (.fresh inCoroutine)) :=
      ⟨Ledger.kept_fresh inCoroutine, fun _ => Nat.zero_le _, Nat.zero_le _⟩
    simp only [birth, tcpNew]
    split
    · exact ⟨hinit.kept, hinit.backed, hinit.once⟩
    · exact hinit
  | accept inCoroutine r fd =>
    simp only [birth, tcpAccept]
    split
    · exact ⟨Ledger.kept_take (Ledger.kept_fresh inCoroutine) rfl, fun _ => Nat.zero_le _,
        Nat.zero_le _⟩
    · exact ⟨Ledger.kept_fresh inCoroutine, fun _ => Nat.zero_le _, Nat.zero_le _⟩

theorem Inv.lifetime (hi : Inv self) : Lifetime self := ⟨hi.once, hi.kept.sound⟩

theorem Inv.post {e : Entry} (hk : self.ledger.Kept) (honce : self.uvCloses ≤ 1)
    (hb : self.ledger.Backed e) (ho : self.ledger.InOrder e)
    (hconn : ∀ l, self.ledger.post e = some l → l.closes = 0 → self.connects ≤ l.uses) :
    ∃ self', self.post e = some self' ∧ Inv self' := by
  obtain ⟨l, hl, hkept⟩ := hk.post hb ho
  exact ⟨{ self with ledger := l }, by rw [TcpObj.post, hl]; rfl, hkept, hconn l hl, honce⟩

theorem not_lifetime_of_post {e : Entry} (h : self.post e = some self') (hk : self.ledger.Kept)
    (ho : ¬ self.ledger.InOrder e) : ¬ Lifetime self' := by
  obtain ⟨l, hl, rfl⟩ := Option.map_eq_some_iff.mp h
  exact fun hq => hk.not_sound ho hl hq.2

theorem inv_close (hk : self.ledger.Kept) (honce : self.uvCloses ≤ 1)
    (ho : self.ledger.InOrder .close) :
    ∃ self', self.tcpAfterClose = some self' ∧ Inv self' := by
  refine Inv.post hk honce trivial ho fun l hl hc => ?_
  obtain ⟨s, -, rfl⟩ := Option.map_eq_some_iff.mp hl
  exact absurd hc (Nat.succ_ne_zero _)

theorem inv_closeClient (hi : Inv self) {shut : Bool}
    (ho : self.fd < 0 → self.ledger.InOrder .close) :
    ∃ self', self.uvCloseClient shut = some self' ∧ Inv self' := by
  unfold TcpObj.uvCloseClient
  simp only
  split
  · refine ⟨_, rfl, ?_⟩
    cases shut with
    | true => exact ⟨hi.kept, hi.backed, hi.once⟩
    | false => exact ⟨hi.kept, hi.backed, hi.once⟩
  · rename_i hfd
    exact inv_close hi.kept hi.once (ho (not_le.mp hfd))

theorem not_lifetime_of_closeClient (hi : Inv self) {shut : Bool}
    (ho : ¬ (self.fd < 0 → self.ledger.InOrder .close))
    (h : self.uvCloseClient shut = some self') : ¬ Lifetime self' := by
  obtain ⟨hfd, ho⟩ := Classical.not_imp.mp ho
  unfold TcpObj.uvCloseClient at h
  simp only at h
  rw [if_neg (not_le.mpr hfd)] at h
  exact not_lifetime_of_post h hi.kept ho

theorem inv_use (hi : Inv self) {n : ℕ} {fd : ℤ} (hn : n ≤ self.connects + 1)
    (ho : self.ledger.InOrder .use) :
    ∃ self', { self with fd := fd, connects := n }.post .use = some self' ∧ Inv self' := by
  refine Inv.post hi.kept hi.once trivial ho fun l hl hc => ?_
  cases hl
  have hb := hi.backed hc
  exact hn.trans (Nat.succ_le_succ hb)

theorem inv_step {op : Op} (hi : Inv self) (ha : Allowed self op) (ho : Orderly self op) :
    ∃ self', step self op = some self' ∧ Inv self' := by
  have same : ∀ (fd : ℤ) (reading : Bool), Inv { self with fd := fd, reading := reading } :=
    fun _ _ => ⟨hi.kept, hi.backed, hi.once⟩
  cases op with
  | bind r fd => exact ⟨_, rfl, same fd self.reading⟩
  | fdSet fd => exact ⟨_, rfl, same fd self.reading⟩
  | readStart r => exact ⟨_, rfl, same self.fd _⟩
  | readStop r => exact ⟨_, rfl, same self.fd _⟩
  | connect r fd =>
    simp only [step, TcpObj.tcpConnect]
    split
    · rename_i hr
      exact inv_use hi le_rfl (ho hr)
    · exact ⟨_, rfl, same fd self.reading⟩
  | listen r fd =>
    simp only [step, TcpObj.tcpListen]
    split
    · rename_i hr
      exact inv_use hi (Nat.le_succ _) (ho hr)
    · exact ⟨_, rfl, same fd self.reading⟩
  | close shut => exact inv_closeClient hi ho
  | onConnect status =>
    have hpos : 0 < self.connects := ha
    simp only [step, TcpObj.onConnect]
    split
    · exact ⟨_, rfl, hi.kept, fun hc => (Nat.sub_le _ _).trans (hi.backed hc), hi.once⟩
    · rename_i hstatus
      have hc : self.ledger.closes = 0 := ho hstatus
      have hb := hi.backed hc
      refine Inv.post hi.kept hi.once (hpos.trans_le hb) (ho hstatus) fun l hl _ => ?_
      obtain ⟨s, -, rfl⟩ := Option.map_eq_some_iff.mp hl
      exact Nat.sub_le_sub_right hb 1
  | onRead nread shut =>
    simp only [step, TcpObj.onRead]
    split
    · rename_i hnread
      exact inv_closeClient hi (ho hnread)
    · exact ⟨_, rfl, hi⟩
  | afterShutdown status fd =>
    have hzero : self.uvCloses = 0 := ho
    refine ⟨_, rfl, hi.kept, hi.backed, ?_⟩
    simp only [TcpObj.tcpAfterShutdown]
    omega
  | afterClose => exact inv_close hi.kept hi.once ho

theorem not_lifetime_of_step {op : Op} (hi : Inv self) (ho : ¬ Orderly self op)
    (h : step self op = some self') : ¬ Lifetime self' := by
  cases op with
  | bind r fd => exact absurd trivial ho
  | fdSet fd => exact absurd trivial ho
  | readStart r => exact absurd trivial ho
  | readStop r => exact absurd trivial ho
  | connect r fd =>
    obtain ⟨hr, ho⟩ := Classical.not_imp.mp ho
    simp only [step, TcpObj.tcpConnect, if_pos hr] at h
    exact not_lifetime_of_post h hi.kept ho
  | listen r fd =>
    obtain ⟨hr, ho⟩ := Classical.not_imp.mp ho
    simp only [step, TcpObj.tcpListen, if_pos hr] at h
    exact not_lifetime_of_post h hi.kept ho
  | close shut => exact not_lifetime_of_closeClient hi ho h
  | onConnect status =>
    obtain ⟨hstatus, ho⟩ := Classical.not_imp.mp ho
    simp only [step, TcpObj.onConnect, if_neg hstatus] at h
    exact not_lifetime_of_post h hi.kept ho
  | onRead nread shut =>
    obtain ⟨hnread, ho⟩ := Classical.not_imp.mp ho
    simp only [step, TcpObj.onRead, if_pos hnread] at h
    exact not_lifetime_of_closeClient hi ho h
  | afterShutdown status fd =>
    have hpos : 0 < self.uvCloses := Nat.pos_of_ne_zero ho
    cases h
    intro hq
    have htwo := hq.1
    simp only [TcpObj.tcpAfterShutdown] at htwo
    omega
  | afterClose => exact not_lifetime_of_post h hi.kept ho

/-- Exactly the runs with orderly steps keep the lifetimes of all tcp objects right. -/
theorem tcp_lifetime_iff (ops : List (Pool.Op Birth Op))
    (h : Along (Pool.next kind) (Pool.Acts Allowed) (some []) ops) :
    Always (Pool.next kind) (Pool.Every Lifetime) (some []) ops ↔
      Along (Pool.next kind) (Pool.Acts Orderly) (some []) ops := by
  have hlife : ∀ o, Inv o → Lifetime o := fun _ hi => hi.lifetime
  have hkeep : ∀ o op, Inv o → Allowed o op → Orderly o op →
      ∃ o', kind.step o op = some o' ∧ Inv o' := fun _ _ hi ha ho => inv_step hi ha ho
  have hbreak : ∀ o op o', Inv o → Allowed o op → ¬ Orderly o op → kind.step o op = some o' →
      ¬ Lifetime o' := fun _ _ _ hi _ ho hs => not_lifetime_of_step hi ho hs
  exact Pool.always_iff_acts inv_birth hlife hkeep hbreak h

/-- An accepted connection is closed by its end of stream, and then by the program: the
handle has no fd any more, so the close callback runs a second time. -/
def closedTwice : List (Pool.Op Birth Op) :=
  [.create (.accept false 0 7), .act 0 (.readStart 0), .act 0 (.onRead (-1) true),
    .act 0 (.afterShutdown 0 (-1)), .act 0 .afterClose, .act 0 (.close true)]

theorem closedTwice_fails :
    Along (Pool.next kind) (Pool.Acts Allowed) (some []) closedTwice ∧
      ¬ Always (Pool.next kind) (Pool.Every Lifetime) (some []) closedTwice := by
  refine ⟨by decide, fun h => ?_⟩
  have hend : exec (Pool.next kind) (some []) closedTwice = none := by decide
  have hlife := h.exec
  rw [hend] at hlife
  exact hlife

/-- The same connection, closed by its end of stream only. -/
theorem tcp_lifetime_iff_closedOnce :
    Always (Pool.next kind) (Pool.Every Lifetime) (some []) (closedTwice.take 5) :=
  (tcp_lifetime_iff (closedTwice.take 5) (by decide)).mpr (by decide)

end Lev.Tcp
