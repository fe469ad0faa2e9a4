import Lev.Handle
import Lev.Pool

/-! pipe objects (lev_new_pipe.c). A pipe takes a reference for every request and for
every call that opens it, and its close gives up one more than it takes. -/
namespace Lev.Pipe
open Handle Run

/-- `connects`, `writes`, `shutdowns` and `closing` count the requests and closes whose
callback has not run yet, `callbacks` the close callbacks that are in their `on_close`. -/
structure PipeObj where
  ledger : Ledger
  reading : Bool
  connects : ℕ
  writes : ℕ
  shutdowns : ℕ
  closing : ℕ
  callbacks : ℕ
  deriving DecidableEq, Repr

/-- `pipe_new`, or `pipe_accept` with the result of `uv_accept`. -/
inductive Birth
  | new (inCoroutine : Bool)
  | accept (inCoroutine : Bool) (r : ℤ)
  deriving DecidableEq, Repr

/-- The methods and callbacks of an object. `r` is what the libuv call returns; `taken` and
`shut` say whether `uv_write` or `uv_shutdown` took the request. `pipe_after_close` is in
two steps, as its `on_close` may call methods of the object before the reference goes. -/
inductive Op
  | bind (r : ℤ)
  | connect
  | listen (r : ℤ)
  | readStart (r : ℤ)
  | readStop (r : ℤ)
  | write (taken : Bool)
  | close (shut : Bool)
  | onConnect (status : ℤ)
  | onRead (nread : ℤ) (shut : Bool)
  | afterWrite (status : ℤ)
  | afterShutdown (status : ℤ)
  | afterClose
  | afterCloseUnref
  deriving DecidableEq, Repr

def uvPipeInit (ledger : Ledger) : PipeObj := ⟨ledger, false, 0, 0, 0, 0, 0⟩

/-- Neither way takes a reference. -/
def birth : Birth → PipeObj
  | .new inCoroutine => uvPipeInit (.fresh inCoroutine)
  | .accept inCoroutine _ => uvPipeInit (.fresh inCoroutine)

namespace PipeObj

variable (self : PipeObj)

def post (e : Entry) : Option PipeObj :=
  (self.ledger.post e).map fun l => { self with ledger := l }

/-- `UV_CLOSE_CLIENT`; the reference is taken whether or not `uv_shutdown` takes the
request. -/
def uvCloseClient (shut : Bool) : Option PipeObj :=
  let self := { self with reading := false }
  if shut then { self with shutdowns := self.shutdowns + 1 }.post .request else self.post .use

/-- `pipe_bind`; the reference is taken even if `r` is an error. -/
def pipeBind (_r : ℤ) : Option PipeObj := self.post .use

def pipeConnect : Option PipeObj := { self with connects := self.connects + 1 }.post .request

def pipeListen (_r : ℤ) : Option PipeObj := self.post .use

def pipeReadStart (r : ℤ) : Option PipeObj :=
  { self with reading := self.reading || r == 0 }.post .use

def pipeWrite (taken : Bool) : Option PipeObj :=
  if taken then { self with writes := self.writes + 1 }.post .request else self.post .use

def onConnect (_status : ℤ) : Option PipeObj :=
  { self with connects := self.connects - 1 }.post .answer

/-- `on_read` and `on_read2` -/
def onRead (nread : ℤ) (shut : Bool) : Option PipeObj :=
  if nread = -1 then self.uvCloseClient shut else some self

def pipeAfterWrite (_status : ℤ) : Option PipeObj :=
  { self with writes := self.writes - 1 }.post .answer

def pipeAfterShutdown (_status : ℤ) : Option PipeObj :=
  { self with shutdowns := self.shutdowns - 1, closing := self.closing + 1 }.post .answer

/-- The end of `pipe_after_close`. -/
def pipeAfterClose : Option PipeObj := { self with callbacks := self.callbacks - 1 }.post .close

def inFlight : ℕ := self.connects + self.writes + self.shutdowns

end PipeObj

def step (self : PipeObj) : Op → Option PipeObj
  | .bind r => self.pipeBind r
  | .connect => self.pipeConnect
  | .listen r => self.pipeListen r
  | .readStart r => self.pipeReadStart r
  | .readStop r => some { self with reading := self.reading && r != 0 }
  | .write taken => self.pipeWrite taken
  | .close shut => self.uvCloseClient shut
  | .onConnect status => self.onConnect status
  | .onRead nread shut => self.onRead nread shut
  | .afterWrite status => self.pipeAfterWrite status
  | .afterShutdown status => self.pipeAfterShutdown status
  | .afterClose => some { self with closing := self.closing - 1, callbacks := self.callbacks + 1 }
  | .afterCloseUnref => self.pipeAfterClose

def kind : Pool.Kind PipeObj Birth Op := ⟨birth, step⟩

/-- libuv runs each callback once, in any order, and reads only where it was asked to. -/
def Allowed (self : PipeObj) : Op → Prop
  | .onConnect _ => 0 < self.connects
  | .onRead _ _ => self.reading = true
  | .afterWrite _ => 0 < self.writes
  | .afterShutdown _ => 0 < self.shutdowns
  | .afterClose => 0 < self.closing
  | .afterCloseUnref => 0 < self.callbacks
  | _ => True

/-- The count covers the requests in flight, and nothing is left of it after the close
callback. -/
def Lifetime (self : PipeObj) : Prop :=
  (self.inFlight : ℤ) ≤ self.ledger.self.refCount ∧ self.ledger.Sound

/-- The steps that keep the lifetime right: the close callback gives up its reference once,
with no request in flight, after exactly one bind, listen or read_start (or request that
libuv did not take); and no call takes a reference afterwards. -/
def Orderly (self : PipeObj) : Op → Prop
  | .bind _ | .connect | .listen _ | .readStart _ | .write _ | .close _ => self.ledger.closes = 0
  | .onRead nread _ => nread = -1 → self.ledger.closes = 0
  | .afterCloseUnref => self.ledger.closes = 0 ∧ self.ledger.uses = 1 ∧ self.inFlight = 0
  | _ => True

instance (self : PipeObj) : (op : Op) → Decidable (Allowed self op)
  | .onConnect _ => inferInstanceAs (Decidable (_ < _))
  | .onRead _ _ => inferInstanceAs (Decidable (_ = _))
  | .afterWrite _ => inferInstanceAs (Decidable (_ < _))
  | .afterShutdown _ => inferInstanceAs (Decidable (_ < _))
  | .afterClose => inferInstanceAs (Decidable (_ < _))
  | .afterCloseUnref => inferInstanceAs (Decidable (_ < _))
  | .bind _ | .connect | .listen _ | .readStart _ | .readStop _ | .write _ | .close _ =>
    isTrue trivial

instance (self : PipeObj) : (op : Op) → Decidable (Orderly self op)
  | .bind _ | .connect | .listen _ | .readStart _ | .write _ | .close _ =>
    inferInstanceAs (Decidable (self.ledger.closes = 0))
  | .onRead _ _ => inferInstanceAs (Decidable (_ → _))
  | .afterCloseUnref => inferInstanceAs (Decidable (_ ∧ _ ∧ _))
  | .onConnect _ | .readStop _ | .afterWrite _ | .afterShutdown _ | .afterClose => isTrue trivial

/-- The books are kept, and name every request in flight. -/
structure Inv (o : PipeObj) : Prop where
  kept : o.ledger.Kept
  flight : o.ledger.requests = o.inFlight
  settled : 0 < o.ledger.closes → o.inFlight = 0

variable {self self' : PipeObj}

theorem inv_birth (b : Birth) : Inv (birth b) := by
  cases b with
  | new inCoroutine => exact ⟨Ledger.kept_fresh inCoroutine, rfl, fun _ => rfl⟩
  | accept inCoroutine r => exact ⟨Ledger.kept_fresh inCoroutine, rfl, fun _ => rfl⟩

theorem Inv.lifetime (hi : Inv self) : Lifetime self := by
  refine ⟨?_, hi.kept.sound⟩
  have hf := hi.flight
  rcases Nat.eq_zero_or_pos self.ledger.closes with hc | hc
  · rw [hi.kept.opened hc]
    omega
  · rw [hi.settled hc, (hi.kept.closed hc).1]
    rfl

theorem Inv.open_of_inFlight (hi : Inv self) (h : 0 < self.inFlight) : self.ledger.closes = 0 := by
  rcases Nat.eq_zero_or_pos self.ledger.closes with hc | hc
  · exact hc
  · exact absurd (hi.settled hc) (Nat.pos_iff_ne_zero.mp h)

theorem inv_use (hk : self.ledger.Kept) (hf : self.ledger.requests = self.inFlight)
    (hc : self.ledger.closes = 0) : ∃ self', self.post .use = some self' ∧ Inv self' :=
  ⟨_, rfl, Ledger.kept_take hk hc, hf, fun h => absurd h (hc ▸ Nat.lt_irrefl 0)⟩

theorem inv_request (hk : self.ledger.Kept) (hf : self.ledger.requests + 1 = self.inFlight)
    (hc : self.ledger.closes = 0) : ∃ self', self.post .request = some self' ∧ Inv self' := by
  obtain ⟨l, hl, hkept⟩ := hk.post (e := .request) trivial hc
  refine ⟨{ self with ledger := l }, by rw [PipeObj.post, hl]; rfl, hkept, ?_, ?_⟩
  · cases hl
    exact hf
  · cases hl
    exact fun h => absurd h (hc ▸ Nat.lt_irrefl 0)

theorem inv_answer (hk : self.ledger.Kept) (hf : self.ledger.requests = self.inFlight + 1)
    (hc : self.ledger.closes = 0) : ∃ self', self.post .answer = some self' ∧ Inv self' := by
  have hb : 0 < self.ledger.requests := by omega
  obtain ⟨l, hl, hkept⟩ := hk.post (e := .answer) hb hc
  obtain ⟨s, -, rfl⟩ := Option.map_eq_some_iff.mp hl
  refine ⟨{ self with ledger := _ }, by rw [PipeObj.post, hl]; rfl, hkept, ?_, ?_⟩
  · show self.ledger.requests - 1 = self.inFlight
    omega
  · exact fun h => absurd h (hc ▸ Nat.lt_irrefl 0)

theorem inv_closeClient (hi : Inv self) {shut : Bool} (hc : self.ledger.closes = 0) :
    ∃ self', self.uvCloseClient shut = some self' ∧ Inv self' := by
  unfold PipeObj.uvCloseClient
  cases shut with
  | true =>
    refine inv_request hi.kept ?_ hc
    show self.ledger.requests + 1 = self.connects + self.writes + (self.shutdowns + 1)
    have hf := hi.flight
    unfold PipeObj.inFlight at hf
    omega
  | false => exact inv_use hi.kept hi.flight hc

theorem inv_step {op : Op} (hi : Inv self) (ha : Allowed self op) (ho : Orderly self op) :
    ∃ self', step self op = some self' ∧ Inv self' := by
  have hf : self.ledger.requests = self.connects + self.writes + self.shutdowns := hi.flight
  cases op with
  | bind r => exact inv_use hi.kept hi.flight ho
  | listen r => exact inv_use hi.kept hi.flight ho
  | readStart r => exact inv_use hi.kept hi.flight ho
  | readStop r => exact ⟨_, rfl, hi.kept, hi.flight, hi.settled⟩
  | connect =>
    refine inv_request hi.kept ?_ ho
    show self.ledger.requests + 1 = self.connects + 1 + self.writes + self.shutdowns
    omega
  | write taken =>
    cases taken with
    | true =>
      refine inv_request hi.kept ?_ ho
      show self.ledger.requests + 1 = self.connects + (self.writes + 1) + self.shutdowns
      omega
    | false => exact inv_use hi.kept hi.flight ho
  | close shut => exact inv_closeClient hi ho
  | onRead nread shut =>
    simp only [step, PipeObj.onRead]
    split
    · rename_i hnread
      exact inv_closeClient hi (ho hnread)
    · exact ⟨_, rfl, hi⟩
  | onConnect status =>
    have hpos : 0 < self.connects := ha
    refine inv_answer hi.kept ?_ (hi.open_of_inFlight (by unfold PipeObj.inFlight; omega))
    show self.ledger.requests = self.connects - 1 + self.writes + self.shutdowns + 1
    omega
  | afterWrite status =>
    have hpos : 0 < self.writes := ha
    refine inv_answer hi.kept ?_ (hi.open_of_inFlight (by unfold PipeObj.inFlight; omega))
    show self.ledger.requests = self.connects + (self.writes - 1) + self.shutdowns + 1
    omega
  | afterShutdown status =>
    have hpos : 0 < self.shutdowns := ha
    refine inv_answer hi.kept ?_ (hi.open_of_inFlight (by unfold PipeObj.inFlight; omega))
    show self.ledger.requests = self.connects + self.writes + (self.shutdowns - 1) + 1
    omega
  | afterClose => exact ⟨_, rfl, hi.kept, hi.flight, hi.settled⟩
  | afterCloseUnref =>
    obtain ⟨hc, huses, hnone⟩ := ho
    have hone : self.ledger.uses + self.ledger.requests = 1 := by rw [huses, hi.flight, hnone]
    obtain ⟨l, hl, hkept⟩ := hi.kept.post (e := .close) trivial ⟨hc, hone⟩
    obtain ⟨s, hs, rfl⟩ := Option.map_eq_some_iff.mp hl
    refine ⟨{ self with callbacks := self.callbacks - 1, ledger := _ }, ?_, hkept, hi.flight,
      fun _ => hnone⟩
    simp only [step, PipeObj.pipeAfterClose, PipeObj.post, hl]
    rfl

theorem not_lifetime_of_post {e : Entry} (h : self.post e = some self') (hk : self.ledger.Kept)
    (ho : ¬ self.ledger.InOrder e) : ¬ Lifetime self' := by
  obtain ⟨l, hl, rfl⟩ := Option.map_eq_some_iff.mp h
  exact fun hq => hk.not_sound ho hl hq.2

theorem not_lifetime_of_closeClient (hi : Inv self) {shut : Bool} (hc : self.ledger.closes ≠ 0)
    (h : self.uvCloseClient shut = some self') : ¬ Lifetime self' := by
  unfold PipeObj.uvCloseClient at h
  cases shut with
  | true => exact not_lifetime_of_post h hi.kept hc
  | false => exact not_lifetime_of_post h hi.kept hc

theorem not_lifetime_of_step {op : Op} (hi : Inv self) (ho : ¬ Orderly self op)
    (h : step self op = some self') : ¬ Lifetime self' := by
  cases op with
  | bind r =>
    simp only [step, PipeObj.pipeBind] at h
    exact not_lifetime_of_post h hi.kept ho
  | listen r =>
    simp only [step, PipeObj.pipeListen] at h
    exact not_lifetime_of_post h hi.kept ho
  | readStart r =>
    simp only [step, PipeObj.pipeReadStart] at h
    exact not_lifetime_of_post h hi.kept ho
  | connect =>
    simp only [step, PipeObj.pipeConnect] at h
    exact not_lifetime_of_post h hi.kept ho
  | write taken =>
    simp only [step, PipeObj.pipeWrite] at h
    split at h
    · exact not_lifetime_of_post h hi.kept ho
    · exact not_lifetime_of_post h hi.kept ho
  | close shut => exact not_lifetime_of_closeClient hi ho h
  | onRead nread shut =>
    obtain ⟨hnread, hc⟩ := Classical.not_imp.mp ho
    simp only [step, PipeObj.onRead, if_pos hnread] at h
    exact not_lifetime_of_closeClient hi hc h
  | readStop r => exact absurd trivial ho
  | onConnect status => exact absurd trivial ho
  | afterWrite status => exact absurd trivial ho
  | afterShutdown status => exact absurd trivial ho
  | afterClose => exact absurd trivial ho
  | afterCloseUnref =>
    rcases Classical.em (self.ledger.InOrder .close) with hin | hout
    · -- the one reference left is that of a request
      obtain ⟨hc, hone⟩ := hin
      have hf := hi.flight
      have hfly : self.inFlight ≠ 0 := fun hz => ho ⟨hc, by omega, hz⟩
      obtain ⟨l, hl, rfl⟩ := Option.map_eq_some_iff.mp h
      obtain ⟨s, -, rfl⟩ := Option.map_eq_some_iff.mp hl
      rintro ⟨hcover, hsound⟩
      have hzero := (hsound.2 (Nat.succ_pos _)).1
      rw [hzero] at hcover
      exact hfly (Nat.le_zero.mp (by exact_mod_cast hcover))
    · exact not_lifetime_of_post h hi.kept hout

/-- Exactly the runs with orderly steps keep the lifetimes of all pipe objects right. -/
theorem pipe_lifetime_iff (ops : List (Pool.Op Birth Op))
    (h : Along (Pool.next kind) (Pool.Acts Allowed) (some []) ops) :
    Always (Pool.next kind) (Pool.Every Lifetime) (some []) ops ↔
      Along (Pool.next kind) (Pool.Acts Orderly) (some []) ops := by
  have hlife : ∀ o, Inv o → Lifetime o := fun _ hi => hi.lifetime
  have hkeep : ∀ o op, Inv o → Allowed o op → Orderly o op →
      ∃ o', kind.step o op = some o' ∧ Inv o' := fun _ _ hi ha ho => inv_step hi ha ho
  have hbreak : ∀ o op o', Inv o → Allowed o op → ¬ Orderly o op → kind.step o op = some o' →
      ¬ Lifetime o' := fun _ _ _ hi _ ho hs => not_lifetime_of_step hi ho hs
  exact Pool.always_iff_acts inv_birth hlife hkeep hbreak h

/-- A client that connects, writes and closes without having started to read. -/
def writer : List (Pool.Op Birth Op) :=
  [.create (.new false), .act 0 .connect, .act 0 (.onConnect 0), .act 0 (.write true),
    .act 0 (.afterWrite 0), .act 0 (.close true), .act 0 (.afterShutdown 0), .act 0 .afterClose,
    .act 0 .afterCloseUnref]

theorem writer_fails :
    Along (Pool.next kind) (Pool.Acts Allowed) (some []) writer ∧
      ¬ Always (Pool.next kind) (Pool.Every Lifetime) (some []) writer := by
  refine ⟨by decide, fun h => ?_⟩
  have hend : exec (Pool.next kind) (some []) writer = none := by decide
  have hlife := h.exec
  rw [hend] at hlife
  exact hlife

def reader : List (Pool.Op Birth Op) :=
  [.create (.new false), .act 0 .connect, .act 0 (.onConnect 0), .act 0 (.readStart 0),
    .act 0 (.write true), .act 0 (.afterWrite 0), .act 0 (.close true), .act 0 (.afterShutdown 0),
    .act 0 .afterClose, .act 0 .afterCloseUnref]

theorem pipe_lifetime_iff_reader :
    Always (Pool.next kind) (Pool.Every Lifetime) (some []) reader :=
  (pipe_lifetime_iff reader (by decide)).mpr (by decide)

end Lev.Pipe
