import Lev.LuaStack

/-! How an event reaches Lua (lev_new_base.c): the callbacks of an object, `_push_callback`,
and the handlers that libuv calls (lev_new_tcp.c, lev_new_pipe.c, lev_new_timer.c,
lev_new_udp.c), on a stack they share with the running program. -/
namespace Lev.Dispatch

/-- The addresses that stand as light userdata. -/
inductive Address
  | objectRegistry
  | object (o : ℕ)
  deriving DecidableEq, Repr

inductive Table
  | luaRegistry
  | objectRegistry
  | callbacks (o : ℕ)
  deriving DecidableEq, Repr

inductive Value
  | nil
  | integer (z : ℤ)
  | string (s : String)
  | lightuserdata (address : Address)
  | function (f : ℕ)
  | userdata (o : ℕ)
  | buffer
  | table (table : Table)
  deriving DecidableEq, Repr

def Value.isFunction : Value → Bool
  | .function _ => true
  | _ => false

structure Call where
  function : ℕ
  args : List Value
  deriving DecidableEq, Repr

/-- The stack of an event, the top first, and the environments of the objects. The field
`calls` is a log of ours. -/
structure State where
  stack : List Value
  callbacks : ℕ → String → Value
  calls : List Call

namespace State

def luaRegistryindex : ℤ := -10000

variable (L : State)

def push (v : Value) : State := { L with stack := v :: L.stack }

def value (idx : ℤ) : Value :=
  if idx = luaRegistryindex then .table .luaRegistry
  else (LuaStack.index2adr L.stack idx).getD .nil

def pop (n : ℤ) : State := { L with stack := LuaStack.pop .nil L.stack n }

def remove (idx : ℤ) : State := { L with stack := LuaStack.remove L.stack idx }

def insert (idx : ℤ) : State := { L with stack := LuaStack.insert L.stack idx }

/-- What is in a table. The object registry has every object that events come for. -/
def get : Value → Value → Value
  | .table .luaRegistry, .lightuserdata .objectRegistry => .table .objectRegistry
  | .table .objectRegistry, .lightuserdata (.object o) => .userdata o
  | .table (.callbacks o), .string name => L.callbacks o name
  | _, _ => .nil

def rawget (idx : ℤ) : State :=
  { L with stack := L.get (L.value idx) (L.value (-1)) :: L.stack.tail }

def rawset (idx : ℤ) : State :=
  { L with
    stack := L.stack.drop 2
    callbacks :=
      match L.value idx, L.value (-2) with
      | .table (.callbacks o), .string name =>
        Function.update L.callbacks o (Function.update (L.callbacks o) name (L.value (-1)))
      | _, _ => L.callbacks }

def getfenv (idx : ℤ) : State :=
  match L.value idx with
  | .userdata o => L.push (.table (.callbacks o))
  | _ => L.push .nil

/-- `lua_call` with no results; `none` where there is no function to call. -/
def call (nargs : ℕ) : Option State :=
  match LuaStack.call L.stack nargs with
  | some (.function f, args, rest) =>
    some { L with stack := rest, calls := L.calls ++ [⟨f, args⟩] }
  | _ => none

def pushObject (o : ℕ) : State :=
  let L := L.push (.lightuserdata .objectRegistry)
  let L := L.rawget luaRegistryindex
  let L := L.push (.lightuserdata (.object o))
  let L := L.rawget (-2)
  L.remove (-2)

/-- `_push_callback` -/
def pushCallback (o : ℕ) (name : String) (popObject : Bool) : ℕ × State :=
  let L := L.pushObject o
  let L := L.getfenv (-1)
  let L := L.push (.string name)
  let L := L.rawget (-2)
  if !(L.value (-1)).isFunction then (0, L.pop (-2))
  else
    let L := L.remove (-2)
    let L := L.insert (-2)
    (1, if popObject then L.pop 1 else L)

/-- `set_callback`; `none` is the error of `luaL_checktype`. -/
def setCallback (name : String) (index : ℤ) : Option State :=
  if (L.value index).isFunction then
    let f := L.value index
    let L := L.getfenv 1
    let L := L.push (.string name)
    let L := L.push f
    let L := L.rawset (-3)
    some (L.pop 1)
  else none

def clearCallback (name : String) (o : ℕ) : State :=
  let L := L.pushObject o
  let L := L.getfenv (-1)
  let L := L.push (.string name)
  let L := L.push .nil
  let L := L.rawset (-3)
  L.pop 2

/-- `tcp_read_stop` with the result of `uv_read_stop`, one value of which it returns. -/
def tcpReadStop (o : ℕ) (r : ℤ) : State :=
  let L := L.push (if r = 0 then .nil else .integer r)
  if r = 0 then L.clearCallback "on_read" o else L

def pushAll (L : State) : List Value → State
  | [] => L
  | v :: vs => pushAll (L.push v) vs

/-- The body the handlers share that call a callback whether there is one or not. -/
def notify (o : ℕ) (name : String) (args : List Value) : Option State :=
  ((L.pushCallback o name false).2.pushAll args).call (args.length + 1)

/-- The body the close handlers share. -/
def notifyClose (o : ℕ) : Option State :=
  let (pushed, L) := L.pushCallback o "on_close" false
  if pushed ≠ 0 then L.call 1 else some L

def statusValue (status : ℤ) : Value := if status = 0 then .nil else .integer status

def tcpAfterClose (o : ℕ) : Option State := L.notifyClose o

def pipeAfterClose (o : ℕ) : Option State := L.notifyClose o

def udpAfterClose (o : ℕ) : Option State := L.notifyClose o

def timerOnClose (o : ℕ) : Option State := L.notifyClose o

def tcpOnConnect (o : ℕ) (status : ℤ) : Option State :=
  L.notify o "on_connect" [statusValue status]

def tcpOnConnection (o : ℕ) (status : ℤ) : Option State :=
  L.notify o "on_connection" [statusValue status]

def pipeOnConnect (o : ℕ) (status : ℤ) : Option State :=
  L.notify o "on_connect" [statusValue status]

def pipeOnConnection (o : ℕ) (status : ℤ) : Option State :=
  L.notify o "on_connection" [statusValue status]

def onTimer (o : ℕ) (status : ℤ) : Option State := L.notify o "on_timer" [.integer status]

/-- `lev_pushbuffer_from_static_mb` -/
def pushbufferFromStaticMb (nread : ℤ) : State := if nread = -1 then L else L.push .buffer

/-- `on_read` of a tcp handle with this descriptor. -/
def tcpOnRead (o : ℕ) (nread fd : ℤ) : Option State :=
  if nread = -1 then
    let L := L.pushbufferFromStaticMb nread
    if 0 ≤ fd then some L else L.tcpAfterClose o
  else
    let L := (L.pushCallback o "on_read" false).2
    let L := L.push (.integer nread)
    let L := L.pushbufferFromStaticMb nread
    L.call 3

def pipeOnRead (o : ℕ) (nread : ℤ) : Option State :=
  if nread = -1 then some (L.pushbufferFromStaticMb nread)
  else
    let L := (L.pushCallback o "on_read" false).2
    let L := L.push (.integer nread)
    let L := L.pushbufferFromStaticMb nread
    L.call 3

/-- `on_read2`, with the descriptor that came along and its type. -/
def pipeOnRead2 (o : ℕ) (nread acceptedFd : ℤ) (pending : String) : Option State :=
  if nread = -1 then some (L.pushbufferFromStaticMb nread)
  else
    let L := (L.pushCallback o "on_read" false).2
    let L := L.push (.integer nread)
    let L := L.pushbufferFromStaticMb nread
    let L := L.push (if acceptedFd ≠ 0 then .integer acceptedFd else .nil)
    let L := L.push (.string pending)
    L.call 5

/-- `on_recv`, with the name of the last error of the loop and the sender. -/
def udpOnRecv (o : ℕ) (nread : ℤ) (errname host : String) (port : ℤ) : Option State :=
  if nread ≤ 0 then
    let L := L.pushbufferFromStaticMb nread
    if nread = -1 then L.notify o "on_recv" [.string errname] else some L
  else
    let L := (L.pushCallback o "on_recv" false).2
    let L := L.push .nil
    let L := L.push (.string host)
    let L := L.push (.integer port)
    let L := L.push (.integer nread)
    let L := L.pushbufferFromStaticMb nread
    L.call 6

end State

inductive Event
  | tcpAfterClose
  | pipeAfterClose
  | udpAfterClose
  | timerOnClose
  | tcpOnConnect (status : ℤ)
  | tcpOnConnection (status : ℤ)
  | pipeOnConnect (status : ℤ)
  | pipeOnConnection (status : ℤ)
  | onTimer (status : ℤ)
  | tcpOnRead (nread fd : ℤ)
  | pipeOnRead (nread : ℤ)
  | pipeOnRead2 (nread acceptedFd : ℤ) (pending : String)
  | udpOnRecv (nread : ℤ) (errname host : String) (port : ℤ)
  deriving DecidableEq, Repr

namespace Event
open State

def run (L : State) (o : ℕ) : Event → Option State
  | tcpAfterClose => L.tcpAfterClose o
  | pipeAfterClose => L.pipeAfterClose o
  | udpAfterClose => L.udpAfterClose o
  | timerOnClose => L.timerOnClose o
  | tcpOnConnect status => L.tcpOnConnect o status
  | tcpOnConnection status => L.tcpOnConnection o status
  | pipeOnConnect status => L.pipeOnConnect o status
  | pipeOnConnection status => L.pipeOnConnection o status
  | onTimer status => L.onTimer o status
  | tcpOnRead nread fd => L.tcpOnRead o nread fd
  | pipeOnRead nread => L.pipeOnRead o nread
  | pipeOnRead2 nread acceptedFd pending => L.pipeOnRead2 o nread acceptedFd pending
  | udpOnRecv nread errname host port => L.udpOnRecv o nread errname host port

/-- The callback an event is for and what it is called with behind the object. Reads that
end the stream are for none, and neither are empty receptions. -/
def notice : Event → Option (String × List Value)
  | tcpAfterClose | pipeAfterClose | udpAfterClose | timerOnClose => some ("on_close", [])
  | tcpOnConnect status | pipeOnConnect status => some ("on_connect", [statusValue status])
  | tcpOnConnection status | pipeOnConnection status =>
    some ("on_connection", [statusValue status])
  | onTimer status => some ("on_timer", [.integer status])
  | tcpOnRead nread fd =>
    if nread = -1 then if 0 ≤ fd then none else some ("on_close", [])
    else some ("on_read", [.integer nread, .buffer])
  | pipeOnRead nread =>
    if nread = -1 then none else some ("on_read", [.integer nread, .buffer])
  | pipeOnRead2 nread acceptedFd pending =>
    if nread = -1 then none
    else some ("on_read", [.integer nread, .buffer,
      if acceptedFd ≠ 0 then .integer acceptedFd else .nil, .string pending])
  | udpOnRecv nread errname host port =>
    if nread = -1 then some ("on_recv", [.string errname])
    else if nread ≤ 0 then none
    else some ("on_recv", [.nil, .string host, .integer port, .integer nread, .buffer])

end Event

def expected (L : State) (o : ℕ) (e : Event) : List Call :=
  match e.notice with
  | none => []
  | some (name, args) =>
    match L.callbacks o name with
    | .function f => [⟨f, .userdata o :: args⟩]
    | _ => []

/-- The event calls the registered callback, if there is one, and nothing else, and leaves
the stack as deep as it was. -/
def Disciplined (L : State) (o : ℕ) (e : Event) : Prop :=
  ∃ L', e.run L o = some L' ∧ L'.stack.length = L.stack.length ∧
    L'.calls = L.calls ++ expected L o e

/-- `_push_callback` pushes the registered function and the object and returns 1, or
returns 0 and leaves the stack alone. -/
def PushesOrLeaves (L : State) (o : ℕ) (name : String) (popObject : Bool) : Prop :=
  let (r, L') := L.pushCallback o name popObject
  (r = 1 ∧ ∃ f, L.callbacks o name = .function f ∧
      L'.stack = (if popObject then [] else [.userdata o]) ++ .function f :: L.stack) ∨
    (r = 0 ∧ L'.stack = L.stack)

def Registered (L : State) (o : ℕ) (name : String) : Prop :=
  (L.callbacks o name).isFunction = true

instance (L : State) (o : ℕ) (name : String) : Decidable (Registered L o name) :=
  inferInstanceAs (Decidable (_ = _))

/-- The callback of the event is registered, or it is a close handler, which looks, and the
stack has one value. A reception is an error or has bytes. -/
def Event.Ready (L : State) (o : ℕ) : Event → Prop
  | tcpAfterClose | pipeAfterClose | udpAfterClose | timerOnClose =>
    Registered L o "on_close" ∨ L.stack.length = 1
  | tcpOnConnect _ | pipeOnConnect _ => Registered L o "on_connect"
  | tcpOnConnection _ | pipeOnConnection _ => Registered L o "on_connection"
  | onTimer _ => Registered L o "on_timer"
  | tcpOnRead nread fd =>
    if nread = -1 then 0 ≤ fd ∨ Registered L o "on_close" ∨ L.stack.length = 1
    else Registered L o "on_read"
  | pipeOnRead nread | pipeOnRead2 nread _ _ => nread = -1 ∨ Registered L o "on_read"
  | udpOnRecv nread _ _ _ => (nread = -1 ∨ 0 < nread) ∧ Registered L o "on_recv"

variable {L : State} {o : ℕ} {name : String} {args : List Value}

@[simp] theorem pushObject_eq (L : State) (o : ℕ) : L.pushObject o = L.push (.userdata o) := rfl

theorem pushCallback_registered {f : ℕ} (h : L.callbacks o name = .function f)
    (popObject : Bool) : L.pushCallback o name popObject =
      (1, { L with stack :=
        (if popObject then [] else [.userdata o]) ++ .function f :: L.stack }) := by
  have hget : ((((L.pushObject o).getfenv (-1)).push (.string name)).rawget (-2)) =
      { L with stack := .function f :: .table (.callbacks o) :: .userdata o :: L.stack } := by
    rw [← h]
    rfl
  simp only [State.pushCallback, hget]
  cases popObject
  all_goals rfl

/-- Without a callback all but the lowest value of the stack is dropped, the object being
one if there is no other. -/
theorem pushCallback_unregistered (h : ¬ Registered L o name) (popObject : Bool) :
    L.pushCallback o name popObject =
      (0, { L with stack := (.userdata o :: L.stack).drop L.stack.length }) := by
  have hget : ((((L.pushObject o).getfenv (-1)).push (.string name)).rawget (-2)) =
      { L with stack :=
        L.callbacks o name :: .table (.callbacks o) :: .userdata o :: L.stack } := rfl
  have hvalue : State.value
      { L with stack := L.callbacks o name :: .table (.callbacks o) :: .userdata o :: L.stack }
      (-1) = L.callbacks o name := rfl
  have hpop : LuaStack.pop Value.nil
      (L.callbacks o name :: .table (.callbacks o) :: .userdata o :: L.stack) (-2) =
      (Value.userdata o :: L.stack).drop L.stack.length :=
    LuaStack.pop_neg (n := 1) (by simp)
  rw [Registered, Bool.not_eq_true] at h
  simp only [State.pushCallback, hget, hvalue, h]
  exact congrArg (fun stack => (0, { L with stack := stack })) hpop

theorem setCallback_eq {f : ℕ} {index : ℤ} {s : List Value}
    (hs : L.stack = s ++ [.userdata o])
    (hf : L.value index = .function f) :
    L.setCallback name index = some { L with
      callbacks := Function.update L.callbacks o
        (Function.update (L.callbacks o) name (.function f)) } := by
  have hobject : L.value 1 = .userdata o := by
    simp [State.value, State.luaRegistryindex, LuaStack.index2adr, hs]
  have henv : L.getfenv 1 = L.push (.table (.callbacks o)) := by
    rw [State.getfenv, hobject]
  have hfunction : (Value.function f).isFunction = true := rfl
  rw [State.setCallback, hf, if_pos hfunction, henv]
  rfl

/-- After `read_stop` there is no `on_read`, and the stack has its result more. -/
theorem tcpReadStop_eq (L : State) (o : ℕ) (r : ℤ) :
    L.tcpReadStop o r = { L with
      stack := (if r = 0 then .nil else .integer r) :: L.stack
      callbacks := if r = 0 then
          Function.update L.callbacks o (Function.update (L.callbacks o) "on_read" .nil)
        else L.callbacks } := by
  unfold State.tcpReadStop
  split
  · rfl
  · rfl

theorem registered_iff : Registered L o name ↔ ∃ f, L.callbacks o name = .function f := by
  rw [Registered]
  cases L.callbacks o name
  all_goals simp [Value.isFunction]

/-- What `_push_callback` leaves of the stack without a callback is the stack itself exactly
if that has one value. -/
theorem drop_length_eq_iff : (Value.userdata o :: L.stack).drop L.stack.length = L.stack ↔
    L.stack.length = 1 := by
  constructor
  · intro h
    have := congrArg List.length h
    simp only [List.length_drop, List.length_cons] at this
    omega
  · intro h
    rw [h]
    rfl

theorem pushesOrLeaves_iff (popObject : Bool) : PushesOrLeaves L o name popObject ↔
    (Registered L o name ∨ L.stack.length = 1) := by
  by_cases h : Registered L o name
  · obtain ⟨f, hf⟩ := registered_iff.mp h
    rw [PushesOrLeaves, pushCallback_registered hf]
    exact iff_of_true (.inl ⟨rfl, f, hf, rfl⟩) (.inl h)
  · rw [PushesOrLeaves, pushCallback_unregistered h, or_iff_right h,
      ← drop_length_eq_iff (o := o)]
    constructor
    · rintro (⟨hone, -⟩ | ⟨-, hstack⟩)
      · cases hone
      · exact hstack
    · exact fun hstack => .inr ⟨rfl, hstack⟩

theorem pushAll_eq (L : State) (args : List Value) :
    L.pushAll args = { L with stack := args.reverse ++ L.stack } := by
  induction args generalizing L with
  | nil => rfl
  | cons v args ih =>
    rw [State.pushAll, ih, List.reverse_cons, List.append_assoc]
    rfl

theorem notify_registered {f : ℕ} (h : L.callbacks o name = .function f) (args : List Value) :
    L.notify o name args = some { L with calls := L.calls ++ [⟨f, .userdata o :: args⟩] } := by
  have hcall := LuaStack.call_append (s := L.stack) (Value.function f) (.userdata o :: args)
  rw [List.reverse_cons, List.append_assoc, List.length_cons] at hcall
  rw [State.notify, pushCallback_registered h, pushAll_eq, State.call]
  simp only [Bool.false_eq_true, if_false, List.singleton_append] at hcall ⊢
  rw [hcall]

theorem notify_unregistered (h : ¬ Registered L o name) (args : List Value) :
    L.notify o name args = none := by
  have hcall : LuaStack.call (args.reverse ++
      (Value.userdata o :: L.stack).drop L.stack.length) (args.length + 1) = none := by
    apply LuaStack.call_underflow
    simp only [List.length_append, List.length_reverse, List.length_drop, List.length_cons]
    omega
  rw [State.notify, pushCallback_unregistered h, pushAll_eq, State.call]
  simp only [hcall]

variable {e : Event}

theorem expected_registered {f : ℕ} (hnotice : e.notice = some (name, args))
    (h : L.callbacks o name = .function f) : expected L o e = [⟨f, .userdata o :: args⟩] := by
  rw [expected, hnotice]
  simp only [h]

theorem expected_unregistered (hnotice : e.notice = some (name, args))
    (h : ¬ Registered L o name) : expected L o e = [] := by
  rw [expected, hnotice]
  dsimp only
  split
  · next f hf => exact absurd (registered_iff.mpr ⟨f, hf⟩) h
  · rfl

theorem disciplined_notify (args : List Value) (hnotice : e.notice = some (name, args))
    (hrun : e.run L o = L.notify o name args) : Disciplined L o e ↔ Registered L o name := by
  rw [Disciplined, hrun]
  by_cases h : Registered L o name
  · obtain ⟨f, hf⟩ := registered_iff.mp h
    rw [notify_registered hf, expected_registered hnotice hf]
    exact iff_of_true ⟨_, rfl, rfl, rfl⟩ h
  · rw [notify_unregistered h]
    exact iff_of_false (fun ⟨_, hnone, _⟩ => by cases hnone) h

theorem disciplined_close (hnotice : e.notice = some ("on_close", []))
    (hrun : e.run L o = L.notifyClose o) :
    Disciplined L o e ↔ Registered L o "on_close" ∨ L.stack.length = 1 := by
  rw [Disciplined, hrun]
  by_cases h : Registered L o "on_close"
  · obtain ⟨f, hf⟩ := registered_iff.mp h
    have hnotify : L.notifyClose o = L.notify o "on_close" [] := by
      rw [State.notifyClose, State.notify, pushCallback_registered hf]
      rfl
    rw [hnotify, notify_registered hf, expected_registered hnotice hf]
    exact iff_of_true ⟨_, rfl, rfl, rfl⟩ (.inl h)
  · have hclose : L.notifyClose o =
        some { L with stack := (Value.userdata o :: L.stack).drop L.stack.length } := by
      rw [State.notifyClose, pushCallback_unregistered h]
      rfl
    rw [hclose, expected_unregistered hnotice h, or_iff_right h]
    constructor
    · rintro ⟨L', hrun', hlength, -⟩
      rw [← Option.some.inj hrun', List.length_drop, List.length_cons] at hlength
      omega
    · intro hone
      refine ⟨_, rfl, ?_, (List.append_nil _).symm⟩
      rw [drop_length_eq_iff.mpr hone]

/-- An event that does nothing to Lua is as it should be if it is for no callback. -/
theorem disciplined_quiet (hnotice : e.notice = none) (hrun : e.run L o = some L) :
    Disciplined L o e := by
  refine ⟨L, hrun, rfl, ?_⟩
  rw [expected, hnotice, List.append_nil]

theorem pushbuffer_push {nread : ℤ} (h : nread ≠ -1) (L : State) :
    L.pushbufferFromStaticMb nread = L.push .buffer := if_neg h

theorem disciplined_iff (L : State) (o : ℕ) (e : Event) : Disciplined L o e ↔ e.Ready L o := by
  cases e with
  | tcpAfterClose => exact disciplined_close rfl rfl
  | pipeAfterClose => exact disciplined_close rfl rfl
  | udpAfterClose => exact disciplined_close rfl rfl
  | timerOnClose => exact disciplined_close rfl rfl
  | tcpOnConnect status => exact disciplined_notify _ rfl rfl
  | tcpOnConnection status => exact disciplined_notify _ rfl rfl
  | pipeOnConnect status => exact disciplined_notify _ rfl rfl
  | pipeOnConnection status => exact disciplined_notify _ rfl rfl
  | onTimer status => exact disciplined_notify _ rfl rfl
  | tcpOnRead nread fd =>
    by_cases hend : nread = -1
    · rw [Event.Ready, if_pos hend]
      by_cases hfd : 0 ≤ fd
      · refine iff_of_true (disciplined_quiet ?_ ?_) (.inl hfd)
        · simp [Event.notice, hend, hfd]
        · simp [Event.run, State.tcpOnRead, State.pushbufferFromStaticMb, hend, hfd]
      · rw [or_iff_right hfd]
        apply disciplined_close
        · simp [Event.notice, hend, hfd]
        · simp [Event.run, State.tcpOnRead, State.pushbufferFromStaticMb, hend, hfd,
            State.tcpAfterClose]
    · rw [Event.Ready, if_neg hend]
      apply disciplined_notify [.integer nread, .buffer]
      · simp [Event.notice, hend]
      · simp only [Event.run, State.tcpOnRead, if_neg hend, pushbuffer_push hend]
        rfl
  | pipeOnRead nread =>
    by_cases hend : nread = -1
    · refine iff_of_true (disciplined_quiet ?_ ?_) (.inl hend)
      · simp [Event.notice, hend]
      · simp [Event.run, State.pipeOnRead, State.pushbufferFromStaticMb, hend]
    · rw [Event.Ready, or_iff_right hend]
      apply disciplined_notify [.integer nread, .buffer]
      · simp [Event.notice, hend]
      · simp only [Event.run, State.pipeOnRead, if_neg hend, pushbuffer_push hend]
        rfl
  | pipeOnRead2 nread acceptedFd pending =>
    by_cases hend : nread = -1
    · refine iff_of_true (disciplined_quiet ?_ ?_) (.inl hend)
      · simp [Event.notice, hend]
      · simp [Event.run, State.pipeOnRead2, State.pushbufferFromStaticMb, hend]
    · rw [Event.Ready, or_iff_right hend]
      apply disciplined_notify [.integer nread, .buffer,
        if acceptedFd ≠ 0 then .integer acceptedFd else .nil, .string pending]
      · simp [Event.notice, hend]
      · simp only [Event.run, State.pipeOnRead2, if_neg hend, pushbuffer_push hend]
        rfl
  | udpOnRecv nread errname host port =>
    by_cases hend : nread = -1
    · rw [Event.Ready, and_iff_right (.inl hend)]
      apply disciplined_notify [.string errname]
      · simp [Event.notice, hend]
      · simp [Event.run, State.udpOnRecv, State.pushbufferFromStaticMb, hend]
    · by_cases hempty : nread ≤ 0
      · -- the Buffer of an empty reception stays on the stack
        refine iff_of_false ?_ fun h => h.1.elim hend (by omega)
        rintro ⟨L', hrun, hlength, -⟩
        simp only [Event.run, State.udpOnRecv, if_pos hempty, if_neg hend,
          pushbuffer_push hend] at hrun
        rw [← Option.some.inj hrun] at hlength
        simp [State.push] at hlength
      · rw [Event.Ready, and_iff_right (.inr (by omega))]
        apply disciplined_notify
          [.nil, .string host, .integer port, .integer nread, .buffer]
        · simp [Event.notice, hend, hempty]
        · simp only [Event.run, State.udpOnRecv, if_neg hempty, pushbuffer_push hend]
          rfl

/-- For every stack, object and name `_push_callback` does what it is for exactly if the
callback is registered or the stack has one value, and every event is as it should be
exactly if it is ready. -/
theorem dispatch_iff (L : State) (o : ℕ) :
    (∀ name popObject, PushesOrLeaves L o name popObject ↔
      (Registered L o name ∨ L.stack.length = 1)) ∧
    ∀ e : Event, Disciplined L o e ↔ e.Ready L o :=
  ⟨fun _ popObject => pushesOrLeaves_iff popObject, disciplined_iff L o⟩

/-- An unset close handler above two values, and a connection for which there is no handler. -/
theorem unset_undisciplined :
    ¬ PushesOrLeaves ⟨[.integer 8, .integer 7], fun _ _ => .nil, []⟩ 0 "on_close" false ∧
      ¬ Disciplined ⟨[.integer 8, .integer 7], fun _ _ => .nil, []⟩ 0 .tcpAfterClose ∧
      ¬ Disciplined ⟨[.integer 7], fun _ _ => .nil, []⟩ 0 (.tcpOnConnection 0) := by
  refine ⟨?_, ?_, ?_⟩
  · rintro (⟨hone, -⟩ | ⟨-, hstack⟩)
    · cases hone
    · cases hstack
  · rintro ⟨L', hrun, hlength, -⟩
    rw [← Option.some.inj hrun] at hlength
    cases hlength
  · rintro ⟨L', hrun, -⟩
    cases hrun

theorem onTimer_disciplined {L' : State} {f : ℕ} {s : List Value} (status : ℤ)
    (hs : L.stack = s ++ [.userdata o]) (hf : L.value 2 = .function f)
    (hset : L.setCallback "on_timer" 2 = some L') : Disciplined L' o (.onTimer status) := by
  rw [setCallback_eq hs hf, Option.some.injEq] at hset
  rw [disciplined_iff, Event.Ready, registered_iff, ← hset]
  exact ⟨f, by simp⟩

theorem tcpOnRead_undisciplined {nread : ℤ} (h : nread ≠ -1) (fd : ℤ) :
    ¬ Disciplined (L.tcpReadStop o 0) o (.tcpOnRead nread fd) := by
  rw [disciplined_iff, Event.Ready, if_neg h, tcpReadStop_eq, registered_iff]
  simp

end Lev.Dispatch
