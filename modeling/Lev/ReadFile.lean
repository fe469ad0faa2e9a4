import Lev.Buffer
import Lev.Run

/-! `lev.fs.readFile` without a callback, in any number of coroutines. A call yields at
each of its requests and goes on when libuv answers it; the chunk keeps the descriptor in
the global variable `fd`. -/
namespace Lev.Fs
open CInt Slab Memory Buffer Run

/-- The arguments `fs.read` gives to `uv_fs_read`. -/
structure ReadRequest where
  fd : ℤ
  ms : MemSlice
  length : ℕ
  filePos : ℤ
  deriving DecidableEq, Repr

/-- What a call waits for, with the locals it still needs, or how it ended: it returned,
died of a Lua error, or took the process with it. -/
inductive Waits
  | stat
  | opening (size : ℕ)
  | reading (buf : ObjId)
  | closing (buf : ObjId)
  | returned (err : Option String) (buf : Option ObjId)
  | raised
  | crashed
  deriving DecidableEq, Repr

/-- A call of `readFile`. The fields from `opened` on are logs of ours: what its open
returned, and the requests it made to read and to close. -/
structure Call where
  path : String
  waits : Waits
  opened : Option ℤ
  reads : List ReadRequest
  closes : List ℤ
  deriving DecidableEq, Repr

/-- `fd` is the global variable. `running` ends with the process, and `openFds` is a log of
ours: the descriptors that were opened and not yet passed to close. -/
structure System where
  running : Bool
  buffers : Buffer.State
  fd : Option ℤ
  openFds : List ℤ
  calls : List Call

/-- The process before the first call, in any state of its Buffers. -/
def start (buffers : Buffer.State) : System := ⟨true, buffers, none, [], []⟩

/-- The result of a request, as `push_results` sees it. -/
inductive Reply
  | error (name : String)
  | stat (size : ℕ)
  | opened (fd : ℤ)
  | read (data : List UInt8)
  | closed
  deriving DecidableEq, Repr

/-- `Buffer.new(size)`; `none` is the crash on a NULL block. -/
def newBuffer (b : Buffer.State) (size : ℕ) : Option (ObjId × MemSlice × Buffer.State) :=
  match bufferNew b (.number size) with
  | .error _ => none
  | .ok b' => (b'.slice? b.objs.length).map fun ms => (b.objs.length, ms, b')

/-- `fs.read(fd, buf, 1, size)` -/
def fsRead (fd : Option ℤ) (ms : MemSlice) (buf : ObjId) (size : ℕ) (c : Call) : Call :=
  match fd with
  | none => { c with waits := .raised }
  | some fd =>
    let fileUntil := min size ms.untilLen
    let length := if fileUntil = 0 then ms.untilLen else fileUntil
    { c with waits := .reading buf, reads := c.reads ++ [⟨fd, ms, length, 0⟩] }

/-- `fs.close(fd)` -/
def fsClose (fd : Option ℤ) (buf : ObjId) (c : Call) : Call :=
  match fd with
  | none => { c with waits := .raised }
  | some fd => { c with waits := .closing buf, closes := c.closes ++ [fd] }

/-- What the kernel has read is in the memory of the Buffer. -/
def fill (b : Buffer.State) (buf : ObjId) (data : List UInt8) : Buffer.State :=
  match b.slice? buf with
  | none => b
  | some ms => { b with heap := b.heap.store ms.mb ms.slice data }

/-- `on_fs_callback` resumes the coroutine of a call, which runs to its next request or to
its end. The call is taken out of the system and given back beside it. A reply of another
kind does not come. -/
def resume (s : System) (c : Call) : Reply → System × Call
  | .error name =>
    match c.waits with
    | .opening _ => ({ s with fd := none }, { c with waits := .returned (some name) none })
    | .stat | .reading _ | .closing _ => (s, { c with waits := .returned (some name) none })
    | _ => (s, c)
  | .stat size =>
    match c.waits with
    | .stat => (s, { c with waits := .opening size })
    | _ => (s, c)
  | .opened fd =>
    match c.waits with
    | .opening size =>
      let s := { s with fd := some fd, openFds := fd :: s.openFds }
      let c := { c with opened := some fd }
      match newBuffer s.buffers size with
      | none => ({ s with running := false }, { c with waits := .crashed })
      | some (buf, ms, b) => ({ s with buffers := b }, fsRead s.fd ms buf size c)
    | _ => (s, c)
  | .read data =>
    match c.waits with
    | .reading buf =>
      ({ s with
          buffers := fill s.buffers buf data
          openFds := s.openFds.filter fun d => some d ≠ s.fd },
        fsClose s.fd buf c)
    | _ => (s, c)
  | .closed =>
    match c.waits with
    | .closing buf => (s, { c with waits := .returned none (some buf) })
    | _ => (s, c)

/-- A coroutine calls `readFile`, or the request a call waits for completes. -/
inductive Op
  | readFile (path : String)
  | complete (i : ℕ) (r : Reply)
  deriving DecidableEq, Repr

def next (s : System) (op : Op) : System :=
  if s.running then
    match op with
    | .readFile path => { s with calls := s.calls ++ [⟨path, .stat, none, [], []⟩] }
    | .complete i r =>
      match s.calls[i]? with
      | none => s
      | some c => { (resume s c r).1 with calls := s.calls.set i (resume s c r).2 }
  else s

def answers : Waits → Reply → Bool
  | .stat, .error _ => true
  | .stat, .stat size => decide (size < 2 ^ 53)
  | .opening _, .error _ => true
  | .opening _, .opened _ => true
  | .reading _, .error _ => true
  | .reading _, .read _ => true
  | .closing _, .error _ => true
  | .closing _, .closed => true
  | _, _ => false

/-- A descriptor that is open is not given out again. -/
def System.fresh (s : System) : Reply → Bool
  | .opened fd => decide (fd ∉ s.openFds)
  | _ => true

/-- Each request is answered once. -/
def System.allows (s : System) : Op → Bool
  | .readFile _ => true
  | .complete i r =>
    match s.calls[i]? with
    | none => false
    | some c => answers c.waits r && s.fresh r

def Allowed (s : System) (op : Op) : Prop := s.allows op = true

instance (s : System) (op : Op) : Decidable (Allowed s op) :=
  inferInstanceAs (Decidable (s.allows op = true))

def Waits.isReading : Waits → Bool
  | .reading _ => true
  | _ => false

def Waits.over : Waits → Bool
  | .returned _ _ | .raised | .crashed => true
  | _ => false

/-- The call reads from and closes what its own open returned and nothing else, and when it
is over that was closed exactly once. -/
structure Call.Private (c : Call) : Prop where
  reads : ∀ r ∈ c.reads, c.opened = some r.fd
  closes : ∀ fd ∈ c.closes, c.opened = some fd
  once : c.closes.length ≤ 1
  released : c.waits.over = true → ∀ fd, c.opened = some fd → c.closes = [fd]

def Separate (s : System) : Prop := ∀ c ∈ s.calls, c.Private

def Done (s : System) : Prop := s.running = true → ∀ c ∈ s.calls, c.waits.over = true

/-- `Buffer.new` gets memory for the size: it is at most 1 MiB, or there is room in the block
that small Buffers share. -/
def fits (b : Buffer.State) (size : ℕ) : Bool :=
  decide (size ≤ 1024 * 1024) ||
    match b.staticMb with
    | none => false
    | some mb => decide (size ≤ szSub (b.heap.blocks mb).size (b.heap.blocks mb).nbytes)

def System.quiet (s : System) : Bool := s.calls.all fun c => !c.waits.isReading

/-- An open does not complete while another call waits for its read, what is opened fits
into a Buffer, and no read fails. -/
def undisturbed (s : System) : Waits → Reply → Bool
  | .opening _, .error _ => s.quiet
  | .opening size, .opened _ => s.quiet && fits s.buffers size
  | .reading _, .error _ => false
  | _, _ => true

def System.spares (s : System) : Op → Bool
  | .readFile _ => true
  | .complete i r =>
    match s.calls[i]? with
    | none => true
    | some c => undisturbed s c.waits r

def Alone (s : System) (op : Op) : Prop := s.spares op = true

instance (s : System) (op : Op) : Decidable (Alone s op) :=
  inferInstanceAs (Decidable (s.spares op = true))

end Lev.Fs
