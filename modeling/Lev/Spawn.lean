import Lev.LocalArray
import Lev.LuaText

/-! How lev_main.c starts a worker: the command line it finds its script in, and the argument
and environment vectors it builds in arrays on its stack. -/
namespace Lev.Spawn
open Lua

/-- The bytes in front of the NUL. -/
def CString := { s : List UInt8 // (0 : UInt8) ∉ s }

instance : DecidableEq CString := inferInstanceAs (DecidableEq (Subtype _))

def CString.text (s : String) (h : (0 : UInt8) ∉ ascii s := by decide) : CString :=
  ⟨ascii s, h⟩

def CString.append (s t : CString) : CString :=
  ⟨s.1 ++ t.1, fun h => (List.mem_append.mp h).elim s.2 t.2⟩

def flagsInteractive : ℕ := 1
def flagsVersion : ℕ := 2
def flagsExec : ℕ := 4
def flagsOption : ℕ := 8
def flagsGdb : ℕ := 16
def flagsValgrind : ℕ := 32

/-- `argv[i][k]`, with the NUL behind the last byte. -/
def CString.at (s : CString) (k : ℕ) : UInt8 := s.1.getD k 0

/-- The loop of `collectargs` over `argv` from the `i`-th argument on. -/
def collectargsLoop : ℕ → List CString → ℕ → ℤ × ℕ
  | _, [], flags => (0, flags)
  | i, arg :: rest, flags =>
    if arg.at 0 ≠ 45 then (i, flags) -- not an option
    else if arg.at 1 = 45 then -- '-'
      if arg.at 2 ≠ 0 then (-1, flags) else (if rest = [] then 0 else i + 1, flags)
    else if arg.at 1 = 0 then (i, flags)
    else if arg.at 1 = 105 then -- 'i', which goes on as 'v'
      if arg.at 2 ≠ 0 then (-1, flags)
      else collectargsLoop (i + 1) rest (flags ||| flagsInteractive ||| flagsVersion)
    else if arg.at 1 = 118 then -- 'v'
      if arg.at 2 ≠ 0 then (-1, flags)
      else collectargsLoop (i + 1) rest (flags ||| flagsVersion)
    else if arg.at 1 = 103 then collectargsLoop (i + 1) rest (flags ||| flagsGdb) -- 'g'
    else if arg.at 1 = 71 then collectargsLoop (i + 1) rest (flags ||| flagsValgrind) -- 'G'
    else if arg.at 1 ∈ [101, 106, 99, 108] then -- 'e', 'j', 'c', 'l', with an argument
      let flags := if arg.at 1 = 101 then flags ||| flagsExec ||| flagsOption
        else flags ||| flagsOption
      if arg.at 2 = 0 then
        match rest with
        | [] => (-1, flags)
        | _ :: rest => collectargsLoop (i + 2) rest flags
      else collectargsLoop (i + 1) rest flags
    else if arg.at 1 = 79 then collectargsLoop (i + 1) rest flags -- 'O'
    else if arg.at 1 = 98 then -- 'b'
      if flags ≠ 0 then (-1, flags) else (0, flags ||| flagsExec)
    else (-1, flags)

/-- `collectargs`: where the script is in `argv`, 0 for none and negative for a mistake, and the
flags. -/
def collectargs (argv : List CString) : ℤ × ℕ := collectargsLoop 1 argv.tail 0

/-- What `spawn_helper` is called with, and what it asks the system for. -/
structure Request where
  pipeFn : CString
  uuid : CString
  argv : List CString
  script : ℕ
  flags : ℕ
  exepath : CString
  environ : List CString
  script_le : script ≤ argv.length
  uuid_lt : uuid.1.length < 64

inductive StdioFlags
  | ignore | inheritFd
  deriving DecidableEq, Repr

structure StdioContainer where
  flags : StdioFlags
  fd : ℤ
  deriving DecidableEq, Repr

/-- What the arrays of `spawn_helper` hold before it stores to them. -/
structure Junk where
  args : ℕ → Option CString
  temp : ℕ → UInt8
  env : ℕ → Option CString
  stdio : ℕ → StdioContainer

/-- The fields of `uv_process_options_t` that are set, and the array for the texts of the
environment. NULL pointers are `none`. -/
structure Options where
  file : CString
  args : LocalArray (Option CString)
  envTemp : LocalArray UInt8
  env : LocalArray (Option CString)
  stdio : LocalArray StdioContainer

def hasFlag (flags f : ℕ) : Bool := flags &&& f != 0

/-- gdb trumps valgrind. -/
def debugger (flags : ℕ) : List CString :=
  if hasFlag flags flagsGdb then [.text "gdb", .text "--args"]
  else if hasFlag flags flagsValgrind then
    [.text "valgrind", .text "--leak-check=full", .text "-v"]
  else []

/-- The loop over the script and its arguments: `n` is where the last pointer was stored. -/
def argsLoop : List CString → ℕ → LocalArray (Option CString) → ℕ × LocalArray (Option CString)
  | [], n, args => (n, args)
  | arg :: rest, n, args =>
    if n < 256 then argsLoop rest (n + 1) (args.set (n + 1) (some arg)) else (n, args)

def spawnArgs (r : Request) (junk : Junk) : LocalArray (Option CString) :=
  let n := (debugger r.flags).length
  let args := (LocalArray.fresh 256 junk.args).setFrom 0 ((debugger r.flags).map some)
  let (n, args) := argsLoop (r.argv.drop r.script) n (args.set n (some r.exepath))
  args.set (n + 1) none

/-- The text and its NUL, stored from the start of the array. -/
def sprintf (a : LocalArray UInt8) (s : CString) : LocalArray UInt8 := a.setFrom 0 (s.1 ++ [0])

/-- A copy of what is in front of the first NUL. -/
def strdup (a : LocalArray UInt8) : CString :=
  ⟨a.toList.takeWhile (· ≠ 0), fun h => by simpa using List.mem_takeWhile_imp h⟩

def envLoop : List CString → ℕ → LocalArray (Option CString) → ℕ × LocalArray (Option CString)
  | [], n, env => (n, env)
  | entry :: environ, n, env => envLoop environ (n + 1) (env.set n (some entry))

def workerIdText (r : Request) : CString := (CString.text "LEV_WORKER_ID=").append r.uuid

def ipcFilenameText (r : Request) : CString := (CString.text "LEV_IPC_FILENAME=").append r.pipeFn

def spawnEnv (r : Request) (junk : Junk) : LocalArray UInt8 × LocalArray (Option CString) :=
  let temp := sprintf (.fresh 1024 junk.temp) (workerIdText r)
  let env := (LocalArray.fresh (2 + r.environ.length + 1) junk.env).set 0 (some (strdup temp))
  let temp := sprintf temp (ipcFilenameText r)
  let (n, env) := envLoop r.environ 2 (env.set 1 (some (strdup temp)))
  (temp, env.set n none)

/-- With gdb the descriptor of the input goes to the second container. -/
def spawnStdio (r : Request) (junk : Junk) : LocalArray StdioContainer :=
  let stdio := LocalArray.fresh 3 junk.stdio
  let stdio := if hasFlag r.flags flagsGdb then
      let stdio := stdio.set 0 { stdio.cells 0 with flags := .inheritFd }
      stdio.set 1 { stdio.cells 1 with fd := 0 }
    else stdio.set 0 { stdio.cells 0 with flags := .ignore }
  let stdio := stdio.set 1 ⟨.inheritFd, 1⟩
  stdio.set 2 ⟨.inheritFd, 2⟩

/-- `spawn_helper`, up to `uv_spawn`. -/
def spawnHelper (r : Request) (junk : Junk) : Options :=
  let (temp, env) := spawnEnv r junk
  { file := (debugger r.flags).headD r.exepath
    args := spawnArgs r junk
    envTemp := temp
    env := env
    stdio := spawnStdio r junk }

section collectargs

theorem collectargsLoop_lt {i : ℕ} (hi : 0 < i) (args : List CString) (flags : ℕ) :
    (collectargsLoop i args flags).1 < i + args.length := by
  fun_induction collectargsLoop i args flags
  case case4 i arg rest flags _ _ _ =>
    have hrest : rest ≠ [] → 0 < rest.length := List.length_pos_iff.mpr
    rw [List.length_cons]
    split
    · omega
    · next hne =>
      have := hrest hne
      omega
  -- the other ways to return, and the ways to go on
  all_goals
    simp only [List.length_cons, List.length_nil] at *
    omega

theorem collectargs_lt {argv : List CString} (hpos : 0 < (collectargs argv).1) :
    (collectargs argv).1.toNat < argv.length := by
  have hlt : (collectargs argv).1 < (1 : ℕ) + argv.tail.length :=
    collectargsLoop_lt Nat.one_pos argv.tail 0
  rw [List.length_tail] at hlt
  omega

/-- What `pmain` calls `spawn_helper` with for each of its workers, if it finds a script. -/
def pmainRequest (argv environ : List CString) (pipeFn uuid exepath : CString)
    (h : uuid.1.length < 64) : Option Request :=
  if hpos : 0 < (collectargs argv).1 then
    some { pipeFn, uuid, argv, exepath, environ
           script := (collectargs argv).1.toNat
           flags := (collectargs argv).2
           script_le := (collectargs_lt hpos).le
           uuid_lt := h }
  else none

end collectargs

/-- The debugger, if any, the executable, the script and its arguments. -/
def commandLine (r : Request) : List CString :=
  debugger r.flags ++ r.exepath :: r.argv.drop r.script

def workerEnviron (r : Request) : List CString :=
  workerIdText r :: ipcFilenameText r :: r.environ

/-- The strings are in the array, and behind the last one is a NULL. -/
def Holds (a : LocalArray (Option CString)) (v : List CString) : Prop :=
  ∀ i ≤ v.length, a.cells i = v[i]?

/-- No store leaves an array, and the two vectors are what they should be. -/
structure Faithful (r : Request) (o : Options) : Prop where
  args_size : o.args.size = 256
  args_inBounds : o.args.InBounds
  args : Holds o.args (commandLine r)
  temp_inBounds : o.envTemp.InBounds
  env_size : o.env.size = 2 + r.environ.length + 1
  env_inBounds : o.env.InBounds
  env : Holds o.env (workerEnviron r)

section arrays
variable {r : Request} {junk : Junk}

theorem holds_fill {size : ℕ} {junk : ℕ → Option CString} (v : List CString) :
    Holds ((LocalArray.fresh size junk).setFrom 0 (v.map some ++ [none])) v := by
  intro i hi
  have hlength : i < (v.map some ++ [none]).length := by
    rw [List.length_append, List.length_map, List.length_singleton]
    omega
  have hcell := LocalArray.cells_setFrom (.fresh size junk) 0 _ hlength
  rw [Nat.zero_add] at hcell
  rw [hcell, List.getElem_append]
  split
  · next hlt =>
    rw [List.length_map] at hlt
    rw [List.getElem_map, List.getElem?_eq_getElem hlt]
  · next hge =>
    rw [List.length_map] at hge
    rw [List.getElem_singleton, List.getElem?_eq_none (by omega)]

theorem argsLoop_eq (rest : List CString) (n : ℕ) (args : LocalArray (Option CString)) :
    argsLoop rest n args = (n + (rest.take (256 - n)).length,
      args.setFrom (n + 1) ((rest.take (256 - n)).map some)) := by
  induction rest generalizing n args with
  | nil => rw [List.take_nil]; rfl
  | cons arg rest ih =>
    rw [argsLoop]
    split
    · next hlt =>
      obtain ⟨k, hk⟩ : ∃ k, 256 - n = k + 1 := ⟨255 - n, by omega⟩
      rw [ih, hk, show 256 - (n + 1) = k by omega, List.take_succ_cons, List.length_cons,
        Nat.add_right_comm, Nat.add_assoc n]
      rfl
    · next hge =>
      rw [show 256 - n = 0 by omega]
      rfl

theorem envLoop_eq (environ : List CString) (n : ℕ) (env : LocalArray (Option CString)) :
    envLoop environ n env = (n + environ.length, env.setFrom n (environ.map some)) := by
  induction environ generalizing n env with
  | nil => rfl
  | cons entry environ ih =>
    rw [envLoop, ih, List.length_cons, Nat.add_right_comm, Nat.add_assoc n]
    rfl

/-- The pointers that are stored: no more arguments than up to index 256. -/
def storedArgs (r : Request) : List CString :=
  debugger r.flags ++ r.exepath ::
    (r.argv.drop r.script).take (256 - (debugger r.flags).length)

theorem spawnArgs_eq (r : Request) (junk : Junk) :
    spawnArgs r junk =
      (LocalArray.fresh 256 junk.args).setFrom 0 ((storedArgs r).map some ++ [none]) := by
  rw [spawnArgs, argsLoop_eq, storedArgs]
  simp only [List.map_append, List.map_cons, LocalArray.setFrom_append, LocalArray.setFrom,
    List.length_map, List.length_append, List.length_cons, Nat.zero_add]
  rfl

theorem strdup_sprintf {a : LocalArray UInt8} {s : CString} (hlt : s.1.length < a.size) :
    strdup (sprintf a s) = s := by
  have hle : (s.1 ++ [0]).length ≤ a.size := by
    rw [List.length_append, List.length_singleton]
    omega
  obtain ⟨rest, hrest⟩ := LocalArray.toList_fill a hle
  refine Subtype.ext ?_
  change ((a.setFrom 0 (s.1 ++ [0])).toList.takeWhile (· ≠ 0)) = s.1
  have hall : ∀ c ∈ s.1, decide (c ≠ 0) = true := fun c hc =>
    decide_eq_true fun hzero => s.2 (hzero ▸ hc)
  rw [hrest, List.append_assoc, List.takeWhile_append_of_pos hall]
  exact List.append_nil _

theorem spawnEnv_eq (r : Request) (junk : Junk) :
    (spawnEnv r junk).2 = (LocalArray.fresh (2 + r.environ.length + 1) junk.env).setFrom 0
      ((strdup (sprintf (.fresh 1024 junk.temp) (workerIdText r)) ::
        strdup (spawnEnv r junk).1 :: r.environ).map some ++ [none]) := by
  rw [spawnEnv, envLoop_eq]
  simp only [List.map_cons, LocalArray.setFrom_append, LocalArray.setFrom, List.length_map,
    List.length_cons, Nat.zero_add, Nat.add_comm 2 r.environ.length]

theorem spawnEnv_temp (r : Request) (junk : Junk) : (spawnEnv r junk).1 =
    sprintf (sprintf (.fresh 1024 junk.temp) (workerIdText r)) (ipcFilenameText r) := by
  rw [spawnEnv, envLoop_eq]

/-- The arguments, the debugger's included, and the NULL have their 256 places. -/
def ArgsFit (r : Request) : Prop :=
  (debugger r.flags).length + (r.argv.length - r.script) ≤ 254

/-- The text with the name of the pipe has its 1024 bytes. -/
def PipeFits (r : Request) : Prop := r.pipeFn.1.length ≤ 1006

theorem spawnArgs_inBounds : (spawnArgs r junk).InBounds ↔ ArgsFit r := by
  rw [spawnArgs_eq, LocalArray.inBounds_fill, storedArgs, ArgsFit, List.length_append,
    List.length_map, List.length_append, List.length_cons, List.length_take, List.length_drop,
    List.length_singleton]
  omega

theorem storedArgs_eq (hfit : ArgsFit r) : storedArgs r = commandLine r := by
  rw [ArgsFit] at hfit
  rw [storedArgs, commandLine, List.take_of_length_le]
  rw [List.length_drop]
  omega

theorem workerIdText_length_lt (r : Request) : (workerIdText r).1.length < 1023 := by
  have huuid := r.uuid_lt
  have hname : (ascii "LEV_WORKER_ID=").length = 14 := by decide
  rw [workerIdText, CString.append, CString.text, List.length_append, hname]
  omega

theorem ipcFilenameText_length (r : Request) :
    (ipcFilenameText r).1.length = 17 + r.pipeFn.1.length := by
  have hname : (ascii "LEV_IPC_FILENAME=").length = 17 := by decide
  rw [ipcFilenameText, CString.append, CString.text, List.length_append, hname]

theorem spawnEnv_temp_inBounds : (spawnEnv r junk).1.InBounds ↔ PipeFits r := by
  have hid := workerIdText_length_lt r
  rw [spawnEnv_temp, sprintf, sprintf, LocalArray.inBounds_setFrom, LocalArray.inBounds_fill,
    LocalArray.size_setFrom, LocalArray.size_fresh, List.length_append, List.length_append,
    List.length_singleton]
  have hipc := ipcFilenameText_length r
  rw [PipeFits]
  omega

theorem spawnEnv_inBounds : (spawnEnv r junk).2.InBounds := by
  rw [spawnEnv_eq, LocalArray.inBounds_fill, List.length_append, List.length_map,
    List.length_cons, List.length_cons, List.length_singleton]
  omega

theorem spawnEnv_holds (hfit : PipeFits r) : Holds (spawnEnv r junk).2 (workerEnviron r) := by
  have hid : strdup (sprintf (.fresh 1024 junk.temp) (workerIdText r)) = workerIdText r :=
    strdup_sprintf ((workerIdText_length_lt r).trans (Nat.lt_succ_self 1023))
  have hipc : strdup (spawnEnv r junk).1 = ipcFilenameText r := by
    rw [spawnEnv_temp]
    refine strdup_sprintf ?_
    rw [PipeFits] at hfit
    rw [ipcFilenameText_length, sprintf, LocalArray.size_setFrom, LocalArray.size_fresh]
    omega
  rw [spawnEnv_eq, hid, hipc]
  exact holds_fill _

end arrays

/-- The vectors are right, and made within their arrays, exactly when the arguments fit; the name
of the pipe has to fit too. -/
theorem spawnHelper_faithful_iff (r : Request) (junk : Junk) :
    Faithful r (spawnHelper r junk) ↔ ArgsFit r ∧ PipeFits r := by
  constructor
  · intro h
    exact ⟨spawnArgs_inBounds.mp h.args_inBounds, spawnEnv_temp_inBounds.mp h.temp_inBounds⟩
  · rintro ⟨hargs, hpipe⟩
    have hholds : Holds (spawnArgs r junk) (commandLine r) := by
      rw [spawnArgs_eq, storedArgs_eq hargs]
      exact holds_fill _
    have hsize : (spawnArgs r junk).size = 256 := by
      rw [spawnArgs_eq, LocalArray.size_setFrom, LocalArray.size_fresh]
    have henv : (spawnEnv r junk).2.size = 2 + r.environ.length + 1 := by
      rw [spawnEnv_eq, LocalArray.size_setFrom, LocalArray.size_fresh]
    exact ⟨hsize, spawnArgs_inBounds.mpr hargs, hholds, spawnEnv_temp_inBounds.mpr hpipe, henv,
      spawnEnv_inBounds, spawnEnv_holds hpipe⟩

/-- `lev` with a script and its 254 arguments. -/
def manyArguments : Request where
  pipeFn := .text "/tmp/lev_a"
  uuid := .text "1"
  argv := .text "lev" :: List.replicate 255 (.text "a")
  script := 1
  flags := 0
  exepath := .text "/usr/bin/lev"
  environ := []
  script_le := Nat.le_add_left 1 _
  uuid_lt := by decide

example : pmainRequest manyArguments.argv [] (.text "/tmp/lev_a") (.text "1") (.text "/usr/bin/lev")
    (by decide) = some manyArguments := rfl

def zeroed : Junk := ⟨fun _ => none, fun _ => 0, fun _ => none, fun _ => ⟨.ignore, 0⟩⟩

/-- The NULL goes behind the array. -/
theorem manyArguments_outOfBounds :
    ¬ Faithful manyArguments (spawnHelper manyArguments zeroed) := by
  intro h
  have hfit : ArgsFit manyArguments := spawnArgs_inBounds.mp h.args_inBounds
  have hlength : manyArguments.argv.length = 256 :=
    congrArg (· + 1) (List.length_replicate)
  rw [ArgsFit, hlength] at hfit
  exact absurd hfit (by decide)

end Lev.Spawn
