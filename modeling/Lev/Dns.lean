import Lev.Handle
import Lev.LuaPattern
import Lev.SockAddr

/-! The requests of lev_new_dns.c. Setting the callback of a request takes the one reference to its
holder, and the callbacks of c-ares and libuv give it up when they have called it. -/
namespace Lev.Dns
open Handle Lua

/-- An argument as the checks of the library see it: a number with its text, and a number or a
numeral with the `int` it stands for. -/
inductive Arg
  | nil
  | number (text : Bytes) (int : ℤ)
  | string (s : Bytes) (int : Option ℤ)
  | function (f : ℕ)
  | holder
  | other
  deriving DecidableEq, Repr

inductive Value
  | nil
  | string (s : Bytes)
  | number (z : ℤ)
  | array (vs : List Value)
  | record (fields : List (String × Value))
  deriving Repr

inductive Failure
  | badArgument (narg : ℕ)
  | error (message : Bytes)
  deriving DecidableEq, Repr

/-- `dns_req_holder_t` and the callback in its environment. The counts of the calls of
`lev_handle_ref` and `lev_handle_unref` are ours. -/
structure Holder where
  lev : LevRefStruct
  cb : ℕ
  refs : ℕ
  unrefs : ℕ
  deriving DecidableEq, Repr

namespace Holder

variable (holder : Holder)

def ref : Holder := { holder with lev := levHandleRef holder.lev, refs := holder.refs + 1 }

def unref : Option Holder :=
  (levHandleUnref holder.lev).map fun lev => { holder with lev := lev, unrefs := holder.unrefs + 1 }

/-- The one reference has been given up, by one call, and the object can be collected. -/
def Balanced : Prop := holder.refs = 1 ∧ holder.unrefs = 1 ∧ Released holder.lev

instance : Decidable holder.Balanced := inferInstanceAs (Decidable (_ ∧ _ ∧ _))

end Holder

section library

def aresErrnames : List String :=
  ["SUCCESS", "ENODATA", "EFORMERR", "ESERVFAIL", "ENOTFOUND", "ENOTIMP", "EREFUSED", "EBADQUERY",
    "EBADNAME", "EBADFAMILY", "EBADRESP", "ECONNREFUSED", "ETIMEOUT", "EOF", "EFILE", "ENOMEM",
    "EDESTRUCTION", "EBADSTR", "EBADFLAGS", "ENONAME", "EBADHINTS", "ENOTINITIALIZED",
    "ELOADIPHLPAPI", "EADDRGETNETWORKPARAMS", "ECANCELLED"]

/-- `lev_ares_errname`; the codes of c-ares count from 0. -/
def levAresErrname (errcode : ℤ) : Bytes :=
  if errcode < 0 then ascii "UNKNOWN" else ascii (aresErrnames.getD errcode.toNat "UNKNOWN")

inductive Family
  | unspec | inet | inet6 | other
  deriving DecidableEq, Repr

/-- The addresses are as `inet_ntop` prints them. -/
structure Hostent where
  hName : Bytes
  hAliases : List Bytes
  hAddrList : List Bytes

structure MxReply where
  host : Bytes
  priority : ℤ

structure SrvReply where
  host : Bytes
  port : ℤ
  priority : ℤ
  weight : ℤ

/-- An entry of `getaddrinfo`, with its address as `inet_ntop` prints it. -/
structure Addrinfo where
  family : Family
  stream : Bool
  ip : Option Bytes

/-- What `getaddrinfo` finds if it is asked for stream sockets: such sockets, of which one has an
internet address. -/
structure Addrinfos where
  entries : List Addrinfo
  streams : ∀ address ∈ entries, address.stream = true
  usable : ∃ address ∈ entries,
    (address.family = .inet ∨ address.family = .inet6) ∧ address.ip.isSome = true

/-- What a library hands out with a status: there is something only if it is 0. -/
structure Delivery (α : Type) where
  status : ℤ
  data : status = 0 → α

def Delivery.args {α : Type} (d : Delivery α) (errname : ℤ → Bytes) (success : α → List Value) :
    List Value :=
  if h : d.status = 0 then success (d.data h) else [.string (errname d.status)]

/-- The libraries and the system as one request meets them. Replies to queries are parsed before
anything is found in them. -/
structure System where
  inetPton : Family → Bytes → Bool
  uvGetaddrinfo : Bytes → Family → ℤ
  uvLastErrname : Bytes
  uvErrname : ℤ → Bytes
  addrinfo : Delivery Addrinfos
  host : Delivery Hostent
  mx : Delivery (Delivery (List MxReply))
  txt : Delivery (Delivery (List Bytes))
  ns : Delivery (Delivery Hostent)
  srv : Delivery (Delivery (List SrvReply))
  cname : Delivery (Delivery Hostent)

end library

section callbacks
variable (sys : System)

def strings (l : List Bytes) : Value := .array (l.map .string)

def pushHostAliases (host : Hostent) : Value := strings host.hAliases

/-- What the callbacks for hosts share. -/
def hostArgs (d : Delivery Hostent) (found : Hostent → Value) : Option (List Value) :=
  some (d.args levAresErrname fun host => [.nil, found host])

/-- What the callbacks for queries share. -/
def queryArgs {α : Type} (d : Delivery (Delivery α)) (found : α → Value) : Option (List Value) :=
  some (d.args levAresErrname fun reply => reply.args levAresErrname fun a => [.nil, found a])

def onResolve4 : Option (List Value) := hostArgs sys.host fun host => strings host.hAddrList

def onResolve6 : Option (List Value) := hostArgs sys.host fun host => strings host.hAddrList

def onReverse : Option (List Value) := hostArgs sys.host pushHostAliases

def onResolveMx : Option (List Value) :=
  queryArgs sys.mx fun replies => .array (replies.map fun mx =>
    .record [("exchange", .string mx.host), ("priority", .number mx.priority)])

def onResolveTxt : Option (List Value) := queryArgs sys.txt strings

def onResolveNs : Option (List Value) := queryArgs sys.ns pushHostAliases

def onResolveSrv : Option (List Value) :=
  queryArgs sys.srv fun replies => .array (replies.map fun srv =>
    .record [("name", .string srv.host), ("port", .number srv.port),
      ("priority", .number srv.priority), ("weight", .number srv.weight)])

def onResolveCname : Option (List Value) := queryArgs sys.cname fun host => strings [host.hName]

/-- The loop for the first address of a family; `none` is a failed assertion. -/
def firstAddress (family : Family) : List Addrinfo → Option (Option Bytes)
  | [] => some none
  | address :: res =>
    if !address.stream then none
    else if address.family ≠ family then firstAddress family res
    else match address.ip with
      | none => firstAddress family res
      | some ip => some (some ip)

def lookupAddress (res : List Addrinfo) : Option (Bytes × ℤ) := do
  match ← firstAddress .inet res with
  | some ip => some (ip, 4)
  | none =>
    match ← firstAddress .inet6 res with
    | some ip => some (ip, 6)
    | none => none

/-- `none` is a failed assertion. -/
def onLookupFamily : Option (List Value) :=
  if h : sys.addrinfo.status = 0 then
    (lookupAddress (sys.addrinfo.data h).entries).map fun (ip, family) =>
      [.nil, .string ip, .number family]
  else some [.string (sys.uvErrname sys.addrinfo.status)]

end callbacks

/-- What is asked of c-ares and libuv. -/
inductive Request
  | gethostbyname (domain : Bytes) (family : Family)
  | gethostbyaddr (ip : Bytes) (family : Family)
  | getaddrinfo (domain : Bytes) (family : Family)
  | query (domain : Bytes) (type : String)
  deriving DecidableEq, Repr

/-- How a function leaves: with nil and a request whose callback is to come, with the name of an
error, or with an error of Lua, before which there may be a holder. -/
inductive Exit
  | pending (holder : Holder) (request : Request) (callback : System → Option (List Value))
  | failed (holder : Holder) (errname : Bytes)
  | raised (failure : Failure) (holder : Option Holder)

section functions
variable (sys : System) (inCoroutine : Bool)

/-- `luaL_checkstring` -/
def checkstring (args : List Arg) (narg : ℕ) : Option Bytes :=
  match args[narg - 1]? with
  | some (.string s _) => some s
  | some (.number text _) => some text
  | _ => none

/-- `luaL_optint` -/
def optint (args : List Arg) (narg : ℕ) (d : ℤ) : Option ℤ :=
  match args[narg - 1]? with
  | none | some .nil => some d
  | some (.number _ int) => some int
  | some (.string _ int) => int
  | _ => none

def callbackAt (args : List Arg) (index : ℕ) : Option ℕ :=
  match args[index - 1]? with
  | some (.function f) => some f
  | _ => none

/-- `DNSR__SET_CB`. The holder goes below the arguments, and `set_callback` looks for a function
before there is a reference. -/
def setCb (args : List Arg) (index : ℕ) (k : Holder → Exit) : Exit :=
  let holder : Holder := ⟨createObjInitRef inCoroutine, 0, 0, 0⟩
  match callbackAt (.holder :: args) (index + 1) with
  | none => .raised (.badArgument (index + 1)) (some holder)
  | some f => k ({ holder with cb := f }.ref)

/-- The body of the functions whose only argument beside the callback is a string. -/
def withString (args : List Arg) (k : Bytes → Holder → Exit) : Exit :=
  match checkstring args 1 with
  | none => .raised (.badArgument 1) none
  | some s => setCb inCoroutine args 2 (k s)

def dnsResolve4 (args : List Arg) : Exit :=
  withString inCoroutine args fun domain holder =>
    .pending holder (.gethostbyname domain .inet) onResolve4

def dnsResolve6 (args : List Arg) : Exit :=
  withString inCoroutine args fun domain holder =>
    .pending holder (.gethostbyname domain .inet6) onResolve6

/-- `DNSR__RESOLVE_HELPER` -/
def resolveHelper (type : String) (callback : System → Option (List Value)) (args : List Arg) :
    Exit :=
  withString inCoroutine args fun domain holder => .pending holder (.query domain type) callback

def dnsResolveMx (args : List Arg) : Exit := resolveHelper inCoroutine "ns_t_mx" onResolveMx args

def dnsResolveTxt (args : List Arg) : Exit :=
  resolveHelper inCoroutine "ns_t_txt" onResolveTxt args

def dnsResolveNs (args : List Arg) : Exit := resolveHelper inCoroutine "ns_t_ns" onResolveNs args

def dnsResolveSrv (args : List Arg) : Exit :=
  resolveHelper inCoroutine "ns_t_srv" onResolveSrv args

def dnsResolveCname (args : List Arg) : Exit :=
  resolveHelper inCoroutine "ns_t_cname" onResolveCname args

def dnsReverse (args : List Arg) : Exit :=
  withString inCoroutine args fun ip holder =>
    if sys.inetPton .inet ip then .pending holder (.gethostbyaddr ip .inet) onReverse
    else if sys.inetPton .inet6 ip then .pending holder (.gethostbyaddr ip .inet6) onReverse
    else .failed holder (ascii "ENOTIMP")

def familyOf : ℤ → Option Family
  | 0 => some .unspec
  | 4 => some .inet
  | 6 => some .inet6
  | _ => none

def dnsLookupFamily (args : List Arg) : Exit :=
  match checkstring args 1 with
  | none => .raised (.badArgument 1) none
  | some domain =>
    match optint args 2 0 with
    | none => .raised (.badArgument 2) none
    | some familyArg =>
      match familyOf familyArg with
      | none =>
        .raised (.error (ascii "lookupFamily: invalid family=" ++ SockAddr.formatInt familyArg))
          none
      | some family =>
        setCb inCoroutine args 3 fun holder =>
          if sys.uvGetaddrinfo domain family ≠ 0 then .failed holder sys.uvLastErrname
          else .pending holder (.getaddrinfo domain family) onLookupFamily

/-- The nil that `dns_lookup` puts below the last argument. -/
def lookupArgs (args : List Arg) : List Arg := args.insertIdx (args.length - 1) .nil

def dnsLookup (args : List Arg) : Exit := dnsLookupFamily sys inCoroutine (lookupArgs args)

/-- A string as `strcmp` sees it. -/
def cString (s : Bytes) : Bytes := s.takeWhile fun c => c != 0

def rrtypeOf (args : List Arg) : Bytes :=
  match checkstring args 2 with
  | some s => cString s
  | none => ascii "A"

def dnsResolve (args : List Arg) : Exit :=
  let rrtype := rrtypeOf args
  let args := args.eraseIdx 1
  if rrtype = ascii "A" then dnsResolve4 inCoroutine args
  else if rrtype = ascii "AAAA" then dnsResolve6 inCoroutine args
  else if rrtype = ascii "MX" then dnsResolveMx inCoroutine args
  else if rrtype = ascii "TXT" then dnsResolveTxt inCoroutine args
  else if rrtype = ascii "SRV" then dnsResolveSrv inCoroutine args
  else if rrtype = ascii "PTR" then dnsReverse sys inCoroutine args
  else if rrtype = ascii "NS" then dnsResolveNs inCoroutine args
  else if rrtype = ascii "CNAME" then dnsResolveCname inCoroutine args
  else .raised (.error (ascii "dns.resolve: invalid rrtype=" ++ rrtype)) none

end functions

/-- The functions of `lev.dns`. -/
inductive Function
  | lookup | lookupFamily | resolve | resolve4 | resolve6 | resolveCname | resolveMx | resolveNs
  | resolveSrv | resolveTxt | reverse
  deriving DecidableEq, Repr

def Function.call (sys : System) (inCoroutine : Bool) (args : List Arg) : Function → Exit
  | lookup => dnsLookup sys inCoroutine args
  | lookupFamily => dnsLookupFamily sys inCoroutine args
  | resolve => dnsResolve sys inCoroutine args
  | resolve4 => dnsResolve4 inCoroutine args
  | resolve6 => dnsResolve6 inCoroutine args
  | resolveCname => dnsResolveCname inCoroutine args
  | resolveMx => dnsResolveMx inCoroutine args
  | resolveNs => dnsResolveNs inCoroutine args
  | resolveSrv => dnsResolveSrv inCoroutine args
  | resolveTxt => dnsResolveTxt inCoroutine args
  | reverse => dnsReverse sys inCoroutine args

/-- What is left of a request: the call of its callback, a failure of the function, or neither
where an assertion fails. -/
inductive Ending
  | answered (holder : Holder) (args : List Value)
  | failed (holder : Holder) (errname : Bytes)
  | raised (failure : Failure) (holder : Option Holder)
  | aborted

/-- The end of every callback: `lua_call` and `DNSR__DISPOSE`. -/
def runCallback (holder : Holder) (args : Option (List Value)) : Ending :=
  match args, holder.unref with
  | some args, some holder => .answered holder args
  | _, _ => .aborted

/-- The callback of a request runs once, whether in the call or after it. -/
def Exit.ending (sys : System) : Exit → Ending
  | .pending holder _ callback => runCallback holder (callback sys)
  | .failed holder errname => .failed holder errname
  | .raised failure holder => .raised failure holder

/-- A call of a function, and the callback of its request if it makes one. -/
def run (sys : System) (inCoroutine : Bool) (f : Function) (args : List Arg) : Ending :=
  (f.call sys inCoroutine args).ending sys

/-- Where an error of Lua came first no reference was taken; else one was, and it is balanced. -/
def Ending.Balanced : Ending → Prop
  | .answered holder _ | .failed holder _ => holder.Balanced
  | .raised _ holder => ∀ h ∈ holder, h.refs = 0 ∧ h.unrefs = 0 ∧ h.lev.refCount = 0
  | .aborted => False

/-- The address of a request that passed its checks is neither of IPv4 nor of IPv6. -/
def ReverseRefused (sys : System) (args : List Arg) : Prop :=
  ∃ ip f, checkstring args 1 = some ip ∧ callbackAt args 2 = some f ∧
    sys.inetPton .inet ip = false ∧ sys.inetPton .inet6 ip = false

/-- `uv_getaddrinfo` does not start a request that passed its checks. -/
def LookupRefused (sys : System) (args : List Arg) : Prop :=
  ∃ domain familyArg family f, checkstring args 1 = some domain ∧ optint args 2 0 = some familyArg ∧
    familyOf familyArg = some family ∧ callbackAt args 3 = some f ∧
    sys.uvGetaddrinfo domain family ≠ 0

/-- The call fails after its callback has been set. -/
def Refused (sys : System) (args : List Arg) : Function → Prop
  | .lookup => LookupRefused sys (lookupArgs args)
  | .lookupFamily => LookupRefused sys args
  | .reverse => ReverseRefused sys args
  | .resolve => rrtypeOf args = ascii "PTR" ∧ ReverseRefused sys (args.eraseIdx 1)
  | _ => False

section callbacks

theorem firstAddress_of_streams (family : Family) {res : List Addrinfo}
    (h : ∀ address ∈ res, address.stream = true) :
    ∃ ip, firstAddress family res = some ip ∧
      (ip = none → ∀ address ∈ res, address.family = family → address.ip = none) := by
  induction res with
  | nil => exact ⟨none, rfl, fun _ address ha => absurd ha List.not_mem_nil⟩
  | cons address res ih =>
    obtain ⟨ip, hip, hnone⟩ := ih fun a ha => h a (List.mem_cons_of_mem _ ha)
    have hstream : address.stream = true := h address List.mem_cons_self
    rw [firstAddress, hstream]
    by_cases hfamily : address.family = family
    · cases haddr : address.ip with
      | none =>
        refine ⟨ip, by simp [hfamily, hip], fun hn a ha => ?_⟩
        rcases List.mem_cons.mp ha with rfl | ha
        · exact fun _ => haddr
        · exact hnone hn a ha
      | some text => exact ⟨some text, by simp [hfamily], fun hn => nomatch hn⟩
    · refine ⟨ip, by simp [hfamily, hip], fun hn a ha => ?_⟩
      rcases List.mem_cons.mp ha with rfl | ha
      · exact fun hf => absurd hf hfamily
      · exact hnone hn a ha

/-- The assertions of `on_lookup_family` hold of all that `getaddrinfo` finds. -/
theorem lookupAddress_isSome (res : Addrinfos) : (lookupAddress res.entries).isSome = true := by
  obtain ⟨ip4, h4, hnone4⟩ := firstAddress_of_streams .inet res.streams
  obtain ⟨ip6, h6, hnone6⟩ := firstAddress_of_streams .inet6 res.streams
  rw [lookupAddress, h4]
  cases ip4 with
  | some ip => rfl
  | none =>
    cases ip6 with
    | some ip => simp [h6]
    | none =>
      obtain ⟨address, ha, hfamily, hip⟩ := res.usable
      have habsent : address.ip = none := by
        rcases hfamily with hf | hf
        · exact hnone4 rfl address ha hf
        · exact hnone6 rfl address ha hf
      rw [habsent] at hip
      cases hip

theorem onLookupFamily_isSome (sys : System) : (onLookupFamily sys).isSome = true := by
  rw [onLookupFamily]
  split
  · rw [Option.isSome_map]
    exact lookupAddress_isSome _
  · rfl

end callbacks

section functions
variable {sys : System} {inCoroutine : Bool} {args : List Arg}

/-- The holder of a request on its way. -/
def held (inCoroutine : Bool) (f : ℕ) : Holder := ⟨⟨1, true, inCoroutine⟩, f, 1, 0⟩

theorem balanced_pending {f : ℕ} {request : Request} {callback : System → Option (List Value)}
    (h : (callback sys).isSome = true) :
    ((Exit.pending (held inCoroutine f) request callback).ending sys).Balanced := by
  obtain ⟨vs, hvs⟩ := Option.isSome_iff_exists.mp h
  rw [Exit.ending, hvs]
  exact ⟨rfl, rfl, rfl, rfl, rfl⟩

theorem not_balanced_failed {f : ℕ} {errname : Bytes} :
    ¬ ((Exit.failed (held inCoroutine f) errname).ending sys).Balanced :=
  fun h => nomatch h.2.1

theorem callbackAt_holder (index : ℕ) :
    callbackAt (.holder :: args) (index + 1 + 1) = callbackAt args (index + 1) := by
  rw [callbackAt, callbackAt, Nat.add_sub_cancel, Nat.add_sub_cancel, List.getElem?_cons_succ]

theorem setCb_balanced_iff {index : ℕ} {k : Holder → Exit} :
    ((setCb inCoroutine args (index + 1) k).ending sys).Balanced ↔
      ∀ f, callbackAt args (index + 1) = some f →
        ((k (held inCoroutine f)).ending sys).Balanced := by
  rw [setCb, callbackAt_holder]
  cases callbackAt args (index + 1) with
  | none =>
    refine ⟨fun _ f hf => (nomatch hf), fun _ holder hholder => ?_⟩
    cases hholder
    exact ⟨rfl, rfl, rfl⟩
  | some f =>
    refine ⟨fun h g hg => ?_, fun h => h f rfl⟩
    cases hg
    exact h

theorem withString_balanced_iff {k : Bytes → Holder → Exit} :
    ((withString inCoroutine args k).ending sys).Balanced ↔
      ∀ s f, checkstring args 1 = some s → callbackAt args 2 = some f →
        ((k s (held inCoroutine f)).ending sys).Balanced := by
  rw [withString]
  cases checkstring args 1 with
  | none => exact ⟨fun _ s f hs => (nomatch hs), fun _ holder hholder => (nomatch hholder)⟩
  | some s =>
    show ((setCb inCoroutine args 2 (k s)).ending sys).Balanced ↔ _
    rw [setCb_balanced_iff]
    refine ⟨fun h t f ht => ?_, fun h f => h s f rfl⟩
    cases ht
    exact h f

theorem withString_balanced {request : Bytes → Request}
    {callback : System → Option (List Value)} (h : (callback sys).isSome = true) :
    ((withString inCoroutine args fun s holder =>
      .pending holder (request s) callback).ending sys).Balanced :=
  withString_balanced_iff.mpr fun _ _ _ _ => balanced_pending h

theorem dnsReverse_balanced_iff :
    ((dnsReverse sys inCoroutine args).ending sys).Balanced ↔ ¬ ReverseRefused sys args := by
  rw [dnsReverse, withString_balanced_iff]
  constructor
  · rintro h ⟨ip, f, hip, hf, h4, h6⟩
    have hend := h ip f hip hf
    rw [if_neg (by simp [h4]), if_neg (by simp [h6])] at hend
    exact not_balanced_failed hend
  · intro h ip f hip hf
    split
    · exact balanced_pending rfl
    · split
      · exact balanced_pending rfl
      · rename_i h4 h6
        exact absurd ⟨ip, f, hip, hf, by simpa using h4, by simpa using h6⟩ h

theorem dnsLookupFamily_balanced_iff :
    ((dnsLookupFamily sys inCoroutine args).ending sys).Balanced ↔ ¬ LookupRefused sys args := by
  rw [dnsLookupFamily]
  cases hdomain : checkstring args 1 with
  | none =>
    refine ⟨fun _ hr => ?_, fun _ holder hholder => (nomatch hholder)⟩
    obtain ⟨_, _, _, _, hd, -⟩ := hr
    rw [hdomain] at hd
    cases hd
  | some domain =>
    cases harg : optint args 2 0 with
    | none =>
      refine ⟨fun _ hr => ?_, fun _ holder hholder => (nomatch hholder)⟩
      obtain ⟨_, _, _, _, -, ha, -⟩ := hr
      rw [harg] at ha
      cases ha
    | some familyArg =>
      cases hfamily : familyOf familyArg with
      | none =>
        simp only [hfamily]
        refine ⟨fun _ hr => ?_, fun _ holder hholder => (nomatch hholder)⟩
        obtain ⟨_, _, _, _, -, ha, hf, -⟩ := hr
        rw [harg] at ha
        cases ha
        rw [hfamily] at hf
        cases hf
      | some family =>
        simp only [hfamily]
        rw [setCb_balanced_iff]
        constructor
        · rintro h ⟨domain', familyArg', family', f, hd, ha, hfam, hf, hr⟩
          rw [hdomain] at hd
          rw [harg] at ha
          cases hd
          cases ha
          rw [hfamily] at hfam
          cases hfam
          have hend := h f hf
          rw [if_pos hr] at hend
          exact not_balanced_failed hend
        · intro h f hf
          split
          · rename_i hr
            exact absurd ⟨domain, familyArg, family, f, hdomain, harg, hfamily, hf, hr⟩ h
          · exact balanced_pending (onLookupFamily_isSome sys)

theorem dnsResolve_balanced_iff :
    ((dnsResolve sys inCoroutine args).ending sys).Balanced ↔
      ¬ (rrtypeOf args = ascii "PTR" ∧ ReverseRefused sys (args.eraseIdx 1)) := by
  by_cases hptr : rrtypeOf args = ascii "PTR"
  · have hcall : dnsResolve sys inCoroutine args =
        dnsReverse sys inCoroutine (args.eraseIdx 1) := by
      rw [dnsResolve, hptr]
      rfl
    rw [hcall, dnsReverse_balanced_iff]
    simp [hptr]
  · refine ⟨fun _ h => hptr h.1, fun _ => ?_⟩
    rw [dnsResolve]
    simp only [if_neg hptr]
    repeat' split
    · exact withString_balanced rfl
    · exact withString_balanced rfl
    · exact withString_balanced rfl
    · exact withString_balanced rfl
    · exact withString_balanced rfl
    · exact withString_balanced rfl
    · exact withString_balanced rfl
    · exact fun holder hholder => (nomatch hholder)

end functions

/-- A request gives its reference back unless the call fails after setting the callback. -/
theorem balanced_iff (sys : System) (inCoroutine : Bool) (f : Function) (args : List Arg) :
    (run sys inCoroutine f args).Balanced ↔ ¬ Refused sys args f := by
  cases f with
  | lookup => exact dnsLookupFamily_balanced_iff
  | lookupFamily => exact dnsLookupFamily_balanced_iff
  | resolve => exact dnsResolve_balanced_iff
  | reverse => exact dnsReverse_balanced_iff
  | resolve4 => exact ⟨fun _ => not_false, fun _ => withString_balanced rfl⟩
  | resolve6 => exact ⟨fun _ => not_false, fun _ => withString_balanced rfl⟩
  | resolveCname => exact ⟨fun _ => not_false, fun _ => withString_balanced rfl⟩
  | resolveMx => exact ⟨fun _ => not_false, fun _ => withString_balanced rfl⟩
  | resolveNs => exact ⟨fun _ => not_false, fun _ => withString_balanced rfl⟩
  | resolveSrv => exact ⟨fun _ => not_false, fun _ => withString_balanced rfl⟩
  | resolveTxt => exact ⟨fun _ => not_false, fun _ => withString_balanced rfl⟩

def failing : System where
  inetPton _ _ := false
  uvGetaddrinfo _ _ := 0
  uvLastErrname := ascii "OK"
  uvErrname _ := ascii "ENOENT"
  addrinfo := ⟨-1, fun h => nomatch h⟩
  host := ⟨4, fun h => nomatch h⟩
  mx := ⟨4, fun h => nomatch h⟩
  txt := ⟨4, fun h => nomatch h⟩
  ns := ⟨4, fun h => nomatch h⟩
  srv := ⟨4, fun h => nomatch h⟩
  cname := ⟨4, fun h => nomatch h⟩

/-- `localhost` is no address: `reverse` says so, and the registry keeps the holder. -/
theorem reverse_name_leaks :
    run failing false .reverse [.string (ascii "localhost") none, .function 1] =
      .failed (held false 1) (ascii "ENOTIMP") ∧
    (held false 1).lev.refCount = 1 ∧ (held false 1).lev.ref = true ∧
    ¬ (run failing false .reverse [.string (ascii "localhost") none, .function 1]).Balanced :=
  ⟨rfl, rfl, rfl, fun h => nomatch h.2.1⟩

/-- The same call for a name that there is no host of. -/
example : run failing false .resolve4 [.string (ascii "localhost") none, .function 1] =
    .answered ⟨⟨0, false, false⟩, 1, 1, 1⟩ [.string (ascii "ENOTFOUND")] := rfl

end Lev.Dns
