import Lev.CInt
import Lev.LuaText

/-! Socket addresses as lev_new_udp.c shows them to Lua: the bytes of a `sockaddr` are plain
chars, and signed. -/
namespace Lev.SockAddr
open CInt Lua

/-- `struct sockaddr` -/
structure Sockaddr where
  family : ℕ
  data : Fin 14 → Int8

/-- `(unsigned)c` of a plain char -/
def asUnsigned (c : Int8) : UInt32 := c.toInt32.toUInt32

/-- `%d` of `lua_pushfstring`, whose argument is read as an `int`. -/
def formatInt (z : ℤ) : List UInt8 :=
  let n := z.natAbs
  (if z < 0 then [45] else []) ++ if n = 0 then [48] else digits n

/-- `%d.%d.%d.%d` -/
def formatAddress (w x y z : ℤ) : List UInt8 :=
  formatInt w ++ [46] ++ formatInt x ++ [46] ++ formatInt y ++ [46] ++ formatInt z

/-- `push_sockaddr` -/
def pushSockaddr (addr : Sockaddr) : List UInt8 × ℤ :=
  let text := formatAddress (toInt (asUnsigned (addr.data 2)).toNat)
    (toInt (asUnsigned (addr.data 3)).toNat) (toInt (asUnsigned (addr.data 4)).toNat)
    (toInt (asUnsigned (addr.data 5)).toNat)
  let port := toInt ((asUnsigned (addr.data 0) <<< 8) ||| asUnsigned (addr.data 1)).toNat
  (text, port)

/-- The IPv4 address a.b.c.d and a port, in network byte order. -/
def inetAddr (a b c d : UInt8) (port : UInt16) : Sockaddr where
  family := 2
  data i := match i with
    | 0 => (UInt8.ofNat (port.toNat / 256)).toInt8
    | 1 => (UInt8.ofNat (port.toNat % 256)).toInt8
    | 2 => a.toInt8
    | 3 => b.toInt8
    | 4 => c.toInt8
    | 5 => d.toInt8
    | _ => 0

def dotted (a b c d : UInt8) : List UInt8 :=
  formatAddress a.toNat b.toNat c.toNat d.toNat

/-- What the functions leave for Lua, errors by their names and the Buffer of a datagram left
out. -/
inductive Pushed
  | nil | error | string (s : List UInt8) | integer (z : ℤ)
  deriving DecidableEq, Repr

/-- The sockets as the system knows them: the addresses they are bound to, and the datagrams on
their way with the addresses they come from and go to. -/
structure Net where
  names : ℕ → Option Sockaddr
  flight : List (Sockaddr × Sockaddr)

section calls
variable (ip4 : List UInt8 → ℤ → Sockaddr) (net : Net) (i : ℕ)

/-- `udp_bind`; `ip4` is `uv_ip4_addr`, and `system` gives the address that the socket is bound
to, which differs from the one asked for if its port is 0, or refuses. -/
def udpBind (host : List UInt8) (port : ℤ) (system : Sockaddr → Option Sockaddr) :
    Net × List Pushed :=
  match system (ip4 host port) with
  | none => (net, [.error])
  | some name => ({ net with names := Function.update net.names i (some name) }, [.nil])

/-- `udp_send`; a socket without an address gets the one the `system` chooses, and `source` is
the address that a datagram carries from a socket with that name to its receiver. -/
def udpSend (host : List UInt8) (port : ℤ) (system : Option Sockaddr)
    (source : Sockaddr → Sockaddr → Sockaddr) : Net × List Pushed :=
  match (net.names i).or system with
  | none => (net, [.error])
  | some name =>
    (⟨Function.update net.names i (some name),
      (source name (ip4 host port), ip4 host port) :: net.flight⟩, [.nil])

def udpGetsockname : List Pushed :=
  match net.names i with
  | none => [.error]
  | some name => [.nil, .string (pushSockaddr name).1, .integer (pushSockaddr name).2]

/-- What `on_recv` gives the callback, if it calls it. -/
def onRecv (datagram : Sockaddr × Sockaddr) (nread : ℤ) : Option (List Pushed) :=
  if nread ≤ 0 then (if nread = -1 then some [.error] else none)
  else some [.nil, .string (pushSockaddr datagram.1).1, .integer (pushSockaddr datagram.1).2,
    .integer nread]

end calls

/-- The address is shown as what it is, by `push_sockaddr`, by `getsockname` of a socket that was
bound to it and to the receivers of what the socket sends, where the system sends that from
the address (which it does not for 0.0.0.0). -/
structure Renders (ip4 : List UInt8 → ℤ → Sockaddr) (a b c d : UInt8) (port : UInt16) : Prop where
  pushed : pushSockaddr (inetAddr a b c d port) = (dotted a b c d, (port.toNat : ℤ))
  sockname : ∀ net i system, system (inetAddr a b c d port) = some (inetAddr a b c d port) →
    udpGetsockname (udpBind ip4 net i (dotted a b c d) port.toNat system).1 i =
      [.nil, .string (dotted a b c d), .integer port.toNat]
  received : ∀ net i system, system (inetAddr a b c d port) = some (inetAddr a b c d port) →
    ∀ host port' implicit source net' datagram nread,
      source (inetAddr a b c d port) (ip4 host port') = inetAddr a b c d port →
      net' = (udpSend ip4 (udpBind ip4 net i (dotted a b c d) port.toNat system).1 i host port'
        implicit source).1 →
      net'.flight.head? = some datagram → 0 < nread →
      onRecv datagram nread =
        some [.nil, .string (dotted a b c d), .integer port.toNat, .integer nread]

section bytes

/-- A byte as it comes out of a plain char: from 128 on its upper bits are set, also when it is
shifted. -/
theorem asUnsigned_byte (b : UInt8) :
    (b < 128 → (asUnsigned b.toInt8).toNat = b.toNat ∧
      (asUnsigned b.toInt8 <<< 8).toNat = b.toNat * 256) ∧
    (128 ≤ b → 2 ^ 31 ≤ (asUnsigned b.toInt8).toNat ∧
      2 ^ 31 ≤ (asUnsigned b.toInt8 <<< 8).toNat) := by
  revert b
  exact forall_byte (by decide +kernel)

theorem toInt_neg {n : ℕ} (hlt : n < 2 ^ 32) : toInt n < 0 ↔ 2 ^ 31 ≤ n := by
  unfold toInt
  split
  · omega
  · omega

theorem toInt_byte_neg (b : UInt8) : toInt (asUnsigned b.toInt8).toNat < 0 ↔ 128 ≤ b := by
  rw [toInt_neg (UInt32.toNat_lt _)]
  obtain ⟨hlow, hhigh⟩ := asUnsigned_byte b
  constructor
  · intro hle
    by_contra hlt
    have hb : b < 128 := UInt8.not_le.mp hlt
    have heq := (hlow hb).1
    have := b.toNat_lt
    omega
  · exact fun hle => (hhigh hle).1

theorem toInt_byte {b : UInt8} (hb : b < 128) : toInt (asUnsigned b.toInt8).toNat = b.toNat := by
  have := b.toNat_lt
  rw [((asUnsigned_byte b).1 hb).1, toInt_of_lt (by omega)]

theorem toInt_port_iff (hi lo : UInt8) :
    toInt ((asUnsigned hi.toInt8 <<< 8) ||| asUnsigned lo.toInt8).toNat =
      (hi.toNat * 256 + lo.toNat : ℕ) ↔ hi < 128 ∧ lo < 128 := by
  obtain ⟨hlow, hhigh⟩ := asUnsigned_byte hi
  obtain ⟨hlow', hhigh'⟩ := asUnsigned_byte lo
  constructor
  · intro heq
    have hge : ¬ 2 ^ 31 ≤ ((asUnsigned hi.toInt8 <<< 8) ||| asUnsigned lo.toInt8).toNat := by
      intro hle
      have hneg := (toInt_neg (UInt32.toNat_lt _)).mpr hle
      omega
    rw [UInt32.toNat_or] at hge
    have hleft := Nat.left_le_or (n := (asUnsigned hi.toInt8 <<< 8).toNat)
      (m := (asUnsigned lo.toInt8).toNat)
    have hright := Nat.right_le_or (n := (asUnsigned hi.toInt8 <<< 8).toNat)
      (m := (asUnsigned lo.toInt8).toNat)
    refine ⟨UInt8.not_le.mp fun hle => hge ?_, UInt8.not_le.mp fun hle => hge ?_⟩
    · exact (hhigh hle).2.trans hleft
    · exact (hhigh' hle).1.trans hright
  · rintro ⟨hhi, hlo⟩
    have hl := lo.toNat_lt
    have hh := hi.toNat_lt
    have hor : hi.toNat * 256 ||| lo.toNat = hi.toNat * 256 + lo.toNat := by
      have h := Nat.shiftLeft_add_eq_or_of_lt (i := 8) hl hi.toNat
      rw [Nat.shiftLeft_eq] at h
      exact h.symm
    rw [UInt32.toNat_or, (hlow hhi).2, (hlow' hlo).1, hor, toInt_of_lt (by omega)]

end bytes

section texts

theorem minus_notMem_digits (n : ℕ) : (45 : UInt8) ∉ digits n := by
  intro h
  obtain ⟨d, hd, heq⟩ := List.mem_map.mp h
  have hlt : d < 10 := Nat.digits_lt_base (by decide) (List.mem_reverse.mp hd)
  have hnat := congrArg UInt8.toNat heq
  rw [UInt8.toNat_ofNat'] at hnat
  have : (45 : UInt8).toNat = 45 := rfl
  omega

theorem minus_mem_formatInt (z : ℤ) : (45 : UInt8) ∈ formatInt z ↔ z < 0 := by
  have hdigits : (45 : UInt8) ∉ (if z.natAbs = 0 then [48] else digits z.natAbs) := by
    split
    · decide
    · exact minus_notMem_digits _
  rw [formatInt]
  split
  · next hneg => exact ⟨fun _ => hneg, fun _ => List.mem_cons_self⟩
  · next hneg => exact ⟨fun h => absurd h hdigits, fun h => absurd h hneg⟩

theorem minus_mem_formatAddress (w x y z : ℤ) :
    (45 : UInt8) ∈ formatAddress w x y z ↔ w < 0 ∨ x < 0 ∨ y < 0 ∨ z < 0 := by
  have hdot : ¬ (45 : UInt8) = 46 := by decide
  simp only [formatAddress, List.mem_append, minus_mem_formatInt, List.mem_singleton, hdot,
    or_false, or_assoc]

theorem minus_notMem_dotted (a b c d : UInt8) : (45 : UInt8) ∉ dotted a b c d := by
  rw [dotted, minus_mem_formatAddress]
  omega

theorem formatAddress_iff (a b c d : UInt8) :
    formatAddress (toInt (asUnsigned a.toInt8).toNat) (toInt (asUnsigned b.toInt8).toNat)
      (toInt (asUnsigned c.toInt8).toNat) (toInt (asUnsigned d.toInt8).toNat) = dotted a b c d ↔
      a < 128 ∧ b < 128 ∧ c < 128 ∧ d < 128 := by
  constructor
  · intro heq
    have hno := minus_notMem_dotted a b c d
    rw [← heq, minus_mem_formatAddress, toInt_byte_neg, toInt_byte_neg, toInt_byte_neg,
      toInt_byte_neg] at hno
    simpa only [not_or, UInt8.not_le] using hno
  · rintro ⟨ha, hb, hc, hd⟩
    rw [toInt_byte ha, toInt_byte hb, toInt_byte hc, toInt_byte hd]
    rfl

end texts

/-- All six bytes are those of ASCII. -/
def Low (a b c d : UInt8) (port : UInt16) : Prop :=
  a < 128 ∧ b < 128 ∧ c < 128 ∧ d < 128 ∧ port.toNat / 256 < 128 ∧ port.toNat % 256 < 128

instance (a b c d : UInt8) (port : UInt16) : Decidable (Low a b c d port) :=
  inferInstanceAs (Decidable (_ ∧ _ ∧ _ ∧ _ ∧ _ ∧ _))

theorem pushSockaddr_iff (a b c d : UInt8) (port : UInt16) :
    pushSockaddr (inetAddr a b c d port) = (dotted a b c d, (port.toNat : ℤ)) ↔
      Low a b c d port := by
  have hport := port.toNat_lt
  have hhi : (UInt8.ofNat (port.toNat / 256)).toNat = port.toNat / 256 := by
    rw [UInt8.toNat_ofNat', Nat.mod_eq_of_lt (by omega)]
  have hlo : (UInt8.ofNat (port.toNat % 256)).toNat = port.toNat % 256 := by
    rw [UInt8.toNat_ofNat', Nat.mod_eq_of_lt (by omega)]
  have hbytes := toInt_port_iff (UInt8.ofNat (port.toNat / 256)) (UInt8.ofNat (port.toNat % 256))
  rw [hhi, hlo, Nat.div_add_mod' port.toNat 256, UInt8.lt_iff_toNat_lt, UInt8.lt_iff_toNat_lt, hhi,
    hlo] at hbytes
  have htext := formatAddress_iff a b c d
  refine (Prod.ext_iff.trans (and_congr htext hbytes)).trans ?_
  rw [Low, and_assoc, and_assoc, and_assoc]
  exact Iff.rfl

/-- Addresses are shown right exactly when no byte of them is 128 or more. -/
theorem renders_iff (ip4 : List UInt8 → ℤ → Sockaddr) (a b c d : UInt8) (port : UInt16)
    (hip4 : ip4 (dotted a b c d) port.toNat = inetAddr a b c d port) :
    Renders ip4 a b c d port ↔ Low a b c d port := by
  rw [← pushSockaddr_iff]
  refine ⟨Renders.pushed, fun hpush => ⟨hpush, fun net i system hsystem => ?_,
    fun net i system hsystem host port' implicit source net' datagram nread hsource hsend hhead
      hn => ?_⟩⟩
  · rw [udpBind, hip4, hsystem, udpGetsockname]
    simp only [Function.update_self, hpush]
  · subst hsend
    rw [udpSend, udpBind, hip4, hsystem] at hhead
    simp only [Function.update_self, Option.some_or, List.head?_cons, hsource,
      Option.some.injEq] at hhead
    subst hhead
    rw [onRecv, if_neg (by omega), hpush]

theorem renders_iff_localhost :
    Renders (fun _ _ => inetAddr 127 0 0 1 10082) 127 0 0 1 10082 :=
  (renders_iff _ 127 0 0 1 10082 rfl).mpr (by decide)

/-- A private address is not: the callback sees -64.-88.1.1. -/
theorem privateAddress_not_rendered :
    ¬ Renders (fun _ _ => inetAddr 192 168 1 1 10082) 192 168 1 1 10082 := by
  intro h
  have hlow := (pushSockaddr_iff 192 168 1 1 10082).mp h.pushed
  exact absurd hlow.1 (by decide)

end Lev.SockAddr
