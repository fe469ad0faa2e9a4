import Lev.Master

/-! The pool of listening sockets of the master. The first request for an address and a
port makes a socket and binds it, whatever comes of that, and all later ones share it. -/
namespace Lev.Ipc
open Slab Memory Lua

/-- A packet from a worker that asks for a tcp socket, with what the master reads of it. -/
structure BindRequest where
  worker : ℕ
  heap : Heap
  packet : LuaValue
  len : ℕ
  buf : MemSlice
  address : List UInt8
  port : Double
  cmd : ∃ v, index packet "cmd" = some v ∧ toString heap v = some (ascii "bind")
  fields : ∃ p type v, index packet "p" = some p ∧
    (index p "type" = some type ∧ toString heap type = some (ascii "tcp")) ∧
    (index p "address" = some v ∧ toString heap v = some address) ∧
    index p "port" = some (.number port)
  integral : ∃ z, port.toInt? = some z ∧ port = .ofInt z
  answerable : ∃ id packed, index packet "id" = some id ∧
    Mailbox.mpPack heap ⟨ascii "reply", id, .nil, .nil, .table 0 [] []⟩ = some packed

namespace BindRequest

def place (r : BindRequest) : List UInt8 × Double := (r.address, r.port)

/-- `bind_id` -/
def key (host : Host) (r : BindRequest) : List UInt8 :=
  ascii "tcp" ++ ascii "|" ++ r.address ++ ascii "|" ++ host.numberText r.port

/-- What becomes of the socket if it is the `k`th. -/
def socket (host : Host) (k : ℕ) (r : BindRequest) : Socket := host.tcpBind k r.address r.port

end BindRequest

/-- The descriptor that went with the reply to a request, and the socket that was made and
bound for it, if one was. -/
structure Answer where
  fd : Option ℤ
  tried : Option Socket
  deriving DecidableEq, Repr

/-- The requests that reach the master, one after the other, each with its answer; `none`
is a Lua error. -/
def serve (host : Host) : Master → List BindRequest → Option (List (BindRequest × Answer))
  | _, [] => some []
  | s, r :: rs => do
    let s' ← s.clientProcessPacket host r.worker r.heap r.packet r.len r.buf
    let served ← serve host s' rs
    return (r, ⟨(s'.written r.worker).getLast?.bind Written.fd,
      if s'.sockets = s.sockets then none else some (r.socket host s.sockets)⟩) :: served

/-- The replies to equal requests carry the descriptor of one socket, those to different
ones of different sockets; each is a socket bound for what was asked. Once that has
succeeded it is not tried again, and no reply carries a socket for which it failed. -/
structure Shared (served : List (BindRequest × Answer)) : Prop where
  same : ∀ x ∈ served, ∀ y ∈ served, x.1.place = y.1.place ↔ x.2.fd = y.2.fd
  source : ∀ x ∈ served, ∃ y ∈ served, y.1.place = x.1.place ∧
    ∃ socket, y.2.tried = some socket ∧ x.2.fd = some socket.fd
  once : served.Pairwise fun x y => x.1.place = y.1.place →
    ∀ socket, x.2.tried = some socket → socket.bound = true → y.2.tried = none
  bound : ∀ x ∈ served, ∀ y ∈ served, ∀ socket, y.2.tried = some socket →
    socket.bound = false → x.2.fd ≠ some socket.fd

/-- The first request for each key, behind those in `firsts`. -/
def firstsFrom (host : Host) (firsts : List BindRequest) : List BindRequest → List BindRequest
  | [] => firsts
  | r :: rs =>
    if r.key host ∈ firsts.map (BindRequest.key host) then firstsFrom host firsts rs
    else firstsFrom host (firsts ++ [r]) rs

/-- Every bind that is tried succeeds, and different ports that are asked for at one
address have different texts. -/
def Bindable (host : Host) (rs : List BindRequest) : Prop :=
  (∀ k (r : BindRequest), (firstsFrom host [] rs)[k]? = some r →
    (r.socket host k).bound = true) ∧
  ∀ r ∈ rs, ∀ r' ∈ rs, r.address = r'.address →
    host.numberText r.port = host.numberText r'.port → r.port = r'.port

variable {host : Host} {s : Master} {firsts rs : List BindRequest} {r r' : BindRequest}

/-- What `..` makes of an integral number. -/
def integerText (z : ℤ) : List UInt8 :=
  if z < 0 then 45 :: tostring z.natAbs
  else if z = 0 then [48] else tostring z.natAbs

/-- The pool with the sockets of these first requests, the `n`th and those after it. -/
def poolOf (host : Host) (firsts : List BindRequest) (n : ℕ) : List (List UInt8 × Socket) :=
  (firsts.zipIdx n).map fun x => (x.1.key host, x.1.socket host x.2)

theorem poolOf_concat (n : ℕ) : poolOf host (firsts ++ [r]) n =
    poolOf host firsts n ++ [(r.key host, r.socket host (n + firsts.length))] := by
  simp [poolOf, List.zipIdx_append]

theorem poolOf_lookup (hkeys : (firsts.map (BindRequest.key host)).Nodup) {k : ℕ}
    (hk : firsts[k]? = some r) (n : ℕ) :
    (poolOf host firsts n).lookup (r.key host) = some (r.socket host (n + k)) := by
  induction firsts generalizing k n with
  | nil => cases hk
  | cons first firsts ih =>
    rw [List.map_cons, List.nodup_cons] at hkeys
    cases k with
    | zero =>
      cases hk
      simp [poolOf]
    | succ k =>
      have hne : (r.key host == first.key host) = false := by
        rw [beq_eq_false_iff_ne]
        intro heq
        exact hkeys.1 (heq ▸ List.mem_map_of_mem (List.mem_of_getElem? hk))
      have := ih hkeys.2 hk (n + 1)
      rw [show n + (k + 1) = n + 1 + k by omega, ← this]
      simp [poolOf, List.lookup, hne]

theorem poolOf_lookup_none (hr : r.key host ∉ firsts.map (BindRequest.key host)) (n : ℕ) :
    (poolOf host firsts n).lookup (r.key host) = none := by
  rw [List.lookup_eq_none_iff]
  intro entry hentry
  obtain ⟨⟨first, k⟩, hmem, rfl⟩ := List.mem_map.mp hentry
  rw [bne_iff_ne]
  intro heq
  exact hr (List.mem_map.mpr ⟨first, List.fst_mem_of_mem_zipIdx hmem, heq.symm⟩)

theorem firstsFrom_prefix (host : Host) (firsts rs : List BindRequest) :
    firsts <+: firstsFrom host firsts rs := by
  induction rs generalizing firsts with
  | nil => exact List.prefix_rfl
  | cons r rs ih =>
    rw [firstsFrom]
    split
    · exact ih firsts
    · exact (List.prefix_append _ _).trans (ih _)

theorem firstsFrom_get {k : ℕ} (hk : firsts[k]? = some r) :
    (firstsFrom host firsts rs)[k]? = some r := by
  obtain ⟨tail, htail⟩ := firstsFrom_prefix host firsts rs
  rw [← htail, List.getElem?_append_left (List.getElem?_eq_some_iff.mp hk).1, hk]

theorem firstsFrom_nodup (hkeys : (firsts.map (BindRequest.key host)).Nodup) :
    ((firstsFrom host firsts rs).map (BindRequest.key host)).Nodup := by
  induction rs generalizing firsts with
  | nil => exact hkeys
  | cons r rs ih =>
    rw [firstsFrom]
    split
    · exact ih hkeys
    · rename_i hr
      apply ih
      rw [List.map_append, List.map_singleton]
      exact List.concat_eq_append ▸ hkeys.concat hr

theorem clientProcessPacket_bind (host : Host) (s : Master) (r : BindRequest) :
    ∃ s' packed socket,
      s.clientProcessPacket host r.worker r.heap r.packet r.len r.buf = some s' ∧
      s'.written r.worker = s.written r.worker ++ [⟨packed, some socket.fd⟩] ∧
      ((s.bindPool.lookup (r.key host) = some socket ∧ s'.bindPool = s.bindPool ∧
          s'.sockets = s.sockets) ∨
        (s.bindPool.lookup (r.key host) = none ∧ socket = r.socket host s.sockets ∧
          s'.bindPool = s.bindPool ++ [(r.key host, socket)] ∧ s'.sockets = s.sockets + 1)) := by
  obtain ⟨v, hcmd, hbind⟩ := r.cmd
  obtain ⟨p, type, a, hp, ⟨htype, htcp⟩, ⟨ha, haddress⟩, hport⟩ := r.fields
  obtain ⟨id, packed, hid, hpack⟩ := r.answerable
  have hne : ascii "bind" ≠ ascii "hello" := by decide
  have hstep : s.clientProcessPacket host r.worker r.heap r.packet r.len r.buf =
      (s.bindPool.lookup (r.key host)).elim
        (({ s with
          bindPool := s.bindPool ++ [(r.key host, r.socket host s.sockets)]
          sockets := s.sockets + 1 } : Master).replyBound r.heap r.worker id
            (r.socket host s.sockets))
        fun socket => s.replyBound r.heap r.worker id socket := by
    simp only [Master.clientProcessPacket, hcmd, hbind, Option.bind_eq_bind, Option.bind_some,
      if_neg hne, if_true, Master.bind, hp, htype, htcp, ha, haddress, hport, hid]
    cases hl : s.bindPool.lookup (r.key host) with
    | some socket =>
      rw [BindRequest.key] at hl
      simp only [hl, Option.elim_some]
    | none =>
      rw [BindRequest.key] at hl
      simp only [hl, Option.elim_none]
      rfl
  have hreply : ∀ (s : Master) socket, s.replyBound r.heap r.worker id socket =
      some (s.write r.worker packed (some socket.fd)) := fun s socket => by
    rw [Master.replyBound, hpack]
    rfl
  cases hl : s.bindPool.lookup (r.key host) with
  | some socket =>
    simp only [hl, Option.elim_some, hreply] at hstep
    exact ⟨_, packed, socket, hstep, by simp [Master.write], .inl ⟨rfl, rfl, rfl⟩⟩
  | none =>
    simp only [hl, Option.elim_none, hreply] at hstep
    exact ⟨_, packed, r.socket host s.sockets, hstep, by simp [Master.write],
      .inr ⟨rfl, rfl, rfl, rfl⟩⟩

/-- The answers behind the first requests `firsts`, the sockets of which stay in the pool:
each carries the socket of the first request with its key, and the sockets of the later ones
of `all` are made on the way. -/
structure Pooled (host : Host) (firsts all : List BindRequest)
    (served : List (BindRequest × Answer)) : Prop where
  answered : ∀ x ∈ served, ∃ k, ∃ first : BindRequest, all[k]? = some first ∧
    first.key host = x.1.key host ∧ x.2.fd = some (first.socket host k).fd
  tried : ∀ x ∈ served, ∀ socket, x.2.tried = some socket →
    ∃ k, all[k]? = some x.1 ∧ socket = x.1.socket host k
  made : ∀ k (first : BindRequest), firsts.length ≤ k → all[k]? = some first →
    ∃ x ∈ served, x.1 = first ∧ x.2.tried = some (first.socket host k)
  known : ∀ x ∈ served, x.1.key host ∈ firsts.map (BindRequest.key host) → x.2.tried = none
  once : served.Pairwise fun x y => x.1.key host = y.1.key host → y.2.tried = none

section

variable {all : List BindRequest} {served : List (BindRequest × Answer)} {k : ℕ}
  {first : BindRequest}

theorem Pooled.nil : Pooled host firsts firsts [] where
  answered := fun _ h => by cases h
  tried := fun _ h => by cases h
  made := fun k first hk hfirst => by
    rw [List.getElem?_eq_none hk] at hfirst
    cases hfirst
  known := fun _ h => by cases h
  once := .nil

theorem Pooled.cons_known (h : Pooled host firsts all served) (hk : all[k]? = some first)
    (hkey : first.key host = r.key host) (hmem : first ∈ firsts) :
    Pooled host firsts all ((r, ⟨some (first.socket host k).fd, none⟩) :: served) where
  answered := List.forall_mem_cons.mpr ⟨⟨k, first, hk, hkey, rfl⟩, h.answered⟩
  tried := List.forall_mem_cons.mpr ⟨(fun _ hnone => by cases hnone), h.tried⟩
  made := fun k first hle hfirst => by
    obtain ⟨x, hx, hmade⟩ := h.made k first hle hfirst
    exact ⟨x, List.mem_cons_of_mem _ hx, hmade⟩
  known := List.forall_mem_cons.mpr ⟨fun _ => rfl, h.known⟩
  once := by
    refine List.pairwise_cons.mpr ⟨fun y hy hsame => h.known y hy ?_, h.once⟩
    rw [← hsame, ← hkey]
    exact List.mem_map_of_mem hmem

theorem Pooled.cons_new (h : Pooled host (firsts ++ [r]) all served)
    (hr : r.key host ∉ firsts.map (BindRequest.key host)) (hk : all[firsts.length]? = some r) :
    Pooled host firsts all ((r, ⟨some (r.socket host firsts.length).fd,
      some (r.socket host firsts.length)⟩) :: served) where
  answered := List.forall_mem_cons.mpr ⟨⟨_, r, hk, rfl, rfl⟩, h.answered⟩
  tried := by
    refine List.forall_mem_cons.mpr ⟨fun socket hsocket => ⟨_, hk, ?_⟩, h.tried⟩
    exact (Option.some.inj hsocket).symm
  made := fun k first hle hfirst => by
    obtain rfl | hlt := hle.eq_or_lt
    · obtain rfl := Option.some.inj (hk.symm.trans hfirst)
      exact ⟨_, List.mem_cons_self, rfl, rfl⟩
    · obtain ⟨x, hx, hmade⟩ := h.made k first (by simpa using hlt) hfirst
      exact ⟨x, List.mem_cons_of_mem _ hx, hmade⟩
  known := by
    refine List.forall_mem_cons.mpr ⟨fun hmem => absurd hmem hr, fun x hx hmem => ?_⟩
    refine h.known x hx ?_
    rw [List.map_append]
    exact List.mem_append_left _ hmem
  once := by
    refine List.pairwise_cons.mpr ⟨fun y hy hsame => h.known y hy ?_, h.once⟩
    rw [← hsame, List.map_append]
    exact List.mem_append_right _ (List.mem_singleton_self _)

end

/-- The pool of a master that has answered the first requests `firsts`. -/
structure Serves (host : Host) (s : Master) (firsts : List BindRequest) : Prop where
  pool : s.bindPool = poolOf host firsts 0
  sockets : s.sockets = firsts.length
  keys : (firsts.map (BindRequest.key host)).Nodup

theorem Serves.start : Serves host .start [] := ⟨rfl, rfl, .nil⟩

theorem serve_pooled (h : Serves host s firsts) (rs : List BindRequest) :
    ∃ served, serve host s rs = some served ∧ served.map Prod.fst = rs ∧
      Pooled host firsts (firstsFrom host firsts rs) served := by
  induction rs generalizing s firsts with
  | nil => exact ⟨[], rfl, rfl, .nil⟩
  | cons r rs ih =>
    obtain ⟨s', packed, socket, hstep, hwritten, hcase⟩ := clientProcessPacket_bind host s r
    have hfd : (s'.written r.worker).getLast?.bind Written.fd = some socket.fd := by
      rw [hwritten, List.getLast?_concat]
      rfl
    by_cases hr : r.key host ∈ firsts.map (BindRequest.key host)
    · obtain ⟨first, hmem, hkey⟩ := List.mem_map.mp hr
      obtain ⟨k, hk⟩ := List.getElem?_of_mem hmem
      have hpool : s.bindPool.lookup (r.key host) = some (first.socket host k) := by
        rw [h.pool, ← hkey, poolOf_lookup h.keys hk, Nat.zero_add]
      obtain ⟨hsocket, hpool', hsockets⟩ | ⟨hnone, -⟩ := hcase
      · have hs' : Serves host s' firsts :=
          ⟨hpool'.trans h.pool, hsockets.trans h.sockets, h.keys⟩
        obtain ⟨served, hserve, hmap, hpooled⟩ := ih hs'
        obtain rfl := Option.some.inj (hsocket.symm.trans hpool)
        refine ⟨(r, ⟨some (first.socket host k).fd, none⟩) :: served, ?_, ?_, ?_⟩
        · simp only [serve, hstep, hserve, hfd, hsockets, Option.bind_eq_bind, Option.bind_some,
            if_true]
          rfl
        · rw [List.map_cons, hmap]
        · rw [firstsFrom, if_pos hr]
          exact hpooled.cons_known (firstsFrom_get hk) hkey hmem
      · rw [hpool] at hnone
        cases hnone
    · have hpool : s.bindPool.lookup (r.key host) = none := by
        rw [h.pool, poolOf_lookup_none hr]
      obtain ⟨hsome, -⟩ | ⟨-, rfl, hpool', hsockets⟩ := hcase
      · rw [hpool] at hsome
        cases hsome
      · have hne : s'.sockets ≠ firsts.length := by rw [hsockets, h.sockets]; omega
        have hkeys : ((firsts ++ [r]).map (BindRequest.key host)).Nodup := by
          rw [List.map_append, List.map_singleton]
          exact List.concat_eq_append ▸ h.keys.concat hr
        have hs' : Serves host s' (firsts ++ [r]) := by
          refine ⟨?_, ?_, hkeys⟩
          · rw [hpool', h.pool, poolOf_concat, h.sockets, Nat.zero_add]
          · rw [hsockets, h.sockets, List.length_append, List.length_singleton]
        obtain ⟨served, hserve, hmap, hpooled⟩ := ih hs'
        rw [h.sockets] at hfd
        refine ⟨(r, ⟨some (r.socket host firsts.length).fd,
          some (r.socket host firsts.length)⟩) :: served, ?_, ?_, ?_⟩
        · simp only [serve, hstep, hserve, hfd, h.sockets, if_neg hne, Option.bind_eq_bind,
            Option.bind_some]
          rfl
        · rw [List.map_cons, hmap]
        · have hget : (firsts ++ [r])[firsts.length]? = some r := by simp
          rw [firstsFrom, if_neg hr]
          exact hpooled.cons_new hr (firstsFrom_get hget)

theorem bar_notMem_tostring (n : ℕ) : 124 ∉ tostring n := by
  have hdigits : ∀ m, 124 ∉ digits m := by
    intro m hmem
    obtain ⟨d, hd, hbyte⟩ := List.mem_map.mp hmem
    have hlt := Nat.digits_lt_base (by decide) (List.mem_reverse.mp hd)
    have hnat := congrArg UInt8.toNat hbyte
    simp only [UInt8.toNat_ofNat'] at hnat
    change _ = 124 at hnat
    omega
  rw [tostring]
  split
  · exact hdigits n
  · unfold exponentForm
    extract_lets k q r m ds fraction
    have hds : ∀ d ∈ ds, d ≠ 124 := fun d hd heq => hdigits m (heq ▸ hd)
    have hfraction : 124 ∉ fraction := fun h =>
      hds _ (List.mem_of_mem_tail (List.mem_reverse.mp
        ((List.dropWhile_sublist _).mem (List.mem_reverse.mp h)))) rfl
    simp only [List.mem_append, not_or]
    refine ⟨⟨⟨fun h => hds _ (List.mem_of_mem_take h) rfl, ?_⟩, by decide⟩, hdigits _⟩
    split
    · exact List.not_mem_nil
    · exact List.not_mem_cons_of_ne_of_not_mem (by decide) hfraction

theorem bar_notMem_integerText (z : ℤ) : 124 ∉ integerText z := by
  rw [integerText]
  split
  · exact List.not_mem_cons_of_ne_of_not_mem (by decide) (bar_notMem_tostring _)
  · split
    · decide
    · exact bar_notMem_tostring _

/-- Texts with one `|` between an address and a port, which has none, are split there. -/
theorem address_port_inj {a a' b b' : List UInt8} (hb : 124 ∉ b) (hb' : 124 ∉ b')
    (h : a ++ 124 :: b = a' ++ 124 :: b') : a = a' ∧ b = b' := by
  have hspan : ∀ (a b : List UInt8), 124 ∉ b →
      (a ++ 124 :: b).reverse.takeWhile (fun c => c != 124) = b.reverse := by
    intro a b hb
    rw [List.reverse_append, List.reverse_cons, List.append_assoc,
      List.takeWhile_append_of_pos (fun c hc => ?_)]
    · simp
    · rw [bne_iff_ne]
      rintro rfl
      exact hb (List.mem_reverse.mp hc)
  have hrev := hspan a b hb
  rw [h, hspan a' b' hb'] at hrev
  obtain rfl := List.reverse_injective hrev
  exact ⟨List.append_cancel_right h, rfl⟩

section

variable (htext : ∀ d z, Double.toInt? d = some z → d = .ofInt z →
  host.numberText d = integerText z)
include htext

/-- Requests have one key if they are for one address and ports with one text. -/
theorem key_eq_iff : r.key host = r'.key host ↔
    r.address = r'.address ∧ host.numberText r.port = host.numberText r'.port := by
  have hbar : ∀ r : BindRequest, 124 ∉ host.numberText r.port := by
    intro r
    obtain ⟨z, hz, hport⟩ := r.integral
    rw [htext r.port z hz hport]
    exact bar_notMem_integerText z
  refine ⟨fun h => ?_, fun h => by rw [BindRequest.key, h.1, h.2]; rfl⟩
  have hbody : r.address ++ 124 :: host.numberText r.port =
      r'.address ++ 124 :: host.numberText r'.port := by
    have hbytes : ascii "|" = [124] := by decide
    simpa [BindRequest.key, hbytes] using h
  exact address_port_inj (hbar r) (hbar r') hbody

/-- With distinct sockets on distinct descriptors, the pool hands out the right sockets
exactly when every bind that is tried succeeds and no two ports that are asked for at one
address have the same text. -/
theorem shared_iff (hfd : ∀ k k' a p a' p', k ≠ k' → (host.tcpBind k a p).fd ≠
    (host.tcpBind k' a' p').fd) (rs : List BindRequest) :
    ∃ served, serve host .start rs = some served ∧ served.map Prod.fst = rs ∧
      (Shared served ↔ Bindable host rs) := by
  have hstart : Serves host .start [] := .start
  obtain ⟨served, hserve, hmap, hpooled⟩ := serve_pooled hstart rs
  refine ⟨served, hserve, hmap, ?_⟩
  have hnodup : ((firstsFrom host [] rs).map (BindRequest.key host)).Nodup :=
    firstsFrom_nodup .nil
  have hindex : ∀ {k k' : ℕ} {first first' : BindRequest},
      (firstsFrom host [] rs)[k]? = some first → (firstsFrom host [] rs)[k']? = some first' →
      first.key host = first'.key host → k = k' := by
    intro k k' first first' hk hk' hkey
    have hget : ∀ {k : ℕ} {first : BindRequest}, (firstsFrom host [] rs)[k]? = some first →
        ((firstsFrom host [] rs).map (BindRequest.key host))[k]? = some (first.key host) := by
      intro k first hk
      rw [List.getElem?_map, hk, Option.map_some]
    have hlt := (List.getElem?_eq_some_iff.mp (hget hk)).1
    exact (List.getElem?_inj hlt hnodup).mp (by rw [hget hk, hget hk', hkey])
  have hfds : ∀ x ∈ served, ∀ y ∈ served,
      (x.1.key host = y.1.key host ↔ x.2.fd = y.2.fd) := by
    intro x hx y hy
    obtain ⟨k, first, hk, hkey, hxfd⟩ := hpooled.answered x hx
    obtain ⟨k', first', hk', hkey', hyfd⟩ := hpooled.answered y hy
    constructor
    · intro hsame
      obtain rfl := hindex hk hk' (by rw [hkey, hkey', hsame])
      rw [hxfd, hyfd, Option.some.inj (hk.symm.trans hk')]
    · intro hsame
      by_cases hkk : k = k'
      · subst hkk
        rw [← hkey, ← hkey', Option.some.inj (hk.symm.trans hk')]
      · rw [hxfd, hyfd, Option.some.injEq] at hsame
        exact absurd hsame (hfd k k' _ _ _ _ hkk)
  constructor
  · intro h
    constructor
    · intro k first hk
      obtain ⟨x, hx, rfl, htried⟩ := hpooled.made k first (Nat.zero_le k) hk
      obtain ⟨k', first', hk', hkey', hxfd⟩ := hpooled.answered x hx
      obtain rfl := hindex hk hk' hkey'.symm
      by_contra hbound
      refine h.bound x hx x hx _ htried (Bool.eq_false_of_not_eq_true hbound) ?_
      rw [hxfd, Option.some.inj (hk.symm.trans hk')]
    · intro r hr r' hr' haddress hport
      obtain ⟨x, hx, rfl⟩ := List.mem_map.mp (hmap ▸ hr)
      obtain ⟨y, hy, rfl⟩ := List.mem_map.mp (hmap ▸ hr')
      have hkey := (key_eq_iff htext).mpr ⟨haddress, hport⟩
      exact congrArg Prod.snd ((h.same x hx y hy).mpr ((hfds x hx y hy).mp hkey))
  · rintro ⟨hbound, hports⟩
    have hplace : ∀ x ∈ served, ∀ y ∈ served,
        (x.1.place = y.1.place ↔ x.1.key host = y.1.key host) := by
      intro x hx y hy
      rw [key_eq_iff htext]
      constructor
      · intro hplace
        exact ⟨congrArg Prod.fst hplace, congrArg (host.numberText ·.2) hplace⟩
      · rintro ⟨haddress, hport⟩
        have := hports _ (hmap ▸ List.mem_map_of_mem hx) _ (hmap ▸ List.mem_map_of_mem hy)
          haddress hport
        exact Prod.ext haddress this
    refine ⟨?_, ?_, ?_, ?_⟩
    · intro x hx y hy
      exact (hplace x hx y hy).trans (hfds x hx y hy)
    · intro x hx
      obtain ⟨k, first, hk, hkey, hxfd⟩ := hpooled.answered x hx
      obtain ⟨y, hy, rfl, htried⟩ := hpooled.made k first (Nat.zero_le k) hk
      exact ⟨y, hy, (hplace y hy x hx).mpr hkey, _, htried, hxfd⟩
    · refine hpooled.once.imp_of_mem fun {x y} hx hy hnone hsame _ _ _ => ?_
      exact hnone ((hplace x hx y hy).mp hsame)
    · intro x hx y hy socket htried hfailed
      obtain ⟨k, hk, rfl⟩ := hpooled.tried y hy socket htried
      rw [hbound k y.1 hk] at hfailed
      cases hfailed

end

/-- The Buffers of the request of a worker for 0.0.0.0, as they lie in one block. -/
def requestHeap : Heap :=
  .boot fun _ i => (ascii "bindtcp0.0.0.07").getD i 0

/-- `{cmd='bind', id='7', p={type='tcp', address='0.0.0.0', port=80}}` -/
def requestPacket : LuaValue :=
  .table 0 []
    [(.string (ascii "cmd"), .buffer ⟨0, 0, 4⟩), (.string (ascii "id"), .buffer ⟨0, 14, 1⟩),
      (.string (ascii "p"), .table 0 []
        [(.string (ascii "type"), .buffer ⟨0, 4, 3⟩),
          (.string (ascii "address"), .buffer ⟨0, 7, 7⟩),
          (.string (ascii "port"), .number (.ofInt 80))])]

/-- A worker's request to listen on port 80. -/
def listenRequest (worker : ℕ) : BindRequest where
  worker := worker
  heap := requestHeap
  packet := requestPacket
  len := 0
  buf := ⟨0, 0, 0⟩
  address := ascii "0.0.0.0"
  port := .ofInt 80
  cmd := ⟨.buffer ⟨0, 0, 4⟩, rfl, by decide +kernel⟩
  fields := ⟨_, .buffer ⟨0, 4, 3⟩, .buffer ⟨0, 7, 7⟩, rfl, ⟨rfl, by decide +kernel⟩,
    ⟨rfl, by decide +kernel⟩, rfl⟩
  integral := ⟨80, by decide +kernel, rfl⟩
  answerable := ⟨.buffer ⟨0, 14, 1⟩, _, rfl,
    Option.eq_some_of_isSome (by decide +kernel)⟩

/-- A host where `bind` does what `bound` says. -/
def hostOf (bound : Bool) : Host where
  numberText := fun d => integerText (d.toInt?.getD 0)
  grants := MPack.luajitGrants
  tcpBind := fun k _ _ => ⟨k + 5, bound⟩

theorem shared_iff_listen : ∃ served,
    serve (hostOf true) .start [listenRequest 0, listenRequest 1] = some served ∧
      Shared served := by
  obtain ⟨served, hserve, -, hiff⟩ := @shared_iff (hostOf true)
    (fun d z hz _ => congrArg (fun z : Option ℤ => integerText (z.getD 0)) hz)
    (fun k k' _ _ _ _ hne heq => hne (by simpa [hostOf] using heq))
    [listenRequest 0, listenRequest 1]
  have hport : ∀ r ∈ [listenRequest 0, listenRequest 1], r.port = .ofInt 80 := by
    simp [listenRequest]
  exact ⟨served, hserve, hiff.mpr ⟨fun _ _ _ => rfl,
    fun r hr r' hr' _ _ => (hport r hr).trans (hport r' hr').symm⟩⟩

/-- A bind that fails: both workers that ask get the socket, and are told nothing. -/
theorem failedBind_sent :
    (serve (hostOf false) .start [listenRequest 0, listenRequest 1]).map (·.map Prod.snd) =
        some [⟨some 5, some ⟨5, false⟩⟩, ⟨some 5, none⟩] ∧
      ∀ served, serve (hostOf false) .start [listenRequest 0, listenRequest 1] = some served →
        ¬ Shared served := by
  have hserve : (serve (hostOf false) .start [listenRequest 0, listenRequest 1]).map
      (·.map Prod.snd) = some [⟨some 5, some ⟨5, false⟩⟩, ⟨some 5, none⟩] := by decide +kernel
  refine ⟨hserve, fun served h hshared => ?_⟩
  rw [h, Option.map_some, Option.some.injEq] at hserve
  obtain ⟨x, rest, rfl, hx, -⟩ := List.map_eq_cons_iff.mp hserve
  refine hshared.bound x List.mem_cons_self x List.mem_cons_self ⟨5, false⟩ ?_ rfl ?_
  · rw [hx]
  · rw [hx]

end Lev.Ipc
