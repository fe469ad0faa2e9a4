import Lev.MPackEncode
import Lev.MPackFormat
import Lev.SlabOwnership

/-! The encoding of a Lua value as a tree of the format, and that the encoder writes it:
completely where it fits and every leaf has an encoding, and with an error left in
the buffer everywhere else. -/
namespace Lev.MPack
open CInt Endian Slab Memory Lua

/-- The shortest width for a count, of which fewer than `inTag` fit into the tag. -/
def widthOf (inTag n : ℕ) : Width :=
  if n < inTag then .fix else if n < 65536 then .two else .four

/-- The low `k` bytes of `z` in two's complement, as a number. -/
def twos (k : ℕ) (z : ℤ) : ℕ := (z % 2 ^ (8 * k)).toNat

def integerWire (z : ℤ) : Wire :=
  if 0 ≤ z then
    if z < 128 then .single (UInt8.ofNat z.toNat)
    else if z < 256 then .scalar .uint8 (beBytes 1 z.toNat)
    else if z < 65536 then .scalar .uint16 (beBytes 2 z.toNat)
    else if z < 4294967296 then .scalar .uint32 (beBytes 4 z.toNat)
    else .scalar .uint64 (beBytes 8 z.toNat)
  else
    if -32 ≤ z then .single (UInt8.ofNat (twos 1 z))
    else if -128 ≤ z then .scalar .int8 (beBytes 1 (twos 1 z))
    else if -32768 ≤ z then .scalar .int16 (beBytes 2 (twos 2 z))
    else if -2147483648 ≤ z then .scalar .int32 (beBytes 4 (twos 4 z))
    else .scalar .int64 (beBytes 8 (twos 8 z))

/-- All NaNs have one encoding. -/
def numberWire (n : Double) : Wire :=
  if n.isnan then .scalar .double [0xff, 0xf8, 0, 0, 0, 0, 0, 0]
  else
    match n.toInt? with
    | some z => integerWire z
    | none => .scalar .double (beBytes 8 n.bits)

def stringWire (s : List UInt8) : Wire := .raw (widthOf 32 s.length) s

mutual

/-- A table with elements 1, 2, … is an array of these, any other one a map. Values of
other types have no encoding. -/
def toWire (h : Heap) : LuaValue → Wire
  | .nil => .single 0xc0
  | .boolean b => .single (if b then 0xc3 else 0xc2)
  | .number n => numberWire n
  | .string s => stringWire s
  | .buffer ms => stringWire (ms.contents h)
  | .foreign _ => .single 0xc0
  | .table _ arr hash =>
    if 0 < arr.length then .array (widthOf 16 arr.length) arr.length (toWireList h arr)
    else .map (widthOf 16 hash.length) hash.length (toWirePairs h hash)

def toWireList (h : Heap) : List LuaValue → List Wire
  | [] => []
  | v :: arr => toWire h v :: toWireList h arr

def toWirePairs (h : Heap) : List (LuaValue × LuaValue) → List Wire
  | [] => []
  | (k, v) :: hash => toWire h k :: toWire h v :: toWirePairs h hash

end

mutual

/-- Every leaf the encoder comes to satisfies `P`, and every array it comes to `A`. -/
def Reached (P : LuaValue → Prop) (A : List LuaValue → Prop) : LuaValue → Prop
  | .table _ arr hash =>
    if 0 < arr.length then A arr ∧ ReachedList P A arr else ReachedPairs P A hash
  | .nil => P .nil
  | .boolean b => P (.boolean b)
  | .number n => P (.number n)
  | .string s => P (.string s)
  | .buffer ms => P (.buffer ms)
  | .foreign t => P (.foreign t)

def ReachedList (P : LuaValue → Prop) (A : List LuaValue → Prop) : List LuaValue → Prop
  | [] => True
  | v :: arr => Reached P A v ∧ ReachedList P A arr

def ReachedPairs (P : LuaValue → Prop) (A : List LuaValue → Prop) :
    List (LuaValue × LuaValue) → Prop
  | [] => True
  | (k, v) :: hash => (Reached P A k ∧ Reached P A v) ∧ ReachedPairs P A hash

end

/-- An integral number is in the range of `long long`. -/
def InInt64 : LuaValue → Prop
  | .number n => ∀ z, n.toInt? = some z → -2 ^ 63 ≤ z ∧ z < 2 ^ 63
  | _ => True

/-- nil, a boolean, a number, a string or a Buffer -/
def Encodable : LuaValue → Prop
  | .foreign _ => False
  | _ => True

/-- A packing function appends `bs` where `ok` holds and there is room, and leaves an
error in the buffer otherwise. An error stays. -/
structure Writes (p : Pack) (ok : Prop) (bs : List UInt8) : Prop where
  emits : ∀ b, ok → b.err = 0 → b.data.length + bs.length ≤ Mpwbuf.capacity →
    p b = (bs.length, ⟨b.data ++ bs, 0⟩)
  fails : ∀ b, b.err = 0 → b.data.length ≤ Mpwbuf.capacity →
    ¬ (ok ∧ b.data.length + bs.length ≤ Mpwbuf.capacity) → (p b).2.err ≠ 0
  sticks : ∀ b, b.err ≠ 0 → (p b).2.err ≠ 0

theorem Writes.congr {p : Pack} {ok ok' : Prop} {bs : List UInt8} (h : Writes p ok bs)
    (he : ok ↔ ok') : Writes p ok' bs :=
  he.eq ▸ h

theorem writes_append (bs : List UInt8) : Writes (mpwbufAppend bs) True bs where
  emits b _ herr hfits := by
    have hleft : ¬ b.left < bs.length := by
      rw [Mpwbuf.left]
      omega
    rw [mpwbufAppend, if_neg (not_not.mpr herr), if_neg hleft, herr]
  fails b herr hle hnot := by
    have hover : ¬ b.data.length + bs.length ≤ Mpwbuf.capacity := fun h => hnot ⟨trivial, h⟩
    have hleft : b.left < bs.length := by
      rw [Mpwbuf.left]
      omega
    rw [mpwbufAppend, if_neg (not_not.mpr herr), if_pos hleft]
    simp [Mpwbuf.fail, herr, errorbitBufnoleft]
  sticks b herr := by
    rw [mpwbufAppend, if_pos herr]
    exact herr

theorem writes_nothing : Writes Pack.nothing True [] where
  emits b _ herr _ := by
    rw [Pack.nothing, List.append_nil, List.length_nil]
    rw [show (⟨b.data, 0⟩ : Mpwbuf) = b from by rw [← herr]]
  fails _ _ hle hnot := absurd ⟨trivial, hle⟩ hnot
  sticks b herr := herr

theorem writes_fail {bit : ℕ} (hbit : bit ≠ 0) (bs : List UInt8) :
    Writes (Mpwbuf.fail bit) False bs where
  emits _ hok := hok.elim
  fails _ _ _ _ := fun h => hbit (Nat.or_eq_zero_iff.mp h).2
  sticks _ herr := fun h => herr (Nat.or_eq_zero_iff.mp h).1

theorem Writes.andThen {p q : Pack} {ok ok' : Prop} {bs cs : List UInt8} (hp : Writes p ok bs)
    (hq : Writes q ok' cs) : Writes (p.andThen q) (ok ∧ ok') (bs ++ cs) where
  emits b hok herr hfits := by
    rw [List.length_append] at hfits
    have hrun := hp.emits b hok.1 herr (by omega)
    have hrun' := hq.emits ⟨b.data ++ bs, 0⟩ hok.2 rfl (by rw [List.length_append]; omega)
    rw [Pack.andThen, hrun]
    simp only [hrun', List.length_append, List.append_assoc]
  fails b herr hle hnot := by
    rw [List.length_append] at hnot
    rcases Classical.em (ok ∧ b.data.length + bs.length ≤ Mpwbuf.capacity) with ⟨hok, hfits⟩ | hbad
    · have hrun := hp.emits b hok herr hfits
      rw [Pack.andThen, hrun]
      have hlen : (b.data ++ bs).length ≤ Mpwbuf.capacity := by rwa [List.length_append]
      refine hq.fails ⟨b.data ++ bs, 0⟩ rfl hlen fun h => hnot ⟨⟨hok, h.1⟩, ?_⟩
      have h2 := h.2
      rw [List.length_append] at h2
      omega
    · rw [Pack.andThen]
      exact hq.sticks _ (hp.fails b herr hle hbad)
  sticks b herr := by
    rw [Pack.andThen]
    exact hq.sticks _ (hp.sticks b herr)

/-- What does not fit anyway may be said to be anything that does not fit. -/
theorem Writes.overlong {p : Pack} {ok ok' : Prop} {bs cs : List UInt8} (h : Writes p ok bs)
    (hbs : Mpwbuf.capacity < bs.length) (hcs : Mpwbuf.capacity < cs.length) : Writes p ok' cs where
  emits b _ _ hfits := by omega
  fails b herr hle _ := h.fails b herr hle fun hok => by
    have := hok.2
    omega
  sticks := h.sticks

theorem widthOf_fits {inTag n : ℕ} (hn : n < 2 ^ 32) : (widthOf inTag n).fits inTag n := by
  unfold widthOf
  split
  · assumption
  · split
    · assumption
    · exact hn

theorem writes_header (base tag16 tag32 : UInt8) {inTag n : ℕ} {p : Pack}
    (hp : p = if n < inTag then mpwbufAppend [base ||| UInt8.ofNat n]
      else if n < 65536 then (mpwbufAppend [tag16]).andThen (mpwbufAppend (leBytes 2 (htons n)))
      else (mpwbufAppend [tag32]).andThen (mpwbufAppend (leBytes 4 (htonl n))))
    (hor : ∀ k < inTag, base ||| UInt8.ofNat k = base + UInt8.ofNat k) :
    Writes p True ((widthOf inTag n).header base tag16 tag32 n) := by
  subst hp
  rcases Nat.lt_or_ge n inTag with h1 | h1
  · rw [if_pos h1, widthOf, if_pos h1, Width.header, hor n h1]
    exact writes_append _
  · have h1' : ¬ n < inTag := Nat.not_lt.mpr h1
    rw [if_neg h1', widthOf, if_neg h1']
    rcases Nat.lt_or_ge n 65536 with h2 | h2
    · rw [if_pos h2, if_pos h2, Width.header, leBytes_htons]
      exact ((writes_append [tag16]).andThen (writes_append (beBytes 2 n))).congr (and_self_iff)
    · have h2' : ¬ n < 65536 := Nat.not_lt.mpr h2
      rw [if_neg h2', if_neg h2', Width.header, leBytes_htonl]
      exact ((writes_append [tag32]).andThen (writes_append (beBytes 4 n))).congr (and_self_iff)

theorem capacity_eq : Mpwbuf.capacity = 2 ^ 20 := rfl

theorem writes_string (s : List UInt8) : Writes (mpwbufPackString s) True (stringWire s).bytes := by
  have hor : ∀ k < 32, (0xa0 : UInt8) ||| UInt8.ofNat k = 0xa0 + UInt8.ofNat k := by decide
  have hlen : s.length ≤ (stringWire s).bytes.length := by
    simp [stringWire, Wire.bytes]
  rcases Nat.lt_or_ge s.length (4294967296 - 1) with hs | hs
  · have hhdr := (writes_header 0xa0 0xda 0xdb (n := s.length) rfl hor).andThen (writes_append s)
    refine Eq.subst (motive := fun p => Writes p True (stringWire s).bytes) ?_
      (hhdr.congr and_self_iff)
    unfold mpwbufPackString
    rw [if_pos hs]
    split
    · rfl
    · split <;> rfl
  · unfold mpwbufPackString
    rw [if_neg (by omega), if_neg (by omega), if_neg (by omega)]
    refine (writes_fail (by decide) (stringWire s).bytes).overlong ?_ ?_ <;>
      rw [capacity_eq] <;> omega

theorem writes_packHeader {base tag16 tag32 : UInt8} {l : ℕ} (hl : l < 4294967296 - 1)
    (hor : ∀ k < 16, base ||| UInt8.ofNat k = base + UInt8.ofNat k) :
    Writes (packHeader base tag16 tag32 l) True ((widthOf 16 l).header base tag16 tag32 l) := by
  refine writes_header base tag16 tag32 ?_ hor
  unfold packHeader
  rw [if_pos hl]

theorem writes_packHeader_any (base tag16 tag32 : UInt8) (l : ℕ) :
    ∃ bs, Writes (packHeader base tag16 tag32 l) True bs := by
  unfold packHeader
  split
  · exact ⟨_, writes_append _⟩
  · split
    · exact ⟨_, ((writes_append _).andThen (writes_append _)).congr and_self_iff⟩
    · split
      · exact ⟨_, ((writes_append _).andThen (writes_append _)).congr and_self_iff⟩
      · exact ⟨_, writes_nothing⟩

theorem toSizeT_nonneg {z : ℤ} (h : 0 ≤ z) (h' : z < 2 ^ 64) : toSizeT z = z.toNat := by
  unfold toSizeT
  omega

theorem beBytes_mod (k n : ℕ) : beBytes k (n % 256 ^ k) = beBytes k n := by
  rw [beBytes, beBytes, leBytes_mod]

theorem beBytes_one (n : ℕ) : beBytes 1 n = [UInt8.ofNat n] := by
  have h : UInt8.ofNat (n % 256) = UInt8.ofNat n := by
    apply UInt8.toNat_inj.mp
    simp
  simp [beBytes, leBytes, h]

theorem toSizeT_mod (z : ℤ) :
    toSizeT z % 256 ^ 1 = twos 1 z ∧ toSizeT z % 256 ^ 2 = twos 2 z ∧
      toSizeT z % 256 ^ 4 = twos 4 z ∧ toSizeT z % 256 ^ 8 = twos 8 z := by
  unfold toSizeT twos
  refine ⟨?_, ?_, ?_, ?_⟩ <;> omega

theorem integerBytes_eq (z : ℤ) (h : z < 2 ^ 63) : integerBytes z = (integerWire z).bytes := by
  obtain ⟨h1, h2, h4, h8⟩ := toSizeT_mod z
  unfold integerBytes integerWire
  simp only
  split
  · rename_i hpos
    rw [toSizeT_nonneg hpos (by omega)]
    split
    · rfl
    · split
      · simp only [Wire.bytes, Scalar.tag, beBytes_one]
      · split
        · rw [leBytes_htons]
          rfl
        · split
          · rw [leBytes_htonl]
            rfl
          · rw [leBytes_htonll]
            rfl
  · split
    · rename_i hfix
      have hlow : ∀ k < 256, 224 ≤ k → (0xe0 : UInt8) ||| UInt8.ofNat k = UInt8.ofNat k := by
        decide +kernel
      have hbyte : UInt8.ofNat (toSizeT z) = UInt8.ofNat (twos 1 z) := by
        have he := beBytes_mod 1 (toSizeT z)
        rw [h1, beBytes_one, beBytes_one, List.cons.injEq] at he
        exact he.1.symm
      have hrange : 224 ≤ twos 1 z ∧ twos 1 z < 256 := by
        unfold twos
        omega
      rw [hbyte, hlow _ hrange.2 hrange.1]
      rfl
    · split
      · rw [← h1, beBytes_mod, beBytes_one]
        rfl
      · split
        · rw [leBytes_htons, ← h2, beBytes_mod, ← beBytes_mod 2 (toSizeT z)]
          rfl
        · split
          · rw [leBytes_htonl, ← h4, beBytes_mod, ← beBytes_mod 4 (toSizeT z)]
            rfl
          · rw [leBytes_htonll, ← h8, beBytes_mod]
            rfl

theorem bits_of_isinf {n : Double} (h : n.isinf = true) :
    n.bits = if n.negative then 0xfff0000000000000 else 0x7ff0000000000000 := by
  simp only [Double.isinf, Bool.and_eq_true, beq_iff_eq] at h
  rw [Double.bits_eq, h.1, h.2]
  split <;> rfl

theorem numberBytes_eq {n : Double} (h : ∀ z, n.toInt? = some z → -2 ^ 63 ≤ z ∧ z < 2 ^ 63) :
    numberBytes n = (numberWire n).bytes := by
  unfold numberBytes numberWire
  cases hinf : n.isinf with
  | true =>
    have hexp : n.exponent = 2047 ∧ n.fraction = 0 := by simpa [Double.isinf] using hinf
    have hnan : n.isnan = false := by simp [Double.isnan, hexp.2]
    have hint : n.toInt? = none := by simp [Double.toInt?, Double.natAbs?, hexp.1]
    simp only [if_true, hnan, Bool.false_eq_true, if_false, hint, bits_of_isinf hinf]
    cases n.negative with
    | true => decide
    | false => decide
  | false =>
    cases hnan : n.isnan with
    | true => rfl
    | false =>
      simp only [Bool.false_eq_true, if_false]
      cases hz : n.toInt? with
      | none => rfl
      | some z =>
        obtain ⟨hlow, hhigh⟩ := h z hz
        simp only [castLongLong, hlow, hhigh, and_self, if_true]
        exact integerBytes_eq z hhigh

/-- Tables of LuaJIT have fewer elements than that. -/
def InTable (arr : List LuaValue) : Prop := arr.length < 2 ^ 31

/-- Everything the encoder comes to is in the range of its integers. -/
def InRange (v : LuaValue) : Prop := Reached InInt64 InTable v

/-- Every leaf the encoder comes to has an encoding. -/
def Packable (v : LuaValue) : Prop := Reached Encodable (fun _ => True) v

section Tables

variable {h : Heap}

theorem writes_elems {arr : List LuaValue} (hin : ReachedList InInt64 InTable arr)
    (ih : ∀ v ∈ arr, InRange v → Writes (mpwbufPackAnytype h v) (Packable v) (toWire h v).bytes) :
    Writes (packElems h arr.length arr) (ReachedList Encodable (fun _ => True) arr)
      (Wire.bytesList (toWireList h arr)) := by
  induction arr with
  | nil => exact writes_nothing
  | cons v arr hrec =>
    rw [ReachedList] at hin
    have hhead := ih v List.mem_cons_self hin.1
    have htail := hrec hin.2 fun u hu => ih u (List.mem_cons_of_mem _ hu)
    rw [ReachedList, toWireList, Wire.bytesList, List.length_cons, packElems]
    exact hhead.andThen htail

theorem writes_pairs {hash : List (LuaValue × LuaValue)} (hin : ReachedPairs InInt64 InTable hash)
    (ih : ∀ p ∈ hash,
      (InRange p.1 → Writes (mpwbufPackAnytype h p.1) (Packable p.1) (toWire h p.1).bytes) ∧
      (InRange p.2 → Writes (mpwbufPackAnytype h p.2) (Packable p.2) (toWire h p.2).bytes)) :
    Writes (packPairs h hash) (ReachedPairs Encodable (fun _ => True) hash)
      (Wire.bytesList (toWirePairs h hash)) := by
  induction hash with
  | nil => exact writes_nothing
  | cons p hash hrec =>
    obtain ⟨k, v⟩ := p
    rw [ReachedPairs] at hin
    have hpair := ih (k, v) List.mem_cons_self
    have htail := hrec hin.2 fun q hq => ih q (List.mem_cons_of_mem _ hq)
    rw [ReachedPairs, toWirePairs, Wire.bytesList, Wire.bytesList, ← List.append_assoc, packPairs]
    exact ((hpair.1 hin.1.1).andThen (hpair.2 hin.1.2)).andThen htail

theorem toWirePairs_length (hash : List (LuaValue × LuaValue)) :
    hash.length ≤ (Wire.bytesList (toWirePairs h hash)).length := by
  induction hash with
  | nil => exact Nat.zero_le _
  | cons p hash ih =>
    obtain ⟨k, v⟩ := p
    have hk := (toWire h k).len_pos
    rw [toWirePairs, Wire.bytesList, Wire.bytesList]
    simp only [List.length_append, List.length_cons]
    simp only [Wire.len] at hk
    omega

theorem writes_array {arr : List LuaValue} (hin : InTable arr)
    (hlist : Writes (packElems h arr.length arr) (ReachedList Encodable (fun _ => True) arr)
      (Wire.bytesList (toWireList h arr))) :
    Writes ((packHeader 0x90 0xdc 0xdd arr.length).andThen
        (packElems h (toInt arr.length).toNat arr))
      (ReachedList Encodable (fun _ => True) arr)
      (Wire.array (widthOf 16 arr.length) arr.length (toWireList h arr)).bytes := by
  have hor : ∀ k < 16, (0x90 : UInt8) ||| UInt8.ofNat k = 0x90 + UInt8.ofNat k := by decide
  have hcount : (toInt arr.length).toNat = arr.length := by
    unfold InTable at hin
    unfold toInt
    omega
  have hshort : arr.length < 4294967296 - 1 := by
    unfold InTable at hin
    omega
  rw [hcount]
  exact ((writes_packHeader hshort hor).andThen hlist).congr (iff_of_eq (true_and _))

/-- A map with more pairs than a count can say has no header, but is too long anyway. -/
theorem writes_map {hash : List (LuaValue × LuaValue)}
    (hpairs : Writes (packPairs h hash) (ReachedPairs Encodable (fun _ => True) hash)
      (Wire.bytesList (toWirePairs h hash))) :
    Writes ((packHeader 0x80 0xde 0xdf hash.length).andThen (packPairs h hash))
      (ReachedPairs Encodable (fun _ => True) hash)
      (Wire.map (widthOf 16 hash.length) hash.length (toWirePairs h hash)).bytes := by
  have hor : ∀ k < 16, (0x80 : UInt8) ||| UInt8.ofNat k = 0x80 + UInt8.ofNat k := by decide
  rcases Nat.lt_or_ge hash.length (4294967296 - 1) with hshort | hlong
  · exact ((writes_packHeader hshort hor).andThen hpairs).congr (iff_of_eq (true_and _))
  · obtain ⟨bs, hhdr⟩ := writes_packHeader_any 0x80 0xde 0xdf hash.length
    have hlen := toWirePairs_length (h := h) hash
    refine (hhdr.andThen hpairs).overlong ?_ ?_
    · rw [List.length_append, capacity_eq]
      omega
    · rw [Wire.bytes, List.length_append, capacity_eq]
      omega

end Tables

theorem writes_boolean (b : Bool) :
    Writes (mpwbufPackBoolean b) True (Wire.single (if b then 0xc3 else 0xc2)).bytes := by
  cases b <;> exact writes_append _

theorem writes_anytype (h : Heap) (v : LuaValue) (hin : InRange v) :
    Writes (mpwbufPackAnytype h v) (Packable v) (toWire h v).bytes := by
  induction v using LuaValue.induct with
  | nil =>
    simp only [mpwbufPackAnytype, Packable, Reached, toWire]
    exact writes_append _
  | boolean b =>
    simp only [mpwbufPackAnytype, Packable, Reached, toWire]
    exact writes_boolean b
  | number n =>
    simp only [InRange, Reached, InInt64] at hin
    simp only [mpwbufPackAnytype, Packable, Reached, toWire]
    rw [← numberBytes_eq hin]
    exact writes_append _
  | string s =>
    simp only [mpwbufPackAnytype, Packable, Reached, toWire]
    exact writes_string s
  | buffer ms =>
    simp only [mpwbufPackAnytype, Packable, Reached, toWire]
    exact writes_string (ms.contents h)
  | foreign t =>
    simp only [mpwbufPackAnytype, Packable, Reached, toWire]
    refine writes_fail ?_ _
    cases t <;> decide
  | table id arr hash iharr ihhash =>
    simp only [mpwbufPackAnytype, Packable, InRange, Reached, toWire] at hin ⊢
    by_cases harr : 0 < arr.length
    · simp only [harr, if_true, true_and] at hin ⊢
      exact writes_array hin.1 (writes_elems hin.2 iharr)
    · simp only [harr, if_false] at hin ⊢
      exact writes_map (writes_pairs hin ihhash)

theorem packAnytype_init {h : Heap} {v : LuaValue} (hin : InRange v) :
    (Packable v ∧ (toWire h v).len ≤ 2 ^ 20 ∧
      mpwbufPackAnytype h v Mpwbuf.init = ((toWire h v).len, ⟨(toWire h v).bytes, 0⟩)) ∨
    (¬ (Packable v ∧ (toWire h v).len ≤ 2 ^ 20) ∧
      (mpwbufPackAnytype h v Mpwbuf.init).2.err ≠ 0) := by
  have hw := writes_anytype h v hin
  have hlen : Mpwbuf.init.data.length + (toWire h v).bytes.length = (toWire h v).len :=
    Nat.zero_add _
  rcases Classical.em (Packable v ∧ (toWire h v).len ≤ 2 ^ 20) with hok | hbad
  · refine .inl ⟨hok.1, hok.2, ?_⟩
    have hemit := hw.emits Mpwbuf.init hok.1 rfl
    rw [hlen, capacity_eq] at hemit
    exact hemit hok.2
  · refine .inr ⟨hbad, hw.fails Mpwbuf.init rfl (Nat.zero_le _) ?_⟩
    rw [hlen, capacity_eq]
    exact hbad

theorem packed_contents (h' : Heap) (mb : BlockId) {bs : List UInt8} (hbs : 0 < bs.length) :
    let (ms, h'') := levPushbufferFromMb h' mb bs.length (some (h'.blocks mb).nbytes)
    ms.contents (h''.store mb (h'.blocks mb).nbytes bs) = bs := by
  have hne : bs.length ≠ 0 := Nat.pos_iff_ne_zero.mp hbs
  simp only [levPushbufferFromMb, MemSlice.contents, Option.getD_some, hne, if_false]
  exact Heap.load_store_self _ _ _ _

/-- Packing succeeds exactly for the values with an encoding of at most 1 MiB, and the
Buffer then holds the encoding. Otherwise it raises an error. -/
theorem pack_iff (h : Heap) (v : LuaValue) (hin : InRange v) :
    ((∃ r, msgpackPack h v = .ok r) ↔ Packable v ∧ (toWire h v).len ≤ 2 ^ 20) ∧
    (∀ ms h', msgpackPack h v = .ok (ms, h') → ms.contents h' = (toWire h v).bytes) ∧
    (∀ e, msgpackPack h v = .error e → ∃ msg, e = .error msg) := by
  have hpos := (toWire h v).len_pos
  rcases packAnytype_init (h := h) hin with ⟨hok, hfits, hrun⟩ | ⟨hbad, herr⟩
  · have hsome := (slabClassOf_isSome (toWire h v).len).mpr hfits
    cases hget : levSlabGetBlock h (toWire h v).len with
    | none =>
      have hnone := levSlabGetBlock_eq_none.mp hget
      omega
    | some r =>
      obtain ⟨mb, h₁⟩ := r
      have hbuf := packed_contents h₁ mb hpos
      have hpack : msgpackPack h v = .ok
          ((levPushbufferFromMb h₁ mb (toWire h v).len (some (h₁.blocks mb).nbytes)).1,
           (levPushbufferFromMb h₁ mb (toWire h v).len (some (h₁.blocks mb).nbytes)).2.store mb
            (h₁.blocks mb).nbytes (toWire h v).bytes) := by
        rw [msgpackPack, hrun]
        simp only [hpos, and_self, if_true]
        rw [show (toWire h v).bytes.length = (toWire h v).len from rfl, hget]
      refine ⟨⟨fun _ => ⟨hok, hfits⟩, fun _ => ⟨_, hpack⟩⟩, fun ms h' hres => ?_, fun e hres => ?_⟩
      · rw [hpack, Except.ok.injEq, Prod.mk.injEq] at hres
        rw [← hres.1, ← hres.2]
        exact hbuf
      · rw [hpack] at hres
        cases hres
  · have hpack : msgpackPack h v =
        .error (.error (errmsg (mpwbufPackAnytype h v Mpwbuf.init).2.err)) := by
      rw [msgpackPack]
      simp only [herr, and_false, if_false]
    refine ⟨⟨fun ⟨r, hres⟩ => ?_, fun hgood => (hbad hgood).elim⟩, fun ms h' hres => ?_,
      fun e hres => ?_⟩
    · rw [hpack] at hres
      cases hres
    · rw [hpack] at hres
      cases hres
    · rw [hpack] at hres
      cases hres
      exact ⟨_, rfl⟩

/-- An array with a function between its elements is refused. -/
theorem pack_iff_function :
    ¬ ∃ r, msgpackPack (Heap.boot fun _ _ => 0)
      (.table 0 [.number (.ofInt 1), .foreign .function, .string [97]] []) = .ok r := by
  have hin : InRange (.table 0 [.number (.ofInt 1), .foreign .function, .string [97]] []) := by
    have hone : InInt64 (.number (.ofInt 1)) := by
      intro z hz
      have h1 : (Double.ofInt 1).toInt? = some 1 := by decide +kernel
      rw [h1, Option.some.injEq] at hz
      subst hz
      decide
    simp only [InRange, Reached, ReachedList, InTable, List.length_cons, List.length_nil]
    exact ⟨by decide, hone, trivial, trivial, trivial⟩
  rw [(pack_iff _ _ hin).1]
  rintro ⟨hpack, -⟩
  simp [Packable, Reached, ReachedList, Encodable] at hpack

end Lev.MPack
