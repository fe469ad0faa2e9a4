import Lev.MPackHead
import Lev.UnpackerStream

/-! What `unpacker_feed` keeps of its bytes does not depend on how they are cut, and where it
counts a message the first of the bytes kept are one. A feed refused after bytes were kept
leaves them there. -/
namespace Lev.MPack
open CInt Endian Slab Memory Lua Run

namespace Head

/-- With enough bytes behind it, a tag that is not reserved starts a head. -/
theorem read_long {t : UInt8} {r : List UInt8} (ht : tagOf t ≠ .reserved)
    (hlen : 2 ^ 32 + 8 ≤ r.length) : (read (t :: r)).isSome := by
  have hcount :
      ∀ k (w : Width), readCount k w r = some (countOf k (r.take w.size) w, r.drop w.size) := by
    intro k w
    have hw : w.size ≤ 4 := by cases w <;> decide
    rw [readCount, if_neg (by omega)]
  cases htag : tagOf t with
  | single => simp only [read, htag, Option.isSome_some]
  | scalar s =>
    have hs : s.size ≤ 8 := by cases s <;> decide
    have hroom : ¬ r.length < s.size := by omega
    simp only [read, htag, if_neg hroom, Option.isSome_some]
  | raw w k =>
    have hw : w.size ≤ 4 := by cases w <;> decide
    have hfits := (raw_of_tag htag (List.length_take_of_le (show w.size ≤ r.length by omega))).1
    have hn := Width.fits_lt (by decide) hfits
    have hroom : ¬ (r.drop w.size).length < countOf k (r.take w.size) w := by
      rw [List.length_drop]
      omega
    simp only [read, htag, hcount, Option.bind_some, if_neg hroom, Option.isSome_some]
  | array w k | map w k => simp only [read, htag, hcount, Option.map_some, Option.isSome_some]
  | reserved => exact absurd htag ht

theorem cut_of_read {t : UInt8} {r : List UInt8} (ht : tagOf t ≠ .reserved)
    (h : read (t :: r) = none) :
    ∃ (hd : Head) (q : List UInt8), hd.Valid ∧ q ≠ [] ∧ hd.bytes = t :: r ++ q := by
  have hlen : 2 ^ 32 + 8 ≤ (r ++ List.replicate (2 ^ 32 + 8) 0).length := by
    rw [List.length_append, List.length_replicate]
    exact Nat.le_add_left _ _
  obtain ⟨⟨hd, r'⟩, hread⟩ := Option.isSome_iff_exists.mp (read_long ht hlen)
  generalize List.replicate (2 ^ 32 + 8) (0 : UInt8) = pad at hread
  obtain ⟨hvalid, hbytes⟩ := read_some hread
  rw [← List.cons_append] at hbytes
  rcases List.append_eq_append_iff.mp hbytes with ⟨q, hq, -⟩ | ⟨q, hq, -⟩
  · refine ⟨hd, q, hvalid, ?_, hq⟩
    rintro rfl
    rw [List.append_nil] at hq
    have hself := read_bytes hvalid []
    rw [List.append_nil, hq, h] at hself
    cases hself
  · rw [hq, read_bytes hvalid] at h
    cases h

end Head

namespace Unpacker

variable {u u' : Unpacker} {s t : List UInt8}

theorem feed_frame : u.feed s = (0, u') ↔ u.used + s.length ≤ u.size ∧
    ∃ c, u.feedBytes s = some c ∧ u' = c.frame (u.buf ++ s) u.size 0 := by
  have hscan := u.feedBytes_frame (u.buf ++ s) u.size 0 s
  have hsame : ({ u with buf := u.buf ++ s } : Unpacker) = u.frame (u.buf ++ s) u.size 0 := rfl
  rw [feed_eq_zero_iff, hsame, hscan, Option.map_eq_some_iff]
  simp only [eq_comm (a := u')]

theorem feed_append : u.feed (s ++ t) = (0, u') ↔
    ∃ u₁, u.feed s = (0, u₁) ∧ u₁.feed t = (0, u') := by
  have hframe : ∀ c : Unpacker, (c.frame (u.buf ++ s) u.size 0).feedBytes t =
      (c.feedBytes t).map fun c' => c'.frame (u.buf ++ s) u.size 0 :=
    fun c => c.feedBytes_frame _ _ _ _
  constructor
  · intro h
    obtain ⟨hfits, c, hc, rfl⟩ := feed_frame.mp h
    rw [feedBytes_append] at hc
    obtain ⟨c₁, hc₁, hc₂⟩ := Option.bind_eq_some_iff.mp hc
    rw [List.length_append] at hfits
    refine ⟨_, feed_frame.mpr ⟨by omega, c₁, hc₁, rfl⟩, feed_frame.mpr ⟨?_, ?_⟩⟩
    · rw [used, show (c₁.frame (u.buf ++ s) u.size 0).buf = u.buf ++ s from rfl, List.length_append]
      rw [used] at hfits
      exact (Nat.add_assoc _ _ _).trans_le hfits
    · refine ⟨_, (hframe c₁).trans (congrArg _ hc₂), ?_⟩
      rw [← List.append_assoc]
      rfl
  · rintro ⟨u₁, hs, ht⟩
    obtain ⟨-, c₁, hc₁, rfl⟩ := feed_frame.mp hs
    obtain ⟨hfits, c, hc, rfl⟩ := feed_frame.mp ht
    rw [hframe] at hc
    obtain ⟨c₂, hc₂, rfl⟩ := Option.map_eq_some_iff.mp hc
    refine feed_frame.mpr ⟨?_, c₂, ?_, ?_⟩
    · rw [used, show (c₁.frame (u.buf ++ s) u.size 0).buf = u.buf ++ s from rfl,
        List.length_append, Nat.add_assoc, ← List.length_append] at hfits
      exact hfits
    · rw [feedBytes_append, hc₁, Option.bind_some, hc₂]
    · rw [← List.append_assoc]
      rfl

/-- How the bytes are cut makes no difference. -/
theorem feed_chunks (u : Unpacker) (s t : List UInt8) :
    ((u.feed s).1 = 0 ∧ ((u.feed s).2.feed t).1 = 0 ↔ (u.feed (s ++ t)).1 = 0) ∧
      ((u.feed (s ++ t)).1 = 0 → ((u.feed s).2.feed t).2 = (u.feed (s ++ t)).2) := by
  have hboth : (u.feed (s ++ t)).1 = 0 → (u.feed s).1 = 0 ∧ ((u.feed s).2.feed t).1 = 0 ∧
      ((u.feed s).2.feed t).2 = (u.feed (s ++ t)).2 := by
    intro h
    obtain ⟨u₁, hs, ht⟩ := feed_append.mp (Prod.ext h rfl : u.feed (s ++ t) = (0, _))
    simp only [hs, ht, true_and]
  refine ⟨⟨?_, fun h => ⟨(hboth h).1, (hboth h).2.1⟩⟩, fun h => (hboth h).2.2⟩
  rintro ⟨hs, ht⟩
  have hs' : u.feed s = (0, (u.feed s).2) := Prod.ext hs rfl
  have ht' : (u.feed s).2.feed t = (0, ((u.feed s).2.feed t).2) := Prod.ext ht rfl
  have hall := feed_append.mpr ⟨_, hs', ht'⟩
  exact congrArg Prod.fst hall

inductive Headed (u : Unpacker) (hd : Head) : Unpacker → Prop
  | counted (none : hd.arity = 0) : Headed u hd (u.progress 0)
  | opened {type : ContainerType} {expect : ℕ} {sizebytes : List UInt8}
    (ready : (u.opened type expect sizebytes).Ready) (arity : hd.arity ≤ max expect 1) :
    Headed u hd (u.opened type expect sizebytes)

theorem feedBytes_head {hd : Head} (hv : hd.Valid) (hu : u.Ready) (hroom : u.nstacked < maxStack) :
    ∃ u', u.feedBytes hd.bytes = some u' ∧ Headed u hd u' := by
  have hopen := Nat.not_le.mpr hroom
  cases hd with
  | single t =>
    have hact : actionOf t = .progress := by
      rw [actionOf_eq, show tagOf t = .single from hv]
      rfl
    rw [Head.bytes, feedBytes_cons, stepByte_action hu, hact]
    exact ⟨_, rfl, .counted rfl⟩
  | scalar s p =>
    have hact : actionOf s.tag = .push (.scalar s) s.size := by
      rw [actionOf_eq, tagOf_tag]
      rfl
    have hzero : ¬ ((ContainerType.scalar s).sizesize = 0 ∧ s.size = 0) :=
      fun hz => Nat.ne_of_gt s.size_pos hz.2
    have hlen : p.length = s.size := hv
    have hne : p ≠ [] := List.ne_nil_of_length_pos (hlen ▸ s.size_pos)
    rw [Head.bytes, feedBytes_cons, stepByte_action hu, hact]
    simp only [push, if_neg hzero, if_neg hopen, Option.bind_some]
    exact ⟨_, @feedBytes_opened_payload u (.scalar s) _ [] _ (Nat.le_refl 0) rfl hlen hne,
      .counted rfl⟩
  | raw w s =>
    have hs : (rawType w).sizesize ≤ (beBytes w.size s.length).length := by
      rw [beBytes_length]
      cases w <;> exact le_rfl
    rw [Head.bytes, feedBytes_append, feedBytes_rawHeader hu hv, Nat.mul_one, if_neg hopen]
    split
    · next hzero =>
      obtain rfl : s = [] := List.eq_nil_of_length_eq_zero hzero.2
      exact ⟨_, rfl, .counted rfl⟩
    · rcases eq_or_ne s [] with rfl | hne
      · exact ⟨_, rfl, .opened (ready_opened hu hs (.inr rfl)) (Nat.zero_le _)⟩
      · exact ⟨_, feedBytes_opened_payload (u := u) hs (by cases w <;> rfl) rfl hne, .counted rfl⟩
  | array w n =>
    have hs : (arrayType w).sizesize ≤ (beBytes w.size n).length := by
      rw [beBytes_length]
      cases w <;> exact le_rfl
    rw [Head.bytes, feedBytes_arrayHeader hu hv, Nat.mul_one, if_neg hopen]
    split
    · next hzero => exact ⟨_, rfl, .counted hzero.2⟩
    · exact ⟨_, rfl, .opened (ready_opened hu hs (.inl (by cases w <;> rfl))) (le_max_left _ _)⟩
  | map w n =>
    have hs : (mapType w).sizesize ≤ (beBytes w.size n).length := by
      rw [beBytes_length]
      cases w <;> exact le_rfl
    have htwice : (Head.map w n).arity = n * 2 := Nat.mul_comm 2 n
    rw [Head.bytes, feedBytes_mapHeader hu hv, if_neg hopen]
    split
    · next hzero => exact ⟨_, rfl, .counted (htwice.trans hzero.2)⟩
    · exact ⟨_, rfl, .opened (ready_opened hu hs (.inl (by cases w <;> rfl)))
        (htwice.trans_le (le_max_left _ _))⟩

theorem single_of_full {d : UInt8} {p : List UInt8} (hu : u.Ready) (hfull : maxStack ≤ u.nstacked)
    (h : u.feedBytes (d :: p) = some u') : tagOf d = .single := by
  have hpush : ∀ type expect, u.push type expect = none := fun type expect => if_pos hfull
  rw [feedBytes_cons, stepByte_action hu, actionOf_eq] at h
  cases htag : tagOf d with
  | single => rfl
  | scalar s | raw w k | array w k | map w k =>
    simp only [htag, Tag.action, hpush, Option.bind_none] at h
    cases h
  | reserved =>
    rw [htag] at h
    cases h

theorem feedBytes_read {d r : List UInt8} {hd : Head} (hu : u.Ready)
    (hread : Head.read d = some (hd, r)) (h : u.feedBytes d = some u') :
    ∃ u₁, u.feedBytes hd.bytes = some u₁ ∧ Headed u hd u₁ ∧ u₁.feedBytes r = some u' := by
  obtain ⟨hv, rfl⟩ := Head.read_some hread
  obtain ⟨u₁, hfirst, hrest⟩ :
      ∃ u₁, u.feedBytes hd.bytes = some u₁ ∧ u₁.feedBytes r = some u' := by
    rw [feedBytes_append] at h
    exact Option.bind_eq_some_iff.mp h
  refine ⟨u₁, hfirst, ?_, hrest⟩
  rcases Nat.lt_or_ge u.nstacked maxStack with hroom | hfull
  · obtain ⟨u₂, hscan, hheaded⟩ := feedBytes_head hv hu hroom
    cases hscan.symm.trans hfirst
    exact hheaded
  · obtain ⟨t, p, hbytes⟩ := List.exists_cons_of_ne_nil hd.bytes_ne_nil
    rw [hbytes] at hfirst
    have htag := single_of_full hu hfull hfirst
    have hself := Head.read_bytes hv []
    rw [List.append_nil, hbytes] at hself
    simp only [Head.read, htag, Option.some.injEq, Prod.mk.injEq] at hself
    obtain ⟨rfl, rfl⟩ := hself
    have hact : actionOf t = .progress := by
      rw [actionOf_eq, htag]
      rfl
    rw [feedBytes_cons, stepByte_action hu, hact] at hfirst
    cases hfirst
    exact .counted rfl

theorem Headed.ready {hd : Head} (hh : Headed u hd u') (hu : u.Ready) : u'.Ready := by
  cases hh with
  | counted none => exact (hu.progress 0).2
  | opened ready arity => exact ready

theorem Headed.balance_le {hd : Head} (hh : Headed u hd u') (hu : u.Ready) :
    u'.balance ≤ u.balance + 1 - hd.arity := by
  cases hh with
  | counted none =>
    rw [balance_progress hu, none]
    exact le_of_eq (sub_zero _).symm
  | @opened type expect sizebytes ready arity =>
    have hone : 1 ≤ max expect 1 := le_max_right _ _
    rw [balance_opened]
    omega

theorem Headed.resultnum {hd : Head} (hh : Headed u hd u') :
    u'.resultnum = u.resultnum ∨ u'.stack = [] ∧ u'.resultnum = u.resultnum + 1 := by
  cases hh with
  | counted none =>
    by_cases hst : progressLoop 0 u.stack = []
    · exact .inr ⟨hst, by rw [progress, hst]; rfl⟩
    · exact .inl (if_neg fun h => hst (List.isEmpty_iff.mp h))
  | opened ready arity => exact .inl rfl

theorem Headed.resultnum_le {hd : Head} (hh : Headed u hd u') (hu : u.Ready) :
    (u'.resultnum : ℤ) ≤ max (u.resultnum : ℤ) (u.balance + 1 - hd.arity) := by
  rcases hh.resultnum with hsame | ⟨hst, -⟩
  · exact le_max_of_le_left (le_of_eq (congrArg Nat.cast hsame))
  · have hle := hh.balance_le hu
    rw [balance, hst, waits, Nat.cast_zero, sub_zero] at hle
    exact le_max_of_le_right hle

theorem feedBytes_cut {d : UInt8} {p : List UInt8} (hu : u.Ready)
    (hread : Head.read (d :: p) = none) (h : u.feedBytes (d :: p) = some u') :
    u'.resultnum = u.resultnum := by
  have htag : tagOf d ≠ .reserved := by
    intro htag
    rw [feedBytes_cons, stepByte_action hu, actionOf_eq, htag] at h
    cases h
  have hroom : u.nstacked < maxStack := by
    by_contra hfull
    have hsingle := single_of_full hu (Nat.le_of_not_lt hfull) h
    simp only [Head.read, hsingle] at hread
    cases hread
  obtain ⟨hd, q, hv, hq, hbytes⟩ := Head.cut_of_read htag hread
  obtain ⟨u₁, hall, hheaded⟩ := feedBytes_head hv hu hroom
  rw [hbytes] at hall
  rcases hheaded.resultnum with hsame | ⟨hst, hone⟩
  · have hle := feedBytes_resultnum_le h
    rw [feedBytes_append, h, Option.bind_some] at hall
    have hle' := feedBytes_resultnum_le hall
    omega
  · exact feedBytes_part hq h hall hst hone

/-- The bytes begin with `k` values, that count as many messages at most. -/
structure Begins (u : Unpacker) (k : ℕ) (d : List UInt8) (xs : List Wire) (r : List UInt8)
    (u₁ : Unpacker) : Prop where
  bytes : d = Wire.bytesList xs ++ r
  length : xs.length = k
  wellFormed : ∀ x ∈ xs, x.WellFormed
  scan : u.feedBytes (Wire.bytesList xs) = some u₁
  ready : u₁.Ready
  balance : u₁.balance ≤ u.balance + k
  resultnum : (u₁.resultnum : ℤ) ≤ max (u.resultnum : ℤ) (u.balance + k)

theorem feedBytes_begins {d : List UInt8} {c : Unpacker} (hu : u.Ready)
    (h : u.feedBytes d = some c) (k : ℕ) :
    (0 < k ∧ (c.resultnum : ℤ) ≤ max (u.resultnum : ℤ) (u.balance + k - 1)) ∨
      ∃ xs r u₁, Begins u k d xs r u₁ := by
  induction hn : d.length using Nat.strong_induction_on generalizing u d k with
  | _ n ih =>
    cases k with
    | zero =>
      refine .inr ⟨[], d, u, rfl, rfl, nofun, rfl, hu, ?_, le_max_left _ _⟩
      rw [Nat.cast_zero, add_zero]
    | succ k =>
      have hshort : c.resultnum = u.resultnum →
          (c.resultnum : ℤ) ≤ max (u.resultnum : ℤ) (u.balance + (k + 1 : ℕ) - 1) :=
        fun hsame => le_max_of_le_left (le_of_eq (congrArg Nat.cast hsame))
      cases hread : Head.read d with
      | none =>
        refine .inl ⟨Nat.succ_pos k, hshort ?_⟩
        cases d with
        | nil =>
          cases h
          rfl
        | cons t p => exact feedBytes_cut hu hread h
      | some hdr =>
        obtain ⟨hd, r⟩ := hdr
        obtain ⟨hv, hd'⟩ := Head.read_some hread
        obtain ⟨u₁, hscan, hheaded, hrest⟩ := feedBytes_read hu hread h
        have hready := hheaded.ready hu
        have hbalance := hheaded.balance_le hu
        have hresult := hheaded.resultnum_le hu
        have hlt : r.length < n := by
          have hpos := List.length_pos_of_ne_nil hd.bytes_ne_nil
          rw [← hn, hd', List.length_append]
          omega
        rcases ih _ hlt hready hrest (hd.arity + k) rfl with ⟨hpos, hle⟩ | ⟨xs, r', u₂, hb⟩
        · refine .inl ⟨Nat.succ_pos k, ?_⟩
          push_cast at hle ⊢
          omega
        · have htake : (xs.take hd.arity).length = hd.arity :=
            List.length_take_of_le (by rw [hb.length]; exact Nat.le_add_right _ _)
          have hbytes : Wire.bytesList (hd.withItems (xs.take hd.arity) :: xs.drop hd.arity) =
              hd.bytes ++ Wire.bytesList xs := by
            rw [Wire.bytesList, Wire.bytes_head, Wire.head_withItems, Wire.items_withItems htake,
              List.append_assoc, ← Wire.bytesList_append, List.take_append_drop]
          refine .inr ⟨hd.withItems (xs.take hd.arity) :: xs.drop hd.arity, r', u₂, ?_, ?_, ?_, ?_,
            hb.ready, ?_, ?_⟩
          · rw [hbytes, List.append_assoc, ← hb.bytes, ← hd']
          · rw [List.length_cons, List.length_drop, hb.length, Nat.add_sub_cancel_left]
          · refine List.forall_mem_cons.mpr ⟨Wire.wellFormed_iff.mpr ?_,
              fun y hy => hb.wellFormed y (List.mem_of_mem_drop hy)⟩
            rw [Wire.head_withItems, Wire.items_withItems htake]
            exact ⟨hv, htake, fun y hy => hb.wellFormed y (List.mem_of_mem_take hy)⟩
          · rw [hbytes, feedBytes_append, hscan, Option.bind_some, hb.scan]
          · have hle := hb.balance
            push_cast at hle ⊢
            omega
          · have hle := hb.resultnum
            push_cast at hle ⊢
            omega

/-- A refused feed leaves the unpacker as it was; a pull with a message counted returns the
first of the messages kept, and takes its bytes. -/
def Atomic (grants : Grants) (h : Heap) (u : Unpacker) : StreamOp → Prop
  | .feed s => (u.feed s).1 = -1 → (u.feed s).2 = u
  | .pull => u.resultnum ≠ 0 → ∃ (x : Wire) (r : List UInt8) (v : LuaValue), x.WellFormed ∧
      u.buf = x.bytes ++ r ∧ x.Reads ⟨none, 0, 0⟩ false 0 v ∧
      u.pull grants h = .ok (v, { u with buf := r, resultnum := u.resultnum - 1 })

/-- What is fed does not fit, or has no reserved type byte and is not nested too deep; what is
pulled is a message that the decoder takes for what it is. -/
def Regular (grants : Grants) (u : Unpacker) : StreamOp → Prop
  | .feed s => u.size < u.used + s.length ∨ (u.feedBytes s).isSome
  | .pull => u.resultnum ≠ 0 → ∀ (x : Wire) (r : List UInt8), x.WellFormed →
      u.buf = x.bytes ++ r → x.Decodable grants

theorem feedLoop_buf (fuel : ℕ) (p : List UInt8) (u : Unpacker) :
    (feedLoop fuel p u).2.buf = u.buf := by
  induction fuel generalizing p u with
  | zero => cases p <;> rfl
  | succ fuel ih =>
    cases p with
    | nil => rfl
    | cons ch p =>
      rw [feedLoop]
      cases hneed : u.containerNeedsBytes with
      | some need =>
        simp only
        split
        · rw [ih, progressDatasize]
          split
          · rfl
          · simp only
            split <;> rfl
        · rw [ih]
          rfl
      | none =>
        simp only
        cases htag : u.feedTag ch with
        | none => rfl
        | some u₁ =>
          simp only
          rw [ih]
          simp only [feedTag] at htag
          cases hact : actionOf ch with
          | progress =>
            rw [hact] at htag
            cases htag
            rfl
          | error =>
            rw [hact] at htag
            cases htag
          | push type expect =>
            rw [hact] at htag
            simp only [push] at htag
            split at htag
            · cases htag
            · cases htag
              split <;> rfl

theorem feed_atomic_iff (grants : Grants) (h : Heap) (u : Unpacker) (s : List UInt8) :
    Atomic grants h u (.feed s) ↔ Regular grants u (.feed s) := by
  rw [Atomic, Regular]
  by_cases hover : u.size < u.used + s.length
  · exact iff_of_true (fun _ => by rw [feed, if_pos hover]) (.inl hover)
  · have hscan := u.feedBytes_frame (u.buf ++ s) u.size 0 s
    have hloop := feedLoop_eq (le_refl s.length) (u.frame (u.buf ++ s) u.size 0)
    have hfeed : u.feed s = feedLoop s.length s (u.frame (u.buf ++ s) u.size 0) := if_neg hover
    rw [hscan] at hloop
    cases hb : u.feedBytes s with
    | some c =>
      rw [hb] at hloop
      refine iff_of_true (fun hminus => ?_) (.inr rfl)
      rw [hfeed, hloop] at hminus
      cases hminus
    | none =>
      rw [hb] at hloop
      refine iff_of_false (fun hatomic => ?_) (fun hr => hr.elim hover (by rintro ⟨⟩))
      have hsame := hatomic ((congrArg Prod.fst hfeed).trans hloop)
      have hbuf : (u.feed s).2.buf = u.buf ++ s := by
        rw [hfeed, feedLoop_buf]
        rfl
      rw [hsame] at hbuf
      obtain rfl : s = [] := List.append_right_eq_self.mp hbuf.symm
      cases hb

/-- The bytes kept are what came to a state `v` that counted and waits for no more than the
`pulled` messages, and the counters are what they led to. -/
structure Scanned (u : Unpacker) : Prop where
  start : ∃ (v c : Unpacker) (pulled : ℕ), v.Ready ∧ v.balance ≤ pulled ∧ v.resultnum ≤ pulled ∧
    v.feedBytes u.buf = some c ∧ c.stack = u.stack ∧ c.resultnum = u.resultnum + pulled

theorem scanned_init (size : ℕ) : (init size).Scanned :=
  ⟨init size, init size, 0, (fun e he => by cases he), le_refl _, le_refl _, rfl, rfl, rfl⟩

theorem Scanned.feed {s : List UInt8} (hs : u.Scanned) (hfeed : u.feed s = (0, u')) :
    u'.Scanned := by
  obtain ⟨v, c, pulled, hready, hbalance, hnum, hscan, hstack, hresult⟩ := hs.start
  obtain ⟨-, c', hc', rfl⟩ := feed_frame.mp hfeed
  have hc : c = u.frame c.buf c.size pulled := by
    obtain ⟨buf, size, stack, resultnum⟩ := c
    simp only at hstack hresult
    rw [frame, hstack, hresult]
  refine ⟨v, c'.frame c.buf c.size pulled, pulled, hready, hbalance, hnum, ?_, rfl, rfl⟩
  have hbuf : (c'.frame (u.buf ++ s) u.size 0).buf = u.buf ++ s := rfl
  rw [hbuf, feedBytes_append, hscan, Option.bind_some]
  have hnext := u.feedBytes_frame c.buf c.size pulled s
  rw [← hc, hc'] at hnext
  exact hnext

theorem Scanned.message (hs : u.Scanned) (hn : u.resultnum ≠ 0) :
    ∃ (x : Wire) (r : List UInt8), x.WellFormed ∧ u.buf = x.bytes ++ r ∧
      Scanned { u with buf := r, resultnum := u.resultnum - 1 } := by
  obtain ⟨v, c, pulled, hready, hbalance, hnum, hscan, hstack, hresult⟩ := hs.start
  rcases feedBytes_begins hready hscan 1 with ⟨-, hle⟩ | ⟨xs, r, u₁, hb⟩
  · push_cast at hle
    omega
  · obtain ⟨x, rfl⟩ := List.length_eq_one_iff.mp hb.length
    have hone : Wire.bytesList [x] = x.bytes := List.append_nil _
    have hbytes := hb.bytes
    rw [hone] at hbytes
    refine ⟨x, r, hb.wellFormed x List.mem_cons_self, hbytes, u₁, c, pulled + 1, hb.ready,
      ?_, ?_, ?_,
      hstack, ?_⟩
    · have hle := hb.balance
      push_cast at hle ⊢
      omega
    · have hle := hb.resultnum
      push_cast at hle
      omega
    · rw [hb.bytes, feedBytes_append, hb.scan, Option.bind_some] at hscan
      exact hscan
    · simp only
      omega

theorem atomic_step {grants : Grants} (h : Heap) (hs : u.Scanned) {op : StreamOp}
    (hr : Regular grants u op) : Atomic grants h u op ∧ (u.next grants h op).2.Scanned := by
  cases op with
  | feed s =>
    have hatomic := (feed_atomic_iff grants h u s).mpr hr
    refine ⟨hatomic, ?_⟩
    have hnext : (u.next grants h (.feed s)).2 = (u.feed s).2 := rfl
    rw [hnext]
    rcases hr with hover | hscan
    · rw [Unpacker.feed, if_pos hover]
      exact hs
    · by_cases hover : u.size < u.used + s.length
      · rw [Unpacker.feed, if_pos hover]
        exact hs
      · obtain ⟨c, hc⟩ := Option.isSome_iff_exists.mp hscan
        have hfeed := feed_frame.mpr ⟨Nat.le_of_not_lt hover, c, hc, rfl⟩
        rw [hfeed]
        exact hs.feed hfeed
  | pull =>
    by_cases hn : u.resultnum = 0
    · refine ⟨fun hne => absurd hn hne, ?_⟩
      rw [next, pull, if_pos hn]
      exact hs
    · obtain ⟨x, r, hx, hbuf, hs'⟩ := hs.message hn
      obtain ⟨v, hpull, hreads⟩ := pull_legal h (hr hn x r hx hbuf) hbuf hn
      refine ⟨fun _ => ⟨x, r, v, hx, hbuf, hreads, hpull⟩, ?_⟩
      rw [next, hpull]
      exact hs'

/-- In a run in which no feed is refused for its bytes, refused feeds change nothing and every
pull with a message counted returns the first message kept. -/
theorem run_atomic (grants : Grants) (h : Heap) (size : ℕ) (ops : List StreamOp)
    (hr : Along (fun u op => (next grants h u op).2) (Regular grants) (init size) ops) :
    Along (fun u op => (next grants h u op).2) (Atomic grants h) (init size) ops := by
  have hstep : ∀ {u : Unpacker}, u.Scanned →
      Along (fun u op => (next grants h u op).2) (Regular grants) u ops →
      Along (fun u op => (next grants h u op).2) (Atomic grants h) u ops := by
    clear hr
    induction ops with
    | nil => exact fun _ _ => trivial
    | cons op ops ih =>
      intro u hs hr
      obtain ⟨hatomic, hs'⟩ := atomic_step h hs hr.1
      exact ⟨hatomic, ih hs' hr.2⟩
  exact hstep (scanned_init size) hr

/-- An array of a reserved type byte is refused, and both bytes stay. -/
theorem reserved_keeps_bytes :
    ¬ Along (fun u op => (next luajitGrants (Heap.boot fun _ _ => 0) u op).2)
      (Atomic luajitGrants (Heap.boot fun _ _ => 0)) (init 1024) [.feed [0x91, 0xc1]] := by
  rintro ⟨hatomic, -⟩
  have hsame := hatomic (by decide)
  revert hsame
  decide

/-- A message, a feed for which there is no room, and a pull. -/
theorem run_atomic_full :
    Along (fun u op => (next luajitGrants (Heap.boot fun _ _ => 0) u op).2)
      (Atomic luajitGrants (Heap.boot fun _ _ => 0)) (init 4)
        [.feed [5, 6], .feed [7, 8, 9], .pull] := by
  refine run_atomic _ _ 4 _ ⟨.inr (by decide), .inl (by decide), fun _ x r hx h => ?_, trivial⟩
  obtain ⟨rfl, -⟩ := Wire.eq_single (t := 5) (d := [6]) (by decide) (Wire.wellFormed_iff.mp hx).1 h
  exact ⟨(by decide : tagOf 5 = .single), trivial⟩

end Unpacker

end Lev.MPack
