import Lev.MPackSafety
import Lev.Unpacker

/-! `unpacker_feed` one byte at a time, and what the bytes of a tree do to its stack: one
step of progress for the tree, if none of its counts misleads. -/
namespace Lev.MPack
open CInt Endian Slab Memory Lua

namespace Mpstackent

/-- An entry with all the bytes of its count. -/
def counted (e : Mpstackent) (full : List UInt8) : Mpstackent :=
  let count := if e.sizesize = 2 then ntohs (leNat full) else ntohl (leNat full)
  { e with sizebytes := full, expect := if e.t.isMap then count * 2 else count }

/-- An entry that waits for values. One that expects nothing, because of a count of 0 behind
the tag, waits for a value too. -/
structure Open (e : Mpstackent) : Prop where
  sized : e.sizesize ≤ e.sizesofar
  below : e.sofar < max e.expect 1
  kind : e.t.isContainer = true ∨ e.expect = 0

/-- How many values an open entry waits for, besides one. -/
def more (e : Mpstackent) : ℕ := max e.expect 1 - e.sofar - 1

end Mpstackent

namespace Unpacker

/-- One turn of the loop of `unpacker_feed` for one byte. -/
def stepByte (u : Unpacker) (ch : UInt8) : Option Unpacker :=
  match u.containerNeedsBytes with
  | some dataneed => some (if 0 < dataneed then u.progressDatasize 1 else u.progress ch)
  | none => u.feedTag ch

def feedBytes (u : Unpacker) (p : List UInt8) : Option Unpacker := p.foldlM stepByte u

theorem feedBytes_append (u : Unpacker) (p q : List UInt8) :
    u.feedBytes (p ++ q) = (u.feedBytes p).bind fun u' => u'.feedBytes q :=
  List.foldlM_append

theorem feedBytes_cons (u : Unpacker) (ch : UInt8) (p : List UInt8) :
    u.feedBytes (ch :: p) = (u.stepByte ch).bind fun u' => u'.feedBytes p :=
  List.foldlM_cons

theorem needsBytes_pos {u : Unpacker} {need : ℕ} (hn : u.containerNeedsBytes = some need)
    (hpos : 0 < need) :
    ∃ top stack, u.stack = top :: stack ∧ top.sizesize ≤ top.sizesofar ∧
      top.t.isContainer = false ∧ top.sofar + need = top.expect := by
  unfold containerNeedsBytes at hn
  split at hn
  · cases hn
  · rename_i top stack hst
    split at hn
    · cases hn
      cases hpos
    · rename_i hsize
      split at hn
      · rename_i hlt
        split at hn
        · cases hn
        · rename_i hcon
          refine ⟨top, stack, hst, Nat.le_of_not_lt hsize, Bool.eq_false_iff.mpr hcon, ?_⟩
          have := Option.some.inj hn
          omega
      · cases hn

theorem needsBytes_payload {u : Unpacker} {top : Mpstackent} {stack : List Mpstackent} {need : ℕ}
    (hst : u.stack = top :: stack) (hsize : top.sizesize ≤ top.sizesofar)
    (hcon : top.t.isContainer = false) (hneed : top.sofar + need = top.expect) (hpos : 0 < need) :
    u.containerNeedsBytes = some need := by
  have hlt : top.sofar < top.expect := by omega
  rw [containerNeedsBytes, hst]
  simp only [if_neg (Nat.not_lt.mpr hsize), if_pos hlt, hcon, Bool.false_eq_true, if_false,
    Option.some.injEq]
  omega

theorem feedBytes_payload {u : Unpacker} {need : ℕ} (hn : u.containerNeedsBytes = some need)
    {bs : List UInt8} (hne : bs ≠ []) (hlen : bs.length ≤ need) :
    u.feedBytes bs = some (u.progressDatasize bs.length) := by
  induction bs generalizing u need with
  | nil => exact absurd rfl hne
  | cons b bs ih =>
    rw [List.length_cons] at hlen
    have hpos : 0 < need := by omega
    rw [feedBytes_cons, stepByte, hn]
    simp only [if_pos hpos, Option.bind_some]
    cases bs with
    | nil => rfl
    | cons b' bs =>
      obtain ⟨top, stack, hst, hsize, hcon, hneed⟩ := needsBytes_pos hn hpos
      rw [List.length_cons] at hlen
      have hmore : ¬ top.sofar + 1 = top.expect := by omega
      have hone : u.progressDatasize 1 =
          { u with stack := { top with sofar := top.sofar + 1 } :: stack } := by
        rw [progressDatasize, hst]
        simp only [if_neg hmore]
      have hnext : (u.progressDatasize 1).containerNeedsBytes = some (need - 1) := by
        rw [hone]
        have hst' : ({ u with stack := { top with sofar := top.sofar + 1 } :: stack } :
            Unpacker).stack = { top with sofar := top.sofar + 1 } :: stack := rfl
        exact needsBytes_payload hst' hsize hcon (by simp only; omega) (by omega)
      rw [ih hnext (List.cons_ne_nil _ _) (by rw [List.length_cons]; omega), hone]
      simp only [progressDatasize, hst, List.length_cons]
      rw [show top.sofar + 1 + (bs.length + 1) = top.sofar + (bs.length + 1 + 1) by omega]

theorem feedLoop_eq {fuel : ℕ} {p : List UInt8} (hf : p.length ≤ fuel) (u : Unpacker) :
    match u.feedBytes p with
    | some u' => feedLoop fuel p u = (0, u')
    | none => (feedLoop fuel p u).1 = -1 := by
  induction fuel generalizing p u with
  | zero =>
    obtain rfl := List.eq_nil_of_length_eq_zero (Nat.le_zero.mp hf)
    exact rfl
  | succ fuel ih =>
    cases p with
    | nil => exact rfl
    | cons ch p =>
      rw [List.length_cons] at hf
      cases hn : u.containerNeedsBytes with
      | none =>
        rw [feedBytes_cons, stepByte, hn]
        simp only [feedLoop, hn]
        cases u.feedTag ch with
        | none => rfl
        | some u' => exact ih (by omega) u'
      | some need =>
        rcases Nat.eq_zero_or_pos need with rfl | hpos
        · rw [feedBytes_cons, stepByte, hn]
          simp only [feedLoop, hn, Nat.lt_irrefl, if_false]
          exact ih (by omega) _
        · have hsplit : ch :: p = (ch :: p).take (min (p.length + 1) need) ++
              p.drop (min (p.length + 1) need - 1) := by
            obtain ⟨k, hk⟩ : ∃ k, min (p.length + 1) need = k + 1 :=
              ⟨min (p.length + 1) need - 1, by omega⟩
            rw [hk, List.take_succ_cons, Nat.add_sub_cancel, List.cons_append,
              List.take_append_drop]
          have hlen :
              ((ch :: p).take (min (p.length + 1) need)).length = min (p.length + 1) need := by
            rw [List.length_take, List.length_cons, Nat.min_eq_left (Nat.min_le_left _ _)]
          have hne : (ch :: p).take (min (p.length + 1) need) ≠ [] := by
            intro hnil
            rw [hnil, List.length_nil] at hlen
            omega
          have hpay := feedBytes_payload hn hne (hlen.trans_le (Nat.min_le_right _ _))
          rw [hlen] at hpay
          have hrun : u.feedBytes (ch :: p) =
              (u.progressDatasize (min (p.length + 1) need)).feedBytes
                (p.drop (min (p.length + 1) need - 1)) := by
            rw [hsplit, feedBytes_append, hpay, Option.bind_some]
          rw [hrun]
          simp only [feedLoop, hn, if_pos hpos]
          exact ih (by rw [List.length_drop]; omega) _

theorem feed_eq_zero_iff {u u' : Unpacker} {p : List UInt8} :
    u.feed p = (0, u') ↔ u.used + p.length ≤ u.size ∧
      ({ u with buf := u.buf ++ p } : Unpacker).feedBytes p = some u' := by
  unfold feed
  split
  · rename_i hover
    constructor
    · intro h
      cases h
    · rintro ⟨hfits, -⟩
      omega
  · rename_i hfits
    have hrun := feedLoop_eq (le_refl p.length) { u with buf := u.buf ++ p }
    cases hb : ({ u with buf := u.buf ++ p } : Unpacker).feedBytes p with
    | none =>
      rw [hb] at hrun
      constructor
      · intro h
        rw [h] at hrun
        cases hrun
      · rintro ⟨-, h⟩
        cases h
    | some u'' =>
      rw [hb] at hrun
      simp only at hrun
      rw [hrun, Prod.mk.injEq, Option.some.injEq]
      exact ⟨fun h => ⟨Nat.le_of_not_lt hfits, h.2⟩, fun h => ⟨rfl, h.2⟩⟩

theorem feedBytes_sizebytes {u : Unpacker} {e : Mpstackent} {stack : List Mpstackent}
    {bs : List UInt8} (hst : u.stack = e :: stack) (hne : bs ≠ [])
    (hlen : e.sizesofar + bs.length = e.sizesize) :
    u.feedBytes bs = some { u with stack := e.counted (e.sizebytes ++ bs) :: stack } := by
  induction bs generalizing u e with
  | nil => exact absurd rfl hne
  | cons b bs ih =>
    rw [List.length_cons] at hlen
    have hlt : e.sizesofar < e.sizesize := by omega
    have hn : u.containerNeedsBytes = some 0 := by
      rw [containerNeedsBytes, hst]
      simp only [if_pos hlt]
    have hprog : u.progress b = { u with stack := e.addSizebyte b :: stack } := by
      rw [progress, hst, progressLoop, if_pos hlt]
      rfl
    have hlen' : (e.sizebytes ++ [b]).length = e.sizesofar + 1 := by
      rw [List.length_append]
      rfl
    rw [feedBytes_cons, stepByte, hn]
    simp only [Nat.lt_irrefl, if_false, Option.bind_some, hprog]
    cases bs with
    | nil =>
      have hfull : (e.sizebytes ++ [b]).length = e.t.sizesize := hlen'.trans hlen
      simp only [Mpstackent.addSizebyte, Mpstackent.sizesofar, Mpstackent.sizesize, hfull, if_true]
      rfl
    | cons b' bs =>
      have hpart : ¬ (e.sizebytes ++ [b]).length = e.t.sizesize := by
        have hs : e.sizesize = e.t.sizesize := rfl
        rw [List.length_cons] at hlen
        omega
      have hadd : e.addSizebyte b = { e with sizebytes := e.sizebytes ++ [b] } := by
        simp only [Mpstackent.addSizebyte, Mpstackent.sizesofar, Mpstackent.sizesize, hpart,
          if_false]
      have hnext : (e.sizebytes ++ [b]).length + (b' :: bs).length = e.sizesize := by
        rw [hlen', List.length_cons]
        rw [List.length_cons] at hlen
        omega
      rw [hadd, ih (e := { e with sizebytes := e.sizebytes ++ [b] })
        rfl (List.cons_ne_nil _ _) hnext]
      simp only [Mpstackent.counted, Mpstackent.sizesize, List.append_assoc, List.singleton_append]
      rfl

/-- Only open entries are on the stack: the next byte starts a value. -/
def Ready (u : Unpacker) : Prop := ∀ e ∈ u.stack, e.Open

theorem Ready.needsBytes {u : Unpacker} (hu : u.Ready) : u.containerNeedsBytes = none := by
  unfold containerNeedsBytes
  cases hst : u.stack with
  | nil => rfl
  | cons e stack =>
    have he := hu e (by rw [hst]; exact List.mem_cons_self)
    simp only [if_neg (Nat.not_lt.mpr he.sized)]
    rcases he.kind with hc | hz
    · simp only [hc, if_true, ite_self]
    · rw [if_neg (by omega)]

def waits : List Mpstackent → ℕ
  | [] => 0
  | e :: stack => e.more + waits stack

theorem progressLoop_open {stack : List Mpstackent} (hs : ∀ e ∈ stack, e.Open) (ch : UInt8) :
    progressLoop ch stack = progressLoop 0 stack ∧ (∀ e ∈ progressLoop 0 stack, e.Open) ∧
      (progressLoop 0 stack ≠ [] → waits (progressLoop 0 stack) + 1 = waits stack) ∧
      (progressLoop 0 stack = [] → waits stack = 0) := by
  induction stack with
  | nil => exact ⟨rfl, hs, fun h => absurd rfl h, fun _ => rfl⟩
  | cons e stack ih =>
    have he := hs e List.mem_cons_self
    have hrest : ∀ e ∈ stack, e.Open := fun x hx => hs x (List.mem_cons_of_mem _ hx)
    obtain ⟨hch, hopen, hwait, hdone⟩ := ih hrest
    have hbelow := he.below
    have hsized := Nat.not_lt.mpr he.sized
    simp only [progressLoop, if_neg hsized]
    by_cases hlt : e.sofar + 1 < e.expect
    · simp only [if_pos hlt]
      refine ⟨trivial, ?_, fun _ => ?_, fun h => absurd h (List.cons_ne_nil _ _)⟩
      · intro x hx
        rcases List.mem_cons.mp hx with rfl | hx
        · exact ⟨he.sized, by simp only; omega, he.kind⟩
        · exact hrest x hx
      · simp only [waits, Mpstackent.more]
        omega
    · simp only [if_neg hlt]
      have hlast : e.more = 0 := by
        unfold Mpstackent.more
        omega
      simp only [waits, hlast, Nat.zero_add]
      exact ⟨hch, hopen, hwait, hdone⟩

theorem Ready.progress {u : Unpacker} (hu : u.Ready) (ch : UInt8) :
    u.progress ch = u.progress 0 ∧ (u.progress 0).Ready := by
  obtain ⟨hch, hopen, -, -⟩ := progressLoop_open hu ch
  exact ⟨by rw [Unpacker.progress, hch, Unpacker.progress], hopen⟩

/-- The messages counted, less the values still waited for. -/
def balance (u : Unpacker) : ℤ := u.resultnum - waits u.stack

theorem balance_progress {u : Unpacker} (hu : u.Ready) :
    (u.progress 0).balance = u.balance + 1 := by
  obtain ⟨-, -, hwait, hdone⟩ := progressLoop_open hu 0
  unfold balance Unpacker.progress
  cases hst : progressLoop 0 u.stack with
  | nil =>
    have hzero := hdone hst
    simp only [List.isEmpty_nil, if_true, waits, hzero]
    push_cast
    omega
  | cons e stack =>
    have h := hwait (by rw [hst]; exact List.cons_ne_nil _ _)
    rw [hst] at h
    simp only [List.isEmpty_cons, Bool.false_eq_true, if_false]
    omega

/-- The state with a new entry on the stack, all of its count known. -/
def opened (u : Unpacker) (t : ContainerType) (expect : ℕ) (sizebytes : List UInt8) : Unpacker :=
  { u with stack := ⟨t, expect, 0, sizebytes⟩ :: u.stack }

theorem progress_last (u : Unpacker) {e : Mpstackent} (hsized : e.sizesize ≤ e.sizesofar)
    (hlast : e.expect ≤ e.sofar + 1) :
    ({ u with stack := e :: u.stack } : Unpacker).progress 0 = u.progress 0 := by
  have hend : ¬ e.sofar + 1 < e.expect := Nat.not_lt.mpr hlast
  simp only [progress, progressLoop, if_neg (Nat.not_lt.mpr hsized), if_neg hend]

theorem stepByte_action {u : Unpacker} (hu : u.Ready) (ch : UInt8) : u.stepByte ch =
    match actionOf ch with
    | .progress => some (u.progress 0)
    | .push t expect => u.push t expect
    | .error => none := by
  rw [stepByte, hu.needsBytes]
  cases hact : actionOf ch with
  | progress =>
    rw [feedTag, hact]
    exact congrArg some (hu.progress ch).1
  | push t expect => simp only [feedTag, hact]
  | error => simp only [feedTag, hact]

/-- The header of a container or a payload opens an entry, unless it says in its tag that
nothing follows. -/
theorem feedBytes_header {u : Unpacker} (hu : u.Ready) {base tag16 tag32 : UInt8} {inTag k : ℕ}
    {type : Width → ContainerType}
    (hfix : ∀ n < inTag, actionOf (base + UInt8.ofNat n) = .push (type .fix) (n * k))
    (htwo : actionOf tag16 = .push (type .two) 0) (hfour : actionOf tag32 = .push (type .four) 0)
    (hsize : ∀ w, (type w).sizesize = w.size)
    (hmul : ∀ w (n : ℕ), (if (type w).isMap then n * 2 else n) = n * k) {w : Width} {n : ℕ}
    (hn : w.fits inTag n) :
    u.feedBytes (w.header base tag16 tag32 n) =
      if maxStack ≤ u.nstacked then none
      else if w = .fix ∧ n * k = 0 then some (u.progress 0)
      else some (u.opened (type w) (n * k) (beBytes w.size n)) := by
  have hopen : ∀ {tag : UInt8}, w ≠ .fix → actionOf tag = .push (type w) 0 →
      (w.size = 2 → ntohs (leNat (beBytes w.size n)) = n) →
      (w.size ≠ 2 → ntohl (leNat (beBytes w.size n)) = n) →
      u.feedBytes (tag :: beBytes w.size n) =
        if maxStack ≤ u.nstacked then none
        else some (u.opened (type w) (n * k) (beBytes w.size n)) := by
    intro tag hw htag htwo hfour
    have hpos : w.size ≠ 0 := by cases w <;> simp [Width.size] at hw ⊢
    have hne : beBytes w.size n ≠ [] := by
      intro hnil
      have hlen := beBytes_length w.size n
      rw [hnil] at hlen
      exact hpos hlen.symm
    rw [feedBytes_cons, stepByte_action hu, htag]
    simp only [push]
    split
    · rfl
    · have hzero : ¬ ((type w).sizesize = 0 ∧ True) := by
        rw [hsize, and_true]
        exact hpos
      simp only [if_neg hzero, Option.bind_some]
      rw [feedBytes_sizebytes (e := .init (type w) 0) rfl hne
        (by simp [Mpstackent.init, Mpstackent.sizesofar, Mpstackent.sizesize, hsize])]
      have hcount : (if (type w).sizesize = 2 then ntohs (leNat (beBytes w.size n))
          else ntohl (leNat (beBytes w.size n))) = n := by
        rw [hsize]
        split
        · exact htwo ‹_›
        · exact hfour ‹_›
      have hfull : ∀ {full : List UInt8} {c : ℕ},
          (if (type w).sizesize = 2 then ntohs (leNat full) else ntohl (leNat full)) = c →
          (Mpstackent.init (type w) 0).counted full =
            ⟨type w, if (type w).isMap then c * 2 else c, 0, full⟩ := by
        rintro full _ rfl
        rfl
      have hentry := hfull hcount
      rw [hmul] at hentry
      exact congrArg some
        (congrArg (fun e => ({ u with stack := e :: u.stack } : Unpacker)) hentry)
  have hswap : ∀ j, bswap j (leNat (beBytes j n)) = n % 256 ^ j := by
    intro j
    have h := bswap_leNat (beBytes j n)
    rwa [beBytes_length, beNat_beBytes] at h
  cases w with
  | fix =>
    rw [Width.header, feedBytes_cons, stepByte_action hu, hfix n hn]
    simp only [push, hsize, Width.size, true_and]
    split
    · rfl
    · split
      · rename_i hz
        rw [hz]
        exact congrArg some (u.progress_last (e := .init (type .fix) 0)
          (le_of_eq (hsize .fix)) (Nat.zero_le _))
      · rfl
  | two =>
    have hmod : n % 256 ^ 2 = n := Nat.mod_eq_of_lt hn
    have hnot : ¬ (Width.two = .fix ∧ n * k = 0) := fun h => by cases h.1
    rw [if_neg hnot]
    exact hopen (by decide) htwo (fun _ => (hswap 2).trans hmod) (fun h => absurd rfl h)
  | four =>
    have hmod : n % 256 ^ 4 = n := Nat.mod_eq_of_lt hn
    have hnot : ¬ (Width.four = .fix ∧ n * k = 0) := fun h => by cases h.1
    rw [if_neg hnot]
    exact hopen (by decide) hfour (fun h => absurd h (by decide)) (fun _ => (hswap 4).trans hmod)

end Unpacker

end Lev.MPack
