import Lev.UnpackerSteps

/-! What `unpacker_feed` makes of the encoding of a tree. It agrees with the decoder on
every count but two kinds of them: a 0 behind the tag, where it waits for a value that
does not come, and what the decoder takes for a negative number. -/
namespace Lev.MPack
open CInt Endian Slab Memory Lua

def rawType : Width → ContainerType
  | .fix => .raw
  | .two => .raw16
  | .four => .raw32

def arrayType : Width → ContainerType
  | .fix => .fixarray
  | .two => .array16
  | .four => .array32

def mapType : Width → ContainerType
  | .fix => .fixmap
  | .two => .map16
  | .four => .map32

/-- What `unpacker_feed` does where the decoder sees a tag. -/
def Tag.action : Tag → Action
  | .single => .progress
  | .scalar s => .push (.scalar s) s.size
  | .raw w inTag => .push (rawType w) (if w = .fix then inTag else 0)
  | .array w inTag => .push (arrayType w) (if w = .fix then inTag else 0)
  | .map w inTag => .push (mapType w) (if w = .fix then inTag * 2 else 0)
  | .reserved => .error

/-- The tests of `unpacker_feed` agree with those of the decoder. -/
theorem actionOf_eq (t : UInt8) : actionOf t = (tagOf t).action := by
  have h : ∀ n < 256, actionOf (UInt8.ofNat n) = (tagOf (UInt8.ofNat n)).action := by
    decide +kernel
  have ht := h t.toNat t.toNat_lt
  rwa [UInt8.ofNat_toNat] at ht

namespace Wire

mutual

/-- No count behind a tag is 0, and no count of an array or a map reaches 2^31. -/
def Counted : Wire → Prop
  | .single _ => True
  | .scalar _ _ => True
  | .raw w s => w = .fix ∨ s ≠ []
  | .array w n items => ((w = .fix ∨ n ≠ 0) ∧ n < 2 ^ 31) ∧ CountedList items
  | .map w n items => ((w = .fix ∨ n ≠ 0) ∧ n < 2 ^ 31) ∧ CountedList items

def CountedList : List Wire → Prop
  | [] => True
  | x :: items => x.Counted ∧ CountedList items

end

/-- The values waited for at a header that announces `n`, besides the `m` that come. -/
def extra (w : Width) (n m : ℕ) : ℕ := if w = .fix ∧ n = 0 then 0 else max n 1 - m

mutual

/-- How many values more than the decoder reads are waited for. -/
def excess : Wire → ℕ
  | .single _ => 0
  | .scalar _ _ => 0
  | .raw w s => extra w s.length s.length
  | .array w n items => extra w n items.length + excessList items
  | .map w n items => extra w (n * 2) items.length + excessList items

def excessList : List Wire → ℕ
  | [] => 0
  | x :: items => x.excess + excessList items

end

theorem countedList_iff {items : List Wire} : CountedList items ↔ ∀ x ∈ items, x.Counted := by
  induction items with
  | nil => simp [CountedList]
  | cons x items ih => simp [CountedList, ih]

theorem excessList_eq_zero {items : List Wire} :
    excessList items = 0 ↔ ∀ x ∈ items, x.excess = 0 := by
  induction items with
  | nil => simp [excessList]
  | cons x items ih => simp [excessList, ih]

/-- As many items as the decoder reads are enough exactly if the count is a positive `int`,
or stands in the tag. -/
theorem extra_eq_zero {w : Width} {n k : ℕ} (hk : k = 1 ∨ k = 2) (hn : w.fits 16 n) :
    extra w (n * k) (k * (toInt n).toNat) = 0 ↔ (w = .fix ∨ n ≠ 0) ∧ n < 2 ^ 31 := by
  have hlt := Width.fits_lt (by decide) hn
  have hfix : w = .fix → n < 16 := by
    rintro rfl
    exact hn
  rw [extra, toInt_toNat_eq hlt]
  by_cases hw : w = .fix
  · have := hfix hw
    rw [if_pos (show n < 2 ^ 31 by omega)]
    simp only [hw, true_and, true_or]
    split <;> rcases hk with rfl | rfl <;> omega
  · simp only [hw, false_and, if_false, false_or]
    split <;> rcases hk with rfl | rfl <;> omega

theorem counted_iff_excess {x : Wire} (hx : x.Legal) : x.Counted ↔ x.excess = 0 := by
  have hlist : ∀ {items : List Wire}, (∀ y ∈ items, y.Legal → (y.Counted ↔ y.excess = 0)) →
      LegalList items → (CountedList items ↔ excessList items = 0) := by
    intro items ih hitems
    rw [countedList_iff, excessList_eq_zero]
    exact forall₂_congr fun y hy => ih y hy (legalList_iff.mp hitems y hy)
  induction x using Wire.induct with
  | single t => simp only [Counted, excess]
  | scalar s p => simp only [Counted, excess]
  | raw w s =>
    rw [Counted, excess, extra]
    cases s with
    | nil => by_cases hw : w = .fix <;> simp [hw]
    | cons b s => simp
  | array w n items ih =>
    obtain ⟨hn, hcount, hitems⟩ := hx
    have hextra := extra_eq_zero (.inl rfl) hn
    rw [Nat.mul_one, Nat.one_mul, ← hcount] at hextra
    rw [Counted, excess, Nat.add_eq_zero_iff, hextra, hlist ih hitems]
  | map w n items ih =>
    obtain ⟨hn, hcount, -, hitems⟩ := hx
    have hextra := extra_eq_zero (.inr rfl) hn
    rw [← hcount] at hextra
    rw [Counted, excess, Nat.add_eq_zero_iff, hextra, hlist ih hitems]

end Wire

namespace Unpacker

variable {u u' : Unpacker}

theorem ready_opened (hu : u.Ready) {t : ContainerType} {expect : ℕ} {sizebytes : List UInt8}
    (hs : t.sizesize ≤ sizebytes.length) (hk : t.isContainer = true ∨ expect = 0) :
    (u.opened t expect sizebytes).Ready := by
  intro e he
  rcases List.mem_cons.mp he with rfl | he
  · exact ⟨hs, Nat.lt_of_lt_of_le Nat.zero_lt_one (le_max_right _ _), hk⟩
  · exact hu e he

theorem balance_opened (t : ContainerType) (expect : ℕ) (sizebytes : List UInt8) :
    (u.opened t expect sizebytes).balance = u.balance - (max expect 1 - 1 : ℕ) := by
  simp only [balance, opened, waits, Mpstackent.more, Nat.sub_zero]
  push_cast
  omega

theorem feedBytes_opened_payload {t : ContainerType} {expect : ℕ} {sizebytes bs : List UInt8}
    (hs : t.sizesize ≤ sizebytes.length) (hc : t.isContainer = false) (hlen : bs.length = expect)
    (hne : bs ≠ []) : (u.opened t expect sizebytes).feedBytes bs = some (u.progress 0) := by
  have hpos : 0 < expect := hlen ▸ List.length_pos_of_ne_nil hne
  have hst : (u.opened t expect sizebytes).stack = ⟨t, expect, 0, sizebytes⟩ :: u.stack := rfl
  have hn : (u.opened t expect sizebytes).containerNeedsBytes = some expect :=
    needsBytes_payload hst hs hc (Nat.zero_add _) hpos
  rw [feedBytes_payload hn hne (le_of_eq hlen)]
  simp only [progressDatasize, opened, Nat.zero_add, hlen, if_true]
  refine congrArg some (u.progress_last (e := ⟨t, expect, expect - 1, sizebytes⟩) hs ?_)
  simp only
  omega

theorem feedBytes_rawHeader (hu : u.Ready) {w : Width} {n : ℕ} (hn : w.fits 32 n) :
    u.feedBytes (Wire.rawHeader w n) =
      if maxStack ≤ u.nstacked then none
      else if w = .fix ∧ n * 1 = 0 then some (u.progress 0)
      else some (u.opened (rawType w) (n * 1) (beBytes w.size n)) :=
  feedBytes_header hu (by decide) rfl rfl (by intro w; cases w <;> rfl)
    (by intro w n; cases w <;> exact (Nat.mul_one n).symm) hn

theorem feedBytes_arrayHeader (hu : u.Ready) {w : Width} {n : ℕ} (hn : w.fits 16 n) :
    u.feedBytes (Wire.arrayHeader w n) =
      if maxStack ≤ u.nstacked then none
      else if w = .fix ∧ n * 1 = 0 then some (u.progress 0)
      else some (u.opened (arrayType w) (n * 1) (beBytes w.size n)) :=
  feedBytes_header hu (by decide) rfl rfl (by intro w; cases w <;> rfl)
    (by intro w n; cases w <;> exact (Nat.mul_one n).symm) hn

theorem feedBytes_mapHeader (hu : u.Ready) {w : Width} {n : ℕ} (hn : w.fits 16 n) :
    u.feedBytes (Wire.mapHeader w n) =
      if maxStack ≤ u.nstacked then none
      else if w = .fix ∧ n * 2 = 0 then some (u.progress 0)
      else some (u.opened (mapType w) (n * 2) (beBytes w.size n)) :=
  feedBytes_header hu (by decide) rfl rfl (by intro w; cases w <;> rfl)
    (by intro w n; cases w <;> rfl) hn

/-- Bytes that bring `values` more values than they wait for. -/
structure Fed (u u' : Unpacker) (values : ℤ) : Prop where
  ready : u'.Ready
  balance : u'.balance = u.balance + values

theorem fed_progress (hu : u.Ready) : Fed u (u.progress 0) 1 :=
  ⟨(hu.progress 0).2, balance_progress hu⟩

theorem feedBytes_list {items : List Wire}
    (ih : ∀ x ∈ items, ∀ {u u' : Unpacker}, u.Ready → u.feedBytes x.bytes = some u' →
      Fed u u' (1 - x.excess)) (hu : u.Ready)
    (h : u.feedBytes (Wire.bytesList items) = some u') :
    Fed u u' (items.length - Wire.excessList items) := by
  induction items generalizing u with
  | nil =>
    cases h
    exact ⟨hu, by simp [Wire.excessList]⟩
  | cons x items hrec =>
    rw [Wire.bytesList, feedBytes_append] at h
    obtain ⟨u₁, h₁, h₂⟩ := Option.bind_eq_some_iff.mp h
    have hhead := ih x List.mem_cons_self hu h₁
    have htail := hrec (fun y hy => ih y (List.mem_cons_of_mem _ hy)) hhead.ready h₂
    refine ⟨htail.ready, ?_⟩
    rw [htail.balance, hhead.balance, Wire.excessList, List.length_cons]
    push_cast
    ring

/-- A container: a header that waits for `expect` values, and its items. -/
theorem feedBytes_container {header : List UInt8} {items : List Wire} {w : Width} {expect : ℕ}
    {t : ContainerType} {sizebytes : List UInt8} (hu : u.Ready)
    (hheader : u.feedBytes header =
      if maxStack ≤ u.nstacked then none
      else if w = .fix ∧ expect = 0 then some (u.progress 0)
      else some (u.opened t expect sizebytes))
    (hs : t.sizesize ≤ sizebytes.length) (hc : t.isContainer = true)
    (hcount : items.length ≤ expect)
    (ih : ∀ x ∈ items, ∀ {u u' : Unpacker}, u.Ready → u.feedBytes x.bytes = some u' →
      Fed u u' (1 - x.excess))
    (h : u.feedBytes (header ++ Wire.bytesList items) = some u') :
    Fed u u' (1 - (Wire.extra w expect items.length + Wire.excessList items : ℕ)) := by
  rw [feedBytes_append, hheader] at h
  split at h
  · cases h
  · split at h
    · rename_i hzero
      obtain rfl : items = [] := List.eq_nil_of_length_eq_zero (by omega)
      cases h
      have hfed := fed_progress hu
      refine ⟨hfed.ready, ?_⟩
      rw [hfed.balance, Wire.extra, if_pos hzero]
      rfl
    · rename_i hzero
      rw [Option.bind_some] at h
      have hfed := feedBytes_list ih (ready_opened hu hs (.inl hc)) h
      refine ⟨hfed.ready, ?_⟩
      rw [hfed.balance, balance_opened, Wire.extra, if_neg hzero]
      have hmax : items.length ≤ max expect 1 := hcount.trans (le_max_left _ _)
      have hone : 1 ≤ max expect 1 := le_max_right _ _
      push_cast [hmax, hone]
      ring

theorem feedBytes_fed {x : Wire} (hx : x.Legal) (hu : u.Ready)
    (h : u.feedBytes x.bytes = some u') : Fed u u' (1 - x.excess) := by
  induction x using Wire.induct generalizing u u' with
  | single t =>
    have hact : actionOf t = .progress := by
      rw [actionOf_eq, show tagOf t = .single from hx]
      rfl
    rw [Wire.bytes, feedBytes_cons, stepByte_action hu, hact] at h
    cases h
    exact fed_progress hu
  | scalar s p =>
    have hact : actionOf s.tag = .push (.scalar s) s.size := by
      rw [actionOf_eq, tagOf_tag]
      rfl
    rw [Wire.bytes, feedBytes_cons, stepByte_action hu, hact] at h
    have hsize := s.size_pos
    have hzero : ¬ ((ContainerType.scalar s).sizesize = 0 ∧ s.size = 0) := fun hz => by omega
    simp only [push, if_neg hzero] at h
    split at h
    · cases h
    · have hne : p ≠ [] :=
        List.ne_nil_of_length_pos (by rw [show p.length = s.size from hx]; exact hsize)
      have hpay := @feedBytes_opened_payload u (.scalar s) _ [] _ (Nat.le_refl 0) rfl hx hne
      rw [Option.bind_some] at h
      cases hpay.symm.trans h
      exact fed_progress hu
  | raw w s =>
    rw [Wire.bytes, feedBytes_append, feedBytes_rawHeader hu hx, Nat.mul_one] at h
    have hs : (rawType w).sizesize ≤ (beBytes w.size s.length).length := by
      rw [beBytes_length]
      cases w <;> exact le_rfl
    split at h
    · cases h
    · split at h
      · rename_i hzero
        obtain rfl : s = [] := List.eq_nil_of_length_eq_zero hzero.2
        cases h
        have hfed := fed_progress hu
        refine ⟨hfed.ready, ?_⟩
        rw [hfed.balance, Wire.excess, Wire.extra, if_pos hzero]
        rfl
      · rename_i hzero
        rw [Option.bind_some] at h
        rw [Wire.excess, Wire.extra, if_neg hzero]
        rcases eq_or_ne s [] with rfl | hne
        · cases h
          exact ⟨ready_opened hu hs (.inr rfl), by rw [balance_opened]; rfl⟩
        · have hpay := feedBytes_opened_payload (u := u) hs (by cases w <;> rfl) rfl hne
          cases hpay.symm.trans h
          have hfed := fed_progress hu
          refine ⟨hfed.ready, ?_⟩
          have hpos := List.length_pos_of_ne_nil hne
          rw [hfed.balance, Nat.max_eq_left hpos, Nat.sub_self]
          rfl
  | array w n items ih =>
    obtain ⟨hn, hcount, hitems⟩ := hx
    have hlegal := Wire.legalList_iff.mp hitems
    rw [Wire.bytes] at h
    have hheader := feedBytes_arrayHeader hu hn
    rw [Nat.mul_one] at hheader
    have hle : items.length ≤ n := by
      rw [hcount, toInt_toNat_eq (Width.fits_lt (by decide) hn)]
      split <;> omega
    exact feedBytes_container hu hheader (by rw [beBytes_length]; cases w <;> exact le_rfl)
      (by cases w <;> rfl) hle (fun y hy _ _ hr hf => ih y hy (hlegal y hy) hr hf) h
  | map w n items ih =>
    obtain ⟨hn, hcount, -, hitems⟩ := hx
    have hlegal := Wire.legalList_iff.mp hitems
    rw [Wire.bytes] at h
    have hle : items.length ≤ n * 2 := by
      rw [hcount, toInt_toNat_eq (Width.fits_lt (by decide) hn)]
      split <;> omega
    exact feedBytes_container hu (feedBytes_mapHeader hu hn)
      (by rw [beBytes_length]; cases w <;> exact le_rfl) (by cases w <;> rfl) hle
      (fun y hy _ _ hr hf => ih y hy (hlegal y hy) hr hf) h

/-- The items of a container fill its entry, and with the last one it counts as a value. -/
theorem feedBytes_items {items : List Wire} {e : Mpstackent} (hu : u.Ready) (he : e.Open)
    (hsum : e.sofar + items.length = e.expect) (hne : items ≠ [])
    (ih : ∀ x ∈ items, ∀ {u' : Unpacker}, u'.Ready → u'.nstacked = u.nstacked + 1 →
      u'.feedBytes x.bytes = some (u'.progress 0)) :
    ({ u with stack := e :: u.stack } : Unpacker).feedBytes (Wire.bytesList items) =
      some (u.progress 0) := by
  induction items generalizing e with
  | nil => exact absurd rfl hne
  | cons x items hrec =>
    rw [List.length_cons] at hsum
    have hready : ({ u with stack := e :: u.stack } : Unpacker).Ready := by
      intro e' he'
      rcases List.mem_cons.mp he' with rfl | he'
      · exact he
      · exact hu e' he'
    rw [Wire.bytesList, feedBytes_append, ih x List.mem_cons_self hready rfl, Option.bind_some]
    rcases eq_or_ne items [] with rfl | hmore
    · rw [u.progress_last he.sized (by simp at hsum; omega)]
      rfl
    · have hpos := List.length_pos_of_ne_nil hmore
      have hlt : e.sofar + 1 < e.expect := by omega
      have hnext : ({ u with stack := e :: u.stack } : Unpacker).progress 0 =
          { u with stack := { e with sofar := e.sofar + 1 } :: u.stack } := by
        simp only [progress, progressLoop, if_neg (Nat.not_lt.mpr he.sized), if_pos hlt]
        rfl
      have he' : Mpstackent.Open { e with sofar := e.sofar + 1 } :=
        ⟨he.sized, lt_max_of_lt_left hlt, he.kind⟩
      rw [hnext]
      exact hrec he' (by simp only; omega) hmore fun y hy => ih y (List.mem_cons_of_mem _ hy)

theorem feedBytes_counted_container {header : List UInt8} {items : List Wire} {w : Width}
    {expect : ℕ} {t : ContainerType} {sizebytes : List UInt8} (hu : u.Ready)
    (hheader : u.feedBytes header =
      if maxStack ≤ u.nstacked then none
      else if w = .fix ∧ expect = 0 then some (u.progress 0)
      else some (u.opened t expect sizebytes))
    (hs : t.sizesize ≤ sizebytes.length) (hc : t.isContainer = true)
    (hcount : items.length = expect)
    (hzero : w = .fix ∨ expect ≠ 0) (hroom : u.nstacked < maxStack)
    (ih : ∀ x ∈ items, ∀ {u' : Unpacker}, u'.Ready → u'.nstacked = u.nstacked + 1 →
      u'.feedBytes x.bytes = some (u'.progress 0)) :
    u.feedBytes (header ++ Wire.bytesList items) = some (u.progress 0) := by
  rw [feedBytes_append, hheader, if_neg (Nat.not_le.mpr hroom)]
  split
  · rename_i hnone
    obtain rfl : items = [] := List.eq_nil_of_length_eq_zero (hcount.trans hnone.2)
    rfl
  · rename_i hsome
    have hpos : expect ≠ 0 := fun hz => hsome ⟨hzero.resolve_right (not_not.mpr hz), hz⟩
    have hne : items ≠ [] := fun hnil => hpos (by rw [← hcount, hnil]; rfl)
    rw [Option.bind_some]
    exact feedBytes_items (e := ⟨t, expect, 0, sizebytes⟩) hu
      ⟨hs, Nat.lt_of_lt_of_le Nat.zero_lt_one (le_max_right _ _), .inl hc⟩
      (by rw [hcount, Nat.zero_add]) hne ih

theorem feedBytes_counted {x : Wire} (hx : x.Legal) (hc : x.Counted) (hu : u.Ready)
    (hd : u.nstacked + x.depth < maxStack) : u.feedBytes x.bytes = some (u.progress 0) := by
  induction x using Wire.induct generalizing u with
  | single t =>
    have hact : actionOf t = .progress := by
      rw [actionOf_eq, show tagOf t = .single from hx]
      rfl
    rw [Wire.bytes, feedBytes_cons, stepByte_action hu, hact]
    rfl
  | scalar s p =>
    have hact : actionOf s.tag = .push (.scalar s) s.size := by
      rw [actionOf_eq, tagOf_tag]
      rfl
    have hsize := s.size_pos
    have hzero : ¬ ((ContainerType.scalar s).sizesize = 0 ∧ s.size = 0) := fun hz => by omega
    have hroom : ¬ maxStack ≤ u.nstacked := by omega
    have hne : p ≠ [] :=
      List.ne_nil_of_length_pos (by rw [show p.length = s.size from hx]; exact hsize)
    rw [Wire.bytes, feedBytes_cons, stepByte_action hu, hact]
    simp only [push, if_neg hzero, if_neg hroom, Option.bind_some]
    exact @feedBytes_opened_payload u (.scalar s) _ [] _ (Nat.le_refl 0) rfl hx hne
  | raw w s =>
    have hroom : ¬ maxStack ≤ u.nstacked := by omega
    rw [Wire.bytes, feedBytes_append, feedBytes_rawHeader hu hx, Nat.mul_one, if_neg hroom]
    split
    · rename_i hzero
      obtain rfl : s = [] := List.eq_nil_of_length_eq_zero hzero.2
      rfl
    · rename_i hzero
      have hne : s ≠ [] := by
        rintro rfl
        exact hzero ⟨hc.resolve_right (fun h => h rfl), rfl⟩
      rw [Option.bind_some]
      exact feedBytes_opened_payload (by rw [beBytes_length]; cases w <;> exact le_rfl)
        (by cases w <;> rfl) rfl hne
  | array w n items ih =>
    obtain ⟨hn, hcount, hitems⟩ := hx
    obtain ⟨⟨hzero, hlt⟩, hall⟩ := hc
    rw [Wire.depth] at hd
    have hheader := feedBytes_arrayHeader hu hn
    rw [Nat.mul_one] at hheader
    have hlen : items.length = n := by
      rw [hcount, toInt_toNat_eq (Width.fits_lt (by decide) hn), if_pos hlt]
    refine feedBytes_counted_container hu hheader (by rw [beBytes_length]; cases w <;> exact le_rfl)
      (by cases w <;> rfl) hlen hzero (by omega) fun y hy u' hr hst => ?_
    have hdepth := Wire.depth_le_depthList hy
    exact ih y hy (Wire.legalList_iff.mp hitems y hy) (Wire.countedList_iff.mp hall y hy) hr
      (by omega)
  | map w n items ih =>
    obtain ⟨hn, hcount, -, hitems⟩ := hx
    obtain ⟨⟨hzero, hlt⟩, hall⟩ := hc
    rw [Wire.depth] at hd
    have hlen : items.length = n * 2 := by
      rw [hcount, toInt_toNat_eq (Width.fits_lt (by decide) hn), if_pos hlt, Nat.mul_comm]
    refine feedBytes_counted_container hu (feedBytes_mapHeader hu hn)
      (by rw [beBytes_length]; cases w <;> exact le_rfl) (by cases w <;> rfl) hlen
      (hzero.imp_right fun h => by omega) (by omega) fun y hy u' hr hst => ?_
    have hdepth := Wire.depth_le_depthList hy
    exact ih y hy (Wire.legalList_iff.mp hitems y hy) (Wire.countedList_iff.mp hall y hy) hr
      (by omega)

theorem feedBytes_messages {xs : List Wire}
    (hx : ∀ x ∈ xs, (x.Legal ∧ x.Counted) ∧ x.depth < maxStack) (hst : u.stack = []) :
    u.feedBytes (Wire.bytesList xs) = some { u with resultnum := u.resultnum + xs.length } := by
  induction xs generalizing u with
  | nil => rfl
  | cons x xs ih =>
    obtain ⟨⟨hlegal, hcounted⟩, hdepth⟩ := hx x List.mem_cons_self
    have hready : u.Ready := by
      intro e he
      rw [hst] at he
      cases he
    have hnone : u.nstacked = 0 := by rw [nstacked, hst]; rfl
    have hone : u.progress 0 = { u with resultnum := u.resultnum + 1 } := by
      rw [progress, hst]
      simp only [progressLoop, List.isEmpty_nil, if_true]
    rw [Wire.bytesList, feedBytes_append,
      feedBytes_counted hlegal hcounted hready (by rw [hnone, Nat.zero_add]; exact hdepth),
      Option.bind_some, hone,
      ih (u := { u with resultnum := u.resultnum + 1 })
        (fun y hy => hx y (List.mem_cons_of_mem _ hy)) hst, List.length_cons]
    simp only [Nat.add_assoc, Nat.add_comm 1]

end Unpacker

end Lev.MPack
