import Lev.LuaText
import Lev.Run

/-! The dates of time_cache.c, which are made once for each second and kept in a ring of 64 slots,
so that a pointer to one stays good for a while. The three arrays of texts are flat memory: a slot
that is too small would run over into the next one. -/
namespace Lev.TimeCache
open Lua Run

/-- A broken-down time, with the year in full. -/
structure Tm where
  sec : ℕ
  min : ℕ
  hour : ℕ
  mday : ℕ
  mon : ℕ
  year : ℕ
  wday : ℕ
  isdst : Bool
  sec_le : sec ≤ 60
  min_lt : min < 60
  hour_lt : hour < 24
  mday_le : mday ≤ 31
  mon_lt : mon < 12
  wday_lt : wday < 7

/-- `gmtime`, `localtime` and the variable `timezone` of the C library. -/
structure Env where
  gmtime : ℕ → Tm
  localtime : ℕ → Tm
  timezone : ℤ

/-- What the clock says during one call: to `gettimeofday`, and to `time`. -/
structure Reading where
  sec : ℕ
  usec : ℕ
  now : ℕ
  deriving DecidableEq, Repr

structure CacheTime where
  sec : ℕ
  msec : ℕ
  gmtoff : ℤ
  deriving DecidableEq, Repr

def timeSlots : ℕ := 64

/-- `sizeof("Mon, 28 Sep 1970 06:00:00 GMT")` and so on, the NUL included. -/
def httpWidth : ℕ := 30
def errLogWidth : ℕ := 20
def httpLogWidth : ℕ := 27

/-- The static variables. Pointers into an array of texts are offsets. -/
structure State where
  slot : ℕ
  currentMsec : ℕ
  times : ℕ → CacheTime
  errLog : ℕ → UInt8
  http : ℕ → UInt8
  httpLog : ℕ → UInt8
  cachedTime : ℕ
  errLogTime : Option ℕ
  httpTime : Option ℕ
  httpLogTime : Option ℕ

def boot : State where
  slot := 0
  currentMsec := 0
  times _ := ⟨0, 0, 0⟩
  errLog _ := 0
  http _ := 0
  httpLog _ := 0
  cachedTime := 0
  errLogTime := none
  httpTime := none
  httpLogTime := none

def week : List (List UInt8) :=
  [ascii "Sun", ascii "Mon", ascii "Tue", ascii "Wed", ascii "Thu", ascii "Fri", ascii "Sat"]

def months : List (List UInt8) :=
  [ascii "Jan", ascii "Feb", ascii "Mar", ascii "Apr", ascii "May", ascii "Jun",
    ascii "Jul", ascii "Aug", ascii "Sep", ascii "Oct", ascii "Nov", ascii "Dec"]

/-- `%d` of a number that is not negative. -/
def decimal (n : ℕ) : List UInt8 := if n = 0 then [48] else digits n

/-- `%4d` and `%02d`. -/
def padded (fill : UInt8) (width n : ℕ) : List UInt8 :=
  List.replicate (width - (decimal n).length) fill ++ decimal n

def two (n : ℕ) : List UInt8 := padded 48 2 n

def clockText (t : Tm) : List UInt8 := two t.hour ++ [58] ++ two t.min ++ [58] ++ two t.sec

def httpText (gmt : Tm) : List UInt8 :=
  week.getD gmt.wday [] ++ ascii ", " ++ two gmt.mday ++ [32] ++ months.getD gmt.mon [] ++ [32] ++
    padded 32 4 gmt.year ++ [32] ++ clockText gmt ++ ascii " GMT"

def errLogText (p : Tm) : List UInt8 :=
  padded 32 4 p.year ++ [47] ++ two (p.mon + 1) ++ [47] ++ two p.mday ++ [32] ++ clockText p

def httpLogText (p : Tm) (gmtoff : ℤ) : List UInt8 :=
  two p.mday ++ [47] ++ months.getD p.mon [] ++ [47] ++ decimal p.year ++ [58] ++ clockText p ++
    [32] ++ [if gmtoff < 0 then 45 else 43] ++ two (gmtoff.tdiv 60).natAbs ++
    two (gmtoff.tmod 60).natAbs

/-- The macro `get_timezone`, which divides what it has negated. -/
def getTimezone (env : Env) (isdst : Bool) : ℤ :=
  (-(if isdst then env.timezone + 3600 else env.timezone)).tdiv 60

/-- What `sprintf` leaves at `p`, with the NUL behind it. -/
def sprintf (mem : ℕ → UInt8) (p : ℕ) (text : List UInt8) : ℕ → UInt8 := fun i =>
  if p ≤ i ∧ i < p + text.length + 1 then text.getD (i - p) 0 else mem i

/-- The C string at `p`, in an array that has `fuel` bytes from there on. -/
def cString (mem : ℕ → UInt8) : ℕ → ℕ → List UInt8
  | 0, _ => []
  | fuel + 1, p => if mem p = 0 then [] else mem p :: cString mem fuel (p + 1)

def cacheTimeUpdate (env : Env) (s : State) (r : Reading) : State :=
  let msec := r.usec / 1000
  let s := { s with currentMsec := (r.sec * 1000 + msec) % 2 ^ 64 }
  let tp := s.times s.slot
  if tp.sec = r.sec then { s with times := Function.update s.times s.slot { tp with msec := msec } }
  else
    let slot := if s.slot = timeSlots - 1 then 0 else s.slot + 1
    let gmt := env.gmtime r.now
    let p := env.localtime r.now
    let gmtoff := getTimezone env p.isdst
    { s with
      slot := slot
      times := Function.update s.times slot ⟨r.sec, msec, gmtoff⟩
      http := sprintf s.http (httpWidth * slot) (httpText gmt)
      errLog := sprintf s.errLog (errLogWidth * slot) (errLogText p)
      httpLog := sprintf s.httpLog (httpLogWidth * slot) (httpLogText p gmtoff)
      cachedTime := slot
      httpTime := some (httpWidth * slot)
      errLogTime := some (errLogWidth * slot)
      httpLogTime := some (httpLogWidth * slot) }

def cacheTimeInit (env : Env) (r : Reading) : State :=
  cacheTimeUpdate env { boot with cachedTime := 0 } r

/-- The text that a pointer into an array of `timeSlots` texts shows; `none` is NULL. -/
def shown (width : ℕ) (mem : ℕ → UInt8) (p : Option ℕ) : Option (List UInt8) :=
  p.map fun p => cString mem (width * timeSlots - p) p

/-- `core_timecache_http` and its two siblings: what they push, `nil` for NULL. -/
def coreTimecacheHttp (env : Env) (s : State) (r : Reading) : Option (List UInt8) :=
  let s := cacheTimeUpdate env s r
  shown httpWidth s.http s.httpTime

def coreTimecacheHttplog (env : Env) (s : State) (r : Reading) : Option (List UInt8) :=
  let s := cacheTimeUpdate env s r
  shown httpLogWidth s.httpLog s.httpLogTime

def coreTimecacheErrorlog (env : Env) (s : State) (r : Reading) : Option (List UInt8) :=
  let s := cacheTimeUpdate env s r
  shown errLogWidth s.errLog s.errLogTime

section text

theorem length_digits (n : ℕ) {k : ℕ} (h : n < 10 ^ k) : (digits n).length ≤ k := by
  rw [digits, List.length_map, List.length_reverse]
  exact (Nat.digits_length_le_iff (by decide) n).mpr h

theorem length_decimal {n k : ℕ} (h : n < 10 ^ (k + 1)) : (decimal n).length ≤ k + 1 := by
  unfold decimal
  split
  · exact Nat.succ_le_succ (Nat.zero_le k)
  · exact length_digits n h

theorem length_padded {fill : UInt8} {k n : ℕ} (h : n < 10 ^ (k + 1)) :
    (padded fill (k + 1) n).length = k + 1 := by
  have hle := length_decimal h
  rw [padded, List.length_append, List.length_replicate]
  omega

theorem length_two {n : ℕ} (h : n < 100) : (two n).length = 2 := length_padded (k := 1) h

theorem digit_ne_zero {n : ℕ} : (0 : UInt8) ∉ digits n := by
  rw [digits, List.mem_map]
  rintro ⟨d, hd, hzero⟩
  have hlt : d < 10 := Nat.digits_lt_base (by decide) (List.mem_reverse.mp hd)
  have hnat := congrArg UInt8.toNat hzero
  simp only [UInt8.toNat_ofNat', UInt8.toNat_zero] at hnat
  omega

theorem decimal_ne_zero {n : ℕ} : (0 : UInt8) ∉ decimal n := by
  unfold decimal
  split
  · decide
  · exact digit_ne_zero

theorem padded_ne_zero {fill : UInt8} {width n : ℕ} (h : fill ≠ 0) :
    (0 : UInt8) ∉ padded fill width n := by
  rw [padded, List.mem_append, not_or]
  exact ⟨fun hmem => h (List.eq_of_mem_replicate hmem).symm, decimal_ne_zero⟩

theorem two_ne_zero {n : ℕ} : (0 : UInt8) ∉ two n := padded_ne_zero (by decide)

theorem week_facts : ∀ i < 7, (week.getD i []).length = 3 ∧ (0 : UInt8) ∉ week.getD i [] := by
  decide

theorem months_facts :
    ∀ i < 12, (months.getD i []).length = 3 ∧ (0 : UInt8) ∉ months.getD i [] := by
  decide

variable (t : Tm)

theorem length_clockText : (clockText t).length = 8 := by
  have hhour := length_two (Nat.lt_trans t.hour_lt (by decide : 24 < 100))
  have hmin := length_two (Nat.lt_trans t.min_lt (by decide : 60 < 100))
  have hsec := length_two (Nat.lt_of_le_of_lt t.sec_le (by decide : 60 < 100))
  simp [clockText, hhour, hmin, hsec]

theorem clockText_ne_zero : (0 : UInt8) ∉ clockText t := by
  simp [clockText, two_ne_zero]

theorem length_httpText (h : t.year ≤ 9999) : (httpText t).length < httpWidth := by
  have hday := length_two (Nat.lt_of_le_of_lt t.mday_le (by decide : 31 < 100))
  have hyear : (padded 32 4 t.year).length = 4 := length_padded (Nat.lt_succ_of_le h)
  have hcomma : (ascii ", ").length = 2 := rfl
  have hgmt : (ascii " GMT").length = 4 := rfl
  simp only [httpText, List.length_append, List.length_singleton, (week_facts _ t.wday_lt).1,
    (months_facts _ t.mon_lt).1, hcomma, hgmt, hday, hyear, length_clockText]
  decide

theorem httpText_ne_zero : (0 : UInt8) ∉ httpText t := by
  have hweek := (week_facts _ t.wday_lt).2
  have hmonth := (months_facts _ t.mon_lt).2
  have hyear : (0 : UInt8) ∉ padded 32 4 t.year := padded_ne_zero (by decide)
  simp only [httpText, List.mem_append, not_or]
  refine ⟨⟨⟨⟨⟨⟨⟨⟨⟨hweek, ?_⟩, two_ne_zero⟩, ?_⟩, hmonth⟩, ?_⟩, hyear⟩, ?_⟩,
    clockText_ne_zero t⟩, ?_⟩
  all_goals decide

theorem length_errLogText (h : t.year ≤ 9999) : (errLogText t).length < errLogWidth := by
  have hday := length_two (Nat.lt_of_le_of_lt t.mday_le (by decide : 31 < 100))
  have hmonth := length_two (n := t.mon + 1) (by have := t.mon_lt; omega)
  have hyear : (padded 32 4 t.year).length = 4 := length_padded (Nat.lt_succ_of_le h)
  simp [errLogText, errLogWidth, hday, hmonth, hyear, length_clockText]

theorem errLogText_ne_zero : (0 : UInt8) ∉ errLogText t := by
  have hyear : (0 : UInt8) ∉ padded 32 4 t.year := padded_ne_zero (by decide)
  simp [errLogText, two_ne_zero, hyear, clockText_ne_zero]

theorem length_httpLogText (h : t.year ≤ 9999) {gmtoff : ℤ} (hoff : gmtoff.natAbs < 6000) :
    (httpLogText t gmtoff).length < httpLogWidth := by
  have hday := length_two (Nat.lt_of_le_of_lt t.mday_le (by decide : 31 < 100))
  have hyear := length_decimal (k := 3) (Nat.lt_succ_of_le h)
  have hhours := length_two (n := (gmtoff.tdiv 60).natAbs) (by
    rw [Int.natAbs_tdiv]
    exact Nat.div_lt_of_lt_mul hoff)
  have hminutes := length_two (n := (gmtoff.tmod 60).natAbs) (by
    rw [Int.natAbs_tmod]
    exact Nat.lt_trans (Nat.mod_lt _ (by decide)) (by decide))
  simp only [httpLogText, httpLogWidth, List.length_append, List.length_singleton,
    (months_facts _ t.mon_lt).1, hday, hhours, hminutes, length_clockText]
  omega

theorem httpLogText_ne_zero (gmtoff : ℤ) : (0 : UInt8) ∉ httpLogText t gmtoff := by
  have hmonth := (months_facts _ t.mon_lt).2
  have hsign : (0 : UInt8) ≠ if gmtoff < 0 then 45 else 43 := by
    split
    · decide
    · decide
  simp only [httpLogText, List.mem_append, List.mem_singleton, not_or]
  refine ⟨⟨⟨⟨⟨⟨⟨⟨⟨⟨two_ne_zero, ?_⟩, hmonth⟩, ?_⟩, decimal_ne_zero⟩, ?_⟩, clockText_ne_zero t⟩, ?_⟩,
    hsign⟩, two_ne_zero⟩, two_ne_zero⟩
  all_goals decide

end text

section memory
variable {mem : ℕ → UInt8} {p : ℕ} {text : List UInt8}

theorem cString_eq {fuel : ℕ} (hfuel : text.length < fuel) (hzero : (0 : UInt8) ∉ text)
    (htext : ∀ i < text.length, mem (p + i) = text.getD i 0) (hend : mem (p + text.length) = 0) :
    cString mem fuel p = text := by
  induction text generalizing p fuel with
  | nil =>
    obtain ⟨fuel, rfl⟩ : ∃ k, fuel = k + 1 := ⟨fuel - 1, by rw [List.length_nil] at hfuel; omega⟩
    have hfirst : mem p = 0 := hend
    rw [cString, if_pos hfirst]
  | cons c text ih =>
    rw [List.length_cons] at hfuel hend
    obtain ⟨fuel, rfl⟩ : ∃ k, fuel = k + 1 := ⟨fuel - 1, by omega⟩
    have hhead : mem p = c := htext 0 (Nat.succ_pos _)
    have hc : c ≠ 0 := fun h => hzero (h ▸ List.mem_cons_self)
    have htail : ∀ i < text.length, mem (p + 1 + i) = text.getD i 0 := by
      intro i hi
      have hnext := htext (i + 1) (Nat.succ_lt_succ hi)
      rwa [show p + (i + 1) = p + 1 + i by omega, List.getD_cons_succ] at hnext
    rw [cString, hhead, if_neg hc, ih (by omega) (fun h => hzero (List.mem_cons_of_mem _ h)) htail
      (by rwa [show p + (text.length + 1) = p + 1 + text.length by omega] at hend)]

theorem sprintf_of_lt {i : ℕ} (h : i < p) : sprintf mem p text i = mem i :=
  if_neg fun hin => Nat.not_le.mpr h hin.1

theorem sprintf_of_ge {i : ℕ} (h : p + text.length + 1 ≤ i) : sprintf mem p text i = mem i :=
  if_neg fun hin => Nat.not_le.mpr hin.2 h

/-- The text in slot `i` of an array, which ends in its slot. -/
def SlotHolds (width : ℕ) (mem : ℕ → UInt8) (i : ℕ) (text : List UInt8) : Prop :=
  text.length < width ∧ (0 : UInt8) ∉ text ∧
    (∀ j < text.length, mem (width * i + j) = text.getD j 0) ∧ mem (width * i + text.length) = 0

variable {width i : ℕ}

theorem SlotHolds.shown (h : SlotHolds width mem i text) (hi : i < timeSlots) :
    shown width mem (some (width * i)) = some text := by
  have hroom : width * i + width ≤ width * timeSlots := by
    calc width * i + width = width * (i + 1) := (Nat.mul_succ width i).symm
      _ ≤ width * timeSlots := Nat.mul_le_mul_left _ hi
  exact congrArg some (cString_eq (by have := h.1; omega) h.2.1 h.2.2.1 h.2.2.2)

theorem slotHolds_sprintf (hlen : text.length < width) (hzero : (0 : UInt8) ∉ text) :
    SlotHolds width (sprintf mem (width * i) text) i text := by
  refine ⟨hlen, hzero, fun j hj => ?_, ?_⟩
  · rw [sprintf, if_pos ⟨by omega, by omega⟩, Nat.add_sub_cancel_left]
  · rw [sprintf, if_pos ⟨by omega, by omega⟩, Nat.add_sub_cancel_left, List.getD_eq_default]
    exact le_rfl

theorem SlotHolds.sprintf {j : ℕ} {new : List UInt8} (h : SlotHolds width mem i text)
    (hlen : new.length < width) (hne : j ≠ i) :
    SlotHolds width (sprintf mem (width * j) new) i text := by
  have hkept : ∀ k ≤ text.length,
      TimeCache.sprintf mem (width * j) new (width * i + k) = mem (width * i + k) := by
    intro k hk
    have hlt := h.1
    rcases Nat.lt_or_gt_of_ne hne with hlow | hhigh
    · have hmul : width * (j + 1) ≤ width * i := Nat.mul_le_mul_left _ hlow
      rw [Nat.mul_succ] at hmul
      exact sprintf_of_ge (by omega)
    · have hmul : width * (i + 1) ≤ width * j := Nat.mul_le_mul_left _ hhigh
      rw [Nat.mul_succ] at hmul
      exact sprintf_of_lt (by omega)
  exact ⟨h.1, h.2.1, fun k hk => (hkept k (Nat.le_of_lt hk)).trans (h.2.2.1 k hk),
    (hkept _ le_rfl).trans h.2.2.2⟩

end memory

section ring
variable {env : Env} {s : State} {r : Reading} {i : ℕ}

/-- The second of the reading is not the one that the current slot is for. -/
def Advances (s : State) (r : Reading) : Prop := (s.times s.slot).sec ≠ r.sec

instance (s : State) (r : Reading) : Decidable (Advances s r) := inferInstanceAs (Decidable (_ ≠ _))

/-- The dates of the reading have years of four digits, and the time zone is less than 100 hours
off. -/
def Fits (env : Env) (r : Reading) : Prop :=
  (env.gmtime r.now).year ≤ 9999 ∧ (env.localtime r.now).year ≤ 9999 ∧
    (getTimezone env (env.localtime r.now).isdst).natAbs < 6000

/-- Both clocks are in the same second, which is not the first one of 1970. -/
def Agrees (r : Reading) : Prop := r.now = r.sec ∧ r.sec ≠ 0

/-- The texts that slot `i` has for the time `now`. -/
structure Holds (env : Env) (s : State) (i now : ℕ) : Prop where
  http : SlotHolds httpWidth s.http i (httpText (env.gmtime now))
  errLog : SlotHolds errLogWidth s.errLog i (errLogText (env.localtime now))
  httpLog : SlotHolds httpLogWidth s.httpLog i
    (httpLogText (env.localtime now) (getTimezone env (env.localtime now).isdst))

structure Points (s : State) : Prop where
  lt : s.slot < timeSlots
  cached : s.cachedTime = s.slot
  http : s.httpTime = some (httpWidth * s.slot)
  errLog : s.errLogTime = some (errLogWidth * s.slot)
  httpLog : s.httpLogTime = some (httpLogWidth * s.slot)

theorem update_same (env : Env) (h : ¬ Advances s r) : ∃ msec tp, cacheTimeUpdate env s r =
    { s with currentMsec := msec, times := Function.update s.times s.slot tp } ∧
      tp.sec = (s.times s.slot).sec := by
  rw [Advances, not_not] at h
  exact ⟨_, _, if_pos h, rfl⟩

theorem nextSlot_eq {slot : ℕ} (h : slot < timeSlots) :
    (if slot = timeSlots - 1 then 0 else slot + 1) = (slot + 1) % timeSlots := by
  rw [timeSlots] at h ⊢
  split
  · next hlast => rw [hlast]
  · next hlast => rw [Nat.mod_eq_of_lt (by omega)]

theorem update_advances (hlt : s.slot < timeSlots) (h : Advances s r) (hfits : Fits env r) :
    (cacheTimeUpdate env s r).slot = (s.slot + 1) % timeSlots ∧
      Points (cacheTimeUpdate env s r) ∧
      ((cacheTimeUpdate env s r).times (cacheTimeUpdate env s r).slot).sec = r.sec ∧
      Holds env (cacheTimeUpdate env s r) (cacheTimeUpdate env s r).slot r.now ∧
      ∀ i now, i ≠ (s.slot + 1) % timeSlots → Holds env s i now →
        Holds env (cacheTimeUpdate env s r) i now := by
  have hslot := nextSlot_eq hlt
  obtain ⟨hgmt, hlocal, hoff⟩ := hfits
  have hnext : (s.slot + 1) % timeSlots < timeSlots := Nat.mod_lt _ (by decide)
  have hupdate : cacheTimeUpdate env s r = _ := if_neg h
  simp only [hslot] at hupdate
  rw [hupdate]
  refine ⟨rfl, ⟨hnext, rfl, rfl, rfl, rfl⟩, ?_, ?_, ?_⟩
  · simp only [Function.update_self]
  · exact ⟨slotHolds_sprintf (length_httpText _ hgmt) (httpText_ne_zero _),
      slotHolds_sprintf (length_errLogText _ hlocal) (errLogText_ne_zero _),
      slotHolds_sprintf (length_httpLogText _ hlocal hoff) (httpLogText_ne_zero _ _)⟩
  · intro i now hi hold
    exact ⟨hold.http.sprintf (length_httpText _ hgmt) hi.symm,
      hold.errLog.sprintf (length_errLogText _ hlocal) hi.symm,
      hold.httpLog.sprintf (length_httpLogText _ hlocal hoff) hi.symm⟩

def advances (env : Env) : State → List Reading → ℕ
  | _, [] => 0
  | s, r :: rs => (if Advances s r then 1 else 0) + advances env (cacheTimeUpdate env s r) rs

theorem points_update (hp : Points s) (hfits : Fits env r) : Points (cacheTimeUpdate env s r) := by
  by_cases h : Advances s r
  · exact (update_advances hp.lt h hfits).2.1
  · obtain ⟨msec, tp, hupdate, -⟩ := update_same env h
    rw [hupdate]
    exact ⟨hp.lt, hp.cached, hp.http, hp.errLog, hp.httpLog⟩

theorem slot_update (hlt : s.slot < timeSlots) (hfits : Fits env r) :
    (cacheTimeUpdate env s r).slot = (s.slot + if Advances s r then 1 else 0) % timeSlots := by
  by_cases h : Advances s r
  · rw [if_pos h, (update_advances hlt h hfits).1]
  · obtain ⟨msec, tp, hupdate, -⟩ := update_same env h
    rw [hupdate, if_neg h, Nat.add_zero, Nat.mod_eq_of_lt hlt]

theorem points_exec {rs : List Reading} (hp : Points s) (hfits : ∀ r ∈ rs, Fits env r) :
    Points (exec (cacheTimeUpdate env) s rs) :=
  inv_exec (P := fun _ r => Fits env r) (fun _ _ ht hr => points_update ht hr) hp
    (along_of_mem fun r hr _ => hfits r hr)

theorem slot_exec {rs : List Reading} (hp : Points s) (hfits : ∀ r ∈ rs, Fits env r) :
    (exec (cacheTimeUpdate env) s rs).slot = (s.slot + advances env s rs) % timeSlots := by
  induction rs generalizing s with
  | nil => exact (Nat.mod_eq_of_lt hp.lt).symm
  | cons r rs ih =>
    have hr := hfits r List.mem_cons_self
    rw [exec_cons, ih (points_update hp hr) fun r' hr' => hfits r' (List.mem_cons_of_mem _ hr'),
      slot_update hp.lt hr, advances, Nat.mod_add_mod, Nat.add_assoc]

/-- Slot `i`, which was the current one `n` seconds ago, keeps its texts until all others have
been used. -/
theorem holds_exec {rs : List Reading} {n now : ℕ}
    (hslot : s.slot = (i + n) % timeSlots) (hp : Points s) (hold : Holds env s i now)
    (hfits : ∀ r ∈ rs, Fits env r) (hn : n + advances env s rs < timeSlots) :
    Holds env (exec (cacheTimeUpdate env) s rs) i now := by
  induction rs generalizing s n with
  | nil => exact hold
  | cons r rs ih =>
    have hr := hfits r List.mem_cons_self
    have hrs : ∀ r' ∈ rs, Fits env r' := fun r' hr' => hfits r' (List.mem_cons_of_mem _ hr')
    have hp' := points_update hp hr
    rw [advances] at hn
    have hslot' := slot_update hp.lt hr
    by_cases h : Advances s r
    · rw [if_pos h] at hn hslot'
      rw [hslot, Nat.mod_add_mod, Nat.add_assoc] at hslot'
      have hne : i ≠ (s.slot + 1) % timeSlots := by
        rw [hslot, Nat.mod_add_mod]
        rw [timeSlots] at hn ⊢
        omega
      exact ih hslot' hp' ((update_advances hp.lt h hr).2.2.2.2 i now hne hold) hrs (by omega)
    · rw [if_neg h, Nat.zero_add] at hn
      obtain ⟨msec, tp, hupdate, -⟩ := update_same env h
      refine ih (n := n) ?_ hp' ?_ hrs hn
      · rw [hupdate]
        exact hslot
      · rw [hupdate]
        exact ⟨hold.http, hold.errLog, hold.httpLog⟩

theorem Holds.shown_http {now : ℕ} (h : Holds env s i now) (hi : i < timeSlots) :
    shown httpWidth s.http (some (httpWidth * i)) = some (httpText (env.gmtime now)) :=
  h.http.shown hi

theorem Holds.shown_errLog {now : ℕ} (h : Holds env s i now) (hi : i < timeSlots) :
    shown errLogWidth s.errLog (some (errLogWidth * i)) = some (errLogText (env.localtime now)) :=
  h.errLog.shown hi

theorem Holds.shown_httpLog {now : ℕ} (h : Holds env s i now) (hi : i < timeSlots) :
    shown httpLogWidth s.httpLog (some (httpLogWidth * i)) = some (httpLogText (env.localtime now)
      (getTimezone env (env.localtime now).isdst)) :=
  h.httpLog.shown hi

/-- The current slot is for the second `sec`, and has its dates. -/
structure Current (env : Env) (s : State) (sec : ℕ) : Prop where
  points : Points s
  current : (s.times s.slot).sec = sec
  holds : Holds env s s.slot sec

theorem current_update {sec : ℕ} (hc : Current env s sec) (hr : Agrees r) (hfits : Fits env r) :
    Current env (cacheTimeUpdate env s r) r.sec := by
  by_cases h : Advances s r
  · obtain ⟨-, hp, hsec, hold, -⟩ := update_advances hc.points.lt h hfits
    rw [hr.1] at hold
    exact ⟨hp, hsec, hold⟩
  · obtain ⟨msec, tp, hupdate, htp⟩ := update_same env h
    have hsame : sec = r.sec := hc.current.symm.trans (not_not.mp h)
    have hp := points_update (r := r) hc.points hfits
    subst hsame
    rw [hupdate] at hp ⊢
    refine ⟨hp, ?_, ⟨hc.holds.http, hc.holds.errLog, hc.holds.httpLog⟩⟩
    simp only [Function.update_self]
    exact htp.trans hc.current

theorem current_init (hr : Agrees r) (hfits : Fits env r) :
    Current env (cacheTimeInit env r) r.sec := by
  have hadv : Advances { boot with cachedTime := 0 } r := hr.2.symm
  obtain ⟨-, hp, hsec, hold, -⟩ := update_advances (by decide : (0 : ℕ) < timeSlots) hadv hfits
  rw [hr.1] at hold
  exact ⟨hp, hsec, hold⟩

theorem current_exec {rs : List Reading} {sec : ℕ} (hc : Current env s sec)
    (h : ∀ r ∈ rs, Agrees r ∧ Fits env r) :
    ∃ sec', Current env (exec (cacheTimeUpdate env) s rs) sec' := by
  have hstep : ∀ s r, (∃ sec, Current env s sec) → Agrees r ∧ Fits env r →
      ∃ sec, Current env (cacheTimeUpdate env s r) sec := by
    rintro s r ⟨sec, hc⟩ ⟨hagrees, hfits⟩
    exact ⟨r.sec, current_update hc hagrees hfits⟩
  exact inv_exec hstep ⟨sec, hc⟩ (along_of_mem fun r hr _ => h r hr)

end ring

/-- The cache cannot be seen: whatever the clock did before, also when it went back, each call
returns the date of its own second. -/
theorem timecache_current (env : Env) (r₀ : Reading) (rs : List Reading) (r : Reading)
    (h : ∀ r' ∈ r₀ :: r :: rs, Agrees r' ∧ Fits env r') :
    coreTimecacheHttp env (exec (cacheTimeUpdate env) (cacheTimeInit env r₀) rs) r =
        some (httpText (env.gmtime r.sec)) ∧
      coreTimecacheErrorlog env (exec (cacheTimeUpdate env) (cacheTimeInit env r₀) rs) r =
        some (errLogText (env.localtime r.sec)) ∧
      coreTimecacheHttplog env (exec (cacheTimeUpdate env) (cacheTimeInit env r₀) rs) r =
        some (httpLogText (env.localtime r.sec)
          (getTimezone env (env.localtime r.sec).isdst)) := by
  obtain ⟨hr₀, hfits₀⟩ := h r₀ List.mem_cons_self
  obtain ⟨hr, hfits⟩ := h r (List.mem_cons_of_mem _ List.mem_cons_self)
  obtain ⟨sec, hc⟩ := current_exec (current_init hr₀ hfits₀) fun r' hr' =>
    h r' (List.mem_cons_of_mem _ (List.mem_cons_of_mem _ hr'))
  have hlast := current_update hc hr hfits
  have hlt := hlast.points.lt
  rw [coreTimecacheHttp, coreTimecacheErrorlog, coreTimecacheHttplog, hlast.points.http,
    hlast.points.errLog, hlast.points.httpLog]
  exact ⟨hlast.holds.shown_http hlt, hlast.holds.shown_errLog hlt, hlast.holds.shown_httpLog hlt⟩

/-- The first day of 1970, one hour east of Greenwich. -/
def firstDay : Env where
  gmtime n := ⟨n % 60, n / 60 % 60, n / 3600 % 24, 1, 0, 1970, 4, false,
    Nat.le_of_lt (Nat.mod_lt _ (by decide)), Nat.mod_lt _ (by decide), Nat.mod_lt _ (by decide),
    by decide, by decide, by decide⟩
  localtime n := ⟨n % 60, n / 60 % 60, (n / 3600 + 1) % 24, 1, 0, 1970, 4, false,
    Nat.le_of_lt (Nat.mod_lt _ (by decide)), Nat.mod_lt _ (by decide), Nat.mod_lt _ (by decide),
    by decide, by decide, by decide⟩
  timezone := -3600

/-- A clock that is set back. -/
theorem timecache_current_setBack :
    coreTimecacheHttp firstDay (exec (cacheTimeUpdate firstDay)
        (cacheTimeInit firstDay ⟨3700, 0, 3700⟩) [⟨3701, 5000, 3701⟩, ⟨3600, 0, 3600⟩])
        ⟨3661, 999, 3661⟩ = some (ascii "Thu, 01 Jan 1970 01:01:01 GMT") ∧
      coreTimecacheErrorlog firstDay (exec (cacheTimeUpdate firstDay)
        (cacheTimeInit firstDay ⟨3700, 0, 3700⟩) [⟨3701, 5000, 3701⟩, ⟨3600, 0, 3600⟩])
        ⟨3661, 999, 3661⟩ = some (ascii "1970/01/01 02:01:01") ∧
      coreTimecacheHttplog firstDay (exec (cacheTimeUpdate firstDay)
        (cacheTimeInit firstDay ⟨3700, 0, 3700⟩) [⟨3701, 5000, 3701⟩, ⟨3600, 0, 3600⟩])
        ⟨3661, 999, 3661⟩ = some (ascii "01/Jan/1970:02:01:01 +0100") := by
  obtain ⟨hhttp, herrLog, hhttpLog⟩ := timecache_current firstDay ⟨3700, 0, 3700⟩
    [⟨3701, 5000, 3701⟩, ⟨3600, 0, 3600⟩] ⟨3661, 999, 3661⟩ (by simp only [Agrees, Fits]; decide)
  refine ⟨hhttp.trans (congrArg some ?_), herrLog.trans (congrArg some ?_),
    hhttpLog.trans (congrArg some ?_)⟩
  · decide +kernel
  · decide +kernel
  · decide +kernel

/-- A pointer to a date shows that date for 63 more seconds that are asked for, and the date of
the 64th when that has come. -/
theorem pointer_kept (env : Env) (r₀ : Reading) (rs rs' : List Reading)
    (h : ∀ r ∈ r₀ :: rs, Agrees r ∧ Fits env r) (hfits : ∀ r ∈ rs', Fits env r) :
    let s := exec (cacheTimeUpdate env) (cacheTimeInit env r₀) rs
    let s' := exec (cacheTimeUpdate env) s rs'
    (advances env s rs' < timeSlots →
      shown httpWidth s'.http s.httpTime = shown httpWidth s.http s.httpTime ∧
      shown errLogWidth s'.errLog s.errLogTime = shown errLogWidth s.errLog s.errLogTime ∧
      shown httpLogWidth s'.httpLog s.httpLogTime = shown httpLogWidth s.httpLog s.httpLogTime) ∧
    (advances env s rs' = timeSlots → s'.httpTime = s.httpTime ∧ s'.errLogTime = s.errLogTime ∧
      s'.httpLogTime = s.httpLogTime) := by
  intro s s'
  obtain ⟨hr₀, hfits₀⟩ := h r₀ List.mem_cons_self
  obtain ⟨sec, hc⟩ := current_exec (current_init hr₀ hfits₀) fun r hr =>
    h r (List.mem_cons_of_mem _ hr)
  change Current env s sec at hc
  have hp := hc.points
  have hp' : Points s' := points_exec hp hfits
  constructor
  · intro hn
    have hold : Holds env s' s.slot sec := holds_exec (n := 0)
      (Nat.mod_eq_of_lt hp.lt).symm hp hc.holds hfits (by rwa [Nat.zero_add])
    rw [hp.http, hp.errLog, hp.httpLog]
    exact ⟨(hold.shown_http hp.lt).trans (hc.holds.shown_http hp.lt).symm,
      (hold.shown_errLog hp.lt).trans (hc.holds.shown_errLog hp.lt).symm,
      (hold.shown_httpLog hp.lt).trans (hc.holds.shown_httpLog hp.lt).symm⟩
  · intro hn
    have hslot : s'.slot = s.slot := by
      rw [slot_exec hp hfits, hn, Nat.add_mod_right, Nat.mod_eq_of_lt hp.lt]
    rw [hp.http, hp.errLog, hp.httpLog, hp'.http, hp'.errLog, hp'.httpLog, hslot]
    exact ⟨rfl, rfl, rfl⟩

theorem pointer_kept_twoSeconds :
    let s := exec (cacheTimeUpdate firstDay) (cacheTimeInit firstDay ⟨3700, 0, 3700⟩) []
    let s' :=
      exec (cacheTimeUpdate firstDay) s [⟨3701, 0, 3701⟩, ⟨3701, 1000, 3701⟩, ⟨3702, 0, 3702⟩]
    shown httpWidth s'.http s.httpTime = shown httpWidth s.http s.httpTime ∧
      shown errLogWidth s'.errLog s.errLogTime = shown errLogWidth s.errLog s.errLogTime ∧
      shown httpLogWidth s'.httpLog s.httpLogTime = shown httpLogWidth s.httpLog s.httpLogTime := by
  refine (pointer_kept firstDay ⟨3700, 0, 3700⟩ []
    [⟨3701, 0, 3701⟩, ⟨3701, 1000, 3701⟩, ⟨3702, 0, 3702⟩] ?_ ?_).1 ?_
  · simp only [Agrees, Fits]
    decide
  · simp only [Fits]
    decide
  · decide +kernel

end Lev.TimeCache
