import Lev.MPackReads

/-! What every call of the decoder does, whatever the bytes are: it only moves forward,
keeps `err` once set, only adds to its logs, and does not run out of fuel. A call that
leaves `err` clear has read a legal tree. -/
namespace Lev.MPack
open CInt Endian Slab Memory Lua

structure Extends (m m' : Machine) : Prop where
  data : m'.data = m.data
  ofs : m.ofs ≤ m'.ofs
  err : m.err = true → m'.err = true
  loads : ∃ ls, m'.loads = ls ++ m.loads
  rawsets : ∃ rs, m'.rawsets = rs ++ m.rawsets

theorem Extends.refl (m : Machine) : Extends m m := ⟨rfl, le_rfl, id, ⟨[], rfl⟩, ⟨[], rfl⟩⟩

theorem Extends.trans {m m' m'' : Machine} (a : Extends m m') (b : Extends m' m'') :
    Extends m m'' where
  data := b.data.trans a.data
  ofs := a.ofs.trans b.ofs
  err := fun h => b.err (a.err h)
  loads := by
    obtain ⟨ls, hls⟩ := a.loads
    obtain ⟨ls', hls'⟩ := b.loads
    exact ⟨ls' ++ ls, by rw [hls', hls, List.append_assoc]⟩
  rawsets := by
    obtain ⟨rs, hrs⟩ := a.rawsets
    obtain ⟨rs', hrs'⟩ := b.rawsets
    exact ⟨rs' ++ rs, by rw [hrs', hrs, List.append_assoc]⟩

theorem Extends.left_le {m m' : Machine} (a : Extends m m') : m'.left ≤ m.left := by
  have := a.ofs
  simp only [Machine.left, a.data]
  omega

theorem Extends.err_of {m m' : Machine} (a : Extends m m') (h : m'.err = false) :
    m.err = false := by
  cases hm : m.err with
  | false => rfl
  | true => rw [a.err hm] at h; cases h

theorem extends_afterTag (m : Machine) : Extends m m.afterTag :=
  ⟨rfl, Nat.le_succ _, id, ⟨[(m.ofs, 1)], rfl⟩, ⟨[], rfl⟩⟩

theorem extends_afterCount (m : Machine) (w : Width) : Extends m (m.afterCount w) :=
  ⟨rfl, (Nat.le_succ _).trans (Nat.le_add_right _ _), id, ⟨[(m.ofs + 1, w.size), (m.ofs, 1)], rfl⟩,
    ⟨[], rfl⟩⟩

theorem extends_fail (m : Machine) : Extends m m.fail :=
  ⟨rfl, le_rfl, fun _ => rfl, ⟨[], rfl⟩, ⟨[], rfl⟩⟩

theorem extends_newtable (m : Machine) (narr nrec : ℤ) : Extends m (m.newtable narr nrec) :=
  ⟨rfl, le_rfl, id, ⟨[], rfl⟩, ⟨[], rfl⟩⟩

theorem extends_keying (m : Machine) (k : Bool) : Extends m (m.keying k) :=
  ⟨rfl, le_rfl, id, ⟨[], rfl⟩, ⟨[], rfl⟩⟩

theorem extends_push (m : Machine) (v : LuaValue) : Extends m (m.push v) :=
  ⟨rfl, le_rfl, id, ⟨[], rfl⟩, ⟨[], rfl⟩⟩

theorem extends_pushString (m : Machine) (n : ℕ) : Extends m (m.pushString n) := by
  unfold Machine.pushString
  cases m.mb with
  | none => exact ⟨rfl, le_rfl, id, ⟨[(m.ofs, n)], rfl⟩, ⟨[], rfl⟩⟩
  | some mb =>
    cases hk : m.mapKeying with
    | true => exact ⟨rfl, le_rfl, id, ⟨[(m.ofs, n)], rfl⟩, ⟨[], rfl⟩⟩
    | false => exact ⟨rfl, le_rfl, id, ⟨[], rfl⟩, ⟨[], rfl⟩⟩

theorem extends_advance (m : Machine) (n : ℕ) : Extends m (m.advance n) :=
  ⟨rfl, Nat.le_add_right _ _, id, ⟨[], rfl⟩, ⟨[], rfl⟩⟩

theorem extends_load (m : Machine) (n : ℕ) : Extends m (m.load n) :=
  ⟨rfl, le_rfl, id, ⟨[(m.ofs, n)], rfl⟩, ⟨[], rfl⟩⟩

theorem extends_unpackRaw (m : Machine) (w : Width) (inTag : ℕ) :
    Extends m (m.unpackRaw w inTag) := by
  unfold Machine.unpackRaw
  split
  · exact extends_fail m
  · have hcount := (extends_load m w.size).trans (extends_advance _ w.size)
    simp only
    split
    · exact hcount.trans (extends_fail _)
    · exact hcount.trans ((extends_pushString _ _).trans (extends_advance _ _))

/-- A `lua_rawseti` that found a table, and its entry in the log. -/
theorem rawseti_ok {m m' : Machine} {own i : ℕ} (h : m.rawseti own i = .ok m') :
    ∃ v id arr hash st, m.stack = v :: .table id arr hash :: st ∧
      m' = { m with
        stack := .table id (Lua.rawseti arr hash i v).1 (Lua.rawseti arr hash i v).2 :: st
        rawsets := ⟨id, own, true⟩ :: m.rawsets } := by
  unfold Machine.rawseti at h
  split at h
  · rename_i v id arr hash st hstack
    exact ⟨v, id, arr, hash, st, hstack, (Except.ok.inj h).symm⟩
  · cases h

/-- A `lua_rawset` that raised no error, and its entry in the log. -/
theorem rawset_ok {m m' : Machine} {own : ℕ} {key : Bool} (h : m.rawset own key = .ok m') :
    ∃ v k id arr hash st, m.stack = v :: k :: .table id arr hash :: st ∧
      k.isNil = false ∧ k.isNaN = false ∧
      m' = { m with
        stack := .table id (Lua.rawset arr hash k v).1 (Lua.rawset arr hash k v).2 :: st
        rawsets := ⟨id, own, key⟩ :: m.rawsets } := by
  unfold Machine.rawset at h
  split at h
  · rename_i v k id arr hash st hstack
    cases hnil : k.isNil with
    | true => simp [hnil] at h
    | false =>
      cases hnan : k.isNaN with
      | true => simp [hnil, hnan] at h
      | false =>
        simp only [hnil, hnan, Bool.false_eq_true, if_false, Except.ok.injEq] at h
        exact ⟨v, k, id, arr, hash, st, hstack, hnil, hnan, h.symm⟩
  · cases h

theorem extends_rawseti {m m' : Machine} {own i : ℕ} (h : m.rawseti own i = .ok m') :
    Extends m m' := by
  obtain ⟨v, id, arr, hash, st, _, rfl⟩ := rawseti_ok h
  exact ⟨rfl, le_rfl, fun h => h, ⟨[], rfl⟩, ⟨[⟨id, own, true⟩], rfl⟩⟩

theorem extends_rawset {m m' : Machine} {own : ℕ} {key : Bool}
    (h : m.rawset own key = .ok m') : Extends m m' := by
  obtain ⟨v, k, id, arr, hash, st, _, _, _, rfl⟩ := rawset_ok h
  exact ⟨rfl, le_rfl, fun h => h, ⟨[], rfl⟩, ⟨[⟨id, own, key⟩], rfl⟩⟩

theorem arrayLoop_succ {elem : Machine → Except Fault Machine} {own i n : ℕ} {m m' : Machine}
    (h : arrayLoop elem own i (n + 1) m = .ok m') :
    ∃ m₁, elem m = .ok m₁ ∧ ((m₁.err = true ∧ m' = m₁) ∨
      (m₁.err = false ∧ ∃ m₂, m₁.rawseti own (i + 1) = .ok m₂ ∧
        arrayLoop elem own (i + 1) n m₂ = .ok m')) := by
  rw [arrayLoop] at h
  obtain ⟨m₁, hm₁, h⟩ := bind_eq_ok.mp h
  refine ⟨m₁, hm₁, ?_⟩
  cases herr : m₁.err with
  | true =>
    simp only [herr, if_true, pure, Except.pure, Except.ok.injEq] at h
    exact .inl ⟨rfl, h.symm⟩
  | false =>
    simp only [herr, Bool.false_eq_true, if_false] at h
    exact .inr ⟨rfl, bind_eq_ok.mp h⟩

theorem mapLoop_succ {elem : Machine → Except Fault Machine} {own n : ℕ} {m m' : Machine}
    (h : mapLoop elem own (n + 1) m = .ok m') :
    ∃ m₁ m₂ m₃, elem (m.keying true) = .ok m₁ ∧ elem (m₁.keying false) = .ok m₂ ∧
      m₂.rawset own (keyOwn m₁ m₂) = .ok m₃ ∧ mapLoop elem own n m₃ = .ok m' := by
  rw [mapLoop] at h
  obtain ⟨m₁, hm₁, h⟩ := bind_eq_ok.mp h
  obtain ⟨m₂, hm₂, h⟩ := bind_eq_ok.mp h
  obtain ⟨m₃, hm₃, h⟩ := bind_eq_ok.mp h
  exact ⟨m₁, m₂, m₃, hm₁, hm₂, hm₃, h⟩

theorem arrayLoop_extends {elem : Machine → Except Fault Machine}
    (helem : ∀ m m', elem m = .ok m' → Extends m m') {own i n : ℕ} {m m' : Machine}
    (h : arrayLoop elem own i n m = .ok m') : Extends m m' := by
  induction n generalizing i m with
  | zero =>
    cases h
    exact .refl _
  | succ n ih =>
    obtain ⟨m₁, hm₁, ⟨_, rfl⟩ | ⟨_, m₂, hm₂, hm'⟩⟩ := arrayLoop_succ h
    · exact helem _ _ hm₁
    · exact (helem _ _ hm₁).trans ((extends_rawseti hm₂).trans (ih hm'))

theorem mapLoop_extends {elem : Machine → Except Fault Machine}
    (helem : ∀ m m', elem m = .ok m' → Extends m m') {own n : ℕ} {m m' : Machine}
    (h : mapLoop elem own n m = .ok m') : Extends m m' := by
  induction n generalizing m with
  | zero =>
    cases h
    exact .refl _
  | succ n ih =>
    obtain ⟨m₁, m₂, m₃, hm₁, hm₂, hm₃, hm'⟩ := mapLoop_succ h
    have h₁ := (extends_keying m true).trans (helem _ _ hm₁)
    have h₂ := (extends_keying m₁ false).trans (helem _ _ hm₂)
    exact h₁.trans (h₂.trans ((extends_rawset hm₃).trans (ih hm')))

theorem drop_cases (m : Machine) :
    (m.left < 1 ∧ m.data.drop m.ofs = []) ∨ ∃ t r, m.data.drop m.ofs = t :: r := by
  cases h : m.data.drop m.ofs with
  | nil => exact .inl ⟨by rw [left_eq h]; simp, rfl⟩
  | cons t r => exact .inr ⟨t, r, rfl⟩

section accepts
variable {grants : Grants}

theorem unpackAnytype_empty {fuel : ℕ} {m : Machine} (h : m.left < 1) :
    mprbufUnpackAnytype grants (fuel + 1) m = .ok m.fail := by
  rw [mprbufUnpackAnytype, if_pos h]

theorem unpackAnytype_extends {fuel : ℕ} {m m' : Machine}
    (h : mprbufUnpackAnytype grants fuel m = .ok m') : Extends m m' := by
  induction fuel generalizing m m' with
  | zero => cases h
  | succ fuel ih =>
    rcases drop_cases m with ⟨hleft, _⟩ | ⟨t, r, htag⟩
    · rw [unpackAnytype_empty hleft] at h
      cases h
      exact extends_fail m
    · rw [unpackAnytype_tag htag] at h
      have htagged := extends_afterTag m
      have hfail := htagged.trans (extends_fail _)
      cases ht : tagOf t with
      | single =>
        simp only [ht, Except.ok.injEq] at h
        rw [← h]
        exact htagged.trans (extends_push _ _)
      | scalar s =>
        simp only [ht] at h
        split at h
        · cases h
          exact hfail
        · cases h
          exact htagged.trans ((extends_load _ _).trans
            ((extends_push _ _).trans (extends_advance _ _)))
      | raw w k =>
        simp only [ht, Except.ok.injEq] at h
        rw [← h]
        exact htagged.trans (extends_unpackRaw _ _ _)
      | array w k =>
        simp only [ht] at h
        split at h
        · cases h
          exact hfail
        · exact (extends_afterCount m w).trans ((extends_newtable _ _ _).trans
            (arrayLoop_extends (fun _ _ => ih) (unpackArray_ok.mp h).2))
      | map w k =>
        simp only [ht] at h
        split at h
        · cases h
          exact hfail
        · exact (extends_afterCount m w).trans ((extends_newtable _ _ _).trans
            (mapLoop_extends (fun _ _ => ih) (unpackMap_ok.mp h).2))
      | reserved =>
        simp only [ht, Except.ok.injEq] at h
        rw [← h]
        exact hfail

theorem arrayLoop_fuel {elem : Machine → Except Fault Machine} {k : ℕ}
    (hext : ∀ m m', elem m = .ok m' → Extends m m')
    (helem : ∀ m, m.left < k → elem m ≠ .error .outOfFuel) {own i n : ℕ} {m : Machine}
    (hm : m.left < k) : arrayLoop elem own i n m ≠ .error .outOfFuel := by
  induction n generalizing i m with
  | zero => simp [arrayLoop]
  | succ n ih =>
    rw [arrayLoop]
    cases h₁ : elem m with
    | error f =>
      intro hf
      simp only [bind, Except.bind, Except.error.injEq] at hf
      exact helem m hm (hf ▸ h₁)
    | ok m₁ =>
      simp only [bind, Except.bind]
      split
      · simp [pure, Except.pure]
      · cases h₂ : m₁.rawseti own (i + 1) with
        | error f =>
          simp only [ne_eq, Except.error.injEq]
          rintro rfl
          unfold Machine.rawseti at h₂
          split at h₂ <;> cases h₂
        | ok m₂ =>
          exact ih (((hext _ _ h₁).trans (extends_rawseti h₂)).left_le.trans_lt hm)

theorem mapLoop_fuel {elem : Machine → Except Fault Machine} {k : ℕ}
    (hext : ∀ m m', elem m = .ok m' → Extends m m')
    (helem : ∀ m, m.left < k → elem m ≠ .error .outOfFuel) {own n : ℕ} {m : Machine}
    (hm : m.left < k) : mapLoop elem own n m ≠ .error .outOfFuel := by
  induction n generalizing m with
  | zero => simp [mapLoop]
  | succ n ih =>
    rw [mapLoop]
    cases h₁ : elem (m.keying true) with
    | error f =>
      intro hf
      simp only [bind, Except.bind, Except.error.injEq] at hf
      exact helem (m.keying true) hm (hf ▸ h₁)
    | ok m₁ =>
      have hm₁ : (m₁.keying false).left < k := (hext _ _ h₁).left_le.trans_lt hm
      simp only [bind, Except.bind]
      cases h₂ : elem (m₁.keying false) with
      | error f =>
        simp only [ne_eq, Except.error.injEq]
        rintro rfl
        exact helem _ hm₁ h₂
      | ok m₂ =>
        simp only
        cases h₃ : m₂.rawset own (keyOwn m₁ m₂) with
        | error f =>
          simp only [ne_eq, Except.error.injEq]
          rintro rfl
          unfold Machine.rawset at h₃
          split at h₃
          · split at h₃
            · cases h₃
            · split at h₃ <;> cases h₃
          · cases h₃
        | ok m₃ =>
          exact ih (((hext _ _ h₂).trans (extends_rawset h₃)).left_le.trans_lt hm₁)

theorem createtable_fuel {loop : Machine → Except Fault Machine} {narr nrec : ℤ} {m : Machine}
    (hloop : loop (m.newtable narr nrec) ≠ .error .outOfFuel) :
    (m.createtable grants narr nrec >>= loop) ≠ .error .outOfFuel := by
  rw [Machine.createtable]
  split
  · exact hloop
  · simp [bind, Except.bind]

theorem unpackAnytype_fuel {fuel : ℕ} {m : Machine} (hm : m.left < fuel) :
    mprbufUnpackAnytype grants fuel m ≠ .error .outOfFuel := by
  induction fuel generalizing m with
  | zero => exact absurd hm (Nat.not_lt_zero _)
  | succ fuel ih =>
    rcases drop_cases m with ⟨hleft, _⟩ | ⟨t, r, htag⟩
    · rw [unpackAnytype_empty hleft]
      simp
    · rw [unpackAnytype_tag htag]
      have hafter : m.afterTag.left < fuel := by
        have h := left_eq htag
        have h' := left_eq (afterTag_drop htag)
        rw [List.length_cons] at h
        omega
      have hcount : ∀ (w : Width) (narr nrec : ℤ),
          ((m.afterCount w).newtable narr nrec).left < fuel := fun w narr nrec => by
        have h : ((m.afterCount w).newtable narr nrec).left ≤ m.afterTag.left :=
          ((extends_load _ _).trans ((extends_advance _ _).trans (extends_newtable _ _ _))).left_le
        omega
      cases ht : tagOf t with
      | single => simp
      | scalar s =>
        simp only
        split <;> simp
      | raw w k => simp
      | array w k =>
        simp only
        split
        · simp
        · exact createtable_fuel
            (arrayLoop_fuel (fun _ _ => unpackAnytype_extends) (fun _ => ih) (hcount w _ _))
      | map w k =>
        simp only
        split
        · simp
        · exact createtable_fuel
            (mapLoop_fuel (fun _ _ => unpackAnytype_extends) (fun _ => ih) (hcount w _ _))
      | reserved => simp

/-- The byte a tag was made from, unless it is a value by itself. -/
def Tag.byte : Tag → UInt8
  | .scalar s => s.tag
  | .raw .fix k => 0xa0 + UInt8.ofNat k
  | .raw .two _ => 0xda
  | .raw .four _ => 0xdb
  | .array .fix k => 0x90 + UInt8.ofNat k
  | .array .two _ => 0xdc
  | .array .four _ => 0xdd
  | .map .fix k => 0x80 + UInt8.ofNat k
  | .map .two _ => 0xde
  | .map .four _ => 0xdf
  | .single => 0
  | .reserved => 0

def Tag.bound : Tag → ℕ
  | .raw _ _ => 32
  | _ => 16

def Tag.inTag : Tag → ℕ
  | .raw .fix k => k
  | .array .fix k => k
  | .map .fix k => k
  | _ => 0

theorem tagOf_byte (t : UInt8) :
    tagOf t = .single ∨ tagOf t = .reserved ∨
      ((tagOf t).byte = t ∧ (tagOf t).inTag < (tagOf t).bound) := by
  have h : ∀ n < 256, tagOf (UInt8.ofNat n) = .single ∨ tagOf (UInt8.ofNat n) = .reserved ∨
      ((tagOf (UInt8.ofNat n)).byte = UInt8.ofNat n ∧
        (tagOf (UInt8.ofNat n)).inTag < (tagOf (UInt8.ofNat n)).bound) := by
    decide +kernel
  have ht := h t.toNat t.toNat_lt
  rwa [UInt8.ofNat_toNat] at ht

theorem scalar_of_tag {t : UInt8} {s : Scalar} (h : tagOf t = .scalar s) : t = s.tag := by
  rcases tagOf_byte t with hb | hb | ⟨hb, _⟩
  · rw [h] at hb; cases hb
  · rw [h] at hb; cases hb
  · rw [h] at hb
    exact hb.symm

/-- The count the decoder takes from the bytes behind a tag. -/
def countOf (k : ℕ) (count : List UInt8) : Width → ℕ
  | .fix => k
  | .two => beNat count
  | .four => beNat count

theorem readCount_eq {m : Machine} {w : Width} {count : List UInt8} (k : ℕ)
    (hc : count.length = w.size) (hm : m.peek w.size = count) :
    m.readCount k w = countOf k count w := by
  cases w with
  | fix => rfl
  | two =>
    have h := bswap_leNat count
    rw [hc] at h
    rw [← hm] at h ⊢
    exact h
  | four =>
    have h := bswap_leNat count
    rw [hc] at h
    rw [← hm] at h ⊢
    exact h

theorem header_eq {base tag16 tag32 t : UInt8} {bound k : ℕ} {w : Width} {count : List UInt8}
    (hc : count.length = w.size) (hfix : w = .fix → t = base + UInt8.ofNat k ∧ k < bound)
    (htwo : w = .two → t = tag16) (hfour : w = .four → t = tag32) :
    w.fits bound (countOf k count w) ∧
      t :: count = w.header base tag16 tag32 (countOf k count w) := by
  cases w with
  | fix =>
    obtain ⟨rfl, hk⟩ := hfix rfl
    obtain rfl : count = [] := List.eq_nil_of_length_eq_zero hc
    exact ⟨hk, rfl⟩
  | two =>
    have hlt := beNat_lt count
    have hbe := beBytes_beNat count
    rw [hc] at hlt hbe
    refine ⟨hlt, ?_⟩
    rw [htwo rfl, Width.header, countOf]
    exact congrArg _ hbe.symm
  | four =>
    have hlt := beNat_lt count
    have hbe := beBytes_beNat count
    rw [hc] at hlt hbe
    refine ⟨hlt, ?_⟩
    rw [hfour rfl, Width.header, countOf]
    exact congrArg _ hbe.symm

theorem array_of_tag {t : UInt8} {w : Width} {k : ℕ} {count : List UInt8}
    (h : tagOf t = .array w k) (hc : count.length = w.size) :
    w.fits 16 (countOf k count w) ∧ t :: count = Wire.arrayHeader w (countOf k count w) := by
  rcases tagOf_byte t with hb | hb | ⟨hb, hk⟩
  · rw [h] at hb; cases hb
  · rw [h] at hb; cases hb
  · rw [h] at hb hk
    refine header_eq hc ?_ ?_ ?_ <;> rintro rfl
    · exact ⟨hb.symm, hk⟩
    · exact hb.symm
    · exact hb.symm

theorem map_of_tag {t : UInt8} {w : Width} {k : ℕ} {count : List UInt8}
    (h : tagOf t = .map w k) (hc : count.length = w.size) :
    w.fits 16 (countOf k count w) ∧ t :: count = Wire.mapHeader w (countOf k count w) := by
  rcases tagOf_byte t with hb | hb | ⟨hb, hk⟩
  · rw [h] at hb; cases hb
  · rw [h] at hb; cases hb
  · rw [h] at hb hk
    refine header_eq hc ?_ ?_ ?_ <;> rintro rfl
    · exact ⟨hb.symm, hk⟩
    · exact hb.symm
    · exact hb.symm

theorem raw_of_tag {t : UInt8} {w : Width} {k : ℕ} {count : List UInt8}
    (h : tagOf t = .raw w k) (hc : count.length = w.size) :
    w.fits 32 (countOf k count w) ∧ t :: count = Wire.rawHeader w (countOf k count w) := by
  rcases tagOf_byte t with hb | hb | ⟨hb, hk⟩
  · rw [h] at hb; cases hb
  · rw [h] at hb; cases hb
  · rw [h] at hb hk
    refine header_eq hc ?_ ?_ ?_ <;> rintro rfl
    · exact ⟨hb.symm, hk⟩
    · exact hb.symm
    · exact hb.symm

theorem good_of_key {c : Source} {ofs : ℕ} {x : Wire} {v : LuaValue}
    (hr : x.Reads c true ofs v) (hnil : v.isNil = false) (hnan : v.isNaN = false) : x.GoodKey := by
  cases x with
  | single t =>
    simp only [Wire.Reads] at hr
    subst hr
    exact hnil
  | scalar s p =>
    simp only [Wire.Reads] at hr
    subst hr
    exact hnan
  | raw w s => trivial
  | array w n items => trivial
  | map w n items => trivial

/-- A legal tree for which Lua makes the tables was read at the reader's position. -/
def Accepted (grants : Grants) (m m' : Machine) : Prop :=
  ∃ x r v, x.Legal ∧ m.data.drop m.ofs = x.bytes ++ r ∧ Took m m' x v r.length ∧
    grants.All m.tables x.tables

theorem accepted_of_legal {fuel : ℕ} {m m' : Machine} {x : Wire} {r : List UInt8}
    (hm : m.left < fuel) (hx : x.Legal) (herr : m.err = false)
    (hdata : m.data.drop m.ofs = x.bytes ++ r) (hgrants : grants.All m.tables x.tables)
    (h : mprbufUnpackAnytype grants fuel m = .ok m') : Accepted grants m m' := by
  have hfuel : x.depth < fuel := by
    have hd := x.depth_le_len
    have hl := left_eq hdata
    rw [List.length_append] at hl
    simp only [Wire.len] at hd
    omega
  obtain ⟨m'', v, hm'', ht⟩ := unpackAnytype_takes hx hfuel m r herr hdata hgrants
  rw [h, Except.ok.injEq] at hm''
  subst hm''
  exact ⟨x, r, v, hx, hdata, ht, hgrants⟩

/-- A loop got from `m` to `m'` reading the legal trees `items`; `r` is left to read. -/
structure Passed (grants : Grants) (m m' : Machine) (items : List Wire) (r : List UInt8) :
    Prop where
  granted : grants.All m.tables (Wire.tablesList items)
  tables : m'.tables = Wire.tablesList items ++ m.tables
  legal : ∀ x ∈ items, x.Legal
  data : m.data.drop m.ofs = Wire.bytesList items ++ r
  rest : m'.data.drop m'.ofs = r
  frame : Frame m m'
  ofs : m'.ofs = m.ofs + (Wire.bytesList items).length
  err : m'.err = false
  loads : Loads m m' (Wire.RoomyList r.length items)
  ext : Extends m m'

theorem Passed.refl {m : Machine} (herr : m.err = false) :
    Passed grants m m [] (m.data.drop m.ofs) :=
  ⟨trivial, rfl, by simp, rfl, rfl, .refl m, rfl, herr,
    (Loads.refl m).congr (by simp [Wire.RoomyList]), .refl m⟩

/-- One tree more in front; `m₁` is the state behind it and `m₂` where the rest begins. -/
theorem Passed.cons {m m₁ m₂ m' : Machine} {x : Wire} {items : List Wire} {r r₁ : List UInt8}
    (hx : x.Legal) (hdata : m.data.drop m.ofs = x.bytes ++ r₁)
    (hgrants : grants.All m.tables x.tables) (htables : m₂.tables = x.tables ++ m.tables)
    (hframe₁ : Frame m m₁) (hofs₁ : m₁.ofs = m.ofs + x.len)
    (hloads₁ : Loads m m₁ (x.Roomy r₁.length)) (hext₁ : Extends m m₁) (hframe : Frame m₁ m₂)
    (hofs : m₂.ofs = m₁.ofs) (hloads : m₂.loads = m₁.loads) (hext : Extends m₁ m₂)
    (h : Passed grants m₂ m' items r) : Passed grants m m' (x :: items) r := by
  have hr₁ : r₁ = Wire.bytesList items ++ r := by
    rw [← h.data, hframe.data, hofs]
    exact (drop_after hdata hframe₁.data hofs₁).symm
  refine ⟨Grants.all_append.mpr ⟨hgrants, htables ▸ h.granted⟩, ?_, ?_, ?_, h.rest,
    hframe₁.trans (hframe.trans h.frame), ?_, h.err, ?_, hext₁.trans (hext.trans h.ext)⟩
  · rw [h.tables, htables, Wire.tablesList, List.append_assoc]
  · intro y hy
    rcases List.mem_cons.mp hy with rfl | hy
    · exact hx
    · exact h.legal y hy
  · rw [hdata, hr₁, Wire.bytesList, List.append_assoc]
  · rw [h.ofs, hofs, hofs₁, Wire.bytesList, List.length_append, Wire.len, Nat.add_assoc]
  · have h₂ : Loads m₁ m₂ True := ⟨[], hloads, by simp⟩
    have hl := hloads₁.trans (h₂.trans h.loads hframe.data) hframe₁.data
    refine hl.congr ?_
    rw [Wire.RoomyList, hr₁, List.length_append, true_and]

section loops
variable {elem : Machine → Except Fault Machine} {k : ℕ}
  (hext : ∀ m m', elem m = .ok m' → Extends m m')
  (helem : ∀ m m', m.left < k → elem m = .ok m' → m'.err = false → Accepted grants m m')
include hext helem

/-- The array loop reads legal trees to its end, or up to an element that fails. -/
theorem arrayLoop_inv {own i n : ℕ} {arr : List LuaValue} {hash : List (LuaValue × LuaValue)}
    {st : List LuaValue} {m m' : Machine} (hm : m.left < k) (herr : m.err = false)
    (hstack : m.stack = .table own arr hash :: st) (h : arrayLoop elem own i n m = .ok m') :
    ∃ items r m₁, Passed grants m m₁ items r ∧ ((items.length = n ∧ m' = m₁) ∨
      (items.length < n ∧ elem m₁ = .ok m' ∧ m'.err = true)) := by
  induction n generalizing i m arr hash with
  | zero =>
    cases h
    exact ⟨[], _, _, .refl herr, .inl ⟨rfl, rfl⟩⟩
  | succ n ih =>
    obtain ⟨m₁, hm₁, ⟨herr₁, rfl⟩ | ⟨herr₁, m₂, hm₂, hm'⟩⟩ := arrayLoop_succ h
    · exact ⟨[], _, m, .refl herr, .inr ⟨Nat.succ_pos n, hm₁, herr₁⟩⟩
    · obtain ⟨x, r₁, v, hx, hdata, ht, hgrants⟩ := helem m m₁ hm hm₁ herr₁
      obtain ⟨v', id, arr', hash', st', hst, heq⟩ := rawseti_ok hm₂
      rw [ht.stack, hstack] at hst
      simp only [List.cons.injEq, LuaValue.table.injEq] at hst
      obtain ⟨rfl, ⟨rfl, rfl, rfl⟩, rfl⟩ := hst
      have hframe : Frame m₁ m₂ := by
        subst heq
        refine ⟨rfl, rfl, rfl, .refl _, le_rfl, [⟨own, own, true⟩], rfl, fun e he => ?_⟩
        rw [List.mem_singleton.mp he]
        exact ⟨rfl, rfl⟩
      have hm₂k : m₂.left < k :=
        ((hext _ _ hm₁).trans (extends_rawseti hm₂)).left_le.trans_lt hm
      obtain ⟨items, r, m₃, hp, hend⟩ :=
        ih hm₂k (by rw [heq]; exact herr₁) (by rw [heq]) hm'
      refine ⟨x :: items, r, m₃, hp.cons hx hdata hgrants (by rw [heq]; exact ht.tables) ht.frame
        ht.ofs ht.loads (hext _ _ hm₁) hframe (by rw [heq]) (by rw [heq]) (extends_rawseti hm₂), ?_⟩
      rcases hend with ⟨hlen, he⟩ | ⟨hlen, he⟩
      · exact .inl ⟨by rw [List.length_cons, hlen], he⟩
      · exact .inr ⟨by rw [List.length_cons]; omega, he⟩

/-- The map loop reads legal pairs to its end, or up to a pair that fails. -/
theorem mapLoop_inv {own n : ℕ} {acc : List (LuaValue × LuaValue)} {st : List LuaValue}
    {m m' : Machine} (hm : m.left < k) (herr : m.err = false)
    (hstack : m.stack = .table own [] acc :: st) (h : mapLoop elem own n m = .ok m') :
    ∃ items r m₁ acc₁, Passed grants m m₁ items r ∧ Wire.GoodKeys items ∧
      m₁.stack = .table own [] acc₁ :: st ∧ ((items.length = 2 * n ∧ m' = m₁) ∨
      ∃ n' m₂ m₃ m₄, items.length + 2 * (n' + 1) = 2 * n ∧ elem (m₁.keying true) = .ok m₂ ∧
        elem (m₂.keying false) = .ok m₃ ∧ m₃.rawset own (keyOwn m₂ m₃) = .ok m₄ ∧
        mapLoop elem own n' m₄ = .ok m' ∧ m₃.err = true) := by
  induction n generalizing m acc with
  | zero =>
    cases h
    exact ⟨[], _, _, acc, .refl herr, trivial, hstack, .inl ⟨rfl, rfl⟩⟩
  | succ n ih =>
    obtain ⟨m₁, m₂, m₃, hm₁, hm₂, hm₃, hm'⟩ := mapLoop_succ h
    cases herr₂ : m₂.err with
    | true =>
      exact ⟨[], _, m, acc, .refl herr, trivial, hstack,
        .inr ⟨n, m₁, m₂, m₃, by simp, hm₁, hm₂, hm₃, hm', herr₂⟩⟩
    | false =>
      have herr₁ : m₁.err = false := (hext _ _ hm₂).err_of herr₂
      obtain ⟨x, r₁, kv, hx, hdata, ht, hkey⟩ := helem (m.keying true) m₁ hm hm₁ herr₁
      have hm₁k : (m₁.keying false).left < k := (hext _ _ hm₁).left_le.trans_lt hm
      obtain ⟨y, r₂, vv, hy, hdata₂, ht₂, hvalue⟩ := helem _ _ hm₁k hm₂ herr₂
      have hstack₁ : m₁.stack = kv :: .table own [] acc :: st := by
        rw [ht.stack]
        exact congrArg _ hstack
      have hstack₂ : m₂.stack = vv :: kv :: .table own [] acc :: st := by
        rw [ht₂.stack]
        exact congrArg _ hstack₁
      obtain ⟨v', k', id, arr, hash, st', hst, hnil, hnan, heq⟩ := rawset_ok hm₃
      rw [hstack₂] at hst
      simp only [List.cons.injEq, LuaValue.table.injEq] at hst
      obtain ⟨rfl, rfl, ⟨rfl, rfl, rfl⟩, rfl⟩ := hst
      have hown : keyOwn m₁ m₂ = true := by
        rw [keyOwn, herr₁, ht₂.stack]
        simp [Machine.keying]
      have hframe₃ : Frame m₂ m₃ := by
        subst heq
        refine ⟨rfl, rfl, rfl, .refl _, le_rfl, [⟨own, own, keyOwn m₁ m₂⟩], rfl, fun e he => ?_⟩
        rw [List.mem_singleton.mp he]
        exact ⟨rfl, hown⟩
      have hm₃k : m₃.left < k :=
        ((hext _ _ hm₂).trans (extends_rawset hm₃)).left_le.trans_lt hm₁k
      have hstack₃ : m₃.stack = .table own [] (setHash kv vv acc) :: st := by
        rw [heq, rawset_nil_array]
      obtain ⟨items, r, m₄, acc₁, hp, hkeys, hst₄, hend⟩ :=
        ih hm₃k (by rw [heq]; exact herr₂) hstack₃ hm'
      have hy' := hp.cons (m := m₁) hy hdata₂ hvalue (by rw [heq]; exact ht₂.tables)
        ht₂.frame.of_keying ht₂.ofs ht₂.loads ((extends_keying m₁ false).trans (hext _ _ hm₂))
        hframe₃ (by rw [heq]) (by rw [heq]) (extends_rawset hm₃)
      have hx' := hy'.cons (m := m) hx hdata hkey ht.tables ht.frame.of_keying ht.ofs ht.loads
        ((extends_keying m true).trans (hext _ _ hm₁)) (.refl m₁) rfl rfl (.refl m₁)
      refine ⟨x :: y :: items, r, m₄, acc₁, hx', ⟨good_of_key ht.reads hnil hnan, hkeys⟩, hst₄, ?_⟩
      simp only [List.length_cons]
      rcases hend with ⟨hlen, he⟩ | ⟨n', m₅, m₆, m₇, hlen, he⟩
      · exact .inl ⟨by omega, he⟩
      · exact .inr ⟨n', m₅, m₆, m₇, by omega, he⟩

end loops

theorem legal_array {t : UInt8} {w : Width} {k : ℕ} {count : List UInt8} {items : List Wire}
    (h : tagOf t = .array w k) (hc : count.length = w.size)
    (hlen : items.length = (toInt (countOf k count w)).toNat) (hitems : ∀ x ∈ items, x.Legal) :
    (Wire.array w (countOf k count w) items).Legal ∧
      (Wire.array w (countOf k count w) items).bytes = t :: (count ++ Wire.bytesList items) := by
  obtain ⟨hfits, hhdr⟩ := array_of_tag h hc
  refine ⟨⟨hfits, hlen, Wire.legalList_iff.mpr hitems⟩, ?_⟩
  rw [Wire.bytes, ← hhdr, List.cons_append]

theorem legal_map {t : UInt8} {w : Width} {k : ℕ} {count : List UInt8} {items : List Wire}
    (h : tagOf t = .map w k) (hc : count.length = w.size)
    (hlen : items.length = 2 * (toInt (countOf k count w)).toNat) (hkeys : Wire.GoodKeys items)
    (hitems : ∀ x ∈ items, x.Legal) :
    (Wire.map w (countOf k count w) items).Legal ∧
      (Wire.map w (countOf k count w) items).bytes = t :: (count ++ Wire.bytesList items) := by
  obtain ⟨hfits, hhdr⟩ := map_of_tag h hc
  refine ⟨⟨hfits, hlen, hkeys, Wire.legalList_iff.mpr hitems⟩, ?_⟩
  rw [Wire.bytes, ← hhdr, List.cons_append]

theorem split_count {m : Machine} {t : UInt8} {r : List UInt8} {w : Width}
    (htag : m.data.drop m.ofs = t :: r) (hleft : ¬ m.afterTag.left < w.size) :
    ∃ count r', r = count ++ r' ∧ count.length = w.size ∧
      m.data.drop m.ofs = t :: (count ++ r') ∧ (∀ k, m.afterTag.readCount k w = countOf k count w) ∧
      (m.afterCount w).data.drop (m.afterCount w).ofs = r' := by
  have hr := left_eq (afterTag_drop htag)
  have hlen : (r.take w.size).length = w.size := by
    rw [List.length_take]
    omega
  have hsplit : r = r.take w.size ++ r.drop w.size := (List.take_append_drop _ _).symm
  have htag' : m.data.drop m.ofs = t :: (r.take w.size ++ r.drop w.size) := by rw [← hsplit, htag]
  exact ⟨r.take w.size, r.drop w.size, hsplit, hlen, htag',
    fun k => readCount_eq k hlen (peek_eq (afterTag_drop htag') hlen), afterCount_drop htag' hlen⟩

theorem left_afterCount {m : Machine} {t : UInt8} {r : List UInt8} {fuel : ℕ}
    (htag : m.data.drop m.ofs = t :: r) (hm : m.left < fuel + 1) (w : Width) (narr nrec : ℤ) :
    ((m.afterCount w).newtable narr nrec).left < fuel := by
  have h := left_eq htag
  have h' := left_eq (afterTag_drop htag)
  have hle : ((m.afterCount w).newtable narr nrec).left ≤ m.afterTag.left :=
    ((extends_load _ _).trans ((extends_advance _ _).trans (extends_newtable _ _ _))).left_le
  rw [List.length_cons] at h
  omega

theorem unpackAnytype_accepted {fuel : ℕ} {m m' : Machine} (hm : m.left < fuel)
    (h : mprbufUnpackAnytype grants fuel m = .ok m') (herr' : m'.err = false) :
    Accepted grants m m' := by
  induction fuel generalizing m m' with
  | zero => cases h
  | succ fuel ih =>
    have herr := (unpackAnytype_extends h).err_of herr'
    rcases drop_cases m with ⟨hleft, _⟩ | ⟨t, r, htag⟩
    · rw [unpackAnytype_empty hleft] at h
      cases h
      cases herr'
    · have hrun := h
      rw [unpackAnytype_tag htag] at hrun
      cases ht : tagOf t with
      | single => exact accepted_of_legal (x := .single t) hm ht herr htag trivial h
      | reserved =>
        simp only [ht, Except.ok.injEq] at hrun
        subst hrun
        cases herr'
      | scalar s =>
        simp only [ht] at hrun
        split at hrun
        · cases hrun
          cases herr'
        · rename_i hleft
          have hr := left_eq (afterTag_drop htag)
          have hlen : (r.take s.size).length = s.size := by
            rw [List.length_take]
            omega
          refine accepted_of_legal (x := .scalar s (r.take s.size)) (r := r.drop s.size) hm hlen
            herr ?_ trivial h
          rw [htag, scalar_of_tag ht, Wire.bytes, List.cons_append, List.take_append_drop]
      | raw w k =>
        simp only [ht, Except.ok.injEq, Machine.unpackRaw] at hrun
        split at hrun
        · subst hrun
          cases herr'
        · rename_i hleft
          obtain ⟨count, r', rfl, hc, htag', hread, hrest⟩ := split_count htag hleft
          rw [hread k] at hrun
          split at hrun
          · subst hrun
            cases herr'
          · rename_i hleft'
            have hr' : ¬ r'.length < countOf k count w := by
              rw [← left_eq hrest]
              exact hleft'
            have hlen : (r'.take (countOf k count w)).length = countOf k count w := by
              rw [List.length_take]
              omega
            obtain ⟨hfits, hhdr⟩ := raw_of_tag ht hc
            refine accepted_of_legal (x := .raw w (r'.take (countOf k count w)))
              (r := r'.drop (countOf k count w)) hm ?_ herr ?_ trivial h
            · rw [Wire.Legal, hlen]
              exact hfits
            · rw [Wire.bytes, hlen, ← hhdr, htag', List.append_assoc, List.take_append_drop,
                List.cons_append]
      | array w k =>
        simp only [ht] at hrun
        split at hrun
        · cases hrun
          cases herr'
        · rename_i hleft
          obtain ⟨count, r', rfl, hc, htag', hread, hrest⟩ := split_count htag hleft
          rw [hread k] at hrun
          obtain ⟨hown, hrun⟩ := unpackArray_ok.mp hrun
          obtain ⟨items, r₁, m₁, hp, ⟨hlen, _⟩ | ⟨_, _, hbad⟩⟩ :=
            arrayLoop_inv (fun _ _ => unpackAnytype_extends) (fun _ _ => ih)
              (left_afterCount htag hm w _ _) herr rfl hrun
          · obtain ⟨hlegal, hbytes⟩ := legal_array ht hc hlen hp.legal
            have hgrants := Grants.all_append.mpr ⟨Grants.all_singleton.mpr hown, hp.granted⟩
            refine accepted_of_legal (r := r₁) hm hlegal herr ?_ hgrants h
            have hd : r' = Wire.bytesList items ++ r₁ := hrest.symm.trans hp.data
            rw [hbytes, htag', hd]
            simp
          · rw [hbad] at herr'
            cases herr'
      | map w k =>
        simp only [ht] at hrun
        split at hrun
        · cases hrun
          cases herr'
        · rename_i hleft
          obtain ⟨count, r', rfl, hc, htag', hread, hrest⟩ := split_count htag hleft
          rw [hread k] at hrun
          obtain ⟨hown, hrun⟩ := unpackMap_ok.mp hrun
          obtain ⟨items, r₁, m₁, acc₁, hp, hkeys, _, ⟨hlen, _⟩ |
              ⟨n', m₂, m₃, m₄, _, _, _, hset, hloop, hbad⟩⟩ :=
            mapLoop_inv (fun _ _ => unpackAnytype_extends) (fun _ _ => ih)
              (left_afterCount htag hm w _ _) herr rfl hrun
          · obtain ⟨hlegal, hbytes⟩ := legal_map ht hc hlen hkeys hp.legal
            have hgrants := Grants.all_append.mpr ⟨Grants.all_singleton.mpr hown, hp.granted⟩
            refine accepted_of_legal (r := r₁) hm hlegal herr ?_ hgrants h
            have hd : r' = Wire.bytesList items ++ r₁ := hrest.symm.trans hp.data
            rw [hbytes, htag', hd]
            simp
          · have hext := (extends_rawset hset).trans
              (mapLoop_extends (fun _ _ => unpackAnytype_extends) hloop)
            rw [hext.err hbad] at herr'
            cases herr'

end accepts

end Lev.MPack
