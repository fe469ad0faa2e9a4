import Lev.MPackAccepts

/-! A tree as its head, the bytes before its items, and the items. Which head a byte sequence
starts with can be read off it, so the trees it stands for are determined. -/
namespace Lev.MPack
open CInt Endian Slab Memory Lua

/-- A tree without its items. -/
inductive Head
  | single (t : UInt8)
  | scalar (s : Scalar) (payload : List UInt8)
  | raw (w : Width) (s : List UInt8)
  | array (w : Width) (n : ℕ)
  | map (w : Width) (n : ℕ)

namespace Head

def bytes : Head → List UInt8
  | .single t => [t]
  | .scalar s payload => s.tag :: payload
  | .raw w s => Wire.rawHeader w s.length ++ s
  | .array w n => Wire.arrayHeader w n
  | .map w n => Wire.mapHeader w n

def Valid : Head → Prop
  | .single t => tagOf t = .single
  | .scalar s payload => payload.length = s.size
  | .raw w s => w.fits 32 s.length
  | .array w n => w.fits 16 n
  | .map w n => w.fits 16 n

def arity : Head → ℕ
  | .array _ n => n
  | .map _ n => 2 * n
  | _ => 0

def withItems (items : List Wire) : Head → Wire
  | .single t => .single t
  | .scalar s payload => .scalar s payload
  | .raw w s => .raw w s
  | .array w n => .array w n items
  | .map w n => .map w n items

def readCount (inTag : ℕ) (w : Width) (r : List UInt8) : Option (ℕ × List UInt8) :=
  if r.length < w.size then none else some (countOf inTag (r.take w.size) w, r.drop w.size)

/-- The head at the start of the bytes, and what follows it. -/
def read : List UInt8 → Option (Head × List UInt8)
  | [] => none
  | t :: r =>
    match tagOf t with
    | .single => some (.single t, r)
    | .scalar s =>
      if r.length < s.size then none else some (.scalar s (r.take s.size), r.drop s.size)
    | .raw w inTag => (readCount inTag w r).bind fun (n, r) =>
      if r.length < n then none else some (.raw w (r.take n), r.drop n)
    | .array w inTag => (readCount inTag w r).map fun (n, r) => (.array w n, r)
    | .map w inTag => (readCount inTag w r).map fun (n, r) => (.map w n, r)
    | .reserved => none

theorem bytes_ne_nil (hd : Head) : hd.bytes ≠ [] := by
  have hheader : ∀ base tag16 tag32 n (w : Width), w.header base tag16 tag32 n ≠ [] := by
    intro base tag16 tag32 n w
    exact List.ne_nil_of_length_pos (by rw [Width.header_length]; omega)
  cases hd with
  | single t => exact List.cons_ne_nil _ _
  | scalar s p => exact List.cons_ne_nil _ _
  | raw w s => exact List.append_ne_nil_of_left_ne_nil (hheader _ _ _ _ _) _
  | array w n => exact hheader _ _ _ _ _
  | map w n => exact hheader _ _ _ _ _

theorem readCount_append {k : ℕ} {w : Width} {count : List UInt8} (hc : count.length = w.size)
    (r : List UInt8) : readCount k w (count ++ r) = some (countOf k count w, r) := by
  rw [readCount, if_neg (by rw [List.length_append]; omega), List.take_left' hc, List.drop_left' hc]

theorem countOf_announced {tag : ℕ → Tag} {w : Width} {n : ℕ} {header : List UInt8}
    (h : Announces tag w n header) :
    ∃ t count inTag, header = t :: count ∧ tagOf t = tag inTag ∧ count.length = w.size ∧
      countOf inTag count w = n := by
  obtain ⟨t, count, inTag, hheader, htag, hlen, hread⟩ := h
  refine ⟨t, count, inTag, hheader, htag, hlen, ?_⟩
  let m : Machine := ⟨⟨none, 0, count, 0, false, false⟩, Heap.boot fun _ _ => 0, [], [], [], []⟩
  have hpeek : m.peek w.size = count := List.take_of_length_le (le_of_eq hlen)
  rw [← readCount_eq inTag hlen hpeek, hread m hpeek]

theorem read_bytes {hd : Head} (hv : hd.Valid) (r : List UInt8) :
    read (hd.bytes ++ r) = some (hd, r) := by
  cases hd with
  | single t =>
    rw [Valid] at hv
    simp only [bytes, List.cons_append, List.nil_append, read, hv]
  | scalar s p =>
    rw [Valid] at hv
    have hlen : ¬ (p ++ r).length < s.size := by
      rw [List.length_append]
      omega
    simp only [bytes, List.cons_append, read, tagOf_tag, if_neg hlen, List.take_left' hv,
      List.drop_left' hv]
  | raw w s =>
    obtain ⟨t, count, inTag, hheader, htag, hlen, hcount⟩ := countOf_announced (announces_raw hv)
    have hroom : ¬ (s ++ r).length < s.length := by
      rw [List.length_append]
      omega
    rw [bytes, hheader, List.cons_append, List.cons_append, List.append_assoc, read, htag]
    simp only [readCount_append hlen, hcount, Option.bind_some, if_neg hroom, List.take_left,
      List.drop_left]
  | array w n =>
    obtain ⟨t, count, inTag, hheader, htag, hlen, hcount⟩ := countOf_announced (announces_array hv)
    rw [bytes, hheader, List.cons_append, read, htag]
    simp only [readCount_append hlen, hcount, Option.map_some]
  | map w n =>
    obtain ⟨t, count, inTag, hheader, htag, hlen, hcount⟩ := countOf_announced (announces_map hv)
    rw [bytes, hheader, List.cons_append, read, htag]
    simp only [readCount_append hlen, hcount, Option.map_some]

theorem readCount_some {k n : ℕ} {w : Width} {r r' : List UInt8}
    (h : readCount k w r = some (n, r')) :
    ∃ count, count.length = w.size ∧ r = count ++ r' ∧ n = countOf k count w := by
  rw [readCount] at h
  split at h
  · cases h
  · next hlen =>
    cases h
    exact ⟨r.take w.size, List.length_take_of_le (Nat.not_lt.mp hlen),
      (List.take_append_drop _ _).symm,
      rfl⟩

theorem read_some {d r : List UInt8} {hd : Head} (h : read d = some (hd, r)) :
    hd.Valid ∧ d = hd.bytes ++ r := by
  cases d with
  | nil => cases h
  | cons t d =>
    rw [read] at h
    split at h
    · next htag =>
      cases h
      exact ⟨htag, rfl⟩
    · next s htag =>
      split at h
      · cases h
      · next hlen =>
        cases h
        refine ⟨List.length_take_of_le (Nat.not_lt.mp hlen), ?_⟩
        rw [bytes, scalar_of_tag htag, List.cons_append, List.take_append_drop]
    · next w inTag htag =>
      obtain ⟨⟨n, d'⟩, hcount, h⟩ := Option.bind_eq_some_iff.mp h
      obtain ⟨count, hc, rfl, rfl⟩ := readCount_some hcount
      obtain ⟨hfits, hheader⟩ := raw_of_tag htag hc
      dsimp only at h
      split at h
      · cases h
      · next hlen =>
        cases h
        have htake := List.length_take_of_le (Nat.not_lt.mp hlen)
        rw [Valid, bytes, htake, ← hheader, List.cons_append, List.cons_append, List.append_assoc,
          List.take_append_drop]
        exact ⟨hfits, rfl⟩
    · next w inTag htag =>
      obtain ⟨⟨n, d'⟩, hcount, h⟩ := Option.map_eq_some_iff.mp h
      obtain ⟨count, hc, rfl, rfl⟩ := readCount_some hcount
      obtain ⟨hfits, hheader⟩ := array_of_tag htag hc
      cases h
      rw [bytes, ← hheader]
      exact ⟨hfits, rfl⟩
    · next w inTag htag =>
      obtain ⟨⟨n, d'⟩, hcount, h⟩ := Option.map_eq_some_iff.mp h
      obtain ⟨count, hc, rfl, rfl⟩ := readCount_some hcount
      obtain ⟨hfits, hheader⟩ := map_of_tag htag hc
      cases h
      rw [bytes, ← hheader]
      exact ⟨hfits, rfl⟩
    · cases h

end Head

namespace Wire

def head : Wire → Head
  | .single t => .single t
  | .scalar s payload => .scalar s payload
  | .raw w s => .raw w s
  | .array w n _ => .array w n
  | .map w n _ => .map w n

def items : Wire → List Wire
  | .array _ _ items => items
  | .map _ _ items => items
  | _ => []

theorem bytes_head (x : Wire) : x.bytes = x.head.bytes ++ bytesList x.items := by
  cases x with
  | single t => rfl
  | scalar s p => exact (List.append_nil _).symm
  | raw w s => exact (List.append_nil _).symm
  | array w n items => rfl
  | map w n items => rfl

theorem withItems_items (x : Wire) : x.head.withItems x.items = x := by
  cases x
  all_goals rfl

mutual

/-- A value of the format: each header is followed by as many items as it says. -/
def WellFormed : Wire → Prop
  | .single t => tagOf t = .single
  | .scalar s p => p.length = s.size
  | .raw w s => w.fits 32 s.length
  | .array w n items => w.fits 16 n ∧ items.length = n ∧ WellFormedList items
  | .map w n items => w.fits 16 n ∧ items.length = 2 * n ∧ WellFormedList items

def WellFormedList : List Wire → Prop
  | [] => True
  | x :: items => x.WellFormed ∧ WellFormedList items

end

theorem wellFormedList_iff {xs : List Wire} : WellFormedList xs ↔ ∀ x ∈ xs, x.WellFormed := by
  induction xs with
  | nil => simp [WellFormedList]
  | cons x xs ih => simp [WellFormedList, ih]

theorem wellFormed_iff {x : Wire} : x.WellFormed ↔
    x.head.Valid ∧ x.items.length = x.head.arity ∧ ∀ y ∈ x.items, y.WellFormed := by
  rw [← wellFormedList_iff]
  cases x with
  | single t | scalar s p | raw w s =>
    simp [WellFormed, head, items, Head.Valid, Head.arity, WellFormedList]
  | array w n items => rfl
  | map w n items => rfl

theorem items_withItems {hd : Head} {items : List Wire} (h : items.length = hd.arity) :
    (hd.withItems items).items = items := by
  cases hd with
  | single t | scalar s p | raw w s => exact (List.eq_nil_of_length_eq_zero h).symm
  | array w n | map w n => rfl

theorem head_withItems (hd : Head) (items : List Wire) : (hd.withItems items).head = hd := by
  cases hd
  all_goals rfl

mutual

/-- No header of an array or a map counts 2^31 or more. -/
def Small : Wire → Prop
  | .array _ n items => n < 2 ^ 31 ∧ SmallList items
  | .map _ n items => n < 2 ^ 31 ∧ SmallList items
  | .single _ => True
  | .scalar _ _ => True
  | .raw _ _ => True

def SmallList : List Wire → Prop
  | [] => True
  | x :: items => x.Small ∧ SmallList items

end

theorem smallList_iff {xs : List Wire} : SmallList xs ↔ ∀ x ∈ xs, x.Small := by
  induction xs with
  | nil => simp [SmallList]
  | cons x xs ih => simp [SmallList, ih]

/-- What the decoder accepts is a value of the format as far as its counts are small. -/
theorem Legal.wellFormed {x : Wire} (hx : x.Legal) (hs : x.Small) : x.WellFormed := by
  induction x using Wire.induct with
  | single t | scalar s p | raw w s => exact hx
  | array w n items ih =>
    obtain ⟨hfits, hlen, hitems⟩ := hx
    obtain ⟨hn, hsmall⟩ := hs
    rw [toInt_toNat_eq (Width.fits_lt (by decide) hfits), if_pos hn] at hlen
    refine ⟨hfits, hlen, wellFormedList_iff.mpr fun y hy => ?_⟩
    exact ih y hy (legalList_iff.mp hitems y hy) (smallList_iff.mp hsmall y hy)
  | map w n items ih =>
    obtain ⟨hfits, hlen, -, hitems⟩ := hx
    obtain ⟨hn, hsmall⟩ := hs
    rw [toInt_toNat_eq (Width.fits_lt (by decide) hfits), if_pos hn] at hlen
    refine ⟨hfits, hlen, wellFormedList_iff.mpr fun y hy => ?_⟩
    exact ih y hy (legalList_iff.mp hitems y hy) (smallList_iff.mp hsmall y hy)

theorem Legal.small {x : Wire} (hx : x.Legal) (hw : x.WellFormed) : x.Small := by
  induction x using Wire.induct with
  | single t | scalar s p | raw w s => trivial
  | array w n items ih =>
    obtain ⟨hfits, hlen, hitems⟩ := hx
    obtain ⟨-, hcount, hwell⟩ := hw
    rw [toInt_toNat_eq (Width.fits_lt (by decide) hfits)] at hlen
    refine ⟨by split at hlen <;> omega, smallList_iff.mpr fun y hy => ?_⟩
    exact ih y hy (legalList_iff.mp hitems y hy) (wellFormedList_iff.mp hwell y hy)
  | map w n items ih =>
    obtain ⟨hfits, hlen, -, hitems⟩ := hx
    obtain ⟨-, hcount, hwell⟩ := hw
    rw [toInt_toNat_eq (Width.fits_lt (by decide) hfits)] at hlen
    refine ⟨by split at hlen <;> omega, smallList_iff.mpr fun y hy => ?_⟩
    exact ih y hy (legalList_iff.mp hitems y hy) (wellFormedList_iff.mp hwell y hy)

/-- The elements and pairs that tables have room for in all. -/
def tablesSize (ts : List (ℤ × ℤ)) : ℤ := (ts.map fun t => t.1 + t.2).sum

theorem tablesSize_append (us ts : List (ℤ × ℤ)) :
    tablesSize (us ++ ts) = tablesSize us + tablesSize ts := by
  simp [tablesSize]

theorem tablesSize_cons (t : ℤ × ℤ) (ts : List (ℤ × ℤ)) :
    tablesSize (t :: ts) = t.1 + t.2 + tablesSize ts := by
  simp [tablesSize]

theorem tablesSize_singleton (t : ℤ × ℤ) : tablesSize [t] = t.1 + t.2 := by
  simp [tablesSize]

/-- The tables of a list of trees, where those of each tree are bounded by its bytes. -/
theorem tablesList_small {items : List Wire}
    (ih : ∀ y ∈ items, (∀ t ∈ y.tables, 0 ≤ t.1 ∧ 0 ≤ t.2) ∧ tablesSize y.tables + 1 ≤ y.len) :
    (∀ t ∈ tablesList items, 0 ≤ t.1 ∧ 0 ≤ t.2) ∧
      tablesSize (tablesList items) + items.length ≤ (bytesList items).length := by
  induction items with
  | nil => exact ⟨List.forall_mem_nil _, le_rfl⟩
  | cons y items hitems =>
    obtain ⟨hpos, hlen⟩ := ih y List.mem_cons_self
    obtain ⟨hposs, hlens⟩ := hitems fun z hz => ih z (List.mem_cons_of_mem _ hz)
    rw [tablesList, tablesSize_append, bytesList]
    simp only [List.length_cons, List.length_append]
    rw [len] at hlen
    refine ⟨fun t ht => ?_, by push_cast; omega⟩
    exact (List.mem_append.mp ht).elim (hposs t) (hpos t)

/-- No table of a value has a negative size, and the bytes of the value bound them all. -/
theorem tables_small {x : Wire} (hx : x.WellFormed) (hs : x.Small) :
    (∀ t ∈ x.tables, 0 ≤ t.1 ∧ 0 ≤ t.2) ∧ tablesSize x.tables + 1 ≤ x.len := by
  induction x using Wire.induct with
  | single t | scalar s p =>
    exact ⟨List.forall_mem_nil _, by simp [tables, tablesSize, len, bytes]⟩
  | raw w s =>
    exact ⟨List.forall_mem_nil _,
      by simp [tables, tablesSize, len, bytes, rawHeader, Width.header_length]; omega⟩
  | array w n items ih =>
    obtain ⟨-, hcount, hwell⟩ := hx
    obtain ⟨hn, hsmall⟩ := hs
    obtain ⟨hpos, hlen⟩ := tablesList_small fun y hy =>
      ih y hy (wellFormedList_iff.mp hwell y hy) (smallList_iff.mp hsmall y hy)
    rw [tables, tablesSize_append, toInt_of_lt hn, len, bytes, arrayHeader, List.length_append,
      Width.header_length]
    refine ⟨fun t ht => ?_, ?_⟩
    · rcases List.mem_append.mp ht with ht | ht
      · exact hpos t ht
      · rw [List.mem_singleton.mp ht]
        exact ⟨Int.natCast_nonneg n, le_rfl⟩
    · rw [tablesSize_singleton]
      push_cast
      omega
  | map w n items ih =>
    obtain ⟨-, hcount, hwell⟩ := hx
    obtain ⟨hn, hsmall⟩ := hs
    obtain ⟨hpos, hlen⟩ := tablesList_small fun y hy =>
      ih y hy (wellFormedList_iff.mp hwell y hy) (smallList_iff.mp hsmall y hy)
    rw [tables, tablesSize_append, toInt_of_lt hn, len, bytes, mapHeader, List.length_append,
      Width.header_length]
    refine ⟨fun t ht => ?_, ?_⟩
    · rcases List.mem_append.mp ht with ht | ht
      · exact hpos t ht
      · rw [List.mem_singleton.mp ht]
        exact ⟨le_rfl, Int.natCast_nonneg n⟩
    · rw [tablesSize_singleton]
      push_cast
      omega

end Wire

namespace Grants

/-- Lua makes the tables of a call that have room for 2^20 elements and pairs in all. -/
def Ample (grants : Grants) : Prop :=
  ∀ ts, (∀ t ∈ ts, 0 ≤ t.1 ∧ 0 ≤ t.2) → Wire.tablesSize ts ≤ 2 ^ 20 → grants ts = true

theorem Ample.all {grants : Grants} (hg : grants.Ample) {ts : List (ℤ × ℤ)}
    (hpos : ∀ t ∈ ts, 0 ≤ t.1 ∧ 0 ≤ t.2) (hsize : Wire.tablesSize ts ≤ 2 ^ 20) :
    grants.All [] ts := by
  induction ts with
  | nil => trivial
  | cons t ts ih =>
    have ht := hpos t List.mem_cons_self
    rw [Wire.tablesSize_cons] at hsize
    refine ⟨ih (fun u hu => hpos u (List.mem_cons_of_mem _ hu)) (by omega), ?_⟩
    rw [List.append_nil]
    exact hg _ hpos (by rw [Wire.tablesSize_cons]; exact hsize)

theorem Ample.value {grants : Grants} (hg : grants.Ample) {x : Wire} (hx : x.WellFormed)
    (hs : x.Small) (hlen : x.len ≤ 2 ^ 20) : grants.All [] x.tables := by
  obtain ⟨hpos, hsize⟩ := Wire.tables_small hx hs
  exact hg.all hpos (by omega)

theorem luajit_ample : luajitGrants.Ample := by
  intro ts hpos hsize
  cases ts with
  | nil => rfl
  | cons t ts =>
    have ht := hpos t List.mem_cons_self
    have hrest : 0 ≤ Wire.tablesSize ts := by
      refine List.sum_nonneg fun n hn => ?_
      obtain ⟨u, hu, rfl⟩ := List.mem_map.mp hn
      have := hpos u (List.mem_cons_of_mem _ hu)
      omega
    rw [Wire.tablesSize_cons] at hsize
    simp only [luajitGrants, decide_eq_true_eq]
    omega

end Grants

namespace Wire

theorem Legal.head {x : Wire} (hx : x.Legal) : x.head.Valid ∧ x.items.length ≤ x.head.arity ∧
    ∀ y ∈ x.items, y.Legal := by
  cases x with
  | single t | scalar s p | raw w s => exact ⟨hx, Nat.le_refl 0, nofun⟩
  | array w n items =>
    obtain ⟨hfits, hlen, hitems⟩ := hx
    rw [toInt_toNat_eq (Width.fits_lt (by decide) hfits)] at hlen
    have hle : items.length ≤ n := by split at hlen <;> omega
    exact ⟨hfits, hle, legalList_iff.mp hitems⟩
  | map w n items =>
    obtain ⟨hfits, hlen, -, hitems⟩ := hx
    rw [toInt_toNat_eq (Width.fits_lt (by decide) hfits)] at hlen
    have hle : items.length ≤ 2 * n := by split at hlen <;> omega
    exact ⟨hfits, hle, legalList_iff.mp hitems⟩

theorem read_bytesList {x : Wire} (hx : x.head.Valid) (xs : List Wire) :
    Head.read (bytesList (x :: xs)) = some (x.head, bytesList (x.items ++ xs)) := by
  rw [bytesList, bytes_head, bytesList_append, List.append_assoc, Head.read_bytes hx]

/-- Bytes that start with a value of one tag byte start with no other value. -/
theorem eq_single {x : Wire} {t : UInt8} {d r : List UInt8} (ht : tagOf t = .single)
    (hx : x.head.Valid) (h : t :: d = x.bytes ++ r) : x = .single t ∧ d = r := by
  have hread : Head.read (t :: d) = some (.single t, d) := by simp only [Head.read, ht]
  rw [h, bytes_head, List.append_assoc, Head.read_bytes hx, Option.some.injEq,
    Prod.mk.injEq] at hread
  cases x with
  | single u =>
    obtain ⟨hhead, rfl⟩ := hread
    exact ⟨congrArg _ (Head.single.inj hhead), rfl⟩
  | scalar s p | raw w s | array w n items | map w n items => cases hread.1

theorem length_items_lt (x : Wire) (xs : List Wire) :
    (bytesList (x.items ++ xs)).length < (bytesList (x :: xs)).length := by
  have hpos := List.length_pos_of_ne_nil x.head.bytes_ne_nil
  rw [bytesList, bytes_head, bytesList_append, List.length_append, List.length_append,
    List.length_append]
  omega

theorem bytesList_eq_nil {xs : List Wire} (h : bytesList xs = []) : xs = [] := by
  have hle := length_le_bytesList xs
  rw [h] at hle
  exact List.eq_nil_of_length_eq_zero (Nat.le_zero.mp hle)

theorem bytesList_unique {xs ys : List Wire} (hx : ∀ x ∈ xs, x.WellFormed)
    (hy : ∀ y ∈ ys, y.WellFormed) (h : bytesList xs = bytesList ys) : xs = ys := by
  induction hn : (bytesList xs).length using Nat.strong_induction_on generalizing xs ys with
  | _ n ih =>
    cases xs with
    | nil => exact (bytesList_eq_nil h.symm).symm
    | cons x xs =>
      cases ys with
      | nil => exact bytesList_eq_nil h
      | cons y ys =>
        obtain ⟨hxvalid, hxlen, hxitems⟩ := wellFormed_iff.mp (hx x List.mem_cons_self)
        obtain ⟨hyvalid, hylen, hyitems⟩ := wellFormed_iff.mp (hy y List.mem_cons_self)
        have hread := read_bytesList hxvalid xs
        rw [h, read_bytesList hyvalid ys, Option.some.injEq, Prod.mk.injEq] at hread
        obtain ⟨hhead, hrest⟩ := hread
        have hlists := ih _ (hn ▸ length_items_lt x xs)
          (List.forall_mem_append.mpr ⟨hxitems, fun z hz => hx z (List.mem_cons_of_mem _ hz)⟩)
          (List.forall_mem_append.mpr ⟨hyitems, fun z hz => hy z (List.mem_cons_of_mem _ hz)⟩)
          hrest.symm rfl
        obtain ⟨hitems, rfl⟩ := List.append_inj hlists (by rw [hxlen, hylen, hhead])
        rw [← x.withItems_items, ← y.withItems_items, hhead, hitems]

/-- Where the decoder takes bytes for other values than they are, it sees more of them. -/
theorem legal_wellFormed_length {xs ys : List Wire} (hx : ∀ x ∈ xs, x.Legal)
    (hy : ∀ y ∈ ys, y.WellFormed) (h : bytesList xs = bytesList ys) :
    ys.length ≤ xs.length ∧ (ys.length = xs.length → ∀ x ∈ xs, x.WellFormed) := by
  induction hn : (bytesList xs).length using Nat.strong_induction_on generalizing xs ys with
  | _ n ih =>
    cases xs with
    | nil =>
      rw [bytesList_eq_nil h.symm]
      exact ⟨Nat.le_refl 0, fun _ => nofun⟩
    | cons x xs =>
      cases ys with
      | nil => exact absurd (bytesList_eq_nil h) (List.cons_ne_nil _ _)
      | cons y ys =>
        obtain ⟨hxvalid, hxlen, hxitems⟩ := (hx x List.mem_cons_self).head
        obtain ⟨hyvalid, hylen, hyitems⟩ := wellFormed_iff.mp (hy y List.mem_cons_self)
        have hread := read_bytesList hxvalid xs
        rw [h, read_bytesList hyvalid ys, Option.some.injEq, Prod.mk.injEq] at hread
        obtain ⟨hhead, hrest⟩ := hread
        obtain ⟨hle, hsame⟩ := ih _ (hn ▸ length_items_lt x xs)
          (List.forall_mem_append.mpr ⟨hxitems, fun z hz => hx z (List.mem_cons_of_mem _ hz)⟩)
          (List.forall_mem_append.mpr ⟨hyitems, fun z hz => hy z (List.mem_cons_of_mem _ hz)⟩)
          hrest.symm rfl
        rw [hhead] at hylen
        rw [List.length_append, List.length_append] at hle hsame
        rw [List.length_cons, List.length_cons]
        refine ⟨by omega, fun hlen => ?_⟩
        have hall := List.forall_mem_append.mp (hsame (by omega))
        refine List.forall_mem_cons.mpr ⟨?_, hall.2⟩
        exact wellFormed_iff.mpr ⟨hxvalid, by omega, hall.1⟩

/-- A value the decoder reads from the bytes of a value of the format is that value. -/
theorem eq_of_bytes {x y : Wire} (hx : x.Legal) (hy : y.WellFormed) (h : x.bytes = y.bytes) :
    x.WellFormed ∧ x = y := by
  have hlist : bytesList [x] = bytesList [y] := by simp only [bytesList, h]
  have hy' : ∀ z ∈ [y], z.WellFormed := List.forall_mem_singleton.mpr hy
  have hwell := (legal_wellFormed_length (List.forall_mem_singleton.mpr hx) hy' hlist).2 rfl
  exact ⟨List.forall_mem_singleton.mp hwell,
    List.head_eq_of_cons_eq (bytesList_unique hwell hy' hlist)⟩

end Wire

end Lev.MPack
