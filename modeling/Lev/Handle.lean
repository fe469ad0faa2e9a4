import Mathlib

/-! The reference count of a handle object (lev_new_base.c). While the count is not 0 the
registry of Lua holds the object, so that it is not collected. -/
namespace Lev.Handle

/-- `LEVBASE_REF_FIELDS`; `ref` and `threadref` say whether the registry holds the object
and the coroutine it was made in. -/
structure LevRefStruct where
  refCount : ℤ
  ref : Bool
  threadref : Bool
  deriving DecidableEq, Repr

def createObjInitRef (inCoroutine : Bool) : LevRefStruct := ⟨0, false, inCoroutine⟩

def levHandleRef (lhandle : LevRefStruct) : LevRefStruct :=
  { lhandle with
    refCount := lhandle.refCount + 1
    ref := if lhandle.refCount = 0 then true else lhandle.ref }

/-- `none` is the failed assertion `refCount >= 0`. -/
def levHandleUnref (lhandle : LevRefStruct) : Option LevRefStruct :=
  let lhandle := { lhandle with refCount := lhandle.refCount - 1 }
  if lhandle.refCount < 0 then none
  else if lhandle.refCount = 0 then some { lhandle with ref := false, threadref := false }
  else some lhandle

/-- Nothing keeps the object from the collector. -/
def Released (lhandle : LevRefStruct) : Prop :=
  lhandle.refCount = 0 ∧ lhandle.ref = false ∧ lhandle.threadref = false

instance (lhandle : LevRefStruct) : Decidable (Released lhandle) :=
  inferInstanceAs (Decidable (_ ∧ _ ∧ _))

/-- The references of a handle by what they are for: `uses` are to be given up with the
handle, each of the `requests` when its callback runs, and `closes` counts the close
callbacks that have given one up. -/
structure Ledger where
  self : LevRefStruct
  uses : ℕ
  requests : ℕ
  closes : ℕ
  deriving DecidableEq, Repr

/-- What a call or a callback does to the references. -/
inductive Entry
  | use | request | answer | drop | close
  deriving DecidableEq, Repr

namespace Ledger

def fresh (inCoroutine : Bool) : Ledger := ⟨createObjInitRef inCoroutine, 0, 0, 0⟩

def take (l : Ledger) : Ledger := { l with self := levHandleRef l.self, uses := l.uses + 1 }

/-- `lev_handle_ref` or `lev_handle_unref`, and what it was for. -/
def post (l : Ledger) : Entry → Option Ledger
  | .use => some l.take
  | .request => some { l with self := levHandleRef l.self, requests := l.requests + 1 }
  | .answer =>
    (levHandleUnref l.self).map fun self => { l with self := self, requests := l.requests - 1 }
  | .drop => (levHandleUnref l.self).map fun self => { l with self := self, uses := l.uses - 1 }
  | .close => (levHandleUnref l.self).map fun self =>
      { l with self := self, closes := l.closes + 1 }

/-- A reference can be given up only where there is one of its sort. -/
def Backed (l : Ledger) : Entry → Prop
  | .answer => 0 < l.requests
  | .drop => 0 < l.uses
  | _ => True

/-- The close callback is the last one to give up a reference, and there is none left. -/
def InOrder (l : Ledger) : Entry → Prop
  | .close => l.closes = 0 ∧ l.uses + l.requests = 1
  | _ => l.closes = 0

instance (l : Ledger) : (e : Entry) → Decidable (l.InOrder e)
  | .close => inferInstanceAs (Decidable (_ ∧ _))
  | .use => inferInstanceAs (Decidable (_ = _))
  | .request => inferInstanceAs (Decidable (_ = _))
  | .answer => inferInstanceAs (Decidable (_ = _))
  | .drop => inferInstanceAs (Decidable (_ = _))

/-- The count covers nothing it should not, and a closed handle is released. -/
def Sound (l : Ledger) : Prop := 0 ≤ l.self.refCount ∧ (0 < l.closes → Released l.self)

instance (l : Ledger) : Decidable l.Sound := inferInstanceAs (Decidable (_ ∧ (_ → _)))

/-- Until the close callback the count is the number of references that should be there. -/
structure Kept (l : Ledger) : Prop where
  opened : l.closes = 0 → l.self.refCount = l.uses + l.requests
  closed : 0 < l.closes → Released l.self

variable {l l' : Ledger} {e : Entry}

theorem kept_fresh (inCoroutine : Bool) : (fresh inCoroutine).Kept where
  opened _ := rfl
  closed h := absurd h (Nat.lt_irrefl 0)

theorem kept_take (hk : l.Kept) (hc : l.closes = 0) : l.take.Kept where
  opened _ := by
    have hcount := hk.opened hc
    simp only [take, levHandleRef]
    omega
  closed h := absurd h (hc ▸ Nat.lt_irrefl 0)

theorem Kept.sound (hk : l.Kept) : l.Sound := by
  refine ⟨?_, hk.closed⟩
  rcases Nat.eq_zero_or_pos l.closes with h | h
  · rw [hk.opened h]
    omega
  · rw [(hk.closed h).1]

theorem levHandleUnref_cases (lhandle : LevRefStruct) :
    (lhandle.refCount < 1 ∧ levHandleUnref lhandle = none) ∨
    (lhandle.refCount = 1 ∧ levHandleUnref lhandle = some ⟨0, false, false⟩) ∨
    (1 < lhandle.refCount ∧
      levHandleUnref lhandle = some { lhandle with refCount := lhandle.refCount - 1 }) := by
  rcases lt_trichotomy lhandle.refCount 1 with h | h | h
  · refine .inl ⟨h, ?_⟩
    simp only [levHandleUnref]
    rw [if_pos (by omega)]
  · refine .inr (.inl ⟨h, ?_⟩)
    simp [levHandleUnref, h]
  · refine .inr (.inr ⟨h, ?_⟩)
    simp only [levHandleUnref]
    rw [if_neg (by omega), if_neg (by omega)]

theorem unref_of_pos (lhandle : LevRefStruct) (h : 0 < lhandle.refCount) :
    ∃ self, levHandleUnref lhandle = some self ∧ self.refCount = lhandle.refCount - 1 ∧
      (lhandle.refCount = 1 → Released self) := by
  rcases levHandleUnref_cases lhandle with ⟨hc, hu⟩ | ⟨hc, hu⟩ | ⟨hc, hu⟩
  · omega
  · exact ⟨_, hu, by rw [hc]; rfl, fun _ => ⟨rfl, rfl, rfl⟩⟩
  · exact ⟨_, hu, rfl, fun h1 => by omega⟩

theorem Kept.post (hk : l.Kept) (hb : l.Backed e) (ho : l.InOrder e) :
    ∃ l', l.post e = some l' ∧ l'.Kept := by
  cases e with
  | use => exact ⟨_, rfl, kept_take hk ho⟩
  | request =>
    have hc : l.closes = 0 := ho
    have hcount := hk.opened hc
    refine ⟨_, rfl, fun _ => ?_, fun h => absurd h (hc ▸ Nat.lt_irrefl 0)⟩
    simp only [levHandleRef]
    omega
  | answer =>
    have hc : l.closes = 0 := ho
    have hcount := hk.opened hc
    have hb : 0 < l.requests := hb
    obtain ⟨self, hu, hself, -⟩ := unref_of_pos l.self (by omega)
    refine ⟨{ l with self := self, requests := l.requests - 1 }, by simp [Ledger.post, hu],
      fun _ => ?_, fun h => absurd h (hc ▸ Nat.lt_irrefl 0)⟩
    simp only [hself]
    omega
  | drop =>
    have hc : l.closes = 0 := ho
    have hcount := hk.opened hc
    have hb : 0 < l.uses := hb
    obtain ⟨self, hu, hself, -⟩ := unref_of_pos l.self (by omega)
    refine ⟨{ l with self := self, uses := l.uses - 1 }, by simp [Ledger.post, hu],
      fun _ => ?_, fun h => absurd h (hc ▸ Nat.lt_irrefl 0)⟩
    simp only [hself]
    omega
  | close =>
    obtain ⟨hc, hone⟩ := ho
    have hcount := hk.opened hc
    obtain ⟨self, hu, -, hrel⟩ := unref_of_pos l.self (by omega)
    refine ⟨{ l with self := self, closes := l.closes + 1 }, by simp [Ledger.post, hu],
      fun h => absurd h (Nat.succ_ne_zero _), fun _ => hrel (by omega)⟩

/-- An entry out of order shows: the assertion fails, or a closed handle is held. -/
theorem Kept.not_sound (hk : l.Kept) (ho : ¬ l.InOrder e) (h : l.post e = some l') :
    ¬ l'.Sound := by
  intro hs
  cases e with
  | use =>
    cases h
    have hc : 0 < l.closes := Nat.pos_of_ne_zero ho
    have h0 := (hk.closed hc).1
    have h1 := (hs.2 hc).1
    simp only [take, levHandleRef] at h1
    omega
  | request =>
    cases h
    have hc : 0 < l.closes := Nat.pos_of_ne_zero ho
    have h0 := (hk.closed hc).1
    have h1 := (hs.2 hc).1
    simp only [levHandleRef] at h1
    omega
  | answer =>
    have h0 := (hk.closed (Nat.pos_of_ne_zero ho)).1
    rcases levHandleUnref_cases l.self with ⟨hc, hu⟩ | ⟨hc, hu⟩ | ⟨hc, hu⟩
    · simp [Ledger.post, hu] at h
    · omega
    · omega
  | drop =>
    have h0 := (hk.closed (Nat.pos_of_ne_zero ho)).1
    rcases levHandleUnref_cases l.self with ⟨hc, hu⟩ | ⟨hc, hu⟩ | ⟨hc, hu⟩
    · simp [Ledger.post, hu] at h
    · omega
    · omega
  | close =>
    have hcount : l.self.refCount = 1 → l.closes = 0 ∧ l.uses + l.requests = 1 := by
      intro h1
      rcases Nat.eq_zero_or_pos l.closes with hz | hz
      · have := hk.opened hz
        exact ⟨hz, by omega⟩
      · have := (hk.closed hz).1
        omega
    rcases levHandleUnref_cases l.self with ⟨hc, hu⟩ | ⟨hc, hu⟩ | ⟨hc, hu⟩
    · simp [Ledger.post, hu] at h
    · exact ho (hcount hc)
    · simp only [Ledger.post, hu, Option.map_some, Option.some.injEq] at h
      subst h
      have h1 := (hs.2 (Nat.succ_pos _)).1
      simp only at h1
      omega

end Ledger

end Lev.Handle
