import Lev.Handle
import Lev.Pool

/-! timer objects (lev_new_timer.c). Every start takes a reference, and the close gives up
one. -/
namespace Lev.Timer
open Handle Run

/-- `closing` counts the closes whose callback has not run yet, `callbacks` the close
callbacks that are in their `on_close`. -/
structure TimerObj where
  ledger : Ledger
  active : Bool
  closing : ℕ
  callbacks : ℕ
  deriving DecidableEq, Repr

/-- The methods and callbacks. `timer_on_close` is in two steps, as its `on_close` may call
methods of the object before the reference goes. -/
inductive Op
  | start (timeout repeats : ℤ)
  | stop
  | again (r : ℤ)
  | close
  | onTimer (status : ℤ)
  | onClose
  | onCloseUnref
  deriving DecidableEq, Repr

def timerNew (inCoroutine : Bool) : TimerObj := ⟨.fresh inCoroutine, false, 0, 0⟩

namespace TimerObj

variable (self : TimerObj)

def post (e : Entry) : Option TimerObj :=
  (self.ledger.post e).map fun l => { self with ledger := l }

def timerStart (_timeout _repeats : ℤ) : Option TimerObj := { self with active := true }.post .use

def timerStop : TimerObj := { self with active := false }

/-- `timer_again` is refused for a timer that was never started. -/
def timerAgain (r : ℤ) : TimerObj := if r = -1 then self else { self with active := true }

def timerClose : TimerObj := { self with active := false, closing := self.closing + 1 }

/-- The end of `timer_on_close`. -/
def timerOnClose : Option TimerObj := { self with callbacks := self.callbacks - 1 }.post .close

end TimerObj

def step (self : TimerObj) : Op → Option TimerObj
  | .start timeout repeats => self.timerStart timeout repeats
  | .stop => some self.timerStop
  | .again r => some (self.timerAgain r)
  | .close => some self.timerClose
  | .onTimer _ => some self
  | .onClose => some { self with closing := self.closing - 1, callbacks := self.callbacks + 1 }
  | .onCloseUnref => self.timerOnClose

def kind : Pool.Kind TimerObj Bool Op := ⟨timerNew, step⟩

/-- libuv runs each close callback once, and fires active timers only. -/
def Allowed (self : TimerObj) : Op → Prop
  | .onTimer _ => self.active = true
  | .onClose => 0 < self.closing
  | .onCloseUnref => 0 < self.callbacks
  | _ => True

/-- The count is never negative, and a closed timer can be collected. -/
def Lifetime (self : TimerObj) : Prop := self.ledger.Sound

/-- The steps that keep the lifetime right: the close callback runs once, for a timer that
was started once, and no start comes after it. -/
def Orderly (self : TimerObj) : Op → Prop
  | .start _ _ => self.ledger.closes = 0
  | .onCloseUnref => self.ledger.closes = 0 ∧ self.ledger.uses = 1
  | _ => True

instance (self : TimerObj) : (op : Op) → Decidable (Allowed self op)
  | .onTimer _ => inferInstanceAs (Decidable (_ = _))
  | .onClose => inferInstanceAs (Decidable (_ < _))
  | .onCloseUnref => inferInstanceAs (Decidable (_ < _))
  | .start _ _ | .stop | .again _ | .close => isTrue trivial

instance (self : TimerObj) : (op : Op) → Decidable (Orderly self op)
  | .start _ _ => inferInstanceAs (Decidable (_ = _))
  | .onCloseUnref => inferInstanceAs (Decidable (_ ∧ _))
  | .stop | .again _ | .close | .onTimer _ | .onClose => isTrue trivial

/-- The books are kept, and hold starts only. -/
structure Inv (o : TimerObj) : Prop where
  kept : o.ledger.Kept
  starts : o.ledger.requests = 0

variable {self self' : TimerObj}

theorem inv_new (inCoroutine : Bool) : Inv (timerNew inCoroutine) :=
  ⟨Ledger.kept_fresh inCoroutine, rfl⟩

theorem inOrder_close_iff (hi : Inv self) :
    self.ledger.InOrder .close ↔ self.ledger.closes = 0 ∧ self.ledger.uses = 1 := by
  show _ ∧ _ ↔ _
  rw [hi.starts, Nat.add_zero]

theorem inv_step {op : Op} (hi : Inv self) (ho : Orderly self op) :
    ∃ self', step self op = some self' ∧ Inv self' := by
  cases op with
  | start timeout repeats => exact ⟨_, rfl, Ledger.kept_take hi.kept ho, hi.starts⟩
  | stop => exact ⟨_, rfl, hi.kept, hi.starts⟩
  | again r =>
    refine ⟨_, rfl, ?_⟩
    unfold TimerObj.timerAgain
    split
    · exact hi
    · exact ⟨hi.kept, hi.starts⟩
  | close => exact ⟨_, rfl, hi.kept, hi.starts⟩
  | onTimer status => exact ⟨_, rfl, hi⟩
  | onClose => exact ⟨_, rfl, hi.kept, hi.starts⟩
  | onCloseUnref =>
    obtain ⟨l, hl, hkept⟩ := hi.kept.post (e := .close) trivial ((inOrder_close_iff hi).mpr ho)
    obtain ⟨s, -, rfl⟩ := Option.map_eq_some_iff.mp hl
    refine ⟨{ self with callbacks := self.callbacks - 1, ledger := _ }, ?_, hkept, hi.starts⟩
    simp only [step, TimerObj.timerOnClose, TimerObj.post, hl]
    rfl

theorem not_lifetime_of_post {e : Entry} (h : self.post e = some self') (hk : self.ledger.Kept)
    (ho : ¬ self.ledger.InOrder e) : ¬ Lifetime self' := by
  obtain ⟨l, hl, rfl⟩ := Option.map_eq_some_iff.mp h
  exact hk.not_sound ho hl

theorem not_lifetime_of_step {op : Op} (hi : Inv self) (ho : ¬ Orderly self op)
    (h : step self op = some self') : ¬ Lifetime self' := by
  cases op with
  | start timeout repeats =>
    simp only [step, TimerObj.timerStart] at h
    exact not_lifetime_of_post h hi.kept ho
  | onCloseUnref =>
    simp only [step, TimerObj.timerOnClose] at h
    exact not_lifetime_of_post h hi.kept fun hin => ho ((inOrder_close_iff hi).mp hin)
  | stop => exact absurd trivial ho
  | again r => exact absurd trivial ho
  | close => exact absurd trivial ho
  | onTimer status => exact absurd trivial ho
  | onClose => exact absurd trivial ho

/-- Exactly the runs with orderly steps keep the lifetimes of all timers right. -/
theorem timer_run (ops : List (Pool.Op Bool Op))
    (h : Along (Pool.next kind) (Pool.Acts Allowed) (some []) ops) :
    Always (Pool.next kind) (Pool.Every Lifetime) (some []) ops ↔
      Along (Pool.next kind) (Pool.Acts Orderly) (some []) ops := by
  have hlife : ∀ o, Inv o → Lifetime o := fun _ hi => hi.kept.sound
  have hkeep : ∀ o op, Inv o → Allowed o op → Orderly o op →
      ∃ o', kind.step o op = some o' ∧ Inv o' := fun _ _ hi _ ho => inv_step hi ho
  have hbreak : ∀ o op o', Inv o → Allowed o op → ¬ Orderly o op → kind.step o op = some o' →
      ¬ Lifetime o' := fun _ _ _ hi _ ho hs => not_lifetime_of_step hi ho hs
  exact Pool.always_iff_acts inv_new hlife hkeep hbreak h

end Lev.Timer
