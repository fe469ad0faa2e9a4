import Lev.Run

/-! A room: who has said hello may be told what the others say, until they leave. Nothing
here is about one particular program. -/
namespace Lev.Fanout
open Run

variable {ι μ : Type*}

/-- What each member has been told, oldest first. -/
structure Room (ι μ : Type*) where
  said : ι → Bool
  gone : ι → Bool
  delivered : ι → List μ

inductive Event (ι μ : Type*)
  | hello (c : ι)
  | leave (c : ι)
  | broadcast (c : ι) (m : μ)

def Room.empty : Room ι μ := ⟨fun _ => false, fun _ => false, fun _ => []⟩

variable [DecidableEq ι]

/-- Who is told what `c` says. -/
def Room.hears (r : Room ι μ) (c w : ι) : Bool := r.said w && !r.gone w && decide (w ≠ c)

def next (r : Room ι μ) : Event ι μ → Room ι μ
  | .hello c => { r with said := Function.update r.said c true }
  | .leave c => { r with gone := Function.update r.gone c true }
  | .broadcast c m =>
    { r with delivered := fun w => if r.hears c w then r.delivered w ++ [m] else r.delivered w }

theorem next_broadcast_delivered (r : Room ι μ) (c w : ι) (m : μ) :
    (next r (.broadcast c m)).delivered w = r.delivered w ++ if r.hears c w then [m] else [] := by
  simp only [next]
  split
  · rfl
  · exact (List.append_nil _).symm

end Lev.Fanout
