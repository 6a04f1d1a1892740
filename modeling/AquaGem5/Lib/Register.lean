import Mathlib.Algebra.Order.Ring.Rat

/-!
# Registers

The writes of a register that have an effect are placed at points of time. At a point the register holds the value of
the last write before it, or its initial value.
-/

namespace Register

/-- The writes with an effect, and their points. -/
structure Placement (ι α : Type) where
  effective : ι → Prop
  point : ι → ℚ
  value : ι → α
  initial : α

namespace Placement

variable {ι α : Type} (o : Placement ι α) {p q : ℚ} {d d' : α} {w w' : ι}

def Distinct : Prop := ∀ w w', o.effective w → o.effective w' → o.point w=o.point w' → w=w'

structure Last (p : ℚ) (w : ι) : Prop where
  effective : o.effective w
  before : o.point w<p
  greatest : ∀ w', o.effective w' → o.point w'<p → o.point w'≤o.point w

def Holds (p : ℚ) (d : α) : Prop :=
  (∃ w, o.Last p w ∧ o.value w=d) ∨ (∀ w, o.effective w → p≤o.point w) ∧ o.initial=d

variable {o}

theorem Last.unique (hd : o.Distinct) (h : o.Last p w) (h' : o.Last p w') : w=w' :=
  hd w w' h.effective h'.effective
    (le_antisymm (h'.greatest w h.effective h.before) (h.greatest w' h'.effective h'.before))

theorem Last.earlier (h : o.Last p w) (hw : o.point w<q) (hq : q≤p) : o.Last q w :=
  ⟨h.effective,hw,fun w' he hb => h.greatest w' he (hb.trans_le hq)⟩

theorem Last.not_between (h : o.Last p w) (he : o.effective w') (hlt : o.point w<o.point w') : p≤o.point w' := by
  by_contra hp
  exact absurd (h.greatest w' he (lt_of_not_ge hp)) (not_le_of_gt hlt)

theorem holds_of_last (hd : o.Distinct) (h : o.Last p w) (hh : o.Holds p d) : d=o.value w := by
  rcases hh with ⟨w',hw',rfl⟩ | ⟨hnone,_⟩
  · rw [h.unique hd hw']
  · exact absurd h.before (not_lt_of_ge (hnone w h.effective))

theorem holds_of_none (hnone : ∀ w, o.effective w → p≤o.point w) (hh : o.Holds p d) : d=o.initial := by
  rcases hh with ⟨w',hw',_⟩ | ⟨_,hd⟩
  · exact absurd hw'.before (not_lt_of_ge (hnone w' hw'.effective))
  · exact hd.symm

end Placement

end Register
