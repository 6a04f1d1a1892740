import Mathlib.Algebra.BigOperators.Group.List.Basic
import Mathlib.Algebra.Order.Group.Int
import Mathlib.Algebra.Ring.Int.Defs

/-!
# Heights of walks

A walk is the list of its steps, the last one first.
-/

namespace Heights

/-- The greatest height over the start that the walk has been at. -/
def peak : List ℤ → ℤ
  | [] => 0
  | x::walk => max (peak walk) (x::walk).sum

variable (walk walk' : List ℤ)

theorem peak_nonneg : 0≤peak walk := by
  induction walk with
  | nil => exact le_rfl
  | cons x walk ih => exact ih.trans (le_max_left _ _)

theorem sum_le_peak : walk.sum≤peak walk := by
  cases walk with
  | nil => exact le_rfl
  | cons x walk => exact le_max_right _ _

theorem peak_append : peak (walk++walk')=max (peak walk') (walk'.sum+peak walk) := by
  induction walk with
  | nil =>
    rw [List.nil_append,peak,add_zero]
    exact (max_eq_left (sum_le_peak walk')).symm
  | cons x walk ih =>
    rw [List.cons_append,peak,peak,ih,List.sum_cons,List.sum_cons,List.sum_append]
    omega

end Heights
