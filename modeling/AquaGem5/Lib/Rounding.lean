import Mathlib.Data.Nat.Log
import Mathlib.Tactic.Ring

/-!
# Rounding to a binary significand

`roundBits p x` is the natural `x` rounded to the nearest value with a significand of `p` bits, ties to even.
-/

namespace AquaGem5
open Nat

def roundBits (p x : ℕ) : ℕ :=
  let e := Nat.log 2 x+1-p
  let q := x/2^e
  let r := x%2^e
  if e=0 then x
  else if 2^(e-1)<r ∨ (r=2^(e-1) ∧ q%2=1) then (q+1)*2^e else q*2^e

theorem roundBits_of_lt {p x : ℕ} (hp : 0<p) (h : x<2^p) : roundBits p x=x := by
  have he : log 2 x+1-p=0 := by
    by_cases hx : x=0
    · rw [hx,log_zero_right]
      omega
    · have := (log_lt_iff_lt_pow one_lt_two hx).mpr h
      omega
  simp only [roundBits,he,if_true]

theorem le_roundBits_add (p x : ℕ) : x≤roundBits p x+2^(Nat.log 2 x+1-p-1) := by
  unfold roundBits
  dsimp only
  generalize log 2 x+1-p=e
  have hdiv:=div_add_mod x (2^e)
  rw [mul_comm] at hdiv
  split
  · exact le_add_right _ _
  · split
    · rw [add_mul,one_mul]
      exact le_add_right_of_le (by omega)
    · rename_i h
      omega

theorem roundBits_ge {p : ℕ} (hp : 0<p) (x : ℕ) : x*(2^p-1)≤roundBits p x*2^p := by
  have hR:=le_roundBits_add p x
  by_cases he : log 2 x+1-p=0
  · have hx : roundBits p x=x := by simp only [roundBits,he,if_true]
    rw [hx]
    exact mul_le_mul_left x (sub_le _ _)
  · have hx : x≠0 := by
      rintro rfl
      rw [log_zero_right] at he
      omega
    have hunit : 2^(log 2 x+1-p-1)*2^p≤x := by
      rw [← pow_add,show log 2 x+1-p-1+p=log 2 x by omega]
      exact pow_log_le_self 2 hx
    have hscaled:=mul_le_mul_right (2^p) hR
    rw [add_mul] at hscaled
    rw [Nat.mul_sub,Nat.mul_one]
    omega

end AquaGem5
