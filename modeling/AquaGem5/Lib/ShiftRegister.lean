import Mathlib.Data.BitVec

/-!
# Feedback shift registers kept in the low bits of a word

One step shifts the register down by a bit and feeds the sum of its first and last bits in at the top. Bit `i` of a
state is bit `0` of the state `i` steps later, so every state is a window of one stream.
-/

namespace ShiftRegister
open Function BitVec

variable {w n : ℕ} {v u : BitVec w}

def Narrow (n : ℕ) (v : BitVec w) : Prop := ∀ j,n≤j → v.getLsbD j=false

theorem Narrow.xor (hv : Narrow n v) (hu : Narrow n u) : Narrow n (v ^^^ u) := by
  intro j hj
  simp [hv j hj,hu j hj]

theorem Narrow.ext (hv : Narrow n v) (hu : Narrow n u) (h : ∀ j<n,v.getLsbD j=u.getLsbD j) : v=u := by
  apply eq_of_getLsbD_eq
  intro j _
  rcases Nat.lt_or_ge j n with hj | hj
  · exact h j hj
  · rw [hv j hj,hu j hj]

theorem narrow_iff : Narrow n v ↔ v.toNat<2^n := by
  constructor
  · intro h
    apply Nat.lt_pow_two_of_testBit
    intro j hj
    rw [testBit_toNat]
    exact h j hj
  · intro h j hj
    rw [← testBit_toNat]
    exact Nat.testBit_lt_two_pow (h.trans_le (Nat.pow_le_pow_right (by omega) hj))

structure Shifts (n : ℕ) (f : BitVec w → BitVec w) : Prop where
  narrow : ∀ {v},Narrow n v → Narrow n (f v)
  shift : ∀ {v} {j : ℕ},j+1<n → (f v).getLsbD j=v.getLsbD (j+1)
  feed : ∀ {v},(f v).getLsbD (n-1)=(v.getLsbD (n-1) ^^ v.getLsbD 0)

namespace Shifts

variable {f : BitVec w → BitVec w} (hf : Shifts n f)

include hf

theorem narrow_iterate (hv : Narrow n v) (k : ℕ) : Narrow n (f^[k] v) := by
  induction k with
  | zero => exact hv
  | succ k ih =>
    rw [iterate_succ_apply']
    exact hf.narrow ih

theorem xor (hn : 0<n) (hv : Narrow n v) (hu : Narrow n u) : f (v ^^^ u)=f v ^^^ f u := by
  apply Narrow.ext (hf.narrow (hv.xor hu)) ((hf.narrow hv).xor (hf.narrow hu))
  intro j hj
  by_cases hlast : j+1<n
  · simp [hf.shift hlast]
  · obtain rfl : j=n-1 := by omega
    simp only [getLsbD_xor,hf.feed]
    rw [Bool.xor_assoc,Bool.xor_assoc,Bool.xor_left_comm (u.getLsbD (n-1))]

theorem iterate_xor (hn : 0<n) (hv : Narrow n v) (hu : Narrow n u) (k : ℕ) : f^[k] (v ^^^ u)=f^[k] v ^^^ f^[k] u := by
  induction k with
  | zero => rfl
  | succ k ih =>
    simp only [iterate_succ_apply']
    rw [ih,hf.xor hn (hf.narrow_iterate hv k) (hf.narrow_iterate hu k)]

theorem bit_iterate {i : ℕ} (hi : i<n) : ∀ v : BitVec w,v.getLsbD i=(f^[i] v).getLsbD 0 := by
  induction i with
  | zero =>
    intro v
    rfl
  | succ i ih =>
    intro v
    rw [← hf.shift hi,ih (by omega),iterate_succ_apply]

theorem recurrence (hn : 0<n) (v : BitVec w) : (f^[n] v).getLsbD 0=((f^[n-1] v).getLsbD 0 ^^ v.getLsbD 0) := by
  have hsucc : n=(n-1)+1 := by omega
  have hlast : n-1<n := by omega
  calc (f^[n] v).getLsbD 0=(f^[n-1] (f v)).getLsbD 0 := by
        rw [← iterate_succ_apply,Nat.succ_eq_add_one,← hsucc]
    _=(f v).getLsbD (n-1) := (hf.bit_iterate hlast (f v)).symm
    _=(v.getLsbD (n-1) ^^ v.getLsbD 0) := hf.feed
    _=((f^[n-1] v).getLsbD 0 ^^ v.getLsbD 0) := by rw [hf.bit_iterate hlast v]

theorem iterate_eq (hn : 0<n) (hv : Narrow n v) : f^[n] v=f^[n-1] v ^^^ v := by
  apply Narrow.ext (hf.narrow_iterate hv n) ((hf.narrow_iterate hv (n-1)).xor hv)
  intro j hj
  have hcomm : ∀ k,f^[j] (f^[k] v)=f^[k] (f^[j] v) := by
    intro k
    rw [← iterate_add_apply,← iterate_add_apply,Nat.add_comm]
  rw [getLsbD_xor,hf.bit_iterate hj (f^[n] v),hf.bit_iterate hj (f^[n-1] v),
    hf.bit_iterate hj v,hcomm n,hcomm (n-1),hf.recurrence hn]

theorem iterate_step_xor (hn : 0<n) (hv : Narrow n v) : f^[n-1] (f v ^^^ v)=v := by
  have hsucc : (n-1)+1=n := by omega
  rw [hf.iterate_xor hn (hf.narrow hv) hv,← iterate_succ_apply,Nat.succ_eq_add_one,hsucc,
    hf.iterate_eq hn hv,BitVec.xor_comm,← BitVec.xor_assoc,BitVec.xor_self,BitVec.zero_xor]

theorem iterate_back_xor (hn : 0<n) (hv : Narrow n v) (hu : Narrow n u) (hback : f u=v) : f^[n] (u ^^^ v)=v := by
  have hsucc : n=(n-1)+1 := by omega
  calc f^[n] (u ^^^ v)=f^[n-1] (f (u ^^^ v)) := by
        rw [← iterate_succ_apply,Nat.succ_eq_add_one,← hsucc]
    _=f^[n-1] (f v ^^^ v) := by rw [hf.xor hn hu hv,hback,BitVec.xor_comm]
    _=v := hf.iterate_step_xor hn hv

end Shifts

end ShiftRegister
