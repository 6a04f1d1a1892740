import Mathlib.Data.BitVec
import Mathlib.Data.Nat.Size

/-!
# Words that agree on some of their bits, and the parity of a word
-/

namespace Bits
open Nat

variable {w : ℕ} {P Q : ℕ → Prop} {a b c : BitVec w}

def Agree (Q : ℕ → Prop) (a b : BitVec w) : Prop := ∀ j,¬Q j → a.getLsbD j=b.getLsbD j

theorem Agree.symm (h : Agree Q a b) : Agree Q b a := fun j hj => (h j hj).symm

theorem Agree.trans (h : Agree Q a b) (h' : Agree Q b c) : Agree Q a c :=
  fun j hj => (h j hj).trans (h' j hj)

theorem Agree.mono (h : Agree P a b) (hPQ : ∀ j,P j → Q j) : Agree Q a b :=
  fun j hj => h j fun hp => hj (hPQ j hp)

theorem Agree.eq (h : Agree Q a b) (hQ : ∀ j,Q j → a.getLsbD j=b.getLsbD j) : a=b := by
  apply BitVec.eq_of_getLsbD_eq
  intro j _
  by_cases hj : Q j
  · exact hQ j hj
  · exact h j hj

def ones (v : BitVec w) : Finset ℕ := (Finset.range w).filter fun j => v.getLsbD j=true

@[simp] theorem mem_ones {v : BitVec w} {j : ℕ} : j∈ones v ↔ v.getLsbD j=true := by
  simp only [ones,Finset.mem_filter,Finset.mem_range,and_iff_right_iff_imp]
  exact BitVec.lt_of_getLsbD

def popCount (v : BitVec w) : ℕ := (ones v).card

def parity (v : BitVec w) : Bool := decide (popCount v%2=1)

theorem testBit_popCount (v : BitVec w) : (popCount v).testBit 0=parity v := by
  rw [testBit_zero,parity]

theorem parity_split {v u : BitVec w} (p : ℕ) (hu : ∀ j,u.getLsbD j=(v.getLsbD j&&decide (j≠p))) :
    parity v=(v.getLsbD p ^^ parity u) := by
  have hones : ones u=(ones v).erase p := by
    ext j
    simp [hu,and_comm]
  cases hp : v.getLsbD p with
  | false =>
    have hnot : p∉ones v := by simp [hp]
    rw [Bool.false_xor,parity,parity,popCount,popCount,hones,Finset.erase_eq_of_notMem hnot]
  | true =>
    have hmem : p∈ones v := by simp [hp]
    have hcard : popCount v=popCount u+1 := by
      rw [popCount,popCount,hones,Finset.card_erase_add_one hmem]
    simp only [parity,hcard,Bool.true_xor]
    rcases mod_two_eq_zero_or_one (popCount u) with h | h <;> simp [h,add_mod]

theorem parity_zero : parity (0#w)=false := by
  have hones : ones (0#w) = ∅ := by
    ext j
    simp
  simp [parity,popCount,hones]

theorem parity_single {v : BitVec w} {p : ℕ} (hv : ∀ j,v.getLsbD j=decide (j=p)) : parity v=true := by
  have hzero : ∀ j,(0#w).getLsbD j=(v.getLsbD j&&decide (j≠p)) := by
    intro j
    rw [hv]
    by_cases hj : j=p <;> simp [hj]
  rw [parity_split p hzero,parity_zero,hv]
  simp

theorem exists_word (f : ℕ → Prop) : ∃ v : BitVec w,∀ j,v.getLsbD j=true ↔ j<w ∧ f j := by
  classical
  refine ⟨BitVec.ofNat w (ofBits fun i : Fin w => decide (f i)),fun j => ?_⟩
  rw [BitVec.getLsbD_ofNat,testBit_ofBits]
  by_cases hj : j<w <;> simp [hj]

theorem getLsbD_ctz {v : BitVec w} (hv : v≠0#w) : v.getLsbD v.ctz.toNat=true :=
  BitVec.getLsbD_true_ctz_of_ne_zero hv

theorem ctz_le {v : BitVec w} {j : ℕ} (h : v.getLsbD j=true) : v.ctz.toNat≤j := by
  by_contra hlt
  rw [BitVec.getLsbD_false_of_lt_ctz (by omega)] at h
  exact Bool.false_ne_true h

theorem not_both {v u : BitVec w} (h : v &&& u=0#w) {j : ℕ} (hj : v.getLsbD j=true) : u.getLsbD j=false := by
  have hbit:=congrArg (·.getLsbD j) h
  simpa [hj] using hbit

theorem getLsbD_low {n : ℕ} (hn : n≤w) (j : ℕ) : ((1#w <<< n)-1#w).getLsbD j=decide (j<n) := by
  rcases Nat.eq_zero_or_pos w with rfl | hw
  · simp
    omega
  have htwo : 1#w <<< n=BitVec.twoPow w n := by rw [BitVec.twoPow]
  by_cases hlt : n<w
  · have hnat : (1#w <<< n-1#w).toNat=2^n-1 := by
      have hone : (1#w).toNat=1 := by simp [one_mod_two_pow_eq_one.mpr hw]
      have hle : 1#w≤1#w <<< n := by
        rw [BitVec.le_def,hone,htwo,BitVec.toNat_twoPow_of_lt hlt]
        exact Nat.one_le_two_pow
      rw [BitVec.toNat_sub_of_le hle,hone,htwo,BitVec.toNat_twoPow_of_lt hlt]
    rw [← BitVec.testBit_toNat,hnat,testBit_two_pow_sub_one]
  · have hnw : n=w := by omega
    have hall : (1#w <<< n)-1#w=BitVec.allOnes w := by
      rw [hnw,BitVec.shiftLeft_eq_zero (le_refl w),BitVec.zero_sub,BitVec.neg_one_eq_allOnes]
    rw [hall,BitVec.getLsbD_allOnes,hnw]

section Bit

variable {v : BitVec w} {i : ℕ} (hi : i<w)

include hi

theorem getLsbD_bit (j : ℕ) : (1#w <<< i).getLsbD j=decide (i=j) := by
  rw [← BitVec.twoPow_eq,BitVec.getLsbD_twoPow,decide_eq_true hi,Bool.true_and]

theorem bit_and_ne_zero : 1#w <<< i &&& v≠0#w ↔ v.getLsbD i=true := by
  constructor
  · intro h
    by_contra hv
    rw [Bool.not_eq_true] at hv
    apply h
    apply BitVec.eq_of_getLsbD_eq
    intro j _
    rw [BitVec.getLsbD_and,getLsbD_bit hi,BitVec.getLsbD_zero]
    by_cases hij : i=j
    · rw [← hij,hv,Bool.and_false]
    · rw [decide_eq_false hij,Bool.false_and]
  · intro hv hzero
    have hbit:=congrArg (·.getLsbD i) hzero
    simp only [BitVec.getLsbD_and,getLsbD_bit hi,hv,BitVec.getLsbD_zero,decide_true,Bool.and_self] at hbit
    cases hbit

theorem getLsbD_clear (j : ℕ) : (v &&& ~~~(1#w <<< i)).getLsbD j=(v.getLsbD j&&decide (i≠j)) := by
  rw [BitVec.getLsbD_and,BitVec.getLsbD_not,getLsbD_bit hi]
  rcases lt_or_ge j w with hj | hj
  · simp [hj]
  · rw [BitVec.getLsbD_of_ge v j hj,Bool.false_and,Bool.false_and]

theorem getLsbD_set (j : ℕ) : (v ||| 1#w <<< i).getLsbD j=(v.getLsbD j || decide (i=j)) := by
  rw [BitVec.getLsbD_or,getLsbD_bit hi]

end Bit

end Bits

/-!
## Bits spread to the positions below them

A word that is or-ed with itself, shifted down by ever larger distances, gets all bits below its highest one.
-/

namespace Spreading
open Nat

variable {w n : ℕ} {v u : BitVec w}

def Spread (n : ℕ) (v u : BitVec w) : Prop := ∀ j,u.getLsbD j=true ↔ ∃ i<n,v.getLsbD (j+i)=true

theorem Spread.toNat (h : Spread w v u) : u.toNat=2^v.toNat.size-1 := by
  apply eq_of_testBit_eq
  intro j
  rw [testBit_two_pow_sub_one,Bool.eq_iff_iff,BitVec.testBit_toNat,h j,decide_eq_true_iff,lt_size]
  constructor
  · rintro ⟨i,_,hbit⟩
    exact (Nat.pow_le_pow_right Nat.two_pos (Nat.le_add_right j i)).trans (Nat.ge_two_pow_of_testBit hbit)
  · intro hle
    obtain ⟨k,hk,hbit⟩:=exists_ge_and_testBit_of_ge_two_pow hle
    have hlt : k<w := BitVec.lt_of_getLsbD hbit
    refine ⟨k-j,by omega,?_⟩
    rw [Nat.add_sub_cancel' hk]
    exact hbit

def roundUp (x : ℕ) : ℕ := 2^(x-1).size

end Spreading
