import Mathlib.Data.BitVec

/-!
# Prefixes of words

The first bits of a word are its most significant ones. `topMask w n` selects the first `n` of them.
-/

namespace Prefixes
open BitVec

variable {w n m i : ℕ} {k k' k'' : BitVec w}

def topMask (w n : ℕ) : BitVec w := BitVec.allOnes w <<< (w-n)

def width (mask : BitVec w) : ℕ := (List.range w).countP mask.getMsbD

def Agree (n : ℕ) (k k' : BitVec w) : Prop := ∀ i<n, k.getMsbD i=k'.getMsbD i

theorem Agree.refl (n : ℕ) (k : BitVec w) : Agree n k k := fun _ _ => rfl

theorem Agree.symm (h : Agree n k k') : Agree n k' k := fun i hi => (h i hi).symm

theorem Agree.trans (h : Agree n k k') (h' : Agree n k' k'') : Agree n k k'' := fun i hi => (h i hi).trans (h' i hi)

theorem Agree.mono (h : Agree n k k') (hm : m≤n) : Agree m k k' := fun i hi => h i (Nat.lt_of_lt_of_le hi hm)

theorem agree_zero (k k' : BitVec w) : Agree 0 k k' := fun i hi => (Nat.not_lt_zero i hi).elim

theorem agree_succ : Agree (n+1) k k' ↔ Agree n k k' ∧ k.getMsbD n=k'.getMsbD n := by
  constructor
  · intro h
    exact ⟨h.mono (Nat.le_succ n),h n (Nat.lt_succ_self n)⟩
  · intro ⟨h,hn⟩ i hi
    rcases Nat.lt_succ_iff_lt_or_eq.mp hi with hi | rfl
    · exact h i hi
    · exact hn

theorem getMsbD_topMask (hn : n≤w) (i : ℕ) : (topMask w n).getMsbD i=decide (i<n) := by
  rw [topMask,getMsbD_shiftLeft,getMsbD_allOnes]
  exact decide_eq_decide.mpr (by omega)

theorem countP_range_lt (n w : ℕ) : (List.range w).countP (fun i => decide (i<n))=min w n := by
  induction w with
  | zero => simp
  | succ w ih =>
    rw [List.range_succ,List.countP_append,ih,List.countP_singleton]
    by_cases h : w<n
    · rw [if_pos (decide_eq_true h)]
      omega
    · rw [if_neg (by simpa using h)]
      omega

theorem width_topMask (hn : n≤w) : width (topMask w n)=n := by
  rw [width,show (topMask w n).getMsbD=fun i => decide (i<n) from funext (getMsbD_topMask hn),countP_range_lt]
  exact Nat.min_eq_right hn

theorem topMask_inj (hn : n≤w) (hm : m≤w) : topMask w n=topMask w m ↔ n=m := by
  constructor
  · intro h
    rw [← width_topMask hn,h,width_topMask hm]
  · intro h
    rw [h]

theorem topMask_and (hn : n≤w) (hm : m≤w) : topMask w n &&& topMask w m=topMask w (min n m) := by
  refine eq_of_getMsbD_eq fun i _ => ?_
  rw [getMsbD_and,getMsbD_topMask hn,getMsbD_topMask hm,getMsbD_topMask (by omega),← Bool.decide_and]
  exact decide_eq_decide.mpr (by omega)

theorem topMask_full : topMask w w=BitVec.allOnes w := by
  rw [topMask,Nat.sub_self,shiftLeft_zero]

theorem and_topMask_inj (hn : n≤w) : k &&& topMask w n=k' &&& topMask w n ↔ Agree n k k' := by
  constructor
  · intro h i hi
    have hbit:=congrArg (·.getMsbD i) h
    simpa only [getMsbD_and,getMsbD_topMask hn,decide_eq_true hi,Bool.and_true] using hbit
  · intro h
    refine eq_of_getMsbD_eq fun i _ => ?_
    rw [getMsbD_and,getMsbD_and,getMsbD_topMask hn]
    by_cases hi : i<n
    · rw [h i hi]
    · rw [decide_eq_false hi,Bool.and_false,Bool.and_false]

theorem agree_and_topMask (hn : n≤w) (k : BitVec w) : Agree n (k &&& topMask w n) k := by
  rw [← and_topMask_inj hn,BitVec.and_assoc,BitVec.and_self]

end Prefixes
