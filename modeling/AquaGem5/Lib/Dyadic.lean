import Mathlib.Order.Interval.Finset.Nat

/-!
# Counts over dyadic blocks

Block `k` of level `m` is the `2^m` numbers from `k * 2^m` on.
-/

namespace Dyadic
open Finset

def count (S : Finset ℕ) (m k : ℕ) : ℕ := (S.filter fun i => i/2^m=k).card

def after (S : Finset ℕ) (i m : ℕ) : ℕ := (S.filter fun j => i<j ∧ j/2^m=i/2^m).card

variable {S S' : Finset ℕ} {i j k m n : ℕ}

theorem div_succ (i m : ℕ) : i/2^(m+1)=i/2^m/2 := by rw [Nat.pow_succ,Nat.div_div_eq_div_mul]

theorem block_le (h : i/2^m=k) : k*2^m ≤ i := by
  rw [← h]
  exact Nat.div_mul_le_self i (2^m)

theorem lt_block (h : i/2^m=k) : i<(k+1)*2^m := by
  rw [← h]
  exact Nat.lt_mul_of_div_lt (Nat.lt_succ_self _) (Nat.two_pow_pos m)

theorem count_zero (S : Finset ℕ) (k : ℕ) : count S 0 k=if k∈S then 1 else 0 := by
  unfold count
  by_cases hk : k∈S
  · have hone : S.filter (fun i => i/2^0=k)={k} := by
      ext i
      simp only [mem_filter,mem_singleton,Nat.pow_zero,Nat.div_one]
      constructor
      · exact fun h => h.2
      · intro h
        exact ⟨h ▸ hk,h⟩
    rw [hone,if_pos hk,card_singleton]
  · have hnone : S.filter (fun i => i/2^0=k) = ∅ := by
      apply filter_eq_empty_iff.mpr
      intro i hi heq
      rw [Nat.pow_zero,Nat.div_one] at heq
      exact hk (heq ▸ hi)
    rw [hnone,if_neg hk,card_empty]

theorem count_succ (S : Finset ℕ) (m k : ℕ) : count S (m+1) k=count S m (2*k)+count S m (2*k+1) := by
  unfold count
  have hdisj : Disjoint (S.filter fun i => i/2^m=2*k) (S.filter fun i => i/2^m=2*k+1) := by
    apply disjoint_filter.mpr
    intro i _ hleft hright
    omega
  rw [← card_union_of_disjoint hdisj,← filter_or]
  congr 1
  apply filter_congr
  intro i _
  rw [div_succ]
  omega

theorem count_le (S : Finset ℕ) (m : ℕ) : ∀ k,count S m k≤2^m := by
  induction m with
  | zero =>
    intro k
    rw [count_zero]
    split <;> simp
  | succ m ih =>
    intro k
    have hleft:=ih (2*k)
    have hright:=ih (2*k+1)
    rw [count_succ,Nat.pow_succ]
    omega

theorem count_eq_zero : count S m k=0 ↔ ∀ i∈S,i/2^m≠k := by
  rw [count,card_eq_zero,filter_eq_empty_iff]

theorem count_pos (h : i∈S) (m : ℕ) : 0<count S m (i/2^m) := by
  rcases Nat.eq_zero_or_pos (count S m (i/2^m)) with hzero | hpos
  · exact (count_eq_zero.mp hzero i h rfl).elim
  · exact hpos

theorem count_congr (h : ∀ j,j≠i → (j∈S' ↔ j∈S)) (hk : i/2^m≠k) : count S' m k=count S m k := by
  unfold count
  congr 1
  ext j
  simp only [mem_filter]
  by_cases hj : j=i
  · subst hj
    simp [hk]
  · rw [h j hj]

theorem count_of_bound (h : ∀ i∈S,i<n) (hk : n≤k*2^m) : count S m k=0 := by
  apply count_eq_zero.mpr
  intro i hi heq
  have hle:=block_le heq
  have hlt:=h i hi
  omega

theorem after_zero (S : Finset ℕ) (i : ℕ) : after S i 0=0 := by
  rw [after,card_eq_zero,filter_eq_empty_iff]
  intro j _ h
  rw [Nat.pow_zero,Nat.div_one,Nat.div_one] at h
  omega

theorem after_succ_left (S : Finset ℕ) (h : i/2^m%2=0) : after S i (m+1)=after S i m+count S m (i/2^m+1) := by
  unfold after count
  have hdisj : Disjoint (S.filter fun j => i<j ∧ j/2^m=i/2^m) (S.filter fun j => j/2^m=i/2^m+1) := by
    apply disjoint_filter.mpr
    intro j _ hleft hright
    omega
  rw [← card_union_of_disjoint hdisj,← filter_or]
  congr 1
  apply filter_congr
  intro j _
  rw [div_succ,div_succ]
  have hlater : j/2^m=i/2^m+1 → i<j := by
    intro heq
    have hi:=lt_block (k := i/2^m) rfl
    have hj:=block_le heq
    omega
  constructor
  · intro hj
    by_cases hsame : j/2^m=i/2^m
    · exact .inl ⟨hj.1,hsame⟩
    · exact .inr (by omega)
  · intro hj
    rcases hj with hj | hj
    · exact ⟨hj.1,by omega⟩
    · exact ⟨hlater hj,by omega⟩

theorem after_succ_right (S : Finset ℕ) (h : i/2^m%2≠0) : after S i (m+1)=after S i m := by
  unfold after
  congr 1
  apply filter_congr
  intro j _
  rw [div_succ,div_succ]
  constructor
  · intro hj
    have hle : i/2^m≤j/2^m := Nat.div_le_div_right (Nat.le_of_lt hj.1)
    exact ⟨hj.1,by omega⟩
  · intro hj
    exact ⟨hj.1,by omega⟩

theorem after_all (h : ∀ j∈S,j<2^m) (hi : i<2^m) : after S i m=(S.filter fun j => i<j).card := by
  unfold after
  congr 1
  apply filter_congr
  intro j hj
  rw [Nat.div_eq_of_lt hi,Nat.div_eq_of_lt (h j hj)]
  simp

end Dyadic
