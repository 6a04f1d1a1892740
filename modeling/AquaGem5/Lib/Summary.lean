import Mathlib.Algebra.BigOperators.Ring.Finset
import Mathlib.Algebra.Order.BigOperators.Group.Finset
import Mathlib.Tactic.Ring

/-!
# Frequent-item summaries with a spill counter

A summary keeps a counter for each of finitely many slots, a partial injection from keys to slots, and a spill counter
for the keys without a slot. A key that arrives is counted in its slot (`hit`), takes over a slot whose counter equals
the spill counter (`install`), or raises the spill counter (`spill`). `estimate x` is the count the summary holds for
`x`.
-/

namespace AquaGem5
open Function Finset

structure Summary (ι κ : Type) where
  slot : κ → Option ι
  count : ι → ℕ
  spill : ℕ

namespace Summary

variable {ι κ : Type} [DecidableEq ι] [DecidableEq κ]

def takeOver (slot : κ → Option ι) (x : κ) (i : ι) (y : κ) : Option ι :=
  if y=x then some i else if slot y=some i then none else slot y

inductive Step (S : Finset ι) (x : κ) : Summary ι κ → Summary ι κ → Prop
  | hit (s : Summary ι κ) (i : ι) (hx : s.slot x=some i) :
      Step S x s {s with count := Function.update s.count i (s.count i+1)}
  | install (s : Summary ι κ) (i : ι) (hi : i∈S) (hx : s.slot x=none) (hc : s.count i=s.spill) :
      Step S x s ⟨takeOver s.slot x i,Function.update s.count i (s.spill+1),s.spill⟩
  | spill (s : Summary ι κ) (hx : s.slot x=none) (hc : ∀ i∈S, s.count i≠s.spill) :
      Step S x s {s with spill := s.spill+1}

structure Counted (S : Finset ι) (N : ℕ) (s : Summary ι κ) : Prop where
  slot_mem : ∀ x i, s.slot x=some i → i∈S
  slot_inj : ∀ x y i, s.slot x=some i → s.slot y=some i → x=y
  floor : ∀ i∈S, s.spill ≤ s.count i
  total : ∑ i∈S, s.count i+s.spill=N

section

omit [DecidableEq κ]

theorem sum_update (S : Finset ι) (f : ι → ℕ) {i : ι} (hi : i∈S) (v : ℕ) :
    ∑ j∈S, update f i v j+f i = ∑ j∈S, f j+v := by
  have hrest : ∑ j∈S.erase i, update f i v j = ∑ j∈S.erase i, f j :=
    sum_congr rfl fun j hj => update_of_ne (ne_of_mem_erase hj) v f
  rw [← add_sum_erase S _ hi,← add_sum_erase S f hi,hrest,update_self]
  omega

theorem sum_comp_update (S : Finset ι) (g : ℕ → ℕ) (f : ι → ℕ) {i : ι} (hi : i∈S) (v : ℕ) :
    ∑ j∈S, g (update f i v j)+g (f i) = ∑ j∈S, g (f j)+g v := by
  have hcomp : (fun j => g (update f i v j))=update (fun j => g (f j)) i (g v) :=
    Function.comp_update g f i v
  rw [hcomp]
  exact sum_update S (fun j => g (f j)) hi (g v)

end

variable {S : Finset ι}

omit [DecidableEq ι] [DecidableEq κ] in
theorem lt_of_floor {f : ι → ℕ} {b N T : ℕ} (hfloor : ∀ i∈S, b≤f i)
    (htotal : ∑ i∈S, f i+b≤N) (hN : N<T*(S.card+1)) : b<T := by
  have hsum : S.card*b ≤ ∑ i∈S, f i := by
    rw [← sum_const_nat (f := fun _ => b) fun _ _ => rfl]
    exact sum_le_sum hfloor
  by_contra hT
  have hmul : T*(S.card+1)≤b*(S.card+1) := Nat.mul_le_mul_right _ (Nat.le_of_not_lt hT)
  have hexp : b*(S.card+1)=S.card*b+b := by ring
  omega

variable {slot : κ → Option ι}

theorem takeOver_eq_some {x y : κ} {i j : ι}
    (h : takeOver slot x i y=some j) : (y=x ∧ j=i) ∨ (y≠x ∧ slot y=some j ∧ j≠i) := by
  unfold takeOver at h
  split at h
  · rename_i hy
    exact .inl ⟨hy,(Option.some.inj h).symm⟩
  · rename_i hy
    split at h
    · cases h
    · rename_i hi
      exact .inr ⟨hy,h,fun hj => hi (hj ▸ h)⟩

theorem takeOver_mem {x y : κ} {i j : ι} (hi : i∈S)
    (h : ∀ x i, slot x=some i → i∈S) (hy : takeOver slot x i y=some j) : j∈S := by
  rcases takeOver_eq_some hy with ⟨_,rfl⟩ | ⟨_,hy,_⟩
  · exact hi
  · exact h y j hy

theorem takeOver_inj {x y z : κ} {i j : ι} (h : ∀ x y i, slot x=some i → slot y=some i → x=y)
    (hy : takeOver slot x i y=some j) (hz : takeOver slot x i z=some j) : y=z := by
  rcases takeOver_eq_some hy with ⟨rfl,rfl⟩ | ⟨_,hy,hji⟩
  · rcases takeOver_eq_some hz with ⟨rfl,_⟩ | ⟨_,_,hne⟩
    · rfl
    · exact (hne rfl).elim
  · rcases takeOver_eq_some hz with ⟨_,rfl⟩ | ⟨_,hz,_⟩
    · exact (hji rfl).elim
    · exact h y z j hy hz

variable {s s' : Summary ι κ} {x : κ}

theorem step_counted {N : ℕ} (hs : Counted S N s) (h : Step S x s s') : Counted S (N+1) s' := by
  cases h with
  | hit i hx =>
    have hi:=hs.slot_mem x i hx
    refine ⟨hs.slot_mem,hs.slot_inj,?_,?_⟩
    · intro j hj
      have hf:=hs.floor j hj
      by_cases hji : j=i
      · subst hji
        simp only [update_self]
        omega
      · simpa only [update_of_ne hji] using hf
    · have hsum:=sum_update S s.count hi (s.count i+1)
      have ht:=hs.total
      dsimp only
      omega
  | install i hi hx hc =>
    refine ⟨fun y j hy => takeOver_mem hi hs.slot_mem hy,
      fun y z j hy hz => takeOver_inj hs.slot_inj hy hz,?_,?_⟩
    · intro j hj
      have hf:=hs.floor j hj
      by_cases hji : j=i
      · subst hji
        simp only [update_self]
        omega
      · simpa only [update_of_ne hji] using hf
    · have hsum:=sum_update S s.count hi (s.spill+1)
      have ht:=hs.total
      dsimp only
      omega
  | spill hx hc =>
    refine ⟨hs.slot_mem,hs.slot_inj,?_,?_⟩
    · intro j hj
      have hf:=hs.floor j hj
      have hne:=hc j hj
      dsimp only
      omega
    · have ht:=hs.total
      dsimp only
      omega

omit [DecidableEq ι] [DecidableEq κ] in
theorem Counted.spill_lt {N T : ℕ} {s : Summary ι κ} (hs : Counted S N s)
    (hN : N<T*(S.card+1)) : s.spill<T := lt_of_floor hs.floor hs.total.le hN

def thresholds (S : Finset ι) (T : ℕ) (s : Summary ι κ) : ℕ := ∑ i∈S, s.count i/T

omit [DecidableEq ι] [DecidableEq κ] in
theorem Counted.thresholds_le {N T : ℕ} {s : Summary ι κ} (hs : Counted S N s) (hT : 0<T) : s.thresholds S T≤N/T := by
  have hsum : ∑ i∈S, s.count i/T*T ≤ ∑ i∈S, s.count i :=
    sum_le_sum fun i _ => Nat.div_mul_le_self (s.count i) T
  have htotal:=hs.total
  unfold thresholds
  rw [Nat.le_div_iff_mul_le hT,sum_mul]
  omega

omit [DecidableEq κ] in
theorem thresholds_count (T : ℕ) (s s' : Summary ι κ) {i : ι} (hi : i∈S)
    (h : s'.count=update s.count i (s.count i+1)) :
    s.thresholds S T+(if T∣s'.count i then 1 else 0)=s'.thresholds S T := by
  have hsum : ∑ j∈S, s'.count j/T+s.count i/T = ∑ j∈S, s.count j/T+(s.count i+1)/T := by
    rw [h]
    exact sum_comp_update S (·/T) s.count hi (s.count i+1)
  have hsucc : (s.count i+1)/T=s.count i/T+if T∣s.count i+1 then 1 else 0 := Nat.succ_div
  have hself : s'.count i=s.count i+1 := by rw [h,update_self]
  unfold thresholds
  rw [hself]
  generalize (if T∣s.count i+1 then 1 else 0)=mark at hsucc ⊢
  omega

theorem step_thresholds {T N : ℕ} (hs : Counted S N s) (h : Step S x s s') : s.thresholds S T ≤ s'.thresholds S T ∧
      ∀ i, s'.slot x=some i → T∣s'.count i → s.thresholds S T+1 ≤ s'.thresholds S T := by
  cases h with
  | hit i hx =>
    have hcount:=thresholds_count T s {s with count := update s.count i (s.count i+1)}
      (hs.slot_mem x i hx) rfl
    refine ⟨by omega,fun j hj hd => ?_⟩
    rw [hx] at hj
    cases hj
    rw [if_pos hd] at hcount
    exact hcount.le
  | install i hi hx hc =>
    have hcount:=thresholds_count T s
      ⟨takeOver s.slot x i,update s.count i (s.spill+1),s.spill⟩ hi (by rw [hc])
    refine ⟨by omega,fun j hj hd => ?_⟩
    have hji : j=i := by
      have hself : takeOver s.slot x i x=some i := if_pos rfl
      exact (Option.some.inj (hself.symm.trans hj)).symm
    rw [hji] at hd
    rw [if_pos hd] at hcount
    exact hcount.le
  | spill hx hc =>
    refine ⟨le_refl _,fun i hi => ?_⟩
    rw [hx] at hi
    cases hi

def estimate (s : Summary ι κ) (x : κ) : ℕ :=
  match s.slot x with
  | some i => s.count i
  | none => s.spill

section

omit [DecidableEq ι] [DecidableEq κ]

theorem estimate_some {s : Summary ι κ} {i : ι} (h : s.slot x=some i) : s.estimate x=s.count i := by
  simp only [estimate,h]

theorem estimate_none {s : Summary ι κ} (h : s.slot x=none) : s.estimate x=s.spill := by
  simp only [estimate,h]

end

theorem step_estimate_self (h : Step S x s s') : s'.estimate x=s.estimate x+1 := by
  cases h with
  | hit i hx =>
    rw [estimate_some (i := i) (by exact hx),estimate_some hx]
    exact update_self ..
  | install i hi hx hc =>
    rw [estimate_some (i := i) (by simp [takeOver]),estimate_none hx]
    exact update_self ..
  | spill hx hc =>
    rw [estimate_none (by exact hx),estimate_none hx]

theorem step_estimate_ne {x y : κ} {N : ℕ} (hs : Counted S N s) (h : Step S x s s') (hy : y≠x) :
    s'.estimate y=s.estimate y ∨ (s.estimate y=s.spill ∧ s'.estimate y=s.spill+1 ∧ s'.spill=s.spill+1) := by
  cases h with
  | hit i hx =>
    left
    cases hsy : s.slot y with
    | none => rw [estimate_none (by exact hsy),estimate_none hsy]
    | some j =>
      have hji : j≠i := fun hji => hy (hs.slot_inj y x j hsy (hji ▸ hx))
      rw [estimate_some (i := j) (by exact hsy),estimate_some hsy]
      exact update_of_ne hji ..
  | install i hi hx hc =>
    left
    cases hsy : s.slot y with
    | none =>
      rw [estimate_none hsy,estimate_none]
      simp [takeOver,hy,hsy]
    | some j =>
      by_cases hji : j=i
      · subst hji
        rw [estimate_some hsy,hc,estimate_none]
        simp [takeOver,hy,hsy]
      · rw [estimate_some hsy,estimate_some (i := j) (by simp [takeOver,hy,hsy,hji])]
        exact update_of_ne hji ..
  | spill hx hc =>
    cases hsy : s.slot y with
    | none =>
      right
      rw [estimate_none hsy,estimate_none (by exact hsy)]
      exact ⟨rfl,rfl,rfl⟩
    | some j =>
      left
      rw [estimate_some hsy,estimate_some (i := j) (by exact hsy)]

omit [DecidableEq ι] [DecidableEq κ] in
theorem Counted.estimate_zero {s : Summary ι κ} (hs : Counted S 0 s) (x : κ) : s.estimate x=0 := by
  have ht:=hs.total
  cases hx : s.slot x with
  | none =>
    rw [estimate_none hx]
    omega
  | some i =>
    have hle:=single_le_sum (f := s.count) (fun _ _ => Nat.zero_le _) (hs.slot_mem x i hx)
    rw [estimate_some hx]
    omega

theorem step_rest_self {T : ℕ} (hT : 0<T)
    (h : Step S x s s') (hd : ¬T∣s'.estimate x) : s.estimate x%T<s'.estimate x%T := by
  rw [step_estimate_self h] at hd ⊢
  have hlt:=Nat.mod_lt (s.estimate x) hT
  have hne : s.estimate x%T+1≠T := by
    intro heq
    apply hd
    rw [Nat.dvd_iff_mod_eq_zero,← Nat.mod_add_mod,heq,Nat.mod_self]
  rw [← Nat.mod_add_mod (s.estimate x) T 1,Nat.mod_eq_of_lt (show s.estimate x%T+1<T by omega)]
  exact Nat.lt_succ_self _

theorem step_rest_ne {T N : ℕ} {x y : κ} (hs : Counted S N s)
    (h : Step S x s s') (hy : y≠x) (hT : s'.spill<T) : s.estimate y%T ≤ s'.estimate y%T := by
  rcases step_estimate_ne hs h hy with heq | ⟨hold,hnew,hspill⟩
  · rw [heq]
  · rw [hold,hnew,Nat.mod_eq_of_lt (by omega),Nat.mod_eq_of_lt (by omega)]
    exact Nat.le_succ _

end Summary

end AquaGem5
