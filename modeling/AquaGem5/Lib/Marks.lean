import AquaGem5.Lib.Summary

/-!
# Marking every `T`-th arrival

A summary that marks an arrival when its key has a slot and the estimate of the key becomes a multiple of `T` marks
each key periodically: the `j`-th mark of a key is `T ∣ j + c` for one offset `c`, the over-count of the key.
-/

namespace AquaGem5
open List

def Periodic (T c : ℕ) (l : List Bool) : Prop :=
  ∀ j b, l[j]?=some b → (b=true ↔ T∣j+1+c)

theorem periodic_nil (T c : ℕ) : Periodic T c [] := by
  intro j b h
  simp at h

variable {l : List Bool} {T c : ℕ}

theorem periodic_snoc {b : Bool} (h : Periodic T c l) (hb : b=true ↔ T∣l.length+1+c) : Periodic T c (l++[b]) := by
  intro j d hj
  rcases lt_trichotomy j l.length with hlt | rfl | hgt
  · rw [getElem?_append_left hlt] at hj
    exact h j d hj
  · rw [getElem?_append_right le_rfl] at hj
    simp only [Nat.sub_self,getElem?_cons_zero,Option.some.injEq] at hj
    exact hj ▸ hb
  · rw [getElem?_eq_none (by simp only [length_append,length_singleton]; omega)] at hj
    cases hj

theorem periodic_prefix {b : Bool} (h : Periodic T c (l++[b])) : Periodic T c l ∧ (b=true ↔ T∣l.length+1+c) := by
  refine ⟨?_,h l.length b (by simp)⟩
  intro j d hj
  have hlt : j<l.length := (List.getElem?_eq_some_iff.mp hj).1
  exact h j d (by rw [getElem?_append_left hlt]; exact hj)

theorem periodic_shift (h : Periodic T c l) (hl : l.length+c+1<T) : Periodic T (c+1) l := by
  intro j b hj
  have hlt : j<l.length := (List.getElem?_eq_some_iff.mp hj).1
  have small : ∀ m, 0 < m → m<T → ¬T∣m := fun m h0 hm hd => by
    have := Nat.le_of_dvd h0 hd
    omega
  rw [h j b hj]
  exact iff_of_false (small _ (by omega) (by omega)) (small _ (by omega) (by omega))

theorem periodic_count (h : Periodic T c l) : l.count true+c/T=(l.length+c)/T := by
  induction l using reverseRecOn with
  | nil => simp
  | append_singleton l b ih =>
    obtain ⟨hl,hb⟩:= periodic_prefix h
    have hdiv : (l.length+1+c)/T=(l.length+c)/T+if T∣l.length+1+c then 1 else 0 := by
      rw [show l.length+1+c=l.length+c+1 by omega]
      exact Nat.succ_div
    rw [count_append,length_append,length_singleton,hdiv,← ih hl]
    cases b with
    | false =>
      have hn : ¬T∣l.length+1+c := fun hd => by simpa using hb.mpr hd
      simp [hn]
    | true =>
      simp only [hb.mp rfl,if_true,count_singleton_self]
      omega

theorem periodic_count_ge (h : Periodic T c l) : l.length/T≤l.count true := by
  have hc:=periodic_count h
  have hd : l.length/T+c/T≤(l.length+c)/T := Nat.div_add_div_le_add_div
  omega

theorem periodic_first (hT : 0<T) (h : Periodic T c l) (hl : T≤l.length) : ∃ j<T, l[j]?=some true := by
  have hmod:=Nat.mod_lt c hT
  have hc:=Nat.mod_add_div c T
  refine ⟨T-1-c%T,by omega,?_⟩
  have hlt : T-1-c%T<l.length := by omega
  have hget:=getElem?_eq_getElem hlt
  rw [hget]
  refine congrArg some ((h _ _ hget).mpr ⟨c/T+1,?_⟩)
  rw [Nat.mul_add,Nat.mul_one]
  omega

theorem periodic_gap {T c i j : ℕ} (hT : 0<T) (h : Periodic T c l) (hij : i<j)
    (hi : l[i]?=some true) (hj : l[j]?=some true) (hbetween : ∀ k, i<k → k<j → l[k]?=some false) : j=i+T := by
  have hdi : T∣i+1+c := (h i true hi).mp rfl
  have hdj : T∣j+1+c := (h j true hj).mp rfl
  have hge : i+T≤j := by
    have hsub : T∣j-i := by
      have := Nat.dvd_sub hdj hdi
      rwa [show j+1+c-(i+1+c)=j-i by omega] at this
    have := Nat.le_of_dvd (by omega) hsub
    omega
  by_contra hne
  have hk:=hbetween (i+T) (by omega) (by omega)
  have hmark : T∣i+T+1+c := by
    rw [show i+T+1+c=i+1+c+T by omega]
    exact Nat.dvd_add hdi (Nat.dvd_refl T)
  exact Bool.noConfusion ((h _ _ hk).mpr hmark)

namespace Summary

variable {ι κ : Type} [DecidableEq ι] [DecidableEq κ]

inductive Run (S : Finset ι) (T : ℕ) : List (κ × Bool) → Summary ι κ → Prop
  | nil (s : Summary ι κ) : Counted S 0 s → Run S T [] s
  | snoc (h : List (κ × Bool)) (s s' : Summary ι κ) (x : κ) (b : Bool) : Run S T h s →
      Step S x s s' → (b=true ↔ s'.slot x≠none ∧ T∣s'.estimate x) → Run S T (h++[(x,b)]) s'

variable {S : Finset ι} {h : List (κ × Bool)} {s : Summary ι κ}

theorem run_counted {T : ℕ} (hr : Run S T h s) : Counted S h.length s := by
  induction hr with
  | nil s hs => exact hs
  | snoc h s s' x b _ hstep _ ih =>
    rw [length_append,length_singleton]
    exact step_counted ih hstep

theorem step_marked {T N : ℕ} {x : κ} {b : Bool} {s s' : Summary ι κ} (hs : Counted S N s)
    (h : Step S x s s') (hb : b=true ↔ s'.slot x≠none ∧ T∣s'.estimate x) :
    s.thresholds S T+(if b=true then 1 else 0)=s'.thresholds S T := by
  have hmark : ∀ i,s'.slot x=some i → (b=true ↔ T∣s'.count i) := by
    intro i hi
    rw [hb,estimate_some hi]
    simp [hi]
  cases h with
  | hit i hx =>
    rw [if_congr (hmark i hx) rfl rfl]
    exact thresholds_count T s {s with count := Function.update s.count i (s.count i+1)}
      (hs.slot_mem x i hx) rfl
  | install i hi hx hc =>
    rw [if_congr (hmark i (by simp [takeOver])) rfl rfl]
    exact thresholds_count T s
      ⟨takeOver s.slot x i,Function.update s.count i (s.spill+1),s.spill⟩ hi (by rw [hc])
  | spill hx hc =>
    have hno : ¬b=true := by simp [hb,hx]
    rw [if_neg hno]
    rfl

theorem run_thresholds {T : ℕ} (hr : Run S T h s) : h.countP (fun p => p.2)=s.thresholds S T := by
  induction hr with
  | nil s hs =>
    have htotal:=hs.total
    have hzero : ∀ i∈S,s.count i/T=0 := by
      intro i hi
      have hle:=Finset.single_le_sum (f := s.count) (fun _ _ => Nat.zero_le _) hi
      rw [show s.count i=0 by omega,Nat.zero_div]
    exact (Finset.sum_eq_zero hzero).symm
  | snoc h s s' x b hr hstep hb ih =>
    rw [countP_append,countP_singleton,ih]
    exact step_marked (run_counted hr) hstep hb

theorem marked_iff {T : ℕ} {x : κ} {s s' : Summary ι κ} (h : Step S x s s')
    (hT : s'.spill<T) : (s'.slot x≠none ∧ T∣s'.estimate x) ↔ T∣s'.estimate x := by
  refine ⟨And.right,fun hd => ⟨fun hnone => ?_,hd⟩⟩
  have he:=step_estimate_self h
  rw [estimate_none hnone] at he hd
  have := Nat.le_of_dvd (by omega) hd
  omega

def marks (x : κ) (h : List (κ × Bool)) : List Bool := (h.filter fun p => p.1=x).map Prod.snd

omit [DecidableEq ι] in
theorem marks_snoc_self (x : κ) (b : Bool) (h : List (κ × Bool)) : marks x (h++[(x,b)])=marks x h++[b] := by
  simp [marks]

omit [DecidableEq ι] in
theorem marks_snoc_ne {x y : κ} (hy : x≠y) (b : Bool) (h : List (κ × Bool)) : marks y (h++[(x,b)])=marks y h := by
  simp [marks,hy]

theorem run_periodic {T : ℕ} (hr : Run S T h s) (hN : h.length<T*(S.card+1)) (y : κ) :
    (marks y h).length ≤ s.estimate y ∧ Periodic T (s.estimate y-(marks y h).length) (marks y h) := by
  induction hr with
  | nil s hs => exact ⟨Nat.zero_le _,periodic_nil _ _⟩
  | snoc h s s' x b hr hstep hb ih =>
    have hlen : (h++[(x,b)]).length=h.length+1 := by simp
    obtain ⟨hle,hper⟩:=ih (by omega)
    have hcount:=run_counted hr
    by_cases hy : x=y
    · subst hy
      have hlt:=(step_counted hcount hstep).spill_lt (T := T) (by omega)
      rw [marked_iff hstep hlt] at hb
      have he:=step_estimate_self hstep
      rw [marks_snoc_self,length_append,length_singleton]
      refine ⟨by omega,?_⟩
      rw [show s'.estimate x-((marks x h).length+1)=s.estimate x-(marks x h).length by omega]
      refine periodic_snoc hper ?_
      rw [hb,show (marks x h).length+1+(s.estimate x-(marks x h).length)=s'.estimate x by omega]
    · rw [marks_snoc_ne hy]
      rcases step_estimate_ne hcount hstep (Ne.symm hy) with he | ⟨hes,hes',hsp⟩
      · exact he ▸ ⟨hle,hper⟩
      · -- the spill counter rose under a key without a slot, and is still below `T`
        have hlt:=(step_counted hcount hstep).spill_lt (T := T) (by omega)
        refine ⟨by omega,?_⟩
        rw [show s'.estimate y-(marks y h).length=s.estimate y-(marks y h).length+1 by omega]
        exact periodic_shift hper (by omega)

/-- An estimate is off by the spill counter at most, and never too low. -/
theorem run_accurate {T : ℕ} (hr : Run S T h s) (y : κ) :
    (marks y h).length ≤ s.estimate y ∧ s.estimate y ≤ (marks y h).length+s.spill := by
  induction hr with
  | nil s hs => simp [hs.estimate_zero,marks]
  | snoc h s s' x b hr hstep hb ih =>
    have hspill : s.spill ≤ s'.spill := by cases hstep <;> simp
    by_cases hy : x=y
    · subst hy
      rw [step_estimate_self hstep,marks_snoc_self,length_append,length_singleton]
      omega
    · rw [marks_snoc_ne hy]
      rcases step_estimate_ne (run_counted hr) hstep (Ne.symm hy) with he | ⟨hes,hes',hsp⟩ <;> omega

end Summary

end AquaGem5
