import AquaGem5.Lib.Marks

/-!
# Summaries whose counters wrap

The counters of a machine count modulo `M`. Until the keys that have arrived are enough to raise the spill counter to
`T < M`, a key that has not been marked at `T` is still never underestimated.
-/

namespace AquaGem5.Summary
open Function Nat

variable {ι κ : Type} [DecidableEq ι] [DecidableEq κ] {S : Finset ι} {M N T : ℕ} {x y : κ}
  {s s' : Summary ι κ}

inductive WrapStep (M : ℕ) (S : Finset ι) (x : κ) : Summary ι κ → Summary ι κ → Prop
  | hit (s : Summary ι κ) (i : ι) (hi : i∈S) (hx : s.slot x=some i) : WrapStep M S x s
      {s with count := Function.update s.count i ((s.count i+1)%M)}
  | install (s : Summary ι κ) (i : ι) (hi : i∈S) (hx : s.slot x=none) (hc : s.count i=s.spill) :
      WrapStep M S x s
        ⟨takeOver s.slot x i,Function.update s.count i ((s.spill+1)%M),s.spill⟩
  | spill (s : Summary ι κ) (hx : s.slot x=none) (hc : ∀ i∈S,s.count i≠s.spill) :
      WrapStep M S x s {s with spill := (s.spill+1)%M}

theorem WrapStep.step (h : WrapStep M S x s s') (hspill : s.spill+1<M)
    (hcount : ∀ i∈S,s.count i+1<M) : Step S x s s' := by
  cases h with
  | hit i hi hx =>
    rw [mod_eq_of_lt (hcount i hi)]
    exact .hit s i hx
  | install i hi hx hc =>
    rw [mod_eq_of_lt hspill]
    exact .install s i hi hx hc
  | spill hx hc =>
    rw [mod_eq_of_lt hspill]
    exact .spill s hx hc

def weight (M spill count : ℕ) : ℕ := if spill≤count then count else M-1

structure Weighed (M : ℕ) (S : Finset ι) (N : ℕ) (s : Summary ι κ) : Prop where
  slot_mem : ∀ x i,s.slot x=some i → i∈S
  slot_inj : ∀ x y i,s.slot x=some i → s.slot y=some i → x=y
  count_lt : ∀ i∈S,s.count i<M
  spill_lt : s.spill<M
  total : ∑ i∈S,weight M s.spill (s.count i)+s.spill≤N

omit [DecidableEq ι] [DecidableEq κ] in
theorem spill_le_weight {spill count : ℕ} (h : spill<M) : spill≤weight M spill count := by
  unfold weight
  split <;> omega

omit [DecidableEq ι] [DecidableEq κ] in
theorem Weighed.spill_small (h : Weighed M S N s) (hN : N<T*(S.card+1)) : s.spill<T :=
  lt_of_floor (fun _ _ => spill_le_weight h.spill_lt) h.total hN

theorem step_weighed (h : Weighed M S N s) (hstep : WrapStep M S x s s') (hspill : s.spill+1<M) :
    Weighed M S (N+1) s' := by
  have ht:=h.total
  cases hstep with
  | hit i hi hx =>
    have hlt:=h.count_lt i hi
    refine ⟨h.slot_mem,h.slot_inj,fun j hj => ?_,h.spill_lt,?_⟩
    · by_cases hji : j=i
      · subst hji
        simp only [update_self]
        exact mod_lt _ (by omega)
      · simpa only [update_of_ne hji] using h.count_lt j hj
    · have hsum:=sum_comp_update S (weight M s.spill) s.count hi ((s.count i+1)%M)
      -- a counter that wraps weighs what it did
      have hle : weight M s.spill ((s.count i+1)%M)≤weight M s.spill (s.count i)+1 := by
        by_cases hwrap : s.count i+1=M
        · rw [hwrap,mod_self]
          unfold weight
          split <;> split <;> omega
        · rw [mod_eq_of_lt (by omega)]
          unfold weight
          split <;> split <;> omega
      dsimp only
      omega
  | install i hi hx hc =>
    rw [mod_eq_of_lt hspill]
    refine ⟨fun y j hy => takeOver_mem hi h.slot_mem hy,fun y z j hy hz => takeOver_inj h.slot_inj hy hz,
      fun j hj => ?_,h.spill_lt,?_⟩
    · by_cases hji : j=i
      · subst hji
        simpa only [update_self] using hspill
      · simpa only [update_of_ne hji] using h.count_lt j hj
    · have hsum:=sum_comp_update S (weight M s.spill) s.count hi (s.spill+1)
      have hnew : weight M s.spill (s.spill+1)=s.spill+1 := if_pos (le_succ _)
      have hold : weight M s.spill (s.count i)=s.spill := by
        rw [hc]
        exact if_pos (le_refl _)
      dsimp only
      omega
  | spill hx hc =>
    rw [mod_eq_of_lt hspill]
    refine ⟨h.slot_mem,h.slot_inj,h.count_lt,hspill,?_⟩
    have hsame : ∑ i∈S,weight M (s.spill+1) (s.count i) =
        ∑ i∈S,weight M s.spill (s.count i) := by
      refine Finset.sum_congr rfl fun i hi => ?_
      have hne:=hc i hi
      unfold weight
      split <;> split <;> omega
    dsimp only
    rw [hsame]
    omega

def Unmarked (T k : ℕ) (s : Summary ι κ) (x : κ) : Prop := k ≤ s.estimate x ∧ s.estimate x<T

theorem unmarked_self {k : ℕ} (h : Unmarked T k s x) (hstep : WrapStep M S x s s') (hM : T<M)
    (hspill : s'.spill<T) (hmark : s'.slot x≠none → ¬T∣s'.estimate x) : Unmarked T (k+1) s' x := by
  obtain ⟨hk,hlt⟩:=h
  have hbelow : ∀ c,c<T → ¬T∣c+1 → c+1<T := fun c hc hd => by
    rcases Nat.lt_or_eq_of_le hc with h | h
    · exact h
    · exact (hd (h ▸ dvd_refl _)).elim
  cases hstep with
  | hit i hi hx =>
    rw [estimate_some hx] at hk hlt
    have hslot : ({s with count := update s.count i ((s.count i+1)%M)} :
        Summary ι κ).slot x=some i := hx
    have hd:=hmark (by rw [hslot]; exact Option.some_ne_none i)
    rw [Unmarked,estimate_some hslot]
    rw [estimate_some hslot] at hd
    simp only [update_self,mod_eq_of_lt (show s.count i+1<M by omega)] at hd ⊢
    exact ⟨by omega,hbelow _ hlt hd⟩
  | install i hi hx hc =>
    rw [estimate_none hx] at hk hlt
    have hslot : (⟨takeOver s.slot x i,update s.count i ((s.spill+1)%M),s.spill⟩ :
        Summary ι κ).slot x=some i := if_pos rfl
    have hd:=hmark (by rw [hslot]; exact Option.some_ne_none i)
    rw [Unmarked,estimate_some hslot]
    rw [estimate_some hslot] at hd
    simp only [update_self,mod_eq_of_lt (show s.spill+1<M by omega)] at hd ⊢
    exact ⟨by omega,hbelow _ hlt hd⟩
  | spill hx hc =>
    rw [estimate_none hx] at hk hlt
    rw [Unmarked,estimate_none (by exact hx)]
    change k+1≤(s.spill+1)%M ∧ (s.spill+1)%M<T
    rw [mod_eq_of_lt (show s.spill+1<M by omega)] at hspill ⊢
    exact ⟨by omega,hspill⟩

theorem unmarked_ne {k : ℕ} (hw : Weighed M S N s) (h : Unmarked T k s y)
    (hstep : WrapStep M S x s s') (hy : y≠x) (hM : T<M) (hspill : s'.spill<T) : Unmarked T k s' y := by
  obtain ⟨hk,hlt⟩:=h
  cases hstep with
  | hit i hi hx =>
    cases hsy : s.slot y with
    | none =>
      rw [estimate_none hsy] at hk hlt
      rw [Unmarked,estimate_none (by exact hsy)]
      exact ⟨hk,hlt⟩
    | some j =>
      have hji : j≠i := fun hji => hy (hw.slot_inj y x j hsy (hji ▸ hx))
      rw [estimate_some hsy] at hk hlt
      rw [Unmarked,estimate_some (i := j) (by exact hsy)]
      simp only [update_of_ne hji]
      exact ⟨hk,hlt⟩
  | install i hi hx hc =>
    cases hsy : s.slot y with
    | none =>
      rw [estimate_none hsy] at hk hlt
      rw [Unmarked,estimate_none (by simp [takeOver,hy,hsy])]
      exact ⟨hk,hlt⟩
    | some j =>
      rw [estimate_some hsy] at hk hlt
      by_cases hji : j=i
      · subst hji
        rw [hc] at hk hlt
        rw [Unmarked,estimate_none (by simp [takeOver,hy,hsy])]
        exact ⟨hk,hlt⟩
      · rw [Unmarked,estimate_some (i := j) (by simp [takeOver,hy,hsy,hji])]
        simp only [update_of_ne hji]
        exact ⟨hk,hlt⟩
  | spill hx hc =>
    cases hsy : s.slot y with
    | none =>
      rw [estimate_none hsy] at hk hlt
      rw [Unmarked,estimate_none (by exact hsy)]
      change k≤(s.spill+1)%M ∧ (s.spill+1)%M<T
      rw [mod_eq_of_lt (show s.spill+1<M by omega)] at hspill ⊢
      exact ⟨by omega,hspill⟩
    | some j =>
      rw [estimate_some hsy] at hk hlt
      rw [Unmarked,estimate_some (i := j) (by exact hsy)]
      exact ⟨hk,hlt⟩

structure Watched (M T : ℕ) (S : Finset ι) (h : List (κ × Bool)) (s : Summary ι κ) : Prop where
  weighed : Weighed M S h.length s
  keys : ∀ x,(∃ j<T,(marks x h)[j]?=some true) ∨ Unmarked T (marks x h).length s x

theorem watched_snoc {h : List (κ × Bool)} {b : Bool} (hw : Watched M T S h s)
    (hstep : WrapStep M S x s s') (hb : b=true ↔ s'.slot x≠none ∧ T∣s'.estimate x) (hM : T<M)
    (hN : h.length+1<T*(S.card+1)) : Watched M T S (h++[(x,b)]) s' := by
  have hspill:=hw.weighed.spill_small (T := T) (by omega)
  have hweighed:=step_weighed hw.weighed hstep (by omega)
  have hspill':=hweighed.spill_small hN
  refine ⟨by simpa using hweighed,fun y => ?_⟩
  by_cases hy : y=x
  · subst hy
    rw [marks_snoc_self]
    rcases hw.keys y with ⟨j,hj,hmark⟩ | hun
    · have hlt:=(List.getElem?_eq_some_iff.mp hmark).1
      exact .inl ⟨j,hj,by rw [List.getElem?_append_left hlt]; exact hmark⟩
    · cases b with
      | true => exact .inl ⟨(marks y h).length,hun.1.trans_lt hun.2,by simp⟩
      | false =>
        refine .inr ?_
        rw [List.length_append,List.length_singleton]
        exact unmarked_self hun hstep hM hspill' fun hslot hd => Bool.noConfusion (hb.mpr ⟨hslot,hd⟩)
  · rw [marks_snoc_ne (Ne.symm hy)]
    rcases hw.keys y with hmark | hun
    · exact .inl hmark
    · exact .inr (unmarked_ne hw.weighed hun hstep hy hM hspill')

end AquaGem5.Summary
