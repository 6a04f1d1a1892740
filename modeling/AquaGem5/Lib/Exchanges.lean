import Mathlib.Logic.Equiv.Basic

/-!
# Exchanges of stored contents

A placement says where the contents of each item are.
-/

namespace AquaGem5

variable {α : Type} [DecidableEq α] {p q : α → α} {a b : α} {swaps : List (α × α)} {D : α → Prop}

def exchange (swaps : List (α × α)) (place : α) : α :=
  swaps.foldl (fun place s => Equiv.swap s.1 s.2 place) place

theorem exchange_snoc (swaps : List (α × α)) (a b place : α) :
    exchange (swaps++[(a,b)]) place=Equiv.swap a b (exchange swaps place) :=
  List.foldl_append

def Carries (D : α → Prop) (swaps : List (α × α)) (p q : α → α) : Prop :=
  ∀ r,D r → exchange swaps (p r)=q r

theorem carries_snoc {q' : α → α} (hq : ∀ r,D r → q' r=Equiv.swap a b (q r)) :
    Carries D (swaps++[(a,b)]) p q' ↔ Carries D swaps p q := by
  constructor
  · intro h r hr
    have hboth:=h r hr
    rw [exchange_snoc,hq r hr] at hboth
    exact (Equiv.swap a b).injective hboth
  · intro h r hr
    rw [exchange_snoc,hq r hr,h r hr]

def Paired (D : α → Prop) (p : α → α) : Prop := ∀ r,D r → D (p r) ∧ p (p r)=r

omit [DecidableEq α] in
theorem Paired.ne_of_fixed (h : Paired D p) (ha : p a=a) {r : α} (hr : D r) (hne : r≠a) : p r≠a := by
  intro hra
  have hback:=(h r hr).2
  rw [hra,ha] at hback
  exact hne hback.symm

omit [DecidableEq α] in
theorem Paired.ne_of_pair (h : Paired D p) (hab : p a=b) (hba : p b=a) {r : α} (hr : D r)
    (hra : r≠a) (hrb : r≠b) : p r≠a ∧ p r≠b := by
  have hback:=(h r hr).2
  refine ⟨fun hpr => ?_,fun hpr => ?_⟩
  · rw [hpr,hab] at hback
    exact hrb hback.symm
  · rw [hpr,hba] at hback
    exact hra hback.symm

theorem pair_exchanges (h : Paired D p) (ha : p a=a) (hb : p b=b)
    (hq : ∀ r,D r → q r=if r=a then b else if r=b then a else p r) : ∀ r,D r → q r=Equiv.swap a b (p r) := by
  intro r hr
  rw [hq r hr]
  by_cases hra : r=a
  · rw [if_pos hra,hra,ha,Equiv.swap_apply_left]
  by_cases hrb : r=b
  · rw [if_neg hra,if_pos hrb,hrb,hb,Equiv.swap_apply_right]
  · rw [if_neg hra,if_neg hrb,
      Equiv.swap_apply_of_ne_of_ne (h.ne_of_fixed ha hr hra) (h.ne_of_fixed hb hr hrb)]

theorem unpair_exchanges (h : Paired D p) (hab : p a=b) (hba : p b=a)
    (hq : ∀ r,D r → q r=if r=a ∨ r=b then r else p r) : ∀ r,D r → q r=Equiv.swap a b (p r) := by
  intro r hr
  rw [hq r hr]
  by_cases hra : r=a
  · rw [if_pos (.inl hra),hra,hab,Equiv.swap_apply_right]
  by_cases hrb : r=b
  · rw [if_pos (.inr hrb),hrb,hba,Equiv.swap_apply_left]
  · obtain ⟨hpa,hpb⟩:=h.ne_of_pair hab hba hr hra hrb
    rw [if_neg (not_or.mpr ⟨hra,hrb⟩),Equiv.swap_apply_of_ne_of_ne hpa hpb]

theorem repair_exchanges {c : α} (h : Paired D p) (ha : D a) (hab : p a=b) (hne : a≠b)
    (hc : p c=c) (hq : ∀ r,D r → q r=if r=a then c else if r=c then a else if r=b then b else p r) :
    ∀ r,D r → q r=Equiv.swap a c (Equiv.swap a b (p r)) := by
  have hba : p b=a := by
    have hback:=(h a ha).2
    rwa [hab] at hback
  have hca : c≠a := by
    rintro rfl
    exact hne (hc.symm.trans hab)
  have hcb : c≠b := by
    rintro rfl
    exact hne (hba.symm.trans hc)
  intro r hr
  rw [hq r hr]
  by_cases hra : r=a
  · rw [if_pos hra,hra,hab,Equiv.swap_apply_right,Equiv.swap_apply_left]
  by_cases hrc : r=c
  · rw [if_neg hra,if_pos hrc,hrc,hc,Equiv.swap_apply_of_ne_of_ne hca hcb,Equiv.swap_apply_right]
  by_cases hrb : r=b
  · rw [if_neg hra,if_neg hrc,if_pos hrb,hrb,hba,Equiv.swap_apply_left,
      Equiv.swap_apply_of_ne_of_ne hne.symm hcb.symm]
  · obtain ⟨hpa,hpb⟩:=h.ne_of_pair hab hba hr hra hrb
    rw [if_neg hra,if_neg hrc,if_neg hrb,Equiv.swap_apply_of_ne_of_ne hpa hpb,
      Equiv.swap_apply_of_ne_of_ne hpa (h.ne_of_fixed hc hr hrc)]

end AquaGem5
