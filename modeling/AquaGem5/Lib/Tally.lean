import Mathlib.Data.Fintype.Card

/-!
# How many entries of a table pass a test
-/

namespace Tally
open Function Finset

variable {ι α : Type} [Fintype ι] [DecidableEq ι] {P : α → Bool} {f : ι → α} {i : ι} {v : α}

section

omit [DecidableEq ι]

def tally (P : α → Bool) (f : ι → α) : ℕ := (Finset.univ.filter fun i => P (f i)=true).card

theorem tally_pos : 0<tally P f ↔ ∃ i,P (f i)=true := by
  rw [tally,card_pos]
  constructor
  · intro h
    obtain ⟨i,hi⟩:=h
    exact ⟨i,(mem_filter.mp hi).2⟩
  · intro h
    obtain ⟨i,hi⟩:=h
    exact ⟨i,mem_filter.mpr ⟨mem_univ i,hi⟩⟩

theorem tally_eq_zero : tally P f=0 ↔ ∀ i,P (f i)=false := by
  constructor
  · intro h i
    cases hi : P (f i) with
    | false => rfl
    | true =>
      have hpos:=tally_pos.mpr ⟨i,hi⟩
      omega
  · intro h
    by_contra hne
    obtain ⟨i,hi⟩:=tally_pos.mp (Nat.pos_of_ne_zero hne)
    rw [h i] at hi
    exact Bool.false_ne_true hi

theorem tally_congr {g : ι → α} (h : ∀ i,P (f i)=P (g i)) : tally P f=tally P g := by
  simp only [tally,h]

end

theorem filter_update (hi : P (f i)=false) : (Finset.univ.filter fun j => P (update f i v j)=true) =
      if P v=true then insert i (Finset.univ.filter fun j => P (f j)=true)
      else Finset.univ.filter fun j => P (f j)=true := by
  ext j
  by_cases hj : j=i
  · subst hj
    cases hv : P v <;> simp [hi,hv]
  · cases hv : P v <;> simp [hj]

theorem tally_gain (hi : P (f i)=false) (hv : P v=true) : tally P (update f i v)=tally P f+1 := by
  have hnot : i∉univ.filter fun j => P (f j)=true := by simp [hi]
  rw [tally,filter_update hi,if_pos hv,card_insert_of_notMem hnot,tally]

theorem tally_loss (hi : P (f i)=true) (hv : P v=false) : tally P (update f i v)+1=tally P f := by
  have hself : P (update f i v i)=false := by rw [update_self,hv]
  have hgain:=tally_gain hself hi
  rw [update_idem,update_eq_self] at hgain
  exact hgain.symm

theorem tally_same (hv : P v=P (f i)) : tally P (update f i v)=tally P f := by
  apply tally_congr
  intro j
  by_cases hj : j=i
  · rw [hj,update_self,hv]
  · rw [update_of_ne hj]

end Tally
