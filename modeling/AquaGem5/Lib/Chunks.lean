import Mathlib.Data.BitVec
import Mathlib.Data.List.GetD

/-!
# Words cut into chunks

A word of `n * c` bits is `n` chunks of `c` bits.
-/

namespace Chunks
open List Nat BitVec

variable {W c n : ℕ}

def split (c : ℕ) : ℕ → BitVec W → List (BitVec c)
  | 0,_ => []
  | n+1,v => v.setWidth c::split c n (v >>> c)

theorem length_split (c n : ℕ) : ∀ v : BitVec W,(split c n v).length=n := by
  induction n with
  | zero =>
    intro v
    rfl
  | succ n ih =>
    intro v
    rw [split,length_cons,ih]

theorem getD_split (c n : ℕ) : ∀ (v : BitVec W) (k : ℕ),k<n → (split c n v).getD k 0=(v >>> (k*c)).setWidth c := by
  induction n with
  | zero =>
    intro v k hk
    omega
  | succ n ih =>
    intro v k hk
    cases k with
    | zero => simp [split]
    | succ k =>
      have hshift : v >>> c >>> (k*c)=v >>> ((k+1)*c) := by
        rw [← BitVec.shiftRight_add,Nat.add_mul,Nat.one_mul,add_comm]
      rw [split,getD_cons_succ,ih (v >>> c) k (by omega),hshift]

def join (W : ℕ) (bs : List (BitVec c)) : BitVec W := bs.foldr (fun b v => v <<< c ||| b.setWidth W) 0

theorem getLsbD_join (hc : 0<c) (bs : List (BitVec c)) :
    ∀ {j : ℕ},j<W → (join W bs).getLsbD j=(bs.getD (j/c) 0).getLsbD (j%c) := by
  induction bs with
  | nil =>
    intro j _
    simp [join]
  | cons b bs ih =>
    intro j hj
    have hcons : join W (b::bs)=join W bs <<< c ||| b.setWidth W := rfl
    rw [hcons,getLsbD_or,getLsbD_shiftLeft,getLsbD_setWidth]
    by_cases hlow : j<c
    · rw [div_eq_of_lt hlow,mod_eq_of_lt hlow]
      simp [hlow,hj]
    · have hdiv : j/c=(j-c)/c+1 := by
        rw [← Nat.add_div_right (j-c) hc,Nat.sub_add_cancel (by omega)]
      have hmod : j%c=(j-c)%c := by
        rw [← Nat.add_mod_right (j-c) c,Nat.sub_add_cancel (by omega)]
      rw [hdiv,hmod,getD_cons_succ,← ih (by omega),getLsbD_of_ge b j (by omega)]
      simp [hlow,hj]

theorem join_split (hc : 0<c) (h : n*c=W) (v : BitVec W) : join W (split c n v)=v := by
  apply eq_of_getLsbD_eq
  intro j hj
  have hk : j/c<n := by
    rw [div_lt_iff_lt_mul hc,h]
    exact hj
  have hback : j/c*c+j%c=j := div_add_mod' j c
  rw [getLsbD_join hc _ hj,getD_split c n v _ hk,getLsbD_setWidth,getLsbD_ushiftRight,hback]
  simp [mod_lt j hc]

theorem split_join (hc : 0<c) (h : n*c=W) {bs : List (BitVec c)} (hlen : bs.length=n) : split c n (join W bs)=bs := by
  apply ext_getElem ((length_split c n _).trans hlen.symm)
  intro k hk hk'
  have hget:=getD_split c n (join W bs) k (hlen ▸ hk')
  rw [getD_eq_getElem _ _ hk] at hget
  rw [hget]
  apply eq_of_getLsbD_eq
  intro j hj
  have hlt : k*c+j<W := by
    have hstep : (k+1)*c≤n*c := mul_le_mul_right c (hlen ▸ hk')
    rw [Nat.add_mul] at hstep
    omega
  have hdiv : (k*c+j)/c=k := by rw [mul_comm,mul_add_div hc,div_eq_of_lt hj,add_zero]
  rw [getLsbD_setWidth,getLsbD_ushiftRight,getLsbD_join hc bs hlt,hdiv,mul_add_mod_of_lt hj,
    getD_eq_getElem _ _ hk']
  simp [hj]

def place (W n : ℕ) (f : ℕ → BitVec c) : BitVec W :=
  (List.range n).foldr (fun j v => v ||| (f j).setWidth W <<< (j*c)) 0

theorem getLsbD_foldr_or {ι : Type} (g : ι → BitVec W) (l : List ι) (p : ℕ) :
    (l.foldr (fun j v => v ||| g j) 0).getLsbD p=l.any fun j => (g j).getLsbD p := by
  induction l with
  | nil => simp
  | cons i l ih => rw [foldr_cons,getLsbD_or,ih,any_cons,Bool.or_comm]

theorem getLsbD_place (hc : 0<c) (f : ℕ → BitVec c) {p : ℕ} (hp : p<W) (hk : p/c<n) :
    (place W n f).getLsbD p=(f (p/c)).getLsbD (p%c) := by
  have hback : p/c*c+p%c=p := div_add_mod' p c
  rw [place,getLsbD_foldr_or,Bool.eq_iff_iff,any_eq_true]
  constructor
  · rintro ⟨j,_,hbit⟩
    rw [getLsbD_shiftLeft,getLsbD_setWidth] at hbit
    simp only [Bool.and_eq_true,Bool.not_eq_true',decide_eq_true_eq,decide_eq_false_iff_not] at hbit
    obtain ⟨⟨_,hle⟩,_,hbit⟩:=hbit
    have hlt : p-j*c<c := lt_of_getLsbD hbit
    have hj : p/c=j := by
      apply Nat.div_eq_of_lt_le (by omega)
      rw [Nat.add_mul,Nat.one_mul]
      omega
    have hmod : p%c=p-j*c := by
      rw [hj] at hback
      omega
    rw [hj,hmod]
    exact hbit
  · intro hbit
    refine ⟨p/c,mem_range.mpr hk,?_⟩
    rw [getLsbD_shiftLeft,getLsbD_setWidth]
    have hsub : p-p/c*c=p%c := by omega
    have hlt:=mod_lt p hc
    rw [hsub]
    simp [hp,hbit]
    omega

end Chunks
