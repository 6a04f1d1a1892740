import Mathlib.Logic.Function.Basic
import Mathlib.Data.Int.Notation
import Mathlib.Data.Nat.Notation

/-!
# The return address stack (ras.hh, ras.cc)

The stack is circular.
-/

namespace AquaGem5.Branch
open Function

structure ReturnAddrStack (PC : Type) where
  addrStack : ℕ → PC
  numEntries : ℕ
  usedEntries : ℕ
  tos : ℕ

namespace ReturnAddrStack

variable {PC : Type}

def init [Zero PC] (numEntries : ℕ) : ReturnAddrStack PC := ⟨fun _ => 0,numEntries,0,0⟩

def top (s : ReturnAddrStack PC) : PC := s.addrStack s.tos

def topIdx (s : ReturnAddrStack PC) : ℕ := s.tos

def incrTos (s : ReturnAddrStack PC) : ReturnAddrStack PC :=
  {s with tos := if s.tos+1=s.numEntries then 0 else s.tos+1}

def decrTos (s : ReturnAddrStack PC) : ReturnAddrStack PC :=
  {s with tos := if s.tos=0 then s.numEntries-1 else s.tos-1}

def push (s : ReturnAddrStack PC) (returnAddr : PC) : ReturnAddrStack PC :=
  let s := s.incrTos
  let s := {s with addrStack := Function.update s.addrStack s.tos returnAddr}
  if s.usedEntries≠s.numEntries then {s with usedEntries := s.usedEntries+1} else s

def pop (s : ReturnAddrStack PC) : ReturnAddrStack PC :=
  let s := if 0<s.usedEntries then {s with usedEntries := s.usedEntries-1} else s
  s.decrTos

def restore (s : ReturnAddrStack PC) (topEntryIdx : ℕ) (restored : PC) : ReturnAddrStack PC :=
  let s := {s with tos := topEntryIdx, addrStack := Function.update s.addrStack topEntryIdx restored}
  if s.usedEntries≠s.numEntries then {s with usedEntries := s.usedEntries+1} else s

def below (s : ReturnAddrStack PC) (j : ℕ) : PC := s.addrStack ((s.tos+s.numEntries-j)%s.numEntries)

section
variable (s : ReturnAddrStack PC) (a : PC) (i : ℕ)

@[simp] theorem push_numEntries : (s.push a).numEntries=s.numEntries := by
  unfold push
  dsimp only
  split <;> rfl

@[simp] theorem push_tos : (s.push a).tos=s.incrTos.tos := by
  unfold push
  dsimp only
  split <;> rfl

@[simp] theorem push_addrStack : (s.push a).addrStack=update s.addrStack s.incrTos.tos a := by
  unfold push
  dsimp only
  split <;> rfl

@[simp] theorem pop_numEntries : s.pop.numEntries=s.numEntries := by
  unfold pop
  dsimp only
  split <;> rfl

@[simp] theorem pop_tos : s.pop.tos=s.decrTos.tos := by
  unfold pop
  dsimp only
  split <;> rfl

@[simp] theorem pop_addrStack : s.pop.addrStack=s.addrStack := by
  unfold pop
  dsimp only
  split <;> rfl

@[simp] theorem restore_numEntries : (s.restore i a).numEntries=s.numEntries := by
  unfold restore
  dsimp only
  split <;> rfl

@[simp] theorem restore_tos : (s.restore i a).tos=i := by
  unfold restore
  dsimp only
  split <;> rfl

@[simp] theorem restore_addrStack : (s.restore i a).addrStack=update s.addrStack i a := by
  unfold restore
  dsimp only
  split <;> rfl

end

variable {s s' s'' : ReturnAddrStack PC} {a : PC} {i j : ℕ} {d e : ℤ}

theorem incrTos_lt (h : s.tos<s.numEntries) : s.incrTos.tos<s.numEntries := by
  unfold incrTos
  dsimp only
  split <;> omega

theorem decrTos_lt (h : s.tos<s.numEntries) : s.decrTos.tos<s.numEntries := by
  unfold decrTos
  dsimp only
  split <;> omega

theorem incrTos_decrTos (h : s.tos<s.numEntries) : s.decrTos.incrTos.tos=s.tos := by
  unfold incrTos decrTos
  dsimp only
  split <;> split <;> omega

theorem decrTos_incrTos : s.incrTos.decrTos.tos=s.tos := by
  unfold incrTos decrTos
  dsimp only
  split <;> split <;> omega

theorem below_zero (h : s.tos<s.numEntries) : s.below 0=s.top := by
  rw [below,top,Nat.sub_zero,Nat.add_mod_right,Nat.mod_eq_of_lt h]

theorem below_pop (hj : j+1 ≤ s.numEntries) : s.pop.below j=s.below (j+1) := by
  rw [below,below,pop_addrStack,pop_tos,pop_numEntries,decrTos]
  dsimp only
  split
  · rename_i h0
    rw [h0,show s.numEntries-1+s.numEntries-j=0+s.numEntries-(j+1)+s.numEntries by omega,Nat.add_mod_right]
  · exact congrArg (fun n => s.addrStack (n%s.numEntries)) (by omega)

theorem below_pop_last (h : s.tos<s.numEntries) : s.pop.below (s.numEntries-1)=s.below 0 := by
  rw [below,below,pop_addrStack,pop_tos,pop_numEntries,decrTos]
  dsimp only
  split
  · exact congrArg (fun n => s.addrStack (n%s.numEntries)) (by omega)
  · rw [show s.tos-1+s.numEntries-(s.numEntries-1)=s.tos by omega,Nat.sub_zero,Nat.add_mod_right]

theorem below_restore_zero (hi : i<s.numEntries) : (s.restore i a).below 0=a := by
  rw [below,restore_tos,restore_addrStack,restore_numEntries,Nat.sub_zero,Nat.add_mod_right,Nat.mod_eq_of_lt hi]
  exact update_self ..

theorem below_restore (h : s.tos<s.numEntries) (hi : i=s.incrTos.tos) (hj : j+1<s.numEntries) :
    (s.restore i a).below (j+1)=s.below j := by
  have hlt : i<s.numEntries := hi ▸ incrTos_lt h
  rw [below,below,restore_tos,restore_addrStack,restore_numEntries]
  have hne : (i+s.numEntries-(j+1))%s.numEntries≠i := by
    rcases Nat.lt_or_ge i (j+1) with hl | hl
    · rw [Nat.mod_eq_of_lt (by omega)]
      omega
    · rw [show i+s.numEntries-(j+1)=i-(j+1)+s.numEntries by omega,Nat.add_mod_right,
        Nat.mod_eq_of_lt (by omega)]
      omega
  rw [update_of_ne hne]
  rw [incrTos] at hi
  dsimp only at hi
  split at hi
  · rw [show s.tos+s.numEntries-j=i+s.numEntries-(j+1)+s.numEntries by omega,Nat.add_mod_right]
  · exact congrArg (fun n => s.addrStack (n%s.numEntries)) (by omega)

structure Agree (d : ℤ) (s s' : ReturnAddrStack PC) : Prop where
  lt : s.tos<s.numEntries
  tos : s.tos=s'.tos
  numEntries : s.numEntries=s'.numEntries
  below : ∀ j : ℕ, j<s.numEntries → j+d<s.numEntries → s.below j=s'.below j

theorem Agree.refl (h : s.tos<s.numEntries) (d : ℤ) : Agree d s s := ⟨h,rfl,rfl,fun _ _ _ => rfl⟩

theorem Agree.mono (h : Agree d s s') (hd : d≤e) : Agree e s s' :=
  ⟨h.lt,h.tos,h.numEntries,fun j hj hd' => h.below j hj (by omega)⟩

theorem Agree.trans (h : Agree d s s') (h' : Agree d s' s'') : Agree d s s'' :=
  ⟨h.lt,h.tos.trans h'.tos,h.numEntries.trans h'.numEntries,fun j hj hd => by
    have hn:=h.numEntries
    exact (h.below j hj hd).trans (h'.below j (by omega) (by omega))⟩

theorem Agree.pop (h : Agree d s s') : Agree (d+1) s.pop s'.pop := by
  have hn:=h.numEntries
  have ht:=h.tos
  have hlt:=h.lt
  refine ⟨?_,?_,?_,fun j hj hd => ?_⟩
  · rw [pop_tos,pop_numEntries]
    exact decrTos_lt hlt
  · rw [pop_tos,pop_tos,decrTos,decrTos,ht,hn]
  · rw [pop_numEntries,pop_numEntries,hn]
  · rw [pop_numEntries] at hj hd
    rcases Nat.lt_or_ge (j+1) s.numEntries with hl | hl
    · rw [below_pop (by omega),below_pop (by omega)]
      exact h.below (j+1) hl (by omega)
    · obtain rfl : j=s.numEntries-1 := by omega
      rw [below_pop_last hlt,hn,below_pop_last (by omega)]
      exact h.below 0 (by omega) (by omega)

theorem Agree.restore (h : Agree d s s') (hi : i=s.incrTos.tos) : Agree (d-1) (s.restore i a) (s'.restore i a) := by
  have hn:=h.numEntries
  have ht:=h.tos
  have hlt:=h.lt
  have hilt : i<s.numEntries := hi ▸ incrTos_lt hlt
  have hi' : i=s'.incrTos.tos := by rw [hi,incrTos,incrTos,ht,hn]
  refine ⟨?_,?_,?_,fun j hj hd => ?_⟩
  · rw [restore_tos,restore_numEntries]
    exact hilt
  · rw [restore_tos,restore_tos]
  · rw [restore_numEntries,restore_numEntries,hn]
  · rw [restore_numEntries] at hj hd
    cases j with
    | zero => rw [below_restore_zero hilt,below_restore_zero (by omega)]
    | succ j =>
      rw [below_restore hlt hi hj,below_restore (by omega) hi' (by omega)]
      exact h.below j (by omega) (by omega)

theorem agree_pop_push (h : s.tos<s.numEntries) (a : PC) : Agree 1 (s.push a).pop s := by
  have htos : (s.push a).decrTos.tos=s.tos := by
    rw [decrTos,push_tos,push_numEntries]
    exact decrTos_incrTos
  refine ⟨?_,?_,?_,fun j hj hd => ?_⟩
  · rw [pop_tos,pop_numEntries,push_numEntries,htos]
    exact h
  · rw [pop_tos,htos]
  · rw [pop_numEntries,push_numEntries]
  · rw [pop_numEntries,push_numEntries] at hj hd
    rw [below,below,pop_tos,pop_numEntries,pop_addrStack,push_addrStack,push_numEntries,htos]
    refine update_of_ne ?_ _ _
    rw [incrTos]
    dsimp only
    rcases Nat.lt_or_ge s.tos j with hl | hl
    · rw [Nat.mod_eq_of_lt (by omega)]
      split <;> omega
    · rw [show s.tos+s.numEntries-j=s.tos-j+s.numEntries by omega,Nat.add_mod_right,Nat.mod_eq_of_lt (by omega)]
      split <;> omega

theorem agree_restore_pop (h : s.tos<s.numEntries) (d : ℤ) : Agree d (s.pop.restore s.topIdx s.top) s := by
  refine ⟨?_,?_,?_,fun j hj _ => ?_⟩
  · rw [restore_tos,restore_numEntries,pop_numEntries]
    exact h
  · rw [restore_tos,topIdx]
  · rw [restore_numEntries,pop_numEntries]
  · rw [below,below,restore_tos,restore_numEntries,pop_numEntries,restore_addrStack,pop_addrStack,topIdx,top,
      update_eq_self]

theorem Agree.restore_pop (h : Agree d s s') : Agree d (s.pop.restore s'.topIdx s'.top) s' := by
  have hn:=h.numEntries
  have ht:=h.tos
  have hlt:=h.lt
  have hidx : s'.topIdx=s.pop.incrTos.tos := by
    rw [topIdx,← ht,← incrTos_decrTos hlt,incrTos,incrTos,pop_tos,pop_numEntries]
    rfl
  have hpop : s.pop.tos<s.pop.numEntries := by
    rw [pop_tos,pop_numEntries]
    exact decrTos_lt hlt
  refine ⟨?_,?_,?_,fun j hj hd => ?_⟩
  · rw [restore_tos,restore_numEntries,hidx]
    exact incrTos_lt hpop
  · rw [restore_tos,topIdx]
  · rw [restore_numEntries,pop_numEntries,hn]
  · cases j with
    | zero =>
      rw [below_restore_zero (hidx ▸ incrTos_lt hpop),below_zero (by omega)]
    | succ j =>
      rw [restore_numEntries] at hj hd
      rw [pop_numEntries] at hd
      rw [below_restore hpop hidx hj,below_pop (by rw [pop_numEntries] at hj; omega)]
      exact h.below (j+1) (by rw [pop_numEntries] at hj; omega) hd

end ReturnAddrStack

end AquaGem5.Branch
