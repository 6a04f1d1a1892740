import AquaGem5.Lib.Ticks
import Mathlib.Order.Bounds.Basic
import Mathlib.Algebra.Order.Ring.Nat

/-!
# Clocked objects (sim/clocked_object.hh)

Ticks and cycles are 64-bit numbers.
-/

namespace AquaGem5.Sim
open Ticks Nat

structure Clocked where
  tick : ℕ
  cycle : ℕ

namespace Clocked

variable (p curTick : ℕ)

def divCeil (a b : ℕ) : ℕ := (a+b-1)%2^64/b

def update (s : Clocked) : Clocked :=
  if curTick ≤ s.tick then s
  else
    let s : Clocked := ⟨(s.tick+p)%2^64,(s.cycle+1)%2^64⟩
    if curTick ≤ s.tick then s
    else
      let elapsedCycles := divCeil (tickSub curTick s.tick) p
      ⟨(s.tick+elapsedCycles*p)%2^64,(s.cycle+elapsedCycles)%2^64⟩

def resetClock : Clocked := ⟨divCeil curTick p*p%2^64,divCeil curTick p⟩

def clockEdge (cycles : ℕ) (s : Clocked) : ℕ × Clocked :=
  let s := s.update p curTick
  ((s.tick+p*cycles)%2^64,s)

def nextCycle (s : Clocked) : ℕ × Clocked := s.clockEdge p curTick 1

def curCycle (s : Clocked) : ℕ × Clocked :=
  let s := s.update p curTick
  (s.cycle,s)

/-- A call to the clock, with what it returns. -/
inductive Query where
  | clockEdge (cycles : ℕ)
  | nextCycle
  | curCycle

def answer (s : Clocked) : Query → ℕ × Clocked
  | .clockEdge cycles => s.clockEdge p curTick cycles
  | .nextCycle => s.nextCycle p curTick
  | .curCycle => s.curCycle p curTick

inductive Run (p : ℕ) : ℕ → Clocked → Prop
  | init : Run p 0 ⟨0,0⟩
  | wait (curTick t : ℕ) (s : Clocked) : Run p curTick s → curTick≤t → Run p t s
  | query (curTick : ℕ) (s : Clocked) (q : Query) : Run p curTick s → Run p curTick (s.answer p curTick q).2
  | resetClock (curTick : ℕ) (s : Clocked) : Run p curTick s → Run p curTick (resetClock p curTick)

variable {p curTick} {s s' : Clocked} {k : ℕ}

/-- The cycle whose edge is the first one that is not before `t`. -/
def edgeCycle (p t : ℕ) : ℕ := (t+p-1)/p

theorem le_edge (hp : 0<p) (t : ℕ) : t≤edgeCycle p t*p := by
  have hlt:=lt_div_mul_add (a := t+p-1) hp
  rw [edgeCycle]
  omega

theorem edge_lt (hp : 0<p) (t : ℕ) : edgeCycle p t*p<t+p := by
  have hle:=div_mul_le_self (t+p-1) p
  rw [edgeCycle]
  omega

theorem edgeCycle_le (h : curTick≤k*p) (hp : 0<p) : edgeCycle p curTick≤k := by
  refine le_of_lt_succ ((div_lt_iff_lt_mul hp).mpr ?_)
  rw [Nat.succ_mul]
  omega

theorem edgeCycle_eq (hp : 0<p) (hle : curTick≤k*p) (hlt : k*p<curTick+p) : k=edgeCycle p curTick := by
  refine le_antisymm (le_of_lt_succ ?_) (edgeCycle_le hle hp)
  refine Nat.lt_of_mul_lt_mul_right (a := p) ?_
  have hedge:=le_edge hp curTick
  rw [Nat.succ_mul]
  omega

theorem edgeCycle_mono (hp : 0<p) {t : ℕ} (h : curTick≤t) : edgeCycle p curTick≤edgeCycle p t :=
  edgeCycle_le (h.trans (le_edge hp t)) hp

structure Aligned (p curTick : ℕ) (s : Clocked) : Prop where
  tick : s.tick=s.cycle*p
  early : s.tick<curTick+p

theorem aligned_edge (hp : 0<p) (curTick : ℕ) : Aligned p curTick ⟨edgeCycle p curTick*p,edgeCycle p curTick⟩ :=
  ⟨rfl,edge_lt hp curTick⟩

theorem update_edge (hp : 0<p) (hs : Aligned p curTick s) (hedge : edgeCycle p curTick*p<2^64) :
    s.update p curTick=⟨edgeCycle p curTick*p,edgeCycle p curTick⟩ := by
  obtain ⟨tick,cycle⟩:=s
  obtain ⟨htick,hearly⟩:=hs
  dsimp only at htick hearly
  have hcycle : edgeCycle p curTick<2^64 := (Nat.le_mul_of_pos_right _ hp).trans_lt hedge
  rw [update,htick]
  dsimp only
  split
  next hle => rw [← edgeCycle_eq hp hle (htick ▸ hearly)]
  next hlate =>
    have hlt : cycle+1≤edgeCycle p curTick := by
      by_contra hno
      have hmul:=mul_le_mul_right p (le_of_lt_succ (not_le.mp hno))
      have hcover:=le_edge hp curTick
      omega
    have hnext : cycle*p+p≤edgeCycle p curTick*p := by
      have hmul:=mul_le_mul_right p hlt
      rwa [Nat.succ_mul] at hmul
    rw [Nat.mod_eq_of_lt (hnext.trans_lt hedge),Nat.mod_eq_of_lt (hlt.trans_lt hcycle)]
    split
    next hle =>
      have hsucc : cycle+1=edgeCycle p curTick := by
        refine edgeCycle_eq hp ?_ ?_
        · rwa [Nat.succ_mul]
        · rw [Nat.succ_mul]
          omega
      rw [← hsucc,Nat.succ_mul]
    next hlate' =>
      have helapsed : divCeil (tickSub curTick (cycle*p+p)) p=edgeCycle p curTick-(cycle+1) := by
        have hsum : curTick-(cycle*p+p)+p-1=curTick+p-1-p*(cycle+1) := by
          rw [mul_comm p,Nat.succ_mul]
          omega
        have hsmall : curTick+p-1-p*(cycle+1)<2^64 := by
          rw [mul_comm p,Nat.succ_mul]
          have hcover:=le_edge hp curTick
          omega
        rw [divCeil,tickSub_of_le (by omega),hsum,Nat.mod_eq_of_lt hsmall,sub_mul_div,edgeCycle]
      have htotal : cycle*p+p+(edgeCycle p curTick-(cycle+1))*p=edgeCycle p curTick*p := by
        rw [← Nat.succ_mul,← Nat.add_mul,Nat.succ_eq_add_one,Nat.add_sub_cancel' hlt]
      rw [helapsed,htotal,Nat.add_sub_cancel' hlt,Nat.mod_eq_of_lt hedge,Nat.mod_eq_of_lt hcycle]

theorem resetClock_aligned (hp : 0<p) (hedge : edgeCycle p curTick*p<2^64) :
    Aligned p curTick (resetClock p curTick) := by
  have hcover:=le_edge hp curTick
  rw [resetClock,divCeil]
  by_cases hsmall : curTick+p-1<2^64
  · rw [Nat.mod_eq_of_lt hsmall]
    change Aligned p curTick ⟨edgeCycle p curTick*p%2^64,edgeCycle p curTick⟩
    rw [Nat.mod_eq_of_lt hedge]
    exact aligned_edge hp curTick
  · have hzero : (curTick+p-1)%2^64/p=0 := by
      refine div_eq_of_lt ?_
      by_cases hwide : curTick+p-1<2*2^64
      · rw [mod_eq_sub_mod (not_lt.mp hsmall),Nat.mod_eq_of_lt (by omega)]
        omega
      · exact (mod_lt _ (by decide)).trans (by omega)
    rw [hzero,Nat.zero_mul,zero_mod]
    exact ⟨(Nat.zero_mul p).symm,Nat.add_pos_right _ hp⟩

theorem answer_state (s : Clocked) (q : Query) : (s.answer p curTick q).2=s.update p curTick := by
  cases q <;> rfl

theorem run_aligned (hp : 0<p) (h : Run p curTick s) (hedge : edgeCycle p curTick*p<2^64) : Aligned p curTick s := by
  induction h with
  | init => exact ⟨(Nat.zero_mul p).symm,Nat.add_pos_right _ hp⟩
  | wait curTick t s _ hle ih =>
    obtain ⟨htick,hearly⟩:=ih ((mul_le_mul_right p (edgeCycle_mono hp hle)).trans_lt hedge)
    exact ⟨htick,by omega⟩
  | query curTick s q _ ih =>
    rw [answer_state,update_edge hp (ih hedge) hedge]
    exact aligned_edge hp curTick
  | resetClock curTick s _ _ => exact resetClock_aligned hp hedge

/-- As long as the next edge is a tick, the answers are those of that edge, whatever calls came before. -/
theorem lazy_clock (hp : 0<p) (h : Run p curTick s) (hedge : edgeCycle p curTick*p<2^64) :
    s.tick=s.cycle*p ∧ IsLeast {k | curTick≤k*p} (s.curCycle p curTick).1 ∧
      (∀ cycles,(s.clockEdge p curTick cycles).1=((s.curCycle p curTick).1+cycles)*p%2^64) ∧
      (s.nextCycle p curTick).1=((s.curCycle p curTick).1+1)*p%2^64 ∧
      ∀ s',Run p curTick s' → ∀ q,(s'.answer p curTick q).1=(s.answer p curTick q).1 := by
  have hs:=run_aligned hp h hedge
  have hupdate:=update_edge hp hs hedge
  have hcycle : (s.curCycle p curTick).1=edgeCycle p curTick := by rw [curCycle,hupdate]
  have hclock : ∀ cycles,(s.clockEdge p curTick cycles).1=((s.curCycle p curTick).1+cycles)*p%2^64 := fun cycles => by
    rw [hcycle,clockEdge,hupdate,Nat.add_mul,Nat.mul_comm p cycles]
  refine ⟨hs.tick,?_,hclock,hclock 1,fun s' hs' q => ?_⟩
  · rw [hcycle]
    exact ⟨le_edge hp curTick,fun k hk => edgeCycle_le hk hp⟩
  · have hupdate':=update_edge hp (run_aligned hp hs' hedge) hedge
    cases q <;> simp only [answer,nextCycle,clockEdge,curCycle,hupdate,hupdate']

theorem lazy_clock_1000 : (Clocked.clockEdge 1000 2500 2 ⟨0,0⟩).1=5000 := by
  have hrun : Run 1000 2500 ⟨0,0⟩ := .wait 0 2500 _ .init (Nat.zero_le _)
  exact (lazy_clock (by decide) hrun (by decide)).2.2.1 2

/-- The edge after 2^63 + 1 is at 2^64, which is tick 0. -/
theorem not_lazy_clock : ∃ s,Run (2^63) (2^63+1) s ∧ s.tick≠s.cycle*2^63 ∧
    (s.clockEdge (2^63) (2^63+1) 0).1≠(edgeCycle (2^63) (2^63+1)+0)*2^63 :=
  ⟨_,.query _ _ .curCycle (.wait 0 _ _ .init (Nat.zero_le _)),by decide,by decide⟩

end Clocked

end AquaGem5.Sim
