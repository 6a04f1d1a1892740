import AquaGem5.Base.CircularIter
import Mathlib.Algebra.Order.Ring.Int
import Mathlib.Data.Nat.Prime.Basic

/-! # Distances of iterators of a circular queue -/

namespace AquaGem5.Base
open Nat

section Words

theorem i32_eq {x : ℤ} (hlow : -2^31≤x) (hhigh : x<2^31) : i32 x=x := by
  rw [i32,Int.bmod_def]
  split <;> omega

theorem i32_large {x : ℤ} (hlow : 2^31≤x) (hhigh : x<2^32) : i32 x=x-2^32 := by
  rw [i32,Int.bmod_def]
  split <;> omega

theorem i32_add_mul (x y : ℤ) : i32 (x+2^32*y)=i32 x := by
  rw [i32,i32,Int.bmod_def,Int.bmod_def]
  simp only [cast_pow,cast_ofNat]
  rw [Int.add_mul_emod_self_left]

theorem i32_lt (x : ℤ) : i32 x<2^31 := by
  rw [i32,Int.bmod_def]
  split <;> omega

end Words

namespace CircularQueue

variable {α : Type} {q : CircularQueue α} {it : Iter} {t : ℕ}

structure Agrees (q : CircularQueue α) (it : Iter) (t : ℕ) : Prop where
  back : q.minus (q.add it t) t=it
  distance : q.diff (q.add it t) it=t
  steps : q.add it t=q.steps t it
  stepsBack : q.stepsBack t (q.add it t) = .ok (q.minus (q.add it t) t)
  less : it.lt (q.add it t)=decide (q.diff it (q.add it t)<0)
  greater : (q.add it t).lt it=decide (q.diff (q.add it t) it<0)

/-- The index and the distance are `int32_t` values, and a way that wraps around has a capacity that is a power of two
and a round that does not overflow. -/
structure Fine (q : CircularQueue α) (it : Iter) (t : ℕ) : Prop where
  slot : it.idx<q.capacity
  idx : it.idx<2^31
  distance : t<2^31
  wrap : it.idx+t<q.capacity ∨ (q.capacity.isPowerOfTwo ∧ it.round≠2^32-1)

variable {size : ℕ} {a b : ℕ}

theorem sub_of_le (h : b≤a) (hlt : a-b<size) (hword : a-b<2^31) : sub a b size=(a-b : ℕ) := by
  rw [sub]
  split
  · rw [Nat.mod_eq_of_lt hlt]
    exact i32_eq (by omega) (by omega)
  · obtain rfl : a=b := by omega
    rw [Nat.sub_self,Nat.zero_mod]
    rfl

theorem sub_of_ge (h : a≤b) (hword : (b-a)%size≤2^31) : sub a b size = -((b-a)%size : ℕ) := by
  rw [sub,if_neg (by omega)]
  exact i32_eq (by omega) (by omega)

theorem moduloSub_of_le (h : b≤a) (hlt : a-b<size) (hword : a-b<2^31) : moduloSub a b size=a-b := by
  rw [moduloSub,sub_of_le h hlt hword,if_pos (Int.natCast_nonneg _)]
  exact Int.toNat_natCast _

theorem moduloSub_large (hlt : a-b<size) (hsize : size<2^32) (hword : 2^31≤a-b) : moduloSub a b size≠a-b := by
  rw [moduloSub,sub,if_pos (show b<a by omega),Nat.mod_eq_of_lt hlt,i32_large (by omega) (by omega)]
  split <;> omega

theorem moduloSub_wrap {a b size : ℕ} (hle : a≤b) (hlt : b-a ≤ size) (hword : size≤2^31) :
    moduloSub a b size=(size-(b-a))%size := by
  have hmod : (b-a)%size≤2^31 := (mod_le _ _).trans (hlt.trans hword)
  rw [moduloSub,sub_of_ge hle hmod]
  rcases lt_or_ge (b-a) size with hin | hfull
  · rw [Nat.mod_eq_of_lt hin]
    rcases Nat.eq_zero_or_pos (b-a) with hzero | hpos
    · rw [hzero,Nat.sub_zero,Nat.mod_self]
      rfl
    · rw [Nat.mod_eq_of_lt (show size-(b-a)<size by omega)]
      split <;> omega
  · have heq : b-a=size := by omega
    rw [heq,Nat.mod_self,Nat.sub_self,Nat.zero_mod]
    rfl

variable {h k i : ℕ}

theorem add_line (hlt : it.idx+t<q.capacity) (hword : q.capacity<2^32) (hround : it.round<2^32) :
    q.add it t=⟨it.idx+t,it.round⟩ := by
  have h64 : (((t : ℤ)+it.idx)%2^64).toNat=it.idx+t := by omega
  have h32 : ((t : ℤ)%2^32).toNat=t := by omega
  rw [add,h64,h32,moduloAdd,u32,u32,Nat.mod_eq_of_lt (show it.idx+t<2^32 by omega),Nat.mod_eq_of_lt hlt,
    div_eq_of_lt hlt,add_zero,Nat.mod_eq_of_lt hround]

theorem add_wrap (hidx : it.idx<q.capacity) (ht : t≤q.capacity) (hwrap : q.capacity ≤ it.idx+t)
    (hword : it.idx+t<2^32) : q.add it t=⟨it.idx+t-q.capacity,u32 (it.round+1)⟩ := by
  have h64 : (((t : ℤ)+it.idx)%2^64).toNat=it.idx+t := by omega
  have h32 : ((t : ℤ)%2^32).toNat=t := by omega
  rcases turn hidx ht with ⟨h1,-,-⟩ | ⟨-,h2,h3⟩
  · omega
  · rw [add,h64,h32,moduloAdd,u32,Nat.mod_eq_of_lt hword,h2,h3]

theorem minus_nat (ht : t<2^32) :
    q.minus it t=⟨moduloSub it.idx t q.capacity,u32 (it.round+((-(t : ℤ)+it.idx)%2^64).toNat/q.capacity)⟩ := by
  have h32 : ((t : ℤ)%2^32).toNat=t := by omega
  rw [minus,if_pos (Int.natCast_nonneg t),h32]

section Line

variable (hlt : it.idx+t<q.capacity) (hword : q.capacity<2^32) (hround : it.round<2^32)
include hlt hword hround

theorem back_line (hidx : it.idx<2^31) : q.minus (q.add it t) t=it := by
  have hzero : (-(t : ℤ)+((it.idx+t : ℕ) : ℤ))%2^64=it.idx := by omega
  have hsub : moduloSub (it.idx+t) t q.capacity=it.idx := by
    rw [moduloSub_of_le (Nat.le_add_left _ _) (by omega) (by omega),Nat.add_sub_cancel]
  rw [add_line hlt hword hround,minus_nat (by omega),hsub,hzero,Int.toNat_natCast,div_eq_of_lt (by omega),
    add_zero,u32,Nat.mod_eq_of_lt hround]

theorem distance_line (ht : t<2^31) : q.diff (q.add it t) it=t := by
  rw [add_line hlt hword hround,diff,if_pos rfl,sub_of_le (le_add_right _ _) (by omega) (by omega)]
  omega

theorem less_line (ht : t<2^31) : it.lt (q.add it t)=decide (q.diff it (q.add it t)<0) := by
  have hmod : (it.idx+t-it.idx)%q.capacity=t := by
    rw [Nat.add_sub_cancel_left,Nat.mod_eq_of_lt (by omega)]
  rw [add_line hlt hword hround,diff,if_pos rfl,sub_of_ge (le_add_right _ _) (by rw [hmod]; omega),hmod,Iter.lt]
  dsimp only
  rw [decide_eq_false (lt_irrefl _),decide_eq_true rfl,Bool.false_or,Bool.true_and,decide_eq_decide]
  omega

theorem greater_line (ht : t<2^31) : (q.add it t).lt it=decide (q.diff (q.add it t) it<0) := by
  rw [distance_line hlt hword hround ht,add_line hlt hword hround,Iter.lt]
  dsimp only
  rw [decide_eq_false (lt_irrefl _),decide_eq_true rfl,Bool.false_or,Bool.true_and,decide_eq_decide]
  omega

end Line

theorem turn_back {cap d r : ℕ} (hcap : cap.isPowerOfTwo) (hword : cap<2^32) (hd : 0<d) (hdc : d≤cap)
    (hr : r<2^32) : u32 (u32 (r+1)+(2^64-d)/cap)=r := by
  obtain ⟨m,rfl⟩:=hcap
  have hm:=(Nat.pow_lt_pow_iff_right Nat.one_lt_two).mp hword
  have hunit : 2^(64-m)*2^m=2^64 := by rw [← Nat.pow_add,Nat.sub_add_cancel (by omega)]
  have hwords : 2^(64-m)=2^32*2^(32-m) := by
    rw [← Nat.pow_add]
    congr 1
    omega
  have hpos:=Nat.two_pow_pos (32-m)
  have hdiv : (2^64-d)/2^m=2^(64-m)-1 := by
    refine Nat.div_eq_of_lt_le ?_ ?_
    · rw [Nat.sub_mul,hunit,Nat.one_mul]
      omega
    · rw [Nat.sub_add_cancel (Nat.two_pow_pos _),hunit]
      omega
  rw [hdiv,hwords]
  simp only [u32]
  omega

theorem pow_of_turn_back {cap d r : ℕ} (hpos : 0<cap) (hword : cap<2^32) (hd : 0<d) (hdc : d≤cap)
    (h : u32 (u32 (r+1)+(2^64-d)/cap)=r) : cap.isPowerOfTwo := by
  have hturn : ((2^64-d)/cap+1)%2^32=0 := by
    simp only [u32] at h
    omega
  obtain ⟨m,hm⟩:=dvd_of_mod_eq_zero hturn
  have hlow:=div_mul_le_self (2^64-d) cap
  have hhigh : 2^64-d<(2^64-d)/cap*cap+cap := lt_div_mul_add hpos
  have hnext : (2^64-d)/cap*cap+cap=2^32*(m*cap) := by rw [← succ_mul,succ_eq_add_one,hm,mul_assoc]
  have hword' : m*cap=2^32 := by omega
  obtain ⟨k,-,hk⟩:=(dvd_prime_pow prime_two).mp (Dvd.intro_left m hword')
  exact ⟨k,hk⟩

section Wrap

variable (hidx : it.idx<q.capacity) (ht : t≤q.capacity) (hwrap : q.capacity ≤ it.idx+t)
include hidx ht hwrap

theorem back_round_wrap (hword : it.idx+t<2^32) : (q.minus (q.add it t) t).round =
    u32 (u32 (it.round+1)+(2^64-(q.capacity-it.idx))/q.capacity) := by
  have hneg : ((-(t : ℤ)+((it.idx+t-q.capacity : ℕ) : ℤ))%2^64).toNat=2^64-(q.capacity-it.idx) := by omega
  rw [add_wrap hidx ht hwrap hword,minus_nat (by omega),hneg]

variable (hround : it.round<2^32) (hcap : q.capacity≤2^31)
include hround hcap

theorem back_wrap (hpow : q.capacity.isPowerOfTwo) : q.minus (q.add it t) t=it := by
  have hword : it.idx+t<2^32 := by omega
  have hback:=back_round_wrap hidx ht hwrap hword
  rw [turn_back hpow (by omega) (by omega) (by omega) hround] at hback
  have hsub : moduloSub (it.idx+t-q.capacity) t q.capacity=it.idx := by
    rw [moduloSub_wrap (by omega) (by omega) hcap,show q.capacity-(t-(it.idx+t-q.capacity))=it.idx by omega,
      Nat.mod_eq_of_lt hidx]
  have hslot : (q.minus (q.add it t) t).idx=it.idx := by rw [add_wrap hidx ht hwrap hword,minus_nat (by omega),hsub]
  exact Iter.eq_mk hslot hback

theorem distance_wrap (htd : t<2^31) : q.diff (q.add it t) it=t := by
  have hword : it.idx+t<2^32 := by omega
  have hne : ¬u32 (it.round+1)=it.round := by
    rw [u32]
    omega
  have hturns : u32 (u32 (it.round+1)+(2^32-it.round))=1 := by
    simp only [u32]
    omega
  have hmod : (it.idx-(it.idx+t-q.capacity))%q.capacity=q.capacity-t := by
    rw [show it.idx-(it.idx+t-q.capacity)=q.capacity-t by omega,Nat.mod_eq_of_lt (by omega)]
  have hsub : sub (it.idx+t-q.capacity) it.idx q.capacity = -(q.capacity-t : ℕ) := by
    rw [sub_of_ge (by omega) (by rw [hmod]; omega),hmod]
  rw [add_wrap hidx ht hwrap hword,diff,if_neg hne,hturns,hsub]
  refine (congrArg i32 ?_).trans (i32_eq (by omega) (by omega))
  omega

theorem less_wrap (hlast : it.round≠2^32-1) : it.lt (q.add it t)=decide (q.diff it (q.add it t)<0) := by
  have hword : it.idx+t<2^32 := by omega
  have hnext : u32 (it.round+1)=it.round+1 := Nat.mod_eq_of_lt (by omega)
  have hturns : u32 (it.round+(2^32-(it.round+1)))=2^32-1 := by
    simp only [u32]
    omega
  have hsub : sub it.idx (it.idx+t-q.capacity) q.capacity=(q.capacity-t : ℕ) := by
    rw [sub_of_le (by omega) (by omega) (by omega)]
    congr 1
    omega
  have hdiff : q.diff it (q.add it t) = -t := by
    rw [add_wrap hidx ht hwrap hword,diff,hnext,if_neg (Nat.ne_of_lt (Nat.lt_succ_self _)),hturns,hsub]
    have hwords : ((q.capacity-t : ℕ) : ℤ)+((2^32-1 : ℕ) : ℤ)*q.capacity = -t+2^32*q.capacity := by omega
    rw [hwords,i32_add_mul]
    exact i32_eq (by omega) (by omega)
  rw [hdiff,add_wrap hidx ht hwrap hword,hnext,Iter.lt,decide_eq_true (Nat.lt_succ_self _),Bool.true_or,eq_comm,
    decide_eq_true_eq]
  omega

theorem greater_wrap (htd : t<2^31) (hlast : it.round≠2^32-1) :
    (q.add it t).lt it=decide (q.diff (q.add it t) it<0) := by
  have hnext : u32 (it.round+1)=it.round+1 := Nat.mod_eq_of_lt (by omega)
  rw [distance_wrap hidx ht hwrap hround hcap htd,add_wrap hidx ht hwrap (by omega),hnext,Iter.lt]
  dsimp only
  rw [decide_eq_false (by omega),decide_eq_false (by omega),Bool.false_and,Bool.or_self,eq_comm,decide_eq_false_iff_not]
  omega

end Wrap

theorem add_steps (hword : q.capacity<2^32) (hidx : it.idx<q.capacity) (hround : it.round<2^32)
    (hfit : it.idx+t<2^32) : q.add it t=q.steps t it := by
  have hpos : 0<q.capacity := by omega
  have hat : q.At it (it.idx+q.capacity*it.round) := by
    refine ⟨?_,?_⟩
    · rw [add_mul_mod_self_left,Nat.mod_eq_of_lt hidx]
    · rw [add_mul_div_left _ _ hpos,div_eq_of_lt hidx,zero_add,u32,Nat.mod_eq_of_lt hround]
  exact (add_at hpos (.inl hat) hfit).eq (hat.steps hpos hword t)

theorem Holds.stepsBack {p : ℕ} {far : Iter} (hq : q.Holds h k) (hhead : q.head=(h+1)%q.capacity)
    (hi : q.At it p) (hfar : q.At far (p+t)) (hlow : h+1≤p) (hhigh : p+t≤h+1+k) : q.stepsBack t far = .ok it := by
  induction t generalizing far with
  | zero => exact congrArg Except.ok (hfar.eq hi)
  | succ t ih =>
    obtain ⟨prev,hdecr,hprev⟩:=hq.decr_of_head hhead (show q.At far (p+t+1) from hfar) (by omega) (by omega)
    rw [CircularQueue.stepsBack,hdecr]
    exact ih hprev (by omega)

theorem Holds.beginIt_idx (hq : q.Holds h k) (hk : 0<k) : q.beginIt.idx=q.head := by
  rw [CircularQueue.beginIt,hq.empty,decide_eq_false (by omega),if_neg Bool.false_ne_true]
  split <;> rfl

theorem Holds.inside (hq : q.Holds h k) (hi : i≤k) (hslot : (q.steps i q.beginIt).idx<q.capacity) :
    (q.head=(h+1)%q.capacity ∧ q.At (q.steps i q.beginIt) (h+1+i)) ∨ i=k := by
  have hfits:=hq.fits
  rcases hq.head with hh | ⟨hc,hh⟩
  · have hbegin : q.At q.beginIt (h+1) := hq.beginIt.resolve_right fun hone => by
      obtain ⟨hc,hidx,-⟩:=hone
      rw [hc,mod_one] at hh
      rcases Nat.eq_zero_or_pos k with rfl | hk
      · have hend:=hq.endIt.idx
        rw [hc,mod_one] at hend
        rw [CircularQueue.beginIt,hq.empty,decide_eq_true rfl,if_pos rfl,hend] at hidx
        exact zero_ne_one hidx
      · rw [hq.beginIt_idx hk,hh] at hidx
        exact zero_ne_one hidx
    exact .inl ⟨hh,hbegin.steps hq.pos hq.word i⟩
  · right
    by_contra hne
    obtain rfl : i=0 := by omega
    rw [CircularQueue.steps,hq.beginIt_idx (by omega),hh,hc] at hslot
    exact lt_irrefl 1 hslot

theorem Holds.round_lt (hq : q.Holds h k) : q.round<2^32 := by
  rw [hq.round]
  exact u32_lt _

structure Bounded (q : CircularQueue α) (it : Iter) : Prop where
  round : it.round<2^32
  slot : it.idx<q.capacity ∨ q.capacity=1

theorem Holds.endIt_bounded (hq : q.Holds h k) : q.Bounded q.endIt := by
  refine ⟨?_,.inl ?_⟩
  · rw [hq.endIt.round]
    exact u32_lt _
  · rw [hq.endIt.idx]
    exact mod_lt _ hq.pos

theorem Holds.beginIt_bounded (hq : q.Holds h k) : q.Bounded q.beginIt := by
  have hslot : q.head<q.capacity ∨ q.capacity=1 := by
    refine hq.head.imp (fun hh => ?_) And.left
    rw [hh]
    exact mod_lt _ hq.pos
  rw [CircularQueue.beginIt]
  split
  · exact hq.endIt_bounded
  · split
    · exact ⟨u32_lt _,hslot⟩
    · exact ⟨hq.round_lt,hslot⟩

theorem Bounded.steps (hpos : 0<q.capacity) (hb : q.Bounded it) (n : ℕ) : q.Bounded (q.steps n it) := by
  induction n generalizing it with
  | zero => exact hb
  | succ n ih =>
    refine ih ⟨?_,.inl (mod_lt _ hpos)⟩
    rw [CircularQueue.incr]
    dsimp only
    split
    · exact u32_lt _
    · exact hb.round

theorem moduloSub_one (a b : ℕ) : moduloSub a b 1=0 := by
  rw [moduloSub,sub,mod_one,mod_one]
  split <;> rfl

theorem diff_lt (q : CircularQueue α) (this that : Iter) : q.diff this that<2^31 := by
  rw [diff,sub]
  split
  · split
    · exact i32_lt _
    · exact i32_lt _
  · exact i32_lt _

theorem isPowerOfTwo_le {cap : ℕ} (hpow : cap.isPowerOfTwo) (hword : cap<2^32) : cap≤2^31 := by
  obtain ⟨m,rfl⟩:=hpow
  have hm:=(Nat.pow_lt_pow_iff_right Nat.one_lt_two).mp hword
  exact Nat.pow_le_pow_right Nat.two_pos (by omega)

theorem exists_back_round (hidx : it.idx<q.capacity) (ht : t≤q.capacity) (hwrap : q.capacity ≤ it.idx+t)
    (hword : q.capacity<2^32) (htd : t<2^31) : ∃ d,0<d ∧ d≤q.capacity ∧
      (q.minus (q.add it t) t).round=u32 (u32 (it.round+1)+(2^64-d)/q.capacity) := by
  rcases lt_or_ge (it.idx+t) (2^32) with hin | hover
  · exact ⟨q.capacity-it.idx,by omega,by omega,back_round_wrap hidx ht hwrap hin⟩
  · refine ⟨2^32-it.idx,by omega,by omega,?_⟩
    have h64 : (((t : ℤ)+it.idx)%2^64).toNat=it.idx+t := by omega
    have h32 : ((t : ℤ)%2^32).toNat=t := by omega
    have hslot : u32 (it.idx+t)%q.capacity=it.idx+t-2^32 := by
      rw [u32,show (it.idx+t)%2^32=it.idx+t-2^32 by omega,Nat.mod_eq_of_lt (by omega)]
    have hneg : ((-(t : ℤ)+((it.idx+t-2^32 : ℕ) : ℤ))%2^64).toNat=2^64-(2^32-it.idx) := by omega
    rcases turn hidx ht with ⟨h1,-,-⟩ | ⟨-,-,h3⟩
    · omega
    · rw [add,h64,h32,moduloAdd,hslot,h3,minus_nat (by omega),hneg]

namespace Agrees

variable (ha : q.Agrees it t)
include ha

theorem distance_lt : t<2^31 := by
  have hlt:=diff_lt q (q.add it t) it
  rw [ha.distance] at hlt
  omega

theorem slot (hb : q.Bounded it) : it.idx<q.capacity := by
  have ht:=ha.distance_lt
  rcases hb.slot with hslot | hone
  · exact hslot
  · have hidx:=congrArg Iter.idx ha.back
    rw [minus_nat (by omega),hone,moduloSub_one] at hidx
    have hzero : 0=it.idx := hidx
    omega

theorem idx_of_line (hlt : it.idx+t<q.capacity) (hword : q.capacity<2^32) (hround : it.round<2^32) : it.idx<2^31 := by
  by_contra hlarge
  have hidx:=congrArg Iter.idx ha.back
  rw [add_line hlt hword hround,minus_nat (by omega)] at hidx
  have hne:=moduloSub_large (show it.idx+t-t<q.capacity by omega) hword (by omega)
  rw [Nat.add_sub_cancel] at hne
  exact hne hidx

theorem fine (hb : q.Bounded it) (hword : q.capacity<2^32) (ht : t≤q.capacity) : q.Fine it t := by
  have htd:=ha.distance_lt
  have hslot:=ha.slot hb
  have hround:=hb.round
  rcases lt_or_ge (it.idx+t) q.capacity with hlt | hwrap
  · exact ⟨hslot,ha.idx_of_line hlt hword hround,htd,.inl hlt⟩
  · obtain ⟨d,hd,hdc,hback⟩:=exists_back_round hslot ht hwrap hword htd
    rw [ha.back] at hback
    have hpow:=pow_of_turn_back (by omega) hword hd hdc hback.symm
    have hcap:=isPowerOfTwo_le hpow hword
    refine ⟨hslot,by omega,htd,.inr ⟨hpow,fun hlast => ?_⟩⟩
    -- the last round is followed by the round 0
    have hgreater:=ha.greater
    rw [ha.distance,add_wrap hslot ht hwrap (by omega),Iter.lt,hlast] at hgreater
    have hneg : decide ((t : ℤ)<0)=false := decide_eq_false (by omega)
    rw [hneg] at hgreater
    exact absurd hgreater (by simp [u32])

end Agrees

theorem Fine.agrees (hf : q.Fine it t) (hb : q.Bounded it) (hword : q.capacity<2^32) (ht : t≤q.capacity)
    (hback : q.stepsBack t (q.add it t) = .ok it) : q.Agrees it t := by
  have hround:=hb.round
  have hidx:=hf.idx
  have htd:=hf.distance
  have hsteps:=add_steps hword hf.slot hround (show it.idx+t<2^32 by omega)
  rcases lt_or_ge (it.idx+t) q.capacity with hlt | hwrap
  · have hreturn:=back_line hlt hword hround hidx
    exact ⟨hreturn,distance_line hlt hword hround htd,hsteps,by rw [hreturn,hback],less_line hlt hword hround htd,
      greater_line hlt hword hround htd⟩
  · obtain ⟨hpow,hlast⟩:=hf.wrap.resolve_left (not_lt.mpr hwrap)
    have hcap:=isPowerOfTwo_le hpow hword
    have hreturn:=back_wrap hf.slot ht hwrap hround hcap hpow
    exact ⟨hreturn,distance_wrap hf.slot ht hwrap hround hcap htd,hsteps,by rw [hreturn,hback],
      less_wrap hf.slot ht hwrap hround hcap hlast,greater_wrap hf.slot ht hwrap hround hcap htd hlast⟩

/-- The operators agree exactly when the index and the distance are `int32_t` values and the way does not wrap around,
or wraps around in a queue whose capacity is a power of two. -/
theorem agrees_iff {size : ℕ} {zero : α} (hpos : 0<size) (hword : size<2^32) (hr : Reached size zero q)
    (hi : i+t≤q.size) : q.Agrees (q.steps i q.beginIt) t ↔ q.Fine (q.steps i q.beginIt) t := by
  obtain ⟨hcap,h,k,hq⟩:=hr.holds hpos hword
  rw [← hcap] at hword
  rw [hq.size] at hi
  have hfits:=hq.fits
  have ht : t≤q.capacity := by omega
  have hb:=hq.beginIt_bounded.steps hq.pos i
  refine ⟨fun ha => ha.fine hb hword ht,fun hf => hf.agrees hb hword ht ?_⟩
  have hidx:=hf.idx
  have htd:=hf.distance
  rcases hq.inside (by omega) hf.slot with ⟨hhead,hat⟩ | hlast
  · exact hq.stepsBack hhead hat (add_at hq.pos (.inl hat) (by omega)) (by omega) (by omega)
  · obtain rfl : t=0 := by omega
    rw [add_steps hword hf.slot hb.round (by omega)]
    rfl

/-- The second element stands in front of the first. -/
theorem agrees_iff_wrapped : (onePushed.pushBack ()).tail<(onePushed.pushBack ()).head ∧
    (onePushed.pushBack ()).Agrees ((onePushed.pushBack ()).steps 0 (onePushed.pushBack ()).beginIt) 2 :=
  ⟨by decide,(agrees_iff (by decide) (by decide) (.step reached_onePushed (show onePushed.apply (.pushBack ()) = .ok _ from rfl)) (by decide)).mpr
    ⟨by decide,by decide,by decide,.inr ⟨by decide,by decide⟩⟩⟩

def threePushed : CircularQueue Unit := (((init 3 ()).pushBack ()).pushBack ()).pushBack ()

theorem reached_threePushed : Reached 3 () threePushed := by
  have ha : (init 3 ()).apply (.pushBack ()) = .ok ((init 3 ()).pushBack ()) := rfl
  have hb : ((init 3 ()).pushBack ()).apply (.pushBack ()) = .ok (((init 3 ()).pushBack ()).pushBack ()) := rfl
  have hc : (((init 3 ()).pushBack ()).pushBack ()).apply (.pushBack ()) = .ok threePushed := rfl
  exact .step (.step (.step .init ha) hb) hc

/-- The queue is reached; two elements on from the begin and two back again, the round is another one. -/
theorem not_agrees_three :
    Reached 3 () threePushed ∧ ¬threePushed.Agrees (threePushed.steps 0 threePushed.beginIt) 2 := by
  refine ⟨reached_threePushed,fun h => ?_⟩
  have hround:=congrArg Iter.round h.back
  revert hround
  decide

end CircularQueue

end AquaGem5.Base
