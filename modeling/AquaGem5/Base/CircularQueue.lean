import AquaGem5.Lib.Ring

/-!
# Circular queues (circular_queue.hh)

A `uint32_t` is a natural number below `2^32`, and the arithmetic on it is written with `u32`.
-/

namespace AquaGem5.Base
open RingWindow Nat

inductive Fault where
  | assertion
  | overflow
  | panic
  | fatal
  deriving DecidableEq

def u32 (x : ℕ) : ℕ := x%2^32

/-- The constructor's `resize` fills the vector with one value. -/
structure CircularQueue (α : Type) where
  capacity : ℕ
  head : ℕ
  tail : ℕ
  empty : Bool
  round : ℕ
  data : ℕ → α

structure Iter where
  idx : ℕ
  round : ℕ
  deriving DecidableEq

def Iter.lt (this that : Iter) : Bool :=
  decide (this.round<that.round) || (decide (this.round=that.round)&&decide (this.idx<that.idx))

def Iter.le (this that : Iter) : Bool := !that.lt this

def moduloAdd (op1 op2 size : ℕ) : ℕ := u32 (op1+op2)%size

def i32 (x : ℤ) : ℤ := x.bmod (2^32)

def sub (op1 op2 size : ℕ) : ℤ :=
  if op2<op1 then i32 ((op1-op2)%size : ℕ) else i32 (-((op2-op1)%size : ℕ))

namespace CircularQueue

variable {α : Type}

def init (size : ℕ) (zero : α) : CircularQueue α := ⟨size,1,0,true,0,fun _ => zero⟩

variable (q : CircularQueue α) (it : Iter)

def flush : CircularQueue α := {q with head := 1, round := 0, tail := 0, empty := true}

def increase (v : ℕ) : ℕ := moduloAdd v 1 q.capacity

def decrease (v : ℕ) : ℕ := (if v=0 then q.capacity else v)-1

def endIt : Iter :=
  let poi := moduloAdd q.tail 1 q.capacity
  ⟨poi,if poi=0 then u32 (q.round+1) else q.round⟩

def beginIt : Iter :=
  if q.empty then q.endIt
  else if q.tail<q.head then ⟨q.head,u32 (q.round+(2^32-1))⟩
  else ⟨q.head,q.round⟩

def incr : Iter := ⟨q.increase it.idx,if q.increase it.idx=0 then u32 (it.round+1) else it.round⟩

def decrementable : Bool :=
  !(decide (it.idx=q.head)&&(q.empty || (decide (it.idx=0)&&decide (it.round≠u32 (q.round+1))) ||
    (decide (it.idx≠0)&&decide (it.round≠q.round))))

def decr : Except Fault Iter :=
  if q.decrementable it then
    .ok ⟨q.decrease it.idx,if it.idx=0 then u32 (it.round+(2^32-1)) else it.round⟩
  else .error .assertion

/-- `operator+=`: the division is on the `size_t` of the sum. -/
def add (t : ℤ) : Iter :=
  ⟨moduloAdd it.idx (t%2^32).toNat q.capacity,u32 (it.round+((t+it.idx)%2^64).toNat/q.capacity)⟩

/-- The difference of two iterators is computed in an `int32_t`. -/
def diff (this that : Iter) : ℤ :=
  if this.round=that.round then sub this.idx that.idx q.capacity
  else i32 (sub this.idx that.idx q.capacity+u32 (this.round+(2^32-that.round))*q.capacity)

def front : α := q.data q.head

def back : α := q.data q.tail

def size : ℕ :=
  if q.empty then 0
  else if q.head≤q.tail then q.tail-q.head+1
  else q.capacity-q.head+q.tail+1

def full : Bool :=
  !q.empty&&(decide (u32 (q.tail+1)=q.head) || (decide (u32 (q.tail+1)=q.capacity)&&decide (q.head=0)))

def popFront (n : ℕ) : Except Fault (CircularQueue α) :=
  if n=0 then .ok q
  else
    let hIt := q.add q.beginIt n
    if hIt.le q.endIt then .ok {q with empty := decide (hIt=q.endIt), head := hIt.idx}
    else .error .assertion

def popBack : Except Fault (CircularQueue α) :=
  if q.empty then .error .assertion
  else .ok {q with
    empty := decide (q.head=q.tail)
    round := if q.tail=0 then u32 (q.round+(2^32-1)) else q.round
    tail := q.decrease q.tail}

def advanceTail : CircularQueue α :=
  let tail := q.increase q.tail
  {q with
    tail := tail
    round := if tail=0 then u32 (q.round+1) else q.round
    head := if tail=q.head ∧ q.empty=false then q.increase q.head else q.head
    empty := false}

def pushBack (val : α) : CircularQueue α :=
  let q := q.advanceTail
  {q with data := Function.update q.data q.tail val}

def visit : ℕ → Iter → Option (List α)
  | 0,it => if it=q.endIt then some [] else none
  | fuel+1,it => if it=q.endIt then some [] else (visit fuel (q.incr it)).map (q.data it.idx::·)

def visitBack : ℕ → Iter → Option (List α)
  | 0,it => if it=q.beginIt then some [] else none
  | fuel+1,it =>
    if it=q.beginIt then some []
    else match q.decr it with
      | .error _ => none
      | .ok prev => (visitBack fuel prev).map (q.data prev.idx::·)

end CircularQueue

section Positions

variable {c a b p : ℕ}

theorem turn (ha : a<c) (hb : b≤c) : (a+b<c ∧ (a+b)%c=a+b ∧ (a+b)/c=0) ∨ (c≤a+b ∧ (a+b)%c=a+b-c ∧ (a+b)/c=1) := by
  by_cases h : a+b<c
  · exact .inl ⟨h,mod_eq_of_lt h,div_eq_of_lt h⟩
  · refine .inr ⟨by omega,?_,?_⟩
    · rw [mod_eq_sub_mod (by omega),mod_eq_of_lt (by omega)]
    · exact Nat.div_eq_of_lt_le (by rw [Nat.one_mul]; omega) (by omega)

theorem position_add (hc : 0<c) (p t : ℕ) : (p+t)%c=(p%c+t)%c ∧ (p+t)/c=p/c+(p%c+t)/c := by
  refine ⟨(mod_add_mod p c t).symm,?_⟩
  conv_lhs => rw [← div_add_mod p c,add_assoc,mul_add_div hc]

theorem position_succ (hc : 0<c) (p : ℕ) : ((p+1)%c=0 ∧ p%c+1=c ∧ (p+1)/c=p/c+1) ∨
      ((p+1)%c=p%c+1 ∧ p%c+1<c ∧ (p+1)/c=p/c) := by
  obtain ⟨hm,hd⟩:=position_add hc p 1
  have hp:=mod_lt p hc
  rcases turn hp (show 1≤c by omega) with ⟨h1,h2,h3⟩ | ⟨h1,h2,h3⟩ <;> omega

end Positions

namespace CircularQueue

variable {α : Type} {q : CircularQueue α} {it : Iter} {h k p : ℕ}

structure Holds (q : CircularQueue α) (h k : ℕ) : Prop where
  pos : 0<q.capacity
  word : q.capacity<2^32
  fits : k≤q.capacity
  head : q.head=(h+1)%q.capacity ∨ (q.capacity=1 ∧ q.head=1)
  tail : q.tail=(h+k)%q.capacity
  empty : q.empty=decide (k=0)
  round : q.round=u32 ((h+k)/q.capacity)

structure At (q : CircularQueue α) (it : Iter) (p : ℕ) : Prop where
  idx : it.idx=p%q.capacity
  round : it.round=u32 (p/q.capacity)

theorem At.eq {it that : Iter} (hi : q.At it p) (ht : q.At that p) : it=that := by
  cases it
  cases that
  rw [Iter.mk.injEq]
  exact ⟨hi.idx.trans ht.idx.symm,hi.round.trans ht.round.symm⟩

theorem At.incr (hi : q.At it p) (hpos : 0<q.capacity) (hword : q.capacity<2^32) : q.At (q.incr it) (p+1) := by
  have hp:=mod_lt p hpos
  have hs : q.increase it.idx=(p+1)%q.capacity := by
    rw [increase,moduloAdd,hi.idx,u32,mod_eq_of_lt (show p%q.capacity+1<2^32 by omega),mod_add_mod]
  refine ⟨hs,?_⟩
  rw [CircularQueue.incr,hs,hi.round]
  rcases position_succ hpos p with ⟨h1,_,h2⟩ | ⟨h1,_,h2⟩
  · rw [if_pos h1,h2,u32,u32,u32,mod_add_mod]
  · rw [if_neg (by omega),h2]

theorem Holds.endIt (hq : q.Holds h k) : q.At q.endIt (h+k+1) := by
  have htail : q.At ⟨q.tail,q.round⟩ (h+k) := ⟨hq.tail,hq.round⟩
  exact htail.incr hq.pos hq.word

theorem u32_pred (r : ℕ) : u32 (u32 (r+1)+(2^32-1))=u32 r := by
  simp only [u32]
  omega

theorem Holds.ends (hq : q.Holds h k) (hk : 0<k) : (h+1)%q.capacity<q.capacity ∧
    (((h+1)%q.capacity+(k-1)<q.capacity ∧ q.tail=(h+1)%q.capacity+(k-1) ∧ (h+k)/q.capacity=(h+1)/q.capacity) ∨
      (q.capacity≤(h+1)%q.capacity+(k-1) ∧ q.tail+q.capacity=(h+1)%q.capacity+(k-1) ∧
        (h+k)/q.capacity=(h+1)/q.capacity+1)) := by
  have ha:=mod_lt (h+1) hq.pos
  have hf:=hq.fits
  obtain ⟨hm,hd⟩:=position_add hq.pos (h+1) (k-1)
  rw [show h+1+(k-1)=h+k by omega] at hm hd
  have ht:=hq.tail
  refine ⟨ha,?_⟩
  rcases turn ha (show k-1≤q.capacity by omega) with ⟨h1,h2,h3⟩ | ⟨h1,h2,h3⟩
  · exact .inl ⟨h1,by omega,by omega⟩
  · exact .inr ⟨h1,by omega,by omega⟩

theorem Holds.beginIt (hq : q.Holds h k) :
    q.At q.beginIt (h+1) ∨ (q.capacity=1 ∧ q.beginIt.idx=1 ∧ u32 (q.beginIt.round+1)=u32 (h+1)) := by
  rw [CircularQueue.beginIt,hq.empty]
  rcases Nat.eq_zero_or_pos k with rfl | hk
  · exact .inl hq.endIt
  · rw [decide_eq_false (by omega),if_neg Bool.false_ne_true]
    obtain ⟨ha,hends⟩:=hq.ends hk
    have hr:=hq.round
    rcases hq.head with hh | ⟨hc,hh⟩
    · left
      rcases hends with ⟨h1,h2,h3⟩ | ⟨h1,h2,h3⟩
      · rw [if_neg (by omega)]
        exact ⟨hh,by rw [hr,h3]⟩
      · have hf:=hq.fits
        rw [if_pos (by omega)]
        refine ⟨hh,?_⟩
        rw [hr,h3]
        exact u32_pred _
    · right
      have hf:=hq.fits
      have hmod : (h+k)%q.capacity=0 := by rw [hc]; exact mod_one _
      have ht:=hq.tail
      rw [if_pos (by omega)]
      refine ⟨hc,hh,?_⟩
      rw [hr,hc,Nat.div_one,show k=1 by omega]
      simp only [u32]
      omega

theorem Holds.beginIt_at (hq : q.Holds h k) (hc : 2≤q.capacity) : q.At q.beginIt (h+1) :=
  hq.beginIt.resolve_right fun hb => by omega

theorem add_at (hpos : 0<q.capacity) (hi : q.At it p ∨ (q.capacity=1 ∧ it.idx=1 ∧ u32 (it.round+1)=u32 p)) {t : ℕ}
    (ht : it.idx+t<2^32) : q.At (q.add it t) (p+t) := by
  have h64 : (((t : ℤ)+it.idx)%2^64).toNat=it.idx+t := by omega
  have h32 : ((t : ℤ)%2^32).toNat=t := by omega
  refine ⟨?_,?_⟩
  · rw [add,moduloAdd,h32,u32,mod_eq_of_lt ht]
    rcases hi with hi | ⟨hc,_,_⟩
    · rw [hi.idx,mod_add_mod]
    · rw [hc,mod_one,mod_one]
  · rw [add,h64]
    rcases hi with hi | ⟨hc,hidx,hround⟩
    · rw [hi.round,hi.idx,(position_add hpos p t).2]
      simp only [u32]
      omega
    · rw [hc,hidx,Nat.div_one,Nat.div_one]
      simp only [u32] at hround ⊢
      omega

theorem At.eq_iff {it that : Iter} {r : ℕ} (hpos : 0<q.capacity) (hi : q.At it p) (ht : q.At that r) (hpr : p≤r)
    (hr : r≤p+q.capacity) : it=that ↔ p=r := by
  constructor
  · intro he
    have hidx : p%q.capacity=r%q.capacity := by rw [← hi.idx,← ht.idx,he]
    have hround : u32 (p/q.capacity)=u32 (r/q.capacity) := by rw [← hi.round,← ht.round,he]
    obtain ⟨j,rfl⟩:=Nat.exists_eq_add_of_le hpr
    obtain ⟨hm,hd⟩:=position_add hpos p j
    have hp:=mod_lt p hpos
    simp only [u32] at hround
    rcases turn hp (show j≤q.capacity by omega) with ⟨h1,h2,h3⟩ | ⟨h1,h2,h3⟩ <;> omega
  · intro he
    exact hi.eq (he ▸ ht)

theorem At.le {it that : Iter} {r : ℕ} (hpos : 0<q.capacity) (hi : q.At it p) (ht : q.At that r) (hpr : p≤r)
    (hround : u32 (p/q.capacity)≤u32 (r/q.capacity)) (hr : r≤p+q.capacity) : it.le that=true := by
  rw [Iter.le,Iter.lt,hi.round,ht.round,hi.idx,ht.idx,Bool.not_eq_true',Bool.or_eq_false_iff,Bool.and_eq_false_iff,
    decide_eq_false_iff_not,decide_eq_false_iff_not,decide_eq_false_iff_not]
  refine ⟨by omega,?_⟩
  obtain ⟨j,rfl⟩:=Nat.exists_eq_add_of_le hpr
  obtain ⟨hm,hd⟩:=position_add hpos p j
  have hp:=mod_lt p hpos
  simp only [u32] at hround ⊢
  rcases turn hp (show j≤q.capacity by omega) with ⟨h1,h2,h3⟩ | ⟨h1,h2,h3⟩ <;> omega

theorem holds_init (size : ℕ) (zero : α) (hpos : 0<size) (hword : size<2^32) : (init size zero).Holds 0 0 where
  pos := hpos
  word := hword
  fits := Nat.zero_le _
  head := by
    by_cases h : size=1
    · exact .inr ⟨h,rfl⟩
    · exact .inl (mod_eq_of_lt (show 0+1<size by omega)).symm
  tail := (zero_mod _).symm
  empty := rfl
  round := by rw [Nat.zero_div]; rfl

theorem Holds.flush (hq : q.Holds h k) : q.flush.Holds 0 0 :=
  have hi:=holds_init q.capacity (q.data 0) hq.pos hq.word
  ⟨hi.pos,hi.word,hi.fits,hi.head,hi.tail,hi.empty,hi.round⟩

theorem Holds.increase_tail (hq : q.Holds h k) : q.increase q.tail=(h+k+1)%q.capacity := hq.endIt.idx

theorem Holds.advance_head (hq : q.Holds h k) : q.advanceTail.head =
    if k=q.capacity ∧ q.head=(h+1)%q.capacity then (h+2)%q.capacity else q.head := by
  have hfits:=hq.fits
  have hpos:=hq.pos
  have hword:=hq.word
  show (if q.increase q.tail=q.head ∧ q.empty=false then q.increase q.head else q.head)=_
  have hmeet : q.increase q.tail=q.head ∧ q.empty=false ↔ k=q.capacity ∧ q.head=(h+1)%q.capacity := by
    rw [hq.increase_tail,hq.empty,decide_eq_false_iff_not,show h+k+1=h+1+k by omega]
    constructor
    · intro ⟨hi,hk⟩
      rcases hq.head with hh | ⟨hc,hh⟩
      · refine ⟨?_,hh⟩
        by_contra hne
        exact hk (Circle.position_inj (by omega) hpos (hi.trans hh))
      · rw [hc,mod_one] at hi
        omega
    · intro ⟨hk,hh⟩
      refine ⟨?_,by omega⟩
      rw [hh,hk,add_mod_right]
  split
  case isTrue h1 =>
    have hlt:=mod_lt (h+1) hpos
    rw [if_pos (hmeet.mp h1),increase,moduloAdd,(hmeet.mp h1).2,u32,
      mod_eq_of_lt (show (h+1)%q.capacity+1<2^32 by omega),mod_add_mod]
  case isFalse h1 => rw [if_neg (fun h2 => h1 (hmeet.mpr h2))]

theorem Holds.advanceTail (hq : q.Holds h k) :
    q.advanceTail.Holds (if k=q.capacity then h+1 else h) (if k=q.capacity then k else k+1) := by
  have hpos:=hq.pos
  have hfits:=hq.fits
  have hnext:=hq.increase_tail
  have hround : q.advanceTail.round=u32 ((h+k+1)/q.capacity) := hq.endIt.round
  by_cases hk : k=q.capacity
  · rw [if_pos hk,if_pos hk]
    have hlast : h+1+k=h+k+1 := by omega
    refine ⟨hpos,hq.word,hfits,?_,by rw [hlast]; exact hnext,(decide_eq_false (by omega)).symm,
      by rw [hlast]; exact hround⟩
    show _=(h+1+1)%q.capacity ∨ (q.capacity=1 ∧ _)
    rw [hq.advance_head]
    rcases hq.head with hh | ⟨hc,hh⟩
    · exact .inl (if_pos ⟨hk,hh⟩)
    · by_cases hm : q.head=(h+1)%q.capacity
      · exact .inl (if_pos ⟨hk,hm⟩)
      · rw [if_neg fun hn => hm hn.2]
        exact .inr ⟨hc,hh⟩
  · rw [if_neg hk,if_neg hk]
    refine ⟨hpos,hq.word,?_,?_,hnext,(decide_eq_false (by omega)).symm,hround⟩
    · show _≤q.capacity
      omega
    · show _=(h+1)%q.capacity ∨ (q.capacity=1 ∧ _)
      rw [hq.advance_head,if_neg fun hn => hk hn.1]
      exact hq.head

theorem Holds.advanceTail_slot (hq : q.Holds h k) : q.advanceTail.tail=(h+1+k)%q.capacity := by
  rw [show h+1+k=h+k+1 by omega]
  exact hq.increase_tail

theorem Holds.popFront (hq : q.Holds h k) {n : ℕ} (hn : n≤k) (hfit : q.beginIt.idx+n<2^32)
    (hround : u32 ((h+1+n)/q.capacity)≤u32 ((h+1+k)/q.capacity)) :
    ∃ q', q.popFront n = .ok q' ∧ q'.Holds (h+n) (k-n) ∧ q'.capacity=q.capacity ∧ q'.data=q.data := by
  rw [CircularQueue.popFront]
  split
  case isTrue h0 => exact ⟨q,rfl,by rw [h0]; exact hq,rfl,rfl⟩
  case isFalse h0 =>
    have hfits:=hq.fits
    have hit:=add_at hq.pos hq.beginIt hfit
    have hend : q.At q.endIt (h+1+k) := by
      rw [show h+1+k=h+k+1 by omega]
      exact hq.endIt
    have hle:=hit.le hq.pos hend (by omega) hround (by omega)
    have heq:=hit.eq_iff hq.pos hend (by omega) (by omega)
    have hsum : h+n+(k-n)=h+k := by omega
    dsimp only
    rw [if_pos hle]
    refine ⟨_,rfl,⟨hq.pos,hq.word,?_,.inl ?_,?_,?_,?_⟩,rfl,rfl⟩
    · show k-n≤q.capacity
      omega
    · rw [show h+n+1=h+1+n by omega]
      exact hit.idx
    · rw [hsum]
      exact hq.tail
    · show decide _=decide _
      rw [decide_eq_decide,heq]
      omega
    · rw [hsum]
      exact hq.round

theorem Holds.popBack (hq : q.Holds h k) (hc : 2≤q.capacity) (hk : 0<k) :
    ∃ q', q.popBack = .ok q' ∧ q'.Holds h (k-1) ∧ q'.capacity=q.capacity ∧ q'.data=q.data := by
  have hhead : q.head=(h+1)%q.capacity := hq.head.resolve_right fun hb => by omega
  have hword:=hq.word
  have hfits:=hq.fits
  have htail:=hq.tail
  have hround:=hq.round
  have hsplit:=position_succ hq.pos (h+(k-1))
  rw [show h+(k-1)+1=h+k by omega] at hsplit
  rw [CircularQueue.popBack,hq.empty,decide_eq_false (by omega),if_neg Bool.false_ne_true]
  refine ⟨_,rfl,⟨hq.pos,hword,?_,.inl hhead,?_,?_,?_⟩,rfl,rfl⟩
  · show k-1≤q.capacity
    omega
  · show q.decrease q.tail=(h+(k-1))%q.capacity
    rw [decrease]
    rcases hsplit with ⟨h1,h2,_⟩ | ⟨h1,h2,_⟩
    · rw [if_pos (by omega)]
      omega
    · rw [if_neg (by omega)]
      omega
  · show decide (q.head=q.tail)=decide (k-1=0)
    rw [decide_eq_decide,hhead,htail,show h+k=h+1+(k-1) by omega]
    constructor
    · intro he
      exact (Circle.position_inj hq.pos (show k-1<q.capacity by omega) he).symm
    · intro he
      rw [he,add_zero]
  · show (if q.tail=0 then u32 (q.round+(2^32-1)) else q.round)=u32 ((h+(k-1))/q.capacity)
    rcases hsplit with ⟨h1,_,h2⟩ | ⟨h1,_,h2⟩
    · rw [if_pos (by omega),hround,h2]
      exact u32_pred _
    · rw [if_neg (by omega),hround,h2]

theorem Holds.size (hq : q.Holds h k) : q.size=k := by
  have hfits:=hq.fits
  rw [CircularQueue.size,hq.empty]
  rcases Nat.eq_zero_or_pos k with rfl | hk
  · rfl
  · rw [decide_eq_false (by omega),if_neg Bool.false_ne_true]
    obtain ⟨ha,hends⟩:=hq.ends hk
    rcases hq.head with hh | ⟨hc,hh⟩
    · split_ifs <;> omega
    · split_ifs <;> omega

theorem Holds.full (hq : q.Holds h k) (hc : 2≤q.capacity) : q.full=true ↔ k=q.capacity := by
  have hfits:=hq.fits
  have hword:=hq.word
  have hhead : q.head=(h+1)%q.capacity := hq.head.resolve_right fun hb => by omega
  rw [CircularQueue.full,hq.empty]
  rcases Nat.eq_zero_or_pos k with rfl | hk
  · exact iff_of_false Bool.false_ne_true (by omega)
  · rw [decide_eq_false (by omega),Bool.not_false,Bool.true_and,Bool.or_eq_true,Bool.and_eq_true,decide_eq_true_eq,
      decide_eq_true_eq,decide_eq_true_eq]
    obtain ⟨ha,hends⟩:=hq.ends hk
    have hu : u32 (q.tail+1)=q.tail+1 := mod_eq_of_lt (by omega)
    omega

theorem Holds.visit (hq : q.Holds h k) {m fuel : ℕ} (hi : q.At it p) (hp : p+m=h+1+k) (hm : m≤k)
    (hf : m≤fuel) : q.visit fuel it=some (window q.data q.capacity p m) := by
  have hfits:=hq.fits
  have hend : q.At q.endIt (h+1+k) := by
    rw [show h+1+k=h+k+1 by omega]
    exact hq.endIt
  have heq:=hi.eq_iff hq.pos hend (by omega) (by omega)
  induction m generalizing p it fuel with
  | zero =>
    have hstop : it=q.endIt := heq.mpr (by omega)
    cases fuel with
    | zero | succ fuel => rw [CircularQueue.visit,if_pos hstop,window_zero]
  | succ m ih =>
    obtain ⟨fuel,rfl⟩:=Nat.exists_eq_add_of_le' (show 1≤fuel by omega)
    have hnext:=hi.incr hq.pos hq.word
    rw [CircularQueue.visit,if_neg (fun he => by have := heq.mp he; omega),
      ih hnext (by omega) (by omega) (by omega) (hnext.eq_iff hq.pos hend (by omega) (by omega)),Option.map_some,
      window_cons,hi.idx]

theorem Holds.decr_of_head (hq : q.Holds h k) (hhead : q.head=(h+1)%q.capacity) (hi : q.At it (p+1))
    (hlo : h+1≤p) (hhi : p≤h+k) : ∃ prev, q.decr it = .ok prev ∧ q.At prev p := by
  have hfits:=hq.fits
  have hsucc:=position_succ hq.pos p
  have hidx:=hi.idx
  have hround:=hi.round
  have hok : q.decrementable it=true := by
    rw [decrementable,Bool.not_eq_true',Bool.and_eq_false_iff,decide_eq_false_iff_not]
    by_cases hat : it.idx=q.head
    · right
      have hfull : p=h+k ∧ k=q.capacity := by
        rw [hidx,hhead,show p+1=h+1+(p-h) by omega] at hat
        by_cases hlt : p-h<q.capacity
        · have := Circle.position_inj hlt hq.pos hat
          omega
        · omega
      have hqr:=hq.round
      rw [← hfull.1] at hqr
      rw [hq.empty,decide_eq_false (by omega),Bool.false_or,Bool.or_eq_false_iff,Bool.and_eq_false_iff,
        Bool.and_eq_false_iff,decide_eq_false_iff_not,decide_eq_false_iff_not,decide_eq_false_iff_not,
        decide_eq_false_iff_not,hround,hqr]
      simp only [u32]
      rcases hsucc with ⟨h1,h2,h3⟩ | ⟨h1,h2,h3⟩ <;> omega
    · exact .inl hat
  rw [CircularQueue.decr,if_pos hok]
  refine ⟨_,rfl,?_,?_⟩
  · show q.decrease it.idx=p%q.capacity
    rw [decrease]
    split_ifs <;> omega
  · show (if it.idx=0 then u32 (it.round+(2^32-1)) else it.round)=u32 (p/q.capacity)
    rcases hsucc with ⟨h1,_,h2⟩ | ⟨h1,_,h2⟩
    · rw [if_pos (by omega),hround,h2]
      exact u32_pred _
    · rw [if_neg (by omega),hround,h2]

theorem Holds.decr (hq : q.Holds h k) (hc : 2≤q.capacity) (hi : q.At it (p+1)) (hlo : h+1≤p) (hhi : p≤h+k) :
    ∃ prev, q.decr it = .ok prev ∧ q.At prev p :=
  hq.decr_of_head (hq.head.resolve_right fun hb => by omega) hi hlo hhi

theorem Holds.visitBack (hq : q.Holds h k) (hc : 2≤q.capacity) {m fuel : ℕ} (hi : q.At it (h+1+m)) (hm : m≤k)
    (hf : m≤fuel) : q.visitBack fuel it=some (window q.data q.capacity (h+1) m).reverse := by
  have hfits:=hq.fits
  have heq:=(hq.beginIt_at hc).eq_iff hq.pos hi (by omega) (by omega)
  induction m generalizing it fuel with
  | zero =>
    have hstop : it=q.beginIt := (heq.mpr rfl).symm
    cases fuel with
    | zero | succ fuel => rw [CircularQueue.visitBack,if_pos hstop,window_zero,List.reverse_nil]
  | succ m ih =>
    obtain ⟨fuel,rfl⟩:=Nat.exists_eq_add_of_le' (show 1≤fuel by omega)
    obtain ⟨prev,hdecr,hprev⟩:=hq.decr hc (p := h+1+m) hi (by omega) (by omega)
    rw [CircularQueue.visitBack,if_neg (fun he => by have := heq.mp he.symm; omega),hdecr]
    dsimp only
    rw [ih hprev (by omega) (by omega) ((hq.beginIt_at hc).eq_iff hq.pos hprev (by omega) (by omega)),
      Option.map_some,window_snoc,List.reverse_append,hprev.idx]
    rfl

end CircularQueue

end AquaGem5.Base
