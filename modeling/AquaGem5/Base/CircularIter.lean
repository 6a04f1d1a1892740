import AquaGem5.Base.CircularRuns

/-!
# Iterators of circular queues

Their arithmetic, and which indices the queue takes for valid. A distance of iterators is a `ptrdiff_t`.
-/

namespace AquaGem5.Base
open RingWindow Nat

def moduloSub (op1 op2 size : ℕ) : ℕ :=
  let ret := sub op1 op2 size
  if 0≤ret then ret.toNat else ((ret+size)%2^32).toNat

namespace CircularQueue

variable {α : Type}

inductive Reached (size : ℕ) (zero : α) : CircularQueue α → Prop
  | init : Reached size zero (init size zero)
  | step {q q' : CircularQueue α} {op : DequeOp α} (hr : Reached size zero q) (ha : q.apply op = .ok q') :
    Reached size zero q'

variable (q : CircularQueue α) (it : Iter)

def minus (t : ℤ) : Iter :=
  if 0≤t then
    ⟨moduloSub it.idx (t%2^32).toNat q.capacity,u32 (it.round+((-t+it.idx)%2^64).toNat/q.capacity)⟩
  else q.add it (-t)

def steps : ℕ → Iter → Iter
  | 0,it => it
  | n+1,it => steps n (q.incr it)

def stepsBack : ℕ → Iter → Except Fault Iter
  | 0,it => .ok it
  | n+1,it => q.decr it >>= stepsBack n

def isValidIdx (idx : ℕ) : Bool :=
  !(q.empty ||
    (decide (q.head<q.tail) &&
      ((decide (q.head < idx)&&decide (q.tail < idx)) || (decide (idx<q.head)&&decide (idx<q.tail)))) ||
    (decide (q.tail < idx)&&decide (idx<q.head)))

def isValidRound (idx round : ℕ) : Bool :=
  !q.empty &&
    ((decide (round=q.round)&&decide (idx≤q.tail)&&(decide (q.head ≤ idx) || decide (q.tail<q.head))) ||
      (decide (u32 (round+1)=q.round)&&decide (q.tail < idx)&&decide (q.head ≤ idx) &&
        decide (q.tail<q.head)))

structure WellFormed (size : ℕ) (q : CircularQueue α) : Prop where
  capacity : q.capacity=size
  head : q.head<size ∨ (size=1 ∧ q.head=1)
  tail : q.tail<size
  round : q.round<2^32
  empty : q.empty=true → q.head=(q.tail+1)%size ∨ (size=1 ∧ q.head=1)

variable {q} {it} {size : ℕ} {zero : α} {q' : CircularQueue α} {h k p : ℕ} {op : DequeOp α}

theorem WellFormed.increase_tail (hw : WellFormed size q) (hword : size<2^32) :
    q.increase q.tail=(q.tail+1)%size := by
  have htail:=hw.tail
  rw [increase,moduloAdd,u32,Nat.mod_eq_of_lt (show q.tail+1<2^32 by omega),hw.capacity]

theorem WellFormed.increase_lt (hw : WellFormed size q) (hpos : 0<size) (v : ℕ) : q.increase v<size := by
  rw [increase,hw.capacity]
  exact mod_lt _ hpos

theorem WellFormed.decrease_tail (hw : WellFormed size q) (hpos : 0<size) :
    q.decrease q.tail<size ∧ (q.decrease q.tail+1)%size=q.tail := by
  have htail:=hw.tail
  rw [decrease,hw.capacity]
  by_cases h0 : q.tail=0
  · rw [if_pos h0,Nat.sub_add_cancel hpos,Nat.mod_self]
    omega
  · rw [if_neg h0,Nat.sub_add_cancel (by omega),Nat.mod_eq_of_lt htail]
    omega

theorem u32_lt (x : ℕ) : u32 x<2^32 := Nat.mod_lt x (Nat.two_pow_pos 32)

theorem WellFormed.turn_lt (hw : WellFormed size q) (c : Prop) [Decidable c] (x : ℕ) :
    (if c then u32 x else q.round)<2^32 := by
  split
  · exact u32_lt x
  · exact hw.round

theorem wellFormed_init (size : ℕ) (zero : α) (hpos : 0<size) : WellFormed size (init size zero) := by
  by_cases h1 : size=1
  · exact ⟨rfl,.inr ⟨h1,rfl⟩,hpos,Nat.two_pow_pos 32,fun _ => .inr ⟨h1,rfl⟩⟩
  · have hlt : 1<size := by omega
    exact ⟨rfl,.inl hlt,hpos,Nat.two_pow_pos 32,fun _ => .inl (Nat.mod_eq_of_lt hlt).symm⟩

theorem WellFormed.advanceTail (hw : WellFormed size q) (hpos : 0<size) : WellFormed size q.advanceTail := by
  refine ⟨hw.capacity,?_,hw.increase_lt hpos _,hw.turn_lt _ _,fun he => absurd he Bool.false_ne_true⟩
  show (if q.increase q.tail=q.head ∧ q.empty=false then q.increase q.head else q.head)<size ∨ (size=1 ∧
    (if q.increase q.tail=q.head ∧ q.empty=false then q.increase q.head else q.head)=1)
  split
  · exact .inl (hw.increase_lt hpos _)
  · exact hw.head

theorem WellFormed.popFront (hw : WellFormed size q) (hpos : 0<size) (hword : size<2^32) {n : ℕ}
    (ha : q.popFront n = .ok q') : WellFormed size q' := by
  rw [CircularQueue.popFront] at ha
  split at ha
  · cases ha
    exact hw
  · dsimp only at ha
    split at ha
    · cases ha
      refine ⟨hw.capacity,.inl ?_,hw.tail,hw.round,fun he => .inl ?_⟩
      · rw [add,moduloAdd,hw.capacity]
        exact mod_lt _ hpos
      · exact (congrArg Iter.idx (of_decide_eq_true he)).trans (hw.increase_tail hword)
    · cases ha

theorem WellFormed.popBack (hw : WellFormed size q) (hpos : 0<size) (ha : q.popBack = .ok q') :
    WellFormed size q' := by
  rw [CircularQueue.popBack] at ha
  split at ha
  · cases ha
  · cases ha
    obtain ⟨hlt,hsucc⟩:=hw.decrease_tail hpos
    exact ⟨hw.capacity,hw.head,hlt,hw.turn_lt _ _,fun he => .inl ((of_decide_eq_true he).trans hsucc.symm)⟩

theorem WellFormed.apply (hw : WellFormed size q) (hpos : 0<size) (hword : size<2^32) (ha : q.apply op = .ok q') :
    WellFormed size q' := by
  cases op with
  | pushBack v =>
    cases ha
    have hadvance:=hw.advanceTail hpos
    exact ⟨hadvance.capacity,hadvance.head,hadvance.tail,hadvance.round,hadvance.empty⟩
  | advanceTail =>
    cases ha
    exact hw.advanceTail hpos
  | popFront n => exact hw.popFront hpos hword ha
  | popBack => exact hw.popBack hpos ha
  | flush =>
    cases ha
    have hinit:=wellFormed_init size (q.data 0) hpos
    exact ⟨hw.capacity,hinit.head,hinit.tail,hinit.round,hinit.empty⟩

theorem Reached.wellFormed (hr : Reached size zero q) (hpos : 0<size) (hword : size<2^32) : WellFormed size q := by
  induction hr with
  | init => exact wellFormed_init size zero hpos
  | step _ ha ih => exact ih.apply hpos hword ha

theorem exists_turns (hround : q.round<2^32) : ∃ m,u32 (m+1)=q.round := by
  refine ⟨q.round+(2^32-1),?_⟩
  rw [u32,Nat.add_assoc,Nat.sub_add_cancel (by decide),Nat.add_mod_right,Nat.mod_eq_of_lt hround]

theorem WellFormed.ends (hw : WellFormed size q) (hpos : 0<size) (hword : size<2^32) {m h k : ℕ}
    (hm : u32 (m+1)=q.round) (hsum : h+k=q.tail+size*(m+1)) (hk : k ≤ size)
    (hhead : q.head=(h+1)%size ∨ (size=1 ∧ q.head=1)) (hempty : q.empty=decide (k=0)) : q.Holds h k := by
  have htail:=hw.tail
  have hcap:=hw.capacity
  refine ⟨by omega,by omega,by omega,by rwa [hcap],?_,hempty,?_⟩
  · rw [hcap,hsum,add_mul_mod_self_left,Nat.mod_eq_of_lt htail]
  · rw [hcap,hsum,add_mul_div_left _ _ hpos,div_eq_of_lt htail,zero_add,hm]

theorem WellFormed.holds (hw : WellFormed size q) (hpos : 0<size) (hword : size<2^32) : ∃ h k,q.Holds h k := by
  have htail:=hw.tail
  obtain ⟨m,hm⟩:=exists_turns hw.round
  have hturn : size*(m+1)=size*m+size := mul_succ size m
  cases hempty : q.empty with
  | true =>
    refine ⟨q.tail+size*(m+1),0,hw.ends hpos hword hm rfl (zero_le _) ?_ hempty⟩
    rw [add_right_comm,add_mul_mod_self_left]
    exact hw.empty hempty
  | false =>
    rcases lt_or_ge q.tail q.head with hwrap | hline
    · have hhead:=hw.head
      refine ⟨size*m+q.head-1,size-q.head+q.tail+1,
        hw.ends hpos hword hm (by omega) (by omega) ?_ (by rw [hempty,decide_eq_false (by omega)])⟩
      rw [Nat.sub_add_cancel (by omega),Nat.mul_add_mod]
      exact hhead.imp_left fun hlt => (Nat.mod_eq_of_lt hlt).symm
    · refine ⟨size*(m+1)+q.head-1,q.tail-q.head+1,
        hw.ends hpos hword hm (by omega) (by omega) (.inl ?_) (by rw [hempty,decide_eq_false (by omega)])⟩
      rw [Nat.sub_add_cancel (by omega),Nat.mul_add_mod,Nat.mod_eq_of_lt (by omega)]

theorem Reached.holds (hr : Reached size zero q) (hpos : 0<size) (hword : size<2^32) :
    q.capacity=size ∧ ∃ h k,q.Holds h k :=
  ⟨(hr.wellFormed hpos hword).capacity,(hr.wellFormed hpos hword).holds hpos hword⟩

def InRange (q : CircularQueue α) (it : Iter) : Prop := ∃ i<q.size,it=q.steps i q.beginIt

def Stores (q : CircularQueue α) (idx : ℕ) : Prop := ∃ i<q.size,idx=(q.steps i q.beginIt).idx

theorem At.steps (hi : q.At it p) (hpos : 0<q.capacity) (hword : q.capacity<2^32) (n : ℕ) :
    q.At (q.steps n it) (p+n) := by
  induction n generalizing it p with
  | zero => exact hi
  | succ n ih =>
    have hrest:=ih (hi.incr hpos hword)
    rw [Nat.add_assoc,add_comm 1 n] at hrest
    exact hrest

theorem Iter.eq_mk {idx round : ℕ} (hidx : it.idx=idx) (hround : it.round=round) : it=⟨idx,round⟩ := by
  rw [← hidx,← hround]

theorem Holds.place (hq : q.Holds h k) (hc : 2≤q.capacity) {i : ℕ} (hi : i<k) :
    (q.tail=q.head+(k-1) ∧ q.steps i q.beginIt=⟨q.head+i,q.round⟩) ∨ (q.tail+q.capacity=q.head+(k-1) ∧
        ((q.head+i<q.capacity ∧ (q.steps i q.beginIt).idx=q.head+i ∧
            u32 ((q.steps i q.beginIt).round+1)=q.round ∧ (q.steps i q.beginIt).round<2^32) ∨
          (q.capacity≤q.head+i ∧ q.steps i q.beginIt=⟨q.head+i-q.capacity,q.round⟩))) := by
  have hhead : q.head=(h+1)%q.capacity := hq.head.resolve_right fun hb => by omega
  have hstep:=(hq.beginIt_at hc).steps hq.pos hq.word i
  have hround:=hq.round
  have hfits:=hq.fits
  obtain ⟨hlt,hends⟩:=hq.ends (by omega)
  obtain ⟨hmod,hdiv⟩:=position_add hq.pos (h+1) i
  rw [← hhead] at hlt hends hmod hdiv
  have hidx:=hstep.idx
  have hrd:=hstep.round
  rcases hends with ⟨hin,htail,hturn⟩ | ⟨hover,htail,hturn⟩
  · rcases turn hlt (show i≤q.capacity by omega) with ⟨h1,h2,h3⟩ | ⟨h1,-,-⟩
    · refine .inl ⟨htail,Iter.eq_mk (by rw [hidx,hmod,h2]) ?_⟩
      rw [hrd,hround,hdiv,h3,hturn,add_zero]
    · omega
  · refine .inr ⟨htail,?_⟩
    rcases turn hlt (show i≤q.capacity by omega) with ⟨h1,h2,h3⟩ | ⟨h1,h2,h3⟩
    · refine .inl ⟨h1,by rw [hidx,hmod,h2],?_,by rw [hrd]; exact u32_lt _⟩
      rw [hrd,hround,hdiv,h3,hturn,add_zero]
      exact mod_add_mod _ _ _
    · refine .inr ⟨h1,Iter.eq_mk (by rw [hidx,hmod,h2]) ?_⟩
      rw [hrd,hround,hdiv,h3,hturn]

theorem Holds.inRange_iff (hq : q.Holds h k) (hc : 2≤q.capacity) (idx round : ℕ) : q.InRange ⟨idx,round⟩ ↔ 0<k ∧
      ((q.head≤q.tail ∧ q.head ≤ idx ∧ idx≤q.tail ∧ round=q.round) ∨
        (q.tail<q.head ∧ ((q.head ≤ idx ∧ idx<q.capacity ∧ u32 (round+1)=q.round ∧ round<2^32) ∨
          (idx≤q.tail ∧ round=q.round)))) := by
  have hfits:=hq.fits
  have hhead : q.head<q.capacity := by
    rw [hq.head.resolve_right fun hb => by omega]
    exact mod_lt _ hq.pos
  rw [InRange,hq.size]
  constructor
  · rintro ⟨i,hi,hit⟩
    refine ⟨by omega,?_⟩
    rcases hq.place hc hi with ⟨htail,hplace⟩ | ⟨htail,⟨hin,hidx,hround,hlt⟩ | ⟨hover,hplace⟩⟩
    · rw [hplace,Iter.mk.injEq] at hit
      omega
    · rw [← hit] at hidx hround hlt
      dsimp only at hidx hround hlt
      omega
    · rw [hplace,Iter.mk.injEq] at hit
      omega
  · rintro ⟨hk,hidx⟩
    have htails:=(hq.place hc hk).imp And.left And.left
    rcases hidx with ⟨hline,hlow,hhigh,hround⟩ | ⟨hwrap,⟨hlow,hin,hround,hlt⟩ | ⟨hhigh,hround⟩⟩
    · have hi : idx-q.head<k := by omega
      refine ⟨idx-q.head,hi,?_⟩
      rcases hq.place hc hi with ⟨-,hplace⟩ | ⟨htail,-⟩
      · rw [hplace,Nat.add_sub_cancel' hlow,hround]
      · omega
    · have hi : idx-q.head<k := by omega
      refine ⟨idx-q.head,hi,?_⟩
      rcases hq.place hc hi with ⟨htail,-⟩ | ⟨-,⟨-,hidx',hround',hlt'⟩ | ⟨hover,-⟩⟩
      · omega
      · refine (Iter.eq_mk (by omega) ?_).symm
        simp only [u32] at hround hround'
        omega
      · omega
    · have hi : idx+q.capacity-q.head<k := by omega
      refine ⟨idx+q.capacity-q.head,hi,?_⟩
      rcases hq.place hc hi with ⟨htail,-⟩ | ⟨-,⟨hin,-⟩ | ⟨-,hplace⟩⟩
      · omega
      · omega
      · rw [hplace,hround,show q.head+(idx+q.capacity-q.head)-q.capacity=idx by omega]

theorem Holds.stores_iff (hq : q.Holds h k) (hc : 2≤q.capacity) (idx : ℕ) :
    q.Stores idx ↔ 0<k ∧ ((q.head≤q.tail ∧ q.head ≤ idx ∧ idx≤q.tail) ∨
      (q.tail<q.head ∧ ((q.head ≤ idx ∧ idx<q.capacity) ∨ idx≤q.tail))) := by
  have hexists : q.Stores idx ↔ ∃ round,q.InRange ⟨idx,round⟩ := by
    constructor
    · rintro ⟨i,hi,hidx⟩
      exact ⟨_,i,hi,(Iter.eq_mk hidx.symm rfl).symm⟩
    · rintro ⟨round,i,hi,hit⟩
      exact ⟨i,hi,congrArg Iter.idx hit⟩
  have hround : q.round<2^32 := by
    rw [hq.round]
    exact u32_lt _
  rw [hexists]
  constructor
  · rintro ⟨round,hin⟩
    have := (hq.inRange_iff hc idx round).mp hin
    omega
  · rintro ⟨hk,hidx⟩
    by_cases hbefore : q.tail<q.head ∧ q.head ≤ idx
    · -- an element of the turn before the queue's
      refine ⟨u32 (q.round+(2^32-1)),(hq.inRange_iff hc idx _).mpr ⟨hk,?_⟩⟩
      simp only [u32]
      omega
    · refine ⟨q.round,(hq.inRange_iff hc idx _).mpr ⟨hk,?_⟩⟩
      omega

/-- What the two predicates should say of an index and a round. -/
def ValidSound (q : CircularQueue α) (idx round : ℕ) : Prop :=
  (q.isValidRound idx round=true ↔ q.InRange ⟨idx,round⟩) ∧
    (idx<q.capacity → (q.isValidIdx idx=true ↔ q.Stores idx))

theorem Holds.isValidRound_iff (hq : q.Holds h k) (idx round : ℕ) : q.isValidRound idx round=true ↔ k≠0 ∧
      ((round=q.round ∧ idx≤q.tail ∧ (q.head ≤ idx ∨ q.tail<q.head)) ∨
        (u32 (round+1)=q.round ∧ q.tail < idx ∧ q.head ≤ idx ∧ q.tail<q.head)) := by
  simp [isValidRound,hq.empty,and_assoc]

theorem Holds.isValidIdx_iff (hq : q.Holds h k) (idx : ℕ) : q.isValidIdx idx=true ↔ k≠0 ∧
      ¬(q.head<q.tail ∧ ((q.head < idx ∧ q.tail < idx) ∨ (idx<q.head ∧ idx<q.tail))) ∧
        ¬(q.tail < idx ∧ idx<q.head) := by
  rw [isValidIdx,hq.empty,Bool.not_eq_true',Bool.or_eq_false_iff,Bool.or_eq_false_iff,decide_eq_false_iff_not,
    and_assoc]
  simp

theorem Holds.tail_place (hq : q.Holds h k) (hc : 2≤q.capacity) (hk : 0<k) : q.head<q.capacity ∧ q.tail<q.capacity ∧
      (q.tail=q.head+(k-1) ∨ q.tail+q.capacity=q.head+(k-1)) := by
  refine ⟨?_,?_,(hq.place hc hk).imp And.left And.left⟩
  · rw [hq.head.resolve_right fun hb => by omega]
    exact mod_lt _ hq.pos
  · rw [hq.tail]
    exact mod_lt _ hq.pos

theorem Holds.isValidRound_sound (hq : q.Holds h k) (hc : 2≤q.capacity) {idx round : ℕ} (hround : round<2^32) :
    (q.isValidRound idx round=true ↔ q.InRange ⟨idx,round⟩) ↔
      (q.capacity ≤ idx → q.empty=false → q.tail<q.head → u32 (round+1)≠q.round) := by
  have hfits:=hq.fits
  rw [hq.isValidRound_iff,hq.inRange_iff hc,hq.empty,decide_eq_false_iff_not]
  rcases Nat.eq_zero_or_pos k with rfl | hk
  · simp
  · obtain ⟨hhead,htail,hplace⟩:=hq.tail_place hc hk
    by_cases hidx : q.capacity ≤ idx
    · omega
    · omega

theorem Holds.isValidIdx_sound (hq : q.Holds h k) (hc : 2≤q.capacity) {idx : ℕ} (hidx : idx<q.capacity) :
    (q.isValidIdx idx=true ↔ q.Stores idx) ↔ (k=1 → idx=q.head) := by
  have hfits:=hq.fits
  rw [hq.isValidIdx_iff,hq.stores_iff hc]
  rcases Nat.eq_zero_or_pos k with rfl | hk
  · simp
  · obtain ⟨hhead,htail,hplace⟩:=hq.tail_place hc hk
    omega

/-- The predicates go wrong in two cases: a queue of one element takes every index for valid, and behind the end of the
storage every index is valid with the round before the queue's, if the tail has wrapped around. -/
theorem validSound_iff (hc : 2 ≤ size) (hword : size<2^32) (hr : Reached size zero q) {idx round : ℕ}
    (hround : round<2^32) :
    q.ValidSound idx round ↔ (idx<q.capacity → q.size=1 → idx=q.head) ∧
      (q.capacity ≤ idx → q.empty=false → q.tail<q.head → u32 (round+1)≠q.round) := by
  obtain ⟨hcap,h,k,hq⟩:=hr.holds (by omega) hword
  have hc' : 2≤q.capacity := hcap ▸ hc
  rw [ValidSound,hq.isValidRound_sound hc' hround,hq.size,and_comm]
  exact and_congr_left fun _ => forall_congr' fun hidx => hq.isValidIdx_sound hc' hidx

def onePushed : CircularQueue Unit := (init 2 ()).pushBack ()

theorem reached_onePushed : Reached 2 () onePushed := by
  have ha : (init 2 ()).apply (.pushBack ()) = .ok onePushed := rfl
  exact .step .init ha

theorem validSound_iff_one :
    onePushed.ValidSound 1 0 ↔ (1<2 → onePushed.size=1 → 1=onePushed.head) ∧
      (2≤1 → onePushed.empty=false → onePushed.tail<onePushed.head → u32 (0+1)≠onePushed.round) :=
  validSound_iff (Nat.le_refl 2) (by decide) reached_onePushed (by decide)

/-- The element is in the slot 1, but the slot 0 is taken for valid too. -/
theorem not_validSound_one : ¬onePushed.ValidSound 0 0 := by
  rintro ⟨-,hidx⟩
  obtain ⟨i,hi,hstored⟩:=(hidx (by decide)).mp rfl
  obtain rfl : i=0 := Nat.lt_one_iff.mp hi
  exact absurd hstored (by decide)

end CircularQueue

end AquaGem5.Base
