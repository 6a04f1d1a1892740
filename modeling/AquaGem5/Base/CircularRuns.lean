import AquaGem5.Base.CircularQueue

/-!
# A circular queue as a bounded deque

The queue is compared with a list that drops its first element when it grows over the capacity.
-/

namespace AquaGem5.Base
open RingWindow

inductive DequeOp (α : Type) where
  | pushBack (v : α)
  | advanceTail
  | popFront (n : ℕ)
  | popBack
  | flush

namespace CircularQueue

variable {α : Type}

def apply (q : CircularQueue α) : DequeOp α → Except Fault (CircularQueue α)
  | .pushBack v => .ok (q.pushBack v)
  | .advanceTail => .ok q.advanceTail
  | .popFront n => q.popFront n
  | .popBack => q.popBack
  | .flush => .ok q.flush

/-- What an operation makes of the elements. The tail is advanced to what its next slot holds. -/
def elements (q : CircularQueue α) (l : List α) : DequeOp α → List α
  | .pushBack v => lastOf q.capacity (l++[v])
  | .advanceTail => lastOf q.capacity (l++[q.data (q.increase q.tail)])
  | .popFront n => l.drop n
  | .popBack => l.dropLast
  | .flush => []

def wraps (q : CircularQueue α) : DequeOp α → ℕ
  | .pushBack _ => if q.increase q.tail=0 then 1 else 0
  | .advanceTail => if q.increase q.tail=0 then 1 else 0
  | _ => 0

def Legal (q : CircularQueue α) : DequeOp α → Prop
  | .popFront n => n≤q.size
  | .popBack => q.empty=false
  | _ => True

/-- The sum in a `pop_front` is a `uint32_t`. -/
def Fits (q : CircularQueue α) : DequeOp α → Prop
  | .popFront n => q.head+n<2^32
  | _ => True

/-- Runs of legal operations that meet a condition, with the elements and the number of wrap-arounds. -/
inductive Run (Meets : CircularQueue α → DequeOp α → Prop) (size : ℕ) (zero : α) : CircularQueue α → List α → ℕ → Prop
  | init : Run Meets size zero (init size zero) [] 0
  | step {q q' : CircularQueue α} {l : List α} {w : ℕ} {op : DequeOp α} (hr : Run Meets size zero q l w)
      (hl : q.Legal op) (hm : Meets q op) (ha : q.apply op = .ok q') :
      Run Meets size zero q' (q.elements l op) (w+q.wraps op)

structure Shows (q : CircularQueue α) (l : List α) : Prop where
  forward : q.visit q.capacity q.beginIt=some l
  backward : q.visitBack q.capacity q.endIt=some l.reverse
  size : q.size=l.length
  empty : q.empty=true ↔ l=[]
  full : q.full=true ↔ l.length=q.capacity
  front : l≠[] → l.head?=some q.front
  back : l≠[] → l.getLast?=some q.back

structure Keeps (size : ℕ) (q : CircularQueue α) (l : List α) (w h k : ℕ) : Prop where
  holds : q.Holds h k
  capacity : q.capacity=size
  window : l=window q.data size (h+1) k
  turns : (h+k)/size≤w

variable {q q' : CircularQueue α} {l : List α} {w h k size : ℕ} {zero : α} {op : DequeOp α}

theorem Keeps.shows (hk : Keeps size q l w h k) (hc : 2 ≤ size) : q.Shows l := by
  have hq:=hk.holds
  have hcap:=hk.capacity
  have hfits:=hq.fits
  have hc' : 2≤q.capacity := hcap ▸ hc
  have hlen : l.length=k := by rw [hk.window,window_length]
  have hend : q.At q.endIt (h+1+k) := by
    rw [show h+1+k=h+k+1 by omega]
    exact hq.endIt
  have hhead : q.head=(h+1)%q.capacity := hq.head.resolve_right fun hb => by omega
  refine ⟨?_,?_,by rw [hq.size,hlen],?_,by rw [hq.full hc',hlen],fun hne => ?_,fun hne => ?_⟩
  · rw [hq.visit (hq.beginIt_at hc') rfl le_rfl hfits,hcap,hk.window]
  · rw [hq.visitBack hc' hend le_rfl hfits,hcap,hk.window]
  · rw [hq.empty,decide_eq_true_eq,← hlen,List.length_eq_zero_iff]
  · obtain ⟨j,rfl⟩:=Nat.exists_eq_add_of_le' (show 1≤k by have := List.length_pos_iff.mpr hne; omega)
    rw [hk.window,window_cons,List.head?_cons,CircularQueue.front,hhead,hcap]
  · obtain ⟨j,rfl⟩:=Nat.exists_eq_add_of_le' (show 1≤k by have := List.length_pos_iff.mpr hne; omega)
    rw [hk.window,window_snoc,List.getLast?_concat,CircularQueue.back,hq.tail,hcap,
      show h+(j+1)=h+1+j by omega]

theorem Keeps.advance (hk : Keeps size q l w h k) (v : α) :
    Keeps size {q.advanceTail with data := Function.update q.data q.advanceTail.tail v} (lastOf size (l++[v]))
      (w+if q.increase q.tail=0 then 1 else 0) (if k=size then h+1 else h) (if k=size then k else k+1) := by
  have hq:=hk.holds
  have hcap:=hk.capacity
  have hfits:=hq.fits
  have hturns:=hk.turns
  have ha:=hq.advanceTail
  rw [hcap] at ha
  refine ⟨⟨ha.pos,ha.word,ha.fits,ha.head,ha.tail,ha.empty,ha.round⟩,hcap,?_,?_⟩
  · rw [hk.window,window_push (hcap ▸ hfits) (hcap ▸ hq.pos),hq.advanceTail_slot,hcap]
    split_ifs <;> rfl
  · have hsucc:=position_succ hq.pos (h+k)
    rw [hq.increase_tail]
    rw [hcap] at hsucc ⊢
    have hlast : (if k=size then h+1 else h)+(if k=size then k else k+1)=h+k+1 := by
      by_cases hks : k=size
      · rw [if_pos hks,if_pos hks]
        omega
      · rw [if_neg hks,if_neg hks]
        omega
    rw [hlast]
    rcases hsucc with ⟨h1,_,h2⟩ | ⟨h1,_,h2⟩
    · rw [if_pos h1]
      omega
    · rw [if_neg (by omega)]
      omega

theorem Keeps.advanceTail (hk : Keeps size q l w h k) :
    Keeps size q.advanceTail (lastOf size (l++[q.data (q.increase q.tail)]))
      (w+if q.increase q.tail=0 then 1 else 0) (if k=size then h+1 else h) (if k=size then k else k+1) := by
  have ha:=hk.advance (q.data (q.increase q.tail))
  have hself : Function.update q.data q.advanceTail.tail (q.data (q.increase q.tail))=q.data :=
    Function.update_eq_self _ _
  rw [hself] at ha
  exact ha

theorem Keeps.popFront (hk : Keeps size q l w h k) (hw : w<2^31) {n : ℕ} (hn : n≤q.size) (hfit : q.head+n<2^32) :
    ∃ q', q.popFront n = .ok q' ∧ Keeps size q' (l.drop n) w (h+n) (k-n) := by
  have hq:=hk.holds
  have hcap:=hk.capacity
  have hword:=hq.word
  have hturns:=hk.turns
  rw [hq.size] at hn
  have hidx : q.beginIt.idx+n<2^32 := by
    rw [CircularQueue.beginIt,hq.empty]
    by_cases h0 : k=0
    · have hlt:=Nat.mod_lt (h+k+1) hq.pos
      rw [decide_eq_true h0,if_pos rfl,hq.endIt.idx]
      omega
    · rw [decide_eq_false h0,if_neg Bool.false_ne_true]
      split_ifs <;> exact hfit
  have hround : u32 ((h+1+n)/q.capacity)≤u32 ((h+1+k)/q.capacity) := by
    have hle : (h+1+n)/q.capacity≤(h+1+k)/q.capacity := Nat.div_le_div_right (by omega)
    have hsucc:=position_succ hq.pos (h+k)
    rw [show h+k+1=h+1+k by omega] at hsucc
    rw [← hcap] at hturns
    rw [u32,u32,Nat.mod_eq_of_lt (by omega),Nat.mod_eq_of_lt (by omega)]
    exact hle
  obtain ⟨q',ha,hholds,hc,hd⟩:=hq.popFront hn hidx hround
  refine ⟨q',ha,hholds,hc.trans hcap,?_,?_⟩
  · rw [hk.window,window_drop _ hn,hd,show h+n+1=h+1+n by omega]
  · rw [show h+n+(k-n)=h+k by omega]
    exact hturns

theorem Keeps.popBack (hk : Keeps size q l w h k) (hc : 2 ≤ size) (he : q.empty=false) :
    ∃ q', q.popBack = .ok q' ∧ Keeps size q' l.dropLast w h (k-1) := by
  have hq:=hk.holds
  have hcap:=hk.capacity
  rw [hq.empty,decide_eq_false_iff_not] at he
  obtain ⟨q',ha,hholds,hc',hd⟩:=hq.popBack (hcap ▸ hc) (by omega)
  refine ⟨q',ha,hholds,hc'.trans hcap,?_,?_⟩
  · rw [hk.window,List.dropLast_eq_take,window_length,window_take _ (Nat.sub_le ..),hd]
  · exact (Nat.div_le_div_right (by omega)).trans hk.turns

theorem Keeps.flush (hk : Keeps size q l w h k) : Keeps size q.flush [] w 0 0 :=
  ⟨hk.holds.flush,hk.capacity,rfl,by rw [Nat.zero_div]; exact Nat.zero_le w⟩

theorem Keeps.apply (hk : Keeps size q l w h k) (hc : 2 ≤ size) (hw : w<2^31) (hl : q.Legal op) (hf : q.Fits op) :
    ∃ q' h' k', q.apply op = .ok q' ∧ Keeps size q' (q.elements l op) (w+q.wraps op) h' k' := by
  have hcap:=hk.capacity
  cases op with
  | pushBack v => exact ⟨_,_,_,rfl,by rw [elements,hcap]; exact hk.advance v⟩
  | advanceTail => exact ⟨_,_,_,rfl,by rw [elements,hcap]; exact hk.advanceTail⟩
  | popFront n =>
    obtain ⟨q',ha,hkeep⟩:=hk.popFront hw hl hf
    exact ⟨q',_,_,ha,hkeep⟩
  | popBack =>
    obtain ⟨q',ha,hkeep⟩:=hk.popBack hc hl
    exact ⟨q',_,_,ha,hkeep⟩
  | flush => exact ⟨_,_,_,rfl,hk.flush⟩

theorem keeps_of_run (hr : Run Fits size zero q l w) (hc : 2 ≤ size) (hword : size<2^32) (hw : w<2^31) :
    ∃ h k, Keeps size q l w h k := by
  induction hr with
  | init => exact ⟨0,0,holds_init size zero (by omega) hword,rfl,rfl,by rw [Nat.zero_add,Nat.zero_div]⟩
  | step hr hl hm ha ih =>
    obtain ⟨h,k,hk⟩:=ih (by omega)
    obtain ⟨q1,h',k',hb,hkeep⟩:=hk.apply hc (by omega) hl hm
    cases ha.symm.trans hb
    exact ⟨h',k',hkeep⟩

/-- While every `pop_front` fits, the queue is the bounded deque of its elements, and no legal
operation that fits stops at an assertion. -/
theorem shows_of_fits (hc : 2 ≤ size) (hword : size<2^32) (hr : Run Fits size zero q l w) (hw : w<2^31) :
    q.Shows l ∧ ∀ op, q.Legal op → q.Fits op → ∃ q', q.apply op = .ok q' := by
  obtain ⟨h,k,hk⟩:=keeps_of_run hr hc hword hw
  refine ⟨hk.shows hc,fun op hl hf => ?_⟩
  obtain ⟨q',_,_,ha,_⟩:=hk.apply hc hw hl hf
  exact ⟨q',ha⟩

/-- The third element is pushed after the first was popped, and stands in front of the second. -/
theorem shows_of_fits_wrapped : ∃ q : CircularQueue ℕ,q.tail<q.head ∧ q.Shows [8,9] ∧
    ∀ op, q.Legal op → q.Fits op → ∃ q', q.apply op = .ok q' := by
  have hone : Run Fits 3 (0 : ℕ) _ _ _ := .step .init (show Legal _ (.pushBack 7) from trivial) trivial rfl
  have htwo : Run Fits 3 (0 : ℕ) _ _ _ := .step hone (show Legal _ (.pushBack 8) from trivial) trivial rfl
  have hpopped : Run Fits 3 (0 : ℕ) _ _ _ := .step htwo (show Legal _ (.popFront 1) from show 1≤2 by decide)
    (show 1+1<2^32 by decide) rfl
  have hwrapped : Run Fits 3 (0 : ℕ) _ _ _ := .step hpopped (show Legal _ (.pushBack 9) from trivial) trivial rfl
  exact ⟨_,by decide,shows_of_fits (by decide) (by decide) hwrapped (by decide)⟩

theorem exists_filled (hc : 2 ≤ size) (hword : size<2^32) (k : ℕ) (hk : k ≤ size) :
    ∃ q l, Run (fun _ _ => True) size () q l (k/size) ∧ Keeps size q l (k/size) 0 k := by
  induction k with
  | zero =>
    rw [Nat.zero_div]
    exact ⟨_,_,.init,holds_init size () (by omega) hword,rfl,rfl,by rw [Nat.zero_add,Nat.zero_div]⟩
  | succ k ih =>
    obtain ⟨q,l,hr,hkeep⟩:=ih (by omega)
    have hl : q.Legal (.pushBack ()) := trivial
    have ha : q.apply (.pushBack ()) = .ok (q.pushBack ()) := rfl
    have hpush:=hkeep.advance ()
    simp only [if_neg (show ¬k=size by omega)] at hpush
    have hturn : k/size+(if q.increase q.tail=0 then 1 else 0)=(k+1)/size := by
      have hsucc:=position_succ (show 0<size by omega) k
      have hnext:=hkeep.holds.increase_tail
      rw [hkeep.capacity,Nat.zero_add] at hnext
      rw [hnext]
      split_ifs <;> omega
    rw [hturn] at hpush
    have hstep:=hr.step hl trivial ha
    rw [elements,wraps,hturn,hkeep.capacity] at hstep
    exact ⟨_,_,hstep,hpush⟩

theorem popFront_eq {q : CircularQueue α} {n : ℕ} {it : Iter} (hn : n≠0) (hb : q.add q.beginIt n=it)
    (hle : it.le q.endIt=true) : q.popFront n = .ok {q with empty := decide (it=q.endIt), head := it.idx} := by
  rw [CircularQueue.popFront,if_neg hn]
  dsimp only
  rw [hb,if_pos hle]

theorem popFront_full (data : ℕ → Unit) :
    popFront ⟨2^32-1,1,0,false,1,data⟩ (2^32-1) = .ok ⟨2^32-1,0,0,false,1,data⟩ := by
  have hb : beginIt ⟨2^32-1,1,0,false,1,data⟩=⟨1,0⟩ := by
    simp only [beginIt,Bool.false_eq_true,if_false,Nat.zero_lt_one,if_true]
    rfl
  have ha : add ⟨2^32-1,1,0,false,1,data⟩ ⟨1,0⟩ ((2^32-1 : ℕ) : ℤ)=⟨0,1⟩ := by simp [add,moduloAdd,u32]
  have he : endIt ⟨2^32-1,1,0,false,1,data⟩=⟨1,1⟩ := by simp [endIt,moduloAdd,u32]
  have hpop:=popFront_eq (show 2^32-1≠0 by omega) ((congrArg (add _ · _) hb).trans ha) (by rw [he]; decide)
  rw [hpop,he]
  rfl

/-- A full queue whose elements are all popped at once is left with one element. -/
theorem popFront_overflow :
    ¬∀ {q : CircularQueue Unit} {l : List Unit} {w : ℕ}, Run (fun _ _ => True) (2^32-1) () q l w → w<2^31 →
      q.Shows l := by
  intro hall
  obtain ⟨q,l,hr,hkeep⟩:=exists_filled (by decide) (by decide) (2^32-1) le_rfl
  have hq:=hkeep.holds
  have hcap:=hkeep.capacity
  have hhead : q.head=1 := by
    rcases hq.head with hh | ⟨_,hh⟩
    · rw [hh,hcap]
      rfl
    · exact hh
  have htail : q.tail=0 := by rw [hq.tail,hcap]; rfl
  have hround : q.round=1 := by rw [hq.round,hcap]; rfl
  have hempty : q.empty=false := hq.empty
  have hsize:=hq.size
  cases q with
  | mk c hd t e r data =>
    cases hcap
    cases hhead
    cases htail
    cases hround
    cases hempty
    have hl : Legal ⟨2^32-1,1,0,false,1,data⟩ (.popFront (2^32-1)) := hsize.ge
    have hshows:=hall (hr.step hl trivial (popFront_full data)) (show 1+0<2^31 by decide)
    have hnil : l.drop (2^32-1)=[] := List.drop_eq_nil_of_le (by rw [hkeep.window,window_length])
    exact Bool.false_ne_true (hshows.empty.mpr hnil)

end CircularQueue

end AquaGem5.Base
