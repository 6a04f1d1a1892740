import AquaGem5.Base.CircularRuns

/-!
# Ring buffers and byte streams (circlebuf.hh)

The caller's arrays are lists, of a length that a `size_t` and an offset into them can hold. A vector is
saved as the texts of its elements.
-/

namespace AquaGem5.Base
open RingWindow List Nat

namespace CircularQueue

variable {α : Type} (q : CircularQueue α)

def copyOut : ℕ → Iter → List α
  | 0,_ => []
  | n+1,it => q.data it.idx::copyOut n (q.incr it)

def copyIn (data : ℕ → α) : List α → Iter → ℕ → α
  | [],_ => data
  | v::vs,it => copyIn (Function.update data it.idx v) vs (q.incr it)

def advanceTails : ℕ → CircularQueue α → CircularQueue α
  | 0,q => q
  | n+1,q => advanceTails n q.advanceTail

/-- The index of the loop is an `int`. -/
def advanceTailBy (len : ℕ) : Except Fault (CircularQueue α) :=
  if 2^31≤len then .error .overflow else .ok (advanceTails len q)

end CircularQueue

namespace CircleBuf

variable {α : Type} (q : CircularQueue α)

def init (size : ℕ) (zero : α) : CircularQueue α := CircularQueue.init (u32 size) zero

def peek (offset : ℤ) (len : ℕ) : Except Fault (List α) :=
  if q.size<((offset+len)%2^64).toNat then .error .panic
  else
    let first := q.add q.beginIt offset
    .ok (q.copyOut (q.diff (q.add first len) first).toNat first)

def read (len : ℕ) : Except Fault (CircularQueue α × List α) :=
  match peek q 0 len with
  | .error e => .error e
  | .ok out => (q.popFront len).map fun q' => (q',out)

def write (input : List α) : Except Fault (CircularQueue α) :=
  let input := if q.capacity < input.length then input.drop (input.length-q.capacity) else input
  CircularQueue.advanceTailBy {q with data := q.copyIn q.data input q.endIt} input.length

def arrayParamOut (showParam : α → String) : Except Fault (List String) :=
  (peek q 0 q.size).map fun temp => temp.map showParam

def arrayParamIn (parseParam : String → Option α) (cp : List String) : Except Fault (CircularQueue α) :=
  match cp.mapM parseParam with
  | none => .error .fatal
  | some temp => write q.flush temp

end CircleBuf

namespace Fifo

variable {α : Type} (q : CircularQueue α)

def write (input : List α) : Except Fault (CircularQueue α) :=
  if q.capacity<q.size+input.length then .error .panic else CircleBuf.write q input

def arrayParamIn (parseParam : String → Option α) (cp : List String) : Except Fault (CircularQueue α) :=
  match cp.mapM parseParam with
  | none => .error .fatal
  | some temp => if q.capacity<temp.length then .error .fatal else write q.flush temp

end Fifo

namespace CircularQueue

variable {α : Type} {q : CircularQueue α} {it : Iter} {h k p : ℕ}

theorem copyOut_at (hpos : 0<q.capacity) (hword : q.capacity<2^32) (n : ℕ) (hi : q.At it p) :
    q.copyOut n it=window q.data q.capacity p n := by
  induction n generalizing it p with
  | zero => rfl
  | succ n ih => rw [copyOut,ih (hi.incr hpos hword),window_cons,hi.idx]

theorem i32_of_lt {n : ℕ} (hn : n<2^31) : i32 n=n := by
  rw [i32,Int.bmod_def]
  split_ifs <;> omega

theorem At.diff {this that : Iter} {n : ℕ} (hpos : 0<q.capacity) (ht : q.At that p) (hi : q.At this (p+n))
    (hn : n≤q.capacity) (hint : n<2^31) : q.diff this that=n := by
  obtain ⟨hm,hd⟩:=position_add hpos p n
  have hp:=mod_lt p hpos
  rw [CircularQueue.diff,hi.round,ht.round,hi.idx,ht.idx,hm,hd]
  rcases turn hp hn with ⟨h1,h2,h3⟩ | ⟨h1,h2,h3⟩
  · rw [h2,h3,Nat.add_zero,if_pos rfl,sub]
    rcases Nat.eq_zero_or_pos n with rfl | hn0
    · rw [Nat.add_zero,if_neg (Nat.lt_irrefl _),Nat.sub_self,Nat.zero_mod]
      rfl
    · rw [if_pos (by omega),Nat.add_sub_cancel_left,Nat.mod_eq_of_lt (by omega),i32_of_lt hint]
  · have hne : u32 (p/q.capacity+1)≠u32 (p/q.capacity) := by
      simp only [u32]
      omega
    have hone : u32 (u32 (p/q.capacity+1)+(2^32-u32 (p/q.capacity)))=1 := by
      simp only [u32]
      omega
    rw [h2,h3,if_neg hne,hone,sub,if_neg (by omega),
      show p%q.capacity-(p%q.capacity+n-q.capacity)=q.capacity-n by omega]
    have hback : -(((q.capacity-n)%q.capacity : ℕ) : ℤ)+q.capacity=n := by
      rcases lt_or_eq_of_le hn with hlt | heq
      · rw [Nat.mod_eq_of_lt (by omega)]
        omega
      · rw [heq,Nat.sub_self,Nat.zero_mod]
        omega
    rw [i32,i32,Int.bmod_add_bmod,show ((1 : ℕ) : ℤ)=1 from rfl,Int.one_mul,hback]
    exact i32_of_lt hint

theorem copyIn_congr {q r : CircularQueue α} (hc : q.capacity=r.capacity) (vs : List α) (data : ℕ → α) (it : Iter) :
    q.copyIn data vs it=r.copyIn data vs it := by
  induction vs generalizing data it with
  | nil => rfl
  | cons v vs ih =>
    have hi : q.incr it=r.incr it := by rw [CircularQueue.incr,CircularQueue.incr,increase,increase,hc]
    rw [copyIn,copyIn,ih,hi]

theorem add_idx {t : ℕ} (ht : it.idx+t<2^32) : (q.add it t).idx=(it.idx+t)%q.capacity := by
  have h32 : ((t : ℤ)%2^32).toNat=t := by omega
  rw [add,moduloAdd,h32,u32,Nat.mod_eq_of_lt ht]

theorem diff_add_zero (hpos : 0<q.capacity) (hword : q.capacity<2^32) (it : Iter) (t : ℤ) :
    q.diff (q.add (q.add it t) (0 : ℕ)) (q.add it t)=0 := by
  have hidx : (q.add it t).idx<q.capacity := mod_lt _ hpos
  have hround : (q.add it t).round<2^32 := mod_lt _ (by decide)
  generalize q.add it t=first at hidx hround
  have hsame : q.add first (0 : ℕ)=first := by
    have h64 : ((((0 : ℕ) : ℤ)+first.idx)%2^64).toNat=first.idx := by omega
    cases first with
    | mk idx round =>
      have hstay : idx+0<2^32 := by
        dsimp only at hidx
        omega
      rw [Iter.mk.injEq]
      refine ⟨?_,?_⟩
      · exact (add_idx hstay).trans (Nat.mod_eq_of_lt hidx)
      · show u32 (round+((((0 : ℕ) : ℤ)+idx)%2^64).toNat/q.capacity)=round
        rw [h64,div_eq_of_lt hidx]
        exact Nat.mod_eq_of_lt hround
  rw [hsame,diff,if_pos rfl,sub,if_neg (Nat.lt_irrefl _),Nat.sub_self,Nat.zero_mod]
  rfl

theorem advanceTails_copyIn (vs : List α) (q : CircularQueue α) :
    advanceTails vs.length {q with data := q.copyIn q.data vs q.endIt}=vs.foldl pushBack q := by
  induction vs generalizing q with
  | nil => rfl
  | cons v vs ih =>
    have hpush:=ih (q.pushBack v)
    rw [copyIn_congr (q := q.pushBack v) (r := q) rfl] at hpush
    exact hpush

theorem Keeps.pushAll {l : List α} {w size : ℕ} (hk : Keeps size q l w h k) (vs : List α) :
    ∃ w' h' k', Keeps size (vs.foldl CircularQueue.pushBack q) (lastOf size (l++vs)) w' h' k' := by
  induction vs generalizing q l w h k with
  | nil =>
    have hlen : l.length ≤ size := by
      rw [hk.window,window_length,← hk.capacity]
      exact hk.holds.fits
    rw [append_nil,lastOf_of_le hlen]
    exact ⟨w,h,k,hk⟩
  | cons v vs ih =>
    have hpush : Keeps size (q.pushBack v) _ _ _ _ := hk.advance v
    have hall:=ih hpush
    rw [lastOf_append_lastOf,append_assoc] at hall
    exact hall

end CircularQueue

namespace CircleBuf

variable {α : Type} {q : CircularQueue α} {l : List α} {size w h k : ℕ}

open CircularQueue (Keeps)

/-- A read before the head, or of an array beyond the address space, does not fit; nor does a sum or a
difference of iterators that leaves its 32-bit type. -/
def FitsPeek (q : CircularQueue α) (offset : ℤ) (len : ℕ) : Prop :=
  0≤offset ∧ offset+len<2^64 ∧ (len=0 ∨
    (q.beginIt.idx+offset.toNat<2^32 ∧ (q.beginIt.idx+offset.toNat)%q.capacity+len<2^32 ∧ len<2^31))

theorem keeps_write (hk : Keeps size q l w h k) {input : List α} (hfit : min input.length size<2^31) :
    ∃ q', write q input = .ok q' ∧ ∃ w' h' k', Keeps size q' (lastOf size (l++input)) w' h' k' := by
  have hcap:=hk.capacity
  rw [write]
  by_cases hlong : q.capacity < input.length
  · have hlen : (input.drop (input.length-q.capacity)).length=size := by
      rw [length_drop]
      omega
    rw [if_pos hlong,CircularQueue.advanceTailBy,if_neg (by omega),CircularQueue.advanceTails_copyIn]
    refine ⟨_,rfl,?_⟩
    have hall:=hk.pushAll (input.drop (input.length-q.capacity))
    rw [lastOf_append_of_le _ hlen.ge,lastOf_of_le hlen.le,hcap] at hall
    rw [lastOf_append_of_le _ (by omega),lastOf,hcap]
    exact hall
  · rw [if_neg hlong,CircularQueue.advanceTailBy,if_neg (by omega),CircularQueue.advanceTails_copyIn]
    exact ⟨_,rfl,hk.pushAll input⟩

theorem keeps_peek (hk : Keeps size q l w h k) {offset len : ℕ} (hfit : FitsPeek q offset len) : peek q offset len =
      if offset+len≤l.length then .ok ((l.drop offset).take len) else .error .panic := by
  obtain ⟨_,h64,hfit⟩:=hfit
  have hq:=hk.holds
  have hlen : l.length=k := by rw [hk.window,window_length]
  have hcap:=hk.capacity
  have hfits:=hq.fits
  have hsum : (((offset : ℤ)+len)%2^64).toNat=offset+len := by omega
  rw [peek,hq.size,hsum,hlen]
  by_cases hle : offset+len≤k
  · rw [if_pos hle,if_neg (by omega)]
    dsimp only
    rcases hfit with rfl | ⟨h1,h2,h3⟩
    · rw [CircularQueue.diff_add_zero hq.pos hq.word,take_zero]
      rfl
    · rw [Int.toNat_natCast] at h1 h2
      have hfirst:=CircularQueue.add_at hq.pos hq.beginIt h1
      have hidx : (q.add q.beginIt offset).idx+len<2^32 := by
        rw [CircularQueue.add_idx h1]
        exact h2
      have hlast:=CircularQueue.add_at hq.pos (.inl hfirst) hidx
      rw [hfirst.diff hq.pos hlast (by omega) h3,Int.toNat_natCast,
        CircularQueue.copyOut_at hq.pos hq.word len hfirst,hk.window,window_drop _ (by omega),
        window_take _ (by omega),hcap]
  · rw [if_neg hle,if_pos (by omega)]

/-- The end has not started the round numbers anew behind the elements that are left. -/
def InOrder (q : CircularQueue α) (n : ℕ) : Prop :=
  ¬(q.head+n<q.capacity ∧
    ((q.round=0 ∧ q.tail<q.head) ∨ (q.round=2^32-1 ∧ q.tail+1=q.capacity)))

def FitsRead (q : CircularQueue α) (len : ℕ) : Prop :=
  len<2^64 ∧ (len=0 ∨ (q.beginIt.idx+len<2^32 ∧ len<2^31 ∧ InOrder q len))

theorem FitsRead.peek {len : ℕ} (hf : FitsRead q len) : FitsPeek q (0 : ℕ) len := by
  obtain ⟨h64,hf⟩:=hf
  refine ⟨le_rfl,by omega,hf.imp_right fun ⟨h1,h2,_⟩ => ?_⟩
  have hle:=mod_le (q.beginIt.idx+0) q.capacity
  rw [Int.toNat_natCast]
  exact ⟨by omega,by omega,h2⟩

theorem rounds_inOrder (hq : q.Holds h k) {n : ℕ} (hn : n≤k) (hn0 : 0<n) (ho : InOrder q n) :
    u32 ((h+1+n)/q.capacity)≤u32 ((h+1+k)/q.capacity) := by
  have hfits:=hq.fits
  have hround:=hq.round
  obtain ⟨ha,hends⟩:=hq.ends (by omega)
  have hdn:=(position_add hq.pos (h+1) n).2
  have hdk:=(position_add hq.pos (h+1) k).2
  have hhead : q.head+n<q.capacity ↔ (h+1)%q.capacity+n<q.capacity := by
    rcases hq.head with hh | ⟨hc,hh⟩ <;> omega
  rw [InOrder,hhead] at ho
  simp only [u32] at hround ⊢
  rcases turn ha (show n≤q.capacity by omega) with ⟨a1,_,a3⟩ | ⟨a1,_,a3⟩ <;>
    rcases turn ha hfits with ⟨b1,_,b3⟩ | ⟨b1,_,b3⟩ <;>
    rcases hends with ⟨c1,c2,c3⟩ | ⟨c1,c2,c3⟩ <;>
    rcases hq.head with hh | ⟨hc,hh⟩ <;> omega

theorem keeps_read (hk : Keeps size q l w h k) {len : ℕ} (hfit : FitsRead q len) : if len≤l.length then
      ∃ q', read q len = .ok (q',l.take len) ∧ ∃ w' h' k', Keeps size q' (l.drop len) w' h' k'
    else read q len = .error .panic := by
  have hq:=hk.holds
  have hcap:=hk.capacity
  have hlen : l.length=k := by rw [hk.window,window_length]
  have hpeek:=keeps_peek hk hfit.peek
  rw [Nat.zero_add,drop_zero] at hpeek
  split
  case isFalse hle =>
    rw [if_neg hle] at hpeek
    rw [read,show (0 : ℤ)=((0 : ℕ) : ℤ) from rfl,hpeek]
  case isTrue hle =>
    rw [if_pos hle] at hpeek
    rw [read,show (0 : ℤ)=((0 : ℕ) : ℤ) from rfl,hpeek]
    have hpop : ∃ q', q.popFront len = .ok q' ∧ q'.Holds (h+len) (k-len) ∧ q'.capacity=q.capacity ∧
        q'.data=q.data := by
      rcases hfit.2 with rfl | ⟨h1,_,h3⟩
      · exact ⟨q,rfl,hq,rfl,rfl⟩
      · rcases Nat.eq_zero_or_pos len with rfl | hpos
        · exact ⟨q,rfl,hq,rfl,rfl⟩
        · exact hq.popFront (hlen ▸ hle) h1 (rounds_inOrder hq (hlen ▸ hle) hpos h3)
    obtain ⟨q',hpop,hholds,hc,hd⟩:=hpop
    dsimp only
    rw [hpop]
    refine ⟨q',rfl,w,_,_,hholds,hc.trans hcap,?_,?_⟩
    · rw [hk.window,window_drop _ (hlen ▸ hle),hd,show h+len+1=h+1+len by omega]
    · rw [show h+len+(k-len)=h+k by omega]
      exact hk.turns

end CircleBuf

inductive StreamOp (α : Type) where
  | write (input : List α)
  | read (len : ℕ)
  | peek (offset : ℤ) (len : ℕ)

section Streams

open CircularQueue (Keeps)

variable {α : Type} {q : CircularQueue α} {l : List α} {size : ℕ} {zero : α} {fifo : Bool}

/-- A call of a `Fifo` or a `CircleBuf`. A `Fifo` only peeks from offset 0. -/
def step (fifo : Bool) (q : CircularQueue α) : StreamOp α → Except Fault (CircularQueue α × List α)
  | .write input => (if fifo then Fifo.write q input else CircleBuf.write q input).map fun q' => (q',[])
  | .read len => CircleBuf.read q len
  | .peek offset len => (CircleBuf.peek q offset len).map fun out => (q,out)

/-- Whether the call panics: a read of elements that are not there, or a write that overfills a `Fifo`. -/
def Panics (fifo : Bool) (size : ℕ) (l : List α) : StreamOp α → Prop
  | .write input => fifo=true ∧ size<l.length+input.length
  | .read len => l.length<len
  | .peek offset len => l.length<offset+len

def left (fifo : Bool) (size : ℕ) (l : List α) : StreamOp α → List α
  | .write input => if fifo then l++input else lastOf size (l++input)
  | .read len => l.drop len
  | .peek _ _ => l

def out (l : List α) : StreamOp α → List α
  | .write _ => []
  | .read len => l.take len
  | .peek offset len => (l.drop offset.toNat).take len

/-- No 32-bit type of the call overflows. -/
def FitsStream (q : CircularQueue α) : StreamOp α → Prop
  | .write input => min input.length q.capacity<2^31
  | .read len => CircleBuf.FitsRead q len
  | .peek offset len => CircleBuf.FitsPeek q offset len

/-- The runs of calls that meet a condition and return, with the unread elements. -/
inductive StreamRun (Meets : CircularQueue α → StreamOp α → Prop) (fifo : Bool) (size : ℕ) (zero : α) :
    CircularQueue α → List α → Prop
  | init : StreamRun Meets fifo size zero (CircleBuf.init size zero) []
  | step {q q' : CircularQueue α} {l o : List α} {op : StreamOp α} (hr : StreamRun Meets fifo size zero q l)
      (hm : Meets q op) (hs : step fifo q op = .ok (q',o)) : StreamRun Meets fifo size zero q' (left fifo size l op)

theorem keeps_step {w h k : ℕ} (hk : Keeps size q l w h k) {op : StreamOp α} (hf : FitsStream q op) :
    (Panics fifo size l op → step fifo q op = .error .panic) ∧
      (¬Panics fifo size l op → ∃ q', step fifo q op = .ok (q',out l op) ∧
        ∃ w' h' k', Keeps size q' (left fifo size l op) w' h' k') := by
  have hq:=hk.holds
  have hcap:=hk.capacity
  have hlen : l.length=k := by rw [hk.window,window_length]
  cases op with
  | write input =>
    rw [FitsStream,hcap] at hf
    obtain ⟨q',hw,hkeep⟩:=CircleBuf.keeps_write hk hf
    cases fifo with
    | false =>
      refine ⟨fun hp => (by cases hp.1),fun _ => ⟨q',?_,hkeep⟩⟩
      rw [step,if_neg Bool.false_ne_true,hw]
      rfl
    | true =>
      rw [step,if_pos rfl,Fifo.write,hq.size,hcap,← hlen]
      constructor
      · intro hp
        rw [if_pos hp.2]
        rfl
      · intro hp
        have hle : l.length+input.length ≤ size := Nat.le_of_not_lt fun hlt => hp ⟨rfl,hlt⟩
        rw [if_neg (by omega),hw]
        refine ⟨q',rfl,?_⟩
        rw [left,if_pos rfl,← lastOf_of_le (n := size) (l := l++input) (by rwa [length_append])]
        exact hkeep
  | read len =>
    have hread:=CircleBuf.keeps_read hk hf
    constructor
    · intro hp
      rw [if_neg (Nat.not_le_of_lt hp)] at hread
      exact hread
    · intro hp
      rw [if_pos (Nat.le_of_not_lt hp)] at hread
      exact hread
  | peek offset len =>
    obtain ⟨o,rfl⟩:=Int.eq_ofNat_of_zero_le hf.1
    have hpeek:=CircleBuf.keeps_peek hk hf
    rw [step,hpeek]
    constructor
    · intro hp
      have hlt : ¬o+len≤l.length := fun hle => by
        rw [Panics] at hp
        omega
      rw [if_neg hlt]
      rfl
    · intro hp
      have hle : o+len≤l.length := by
        rw [Panics] at hp
        omega
      rw [if_pos hle]
      exact ⟨q,rfl,w,h,k,hk⟩

theorem keeps_of_streamRun (hr : StreamRun FitsStream fifo size zero q l) (hsize : 0<size) (hword : size<2^32) :
    ∃ w h k, Keeps size q l w h k := by
  induction hr with
  | init =>
    have hu : u32 size=size := Nat.mod_eq_of_lt hword
    rw [CircleBuf.init,hu]
    exact ⟨0,0,0,CircularQueue.holds_init size zero hsize hword,rfl,rfl,by rw [Nat.zero_add,Nat.zero_div]⟩
  | @step q q' l o op hr hm hs ih =>
    obtain ⟨w,h,k,hk⟩:=ih
    by_cases hp : Panics fifo size l op
    · rw [(keeps_step hk hm).1 hp] at hs
      cases hs
    · obtain ⟨q1,hs1,hkeep⟩:=(keeps_step hk hm).2 hp
      cases hs.symm.trans hs1
      exact hkeep

/-- The buffer is a stream of the unread elements: every call that fits returns them in order, or panics. -/
structure Streams (fifo : Bool) (size : ℕ) (q : CircularQueue α) (l : List α) : Prop where
  held : q.size=l.length
  bound : l.length ≤ size
  panics : ∀ op, FitsStream q op → Panics fifo size l op → step fifo q op = .error .panic
  returns : ∀ op, FitsStream q op → ¬Panics fifo size l op → ∃ q', step fifo q op = .ok (q',out l op)

theorem streams_of_keeps {w h k : ℕ} (hk : Keeps size q l w h k) : Streams fifo size q l := by
  have hlen : l.length=k := by rw [hk.window,window_length]
  refine ⟨by rw [hk.holds.size,hlen],by rw [hlen,← hk.capacity]; exact hk.holds.fits,
    fun op hf => (keeps_step hk hf).1,fun op hf hp => ?_⟩
  obtain ⟨q',hs,_⟩:=(keeps_step hk hf).2 hp
  exact ⟨q',hs⟩

def restore (fifo : Bool) (q : CircularQueue α) (parseParam : String → Option α) (cp : List String) :
    Except Fault (CircularQueue α) :=
  if fifo then Fifo.arrayParamIn q parseParam cp else CircleBuf.arrayParamIn q parseParam cp

theorem mapM_parse {showParam : α → String} {parseParam : String → Option α}
    (hsp : ∀ a, parseParam (showParam a)=some a) (l : List α) : (l.map showParam).mapM parseParam=some l := by
  induction l with
  | nil => rfl
  | cons a l ih => simp only [map_cons,mapM_cons,hsp,ih,Option.bind_eq_bind,Option.bind_some,Option.pure_def]

theorem keeps_restore (fifo : Bool) {w h k size' : ℕ} {r : CircularQueue α} {m : List α} (hk : Keeps size' r m w h k)
    {showParam : α → String} {parseParam : String → Option α} (hsp : ∀ a, parseParam (showParam a)=some a)
    (hl : l.length ≤ size') (hfit : l.length<2^31) :
    ∃ r', restore fifo r parseParam (l.map showParam) = .ok r' ∧ ∃ w' h' k', Keeps size' r' l w' h' k' := by
  have hflush:=hk.flush
  have hcap:=hk.capacity
  have hmin : min l.length size'<2^31 := by omega
  obtain ⟨r',hw,hkeep⟩:=CircleBuf.keeps_write hflush hmin
  rw [nil_append,lastOf_of_le hl] at hkeep
  refine ⟨r',?_,hkeep⟩
  cases fifo with
  | false =>
    rw [restore,if_neg Bool.false_ne_true,CircleBuf.arrayParamIn,mapM_parse hsp]
    exact hw
  | true =>
    rw [restore,if_pos rfl,Fifo.arrayParamIn,mapM_parse hsp]
    dsimp only
    rw [if_neg (by omega),Fifo.write,hflush.holds.size,if_neg (by rw [hflush.capacity]; omega)]
    exact hw

/-- While no 32-bit type overflows, a buffer is the stream of its unread elements, and a buffer of at
least the same size is restored to them from a checkpoint. -/
theorem streams_of_fits (hsize : 0<size) (hword : size<2^32) (hr : StreamRun FitsStream fifo size zero q l) :
    Streams fifo size q l ∧
      ∀ (showParam : α → String) (parseParam : String → Option α), (∀ a, parseParam (showParam a)=some a) →
        CircleBuf.FitsPeek q 0 l.length →
        CircleBuf.arrayParamOut q showParam = .ok (l.map showParam) ∧
          ∀ {size' : ℕ} {zero' : α} {r : CircularQueue α} {m : List α}, StreamRun FitsStream fifo size' zero' r m →
            size ≤ size' → size'<2^32 → l.length<2^31 →
            ∃ r', restore fifo r parseParam (l.map showParam) = .ok r' ∧ Streams fifo size' r' l := by
  obtain ⟨w,h,k,hk⟩:=keeps_of_streamRun hr hsize hword
  have hstream : Streams fifo size q l := streams_of_keeps hk
  refine ⟨hstream,fun showParam parseParam hsp hfit => ⟨?_,?_⟩⟩
  · have hpeek:=CircleBuf.keeps_peek hk hfit
    rw [Nat.zero_add,if_pos le_rfl,List.drop_zero,List.take_length] at hpeek
    rw [CircleBuf.arrayParamOut,hstream.held,show (0 : ℤ)=((0 : ℕ) : ℤ) from rfl,hpeek]
    rfl
  · intro size' zero' r m hr' hle hword' hl
    obtain ⟨w1,h₁,k1,hk1⟩:=keeps_of_streamRun hr' (by omega) hword'
    obtain ⟨r',hrest,_,_,_,hkeep⟩:=keeps_restore fifo hk1 hsp (hstream.bound.trans hle) hl
    exact ⟨r',hrest,streams_of_keeps hkeep⟩

def showBool (b : Bool) : String := if b then "true" else "false"

def parseBool (s : String) : Option Bool :=
  if s = "true" then some true else if s = "false" then some false else none

/-- The second write overwrites the element of the first. -/
theorem streams_of_fits_wrapped :
    ∃ q : CircularQueue Bool, Streams false 2 q [false,true] ∧ CircleBuf.arrayParamOut q showBool = .ok ["false","true"] ∧
      ∃ r', restore false (CircleBuf.init 3 false) parseBool ["false","true"] = .ok r' ∧ Streams false 3 r' [false,true] := by
  have hwrites : ∃ q1 q2, step false (CircleBuf.init 2 false) (.write [true]) = .ok (q1,[]) ∧
      step false q1 (.write [false,true]) = .ok (q2,[]) ∧ FitsStream q1 (.write [false,true]) ∧ CircleBuf.FitsPeek q2 0 2 :=
    ⟨_,_,rfl,rfl,show min 2 2<2^31 by decide,le_rfl,by decide,.inr (by decide)⟩
  obtain ⟨q1,q2,hone,htwo,hfits,hpeek⟩:=hwrites
  have hfirst : FitsStream (CircleBuf.init 2 false) (.write [true]) := show min 1 2<2^31 by decide
  have hrun : StreamRun FitsStream false 2 false q2 [false,true] := .step (.step .init hfirst hone) hfits htwo
  obtain ⟨hstream,hsave⟩:=streams_of_fits (by decide) (by decide) hrun
  have hparse : ∀ b, parseBool (showBool b)=some b := by decide
  obtain ⟨hout,hrestore⟩:=hsave showBool parseBool hparse hpeek
  exact ⟨_,hstream,hout,hrestore .init (by decide) (by decide) (by decide)⟩

/-- A buffer of `2^32 + 1` elements has the capacity 1. -/
theorem size_truncated :
    ¬∀ {size : ℕ} {q : CircularQueue ℕ} {l : List ℕ}, 0<size → StreamRun (fun _ _ => True) false size 0 q l →
      Streams false size q l := by
  intro hall
  have hwrite : ∃ q', step false (CircleBuf.init (2^32+1) 0) (.write [1,2]) = .ok (q',[]) ∧ q'.size=1 :=
    ⟨_,rfl,by decide⟩
  obtain ⟨q',hs,hsize⟩:=hwrite
  have hheld:=(hall (Nat.succ_pos _) (StreamRun.init.step trivial hs)).held
  rw [hsize,left,if_neg Bool.false_ne_true,lastOf_length] at hheld
  cases hheld

end Streams

end AquaGem5.Base
