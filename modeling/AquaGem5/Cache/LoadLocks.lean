import Mathlib.Order.CompletePartialOrder
import Mathlib.Order.Interval.Set.LinearOrder
import Mathlib.Data.Set.Lattice
import AquaGem5.Cache.SectorBlk
import AquaGem5.Lib.Since

/-!
# Load-linked and store-conditional in a cache block (cache_blk.hh)
-/

namespace AquaGem5.Cache
open Address History

/-- What the locks read of a request, whose bytes do not wrap. -/
structure Req where
  contextId : ℤ
  paddr : Addr
  size : ℕ
  pos : 0<size
  inside : paddr.toNat+size≤2^64
  deriving DecidableEq

def Req.high (r : Req) : Addr := r.paddr+BitVec.ofNat 64 r.size-1

def Req.bytes (r : Req) : Set ℕ := Set.Ico r.paddr.toNat (r.paddr.toNat+r.size)

structure Lock where
  contextId : ℤ
  lowAddr : Addr
  highAddr : Addr
  deriving DecidableEq

namespace Lock

def bytes (l : Lock) : Set ℕ := Set.Icc l.lowAddr.toNat l.highAddr.toNat

def ofReq (r : Req) : Lock := ⟨r.contextId,r.paddr,r.high⟩

def matchesReq (l : Lock) (r : Req) : Bool :=
  decide (l.contextId=r.contextId)&&decide (l.lowAddr≤r.paddr)&&decide (r.high≤l.highAddr)

def intersects (l : Lock) (r : Req) : Bool := decide (r.paddr≤l.highAddr)&&decide (l.lowAddr≤r.high)

end Lock

structure LockedBlk extends CacheBlk where
  lockList : List Lock

namespace LockedBlk

def invalidated : LockedBlk := ⟨CacheBlk.invalidated,[]⟩

variable (b : LockedBlk) (r : Req)

def trackLoadLocked : LockedBlk :=
  {b with lockList := Lock.ofReq r::b.lockList.filter fun l => !l.intersects r}

def clearLoadLocks : LockedBlk :=
  {b with lockList := b.lockList.filter fun l => !(l.intersects r&&decide (l.contextId≠r.contextId))}

/-- The loop of a store-conditional: whether a lock matches, and the list without the first that does. -/
def consume : List Lock → Bool × List Lock
  | [] => (false,[])
  | l::ls => if l.matchesReq r then (true,ls) else ((consume ls).1,l::(consume ls).2)

/-- The result, the extra data of the request if it is set, and the block. -/
def checkWrite (isLLSC : Bool) : Bool × Option Bool × LockedBlk :=
  if !isLLSC&&b.lockList.isEmpty then (true,none,b)
  else if isLLSC then
    let (success,locks) := consume r b.lockList
    (success,some success,({b with lockList := locks} : LockedBlk).clearLoadLocks r)
  else (true,none,b.clearLoadLocks r)

end LockedBlk

inductive LockOp where
  | trackLoadLocked (r : Req)
  | checkWrite (isLLSC : Bool) (r : Req)
  | clearLoadLocks (r : Req)
  | invalidate
  deriving DecidableEq

structure LockEvent where
  op : LockOp
  answer : Bool
  deriving DecidableEq

namespace LockedBlk

def apply (b : LockedBlk) : LockOp → Bool × LockedBlk
  | .trackLoadLocked r => (true,b.trackLoadLocked r)
  | .checkWrite isLLSC r => ((b.checkWrite r isLLSC).1,(b.checkWrite r isLLSC).2.2)
  | .clearLoadLocks r => (true,b.clearLoadLocks r)
  | .invalidate => (true,invalidated)

def runLocks : List LockOp → LockedBlk × List LockEvent
  | ops => ops.foldl (fun s op => ((s.1.apply op).2,s.2++[⟨op,(s.1.apply op).1⟩])) (invalidated,[])

end LockedBlk

/-- The events that end the load-linked `q`. A `clearLoadLocks` counts as the write of its request. -/
def Ends (q : Req) (e : LockEvent) : Prop :=
  match e.op with
  | .trackLoadLocked r => ¬Disjoint r.bytes q.bytes
  | .checkWrite isLLSC r => (r.contextId≠q.contextId ∧ ¬Disjoint r.bytes q.bytes) ∨
      (isLLSC=true ∧ e.answer=true ∧ r.contextId=q.contextId ∧ r.bytes ⊆ q.bytes)
  | .clearLoadLocks r => r.contextId≠q.contextId ∧ ¬Disjoint r.bytes q.bytes
  | .invalidate => True

def Linked (h : List LockEvent) (q : Req) : Prop :=
  Since (fun e => e.op = .trackLoadLocked q) (Ends q) h

namespace Lock

theorem high_toNat (r : Req) : r.high.toNat=r.paddr.toNat+r.size-1 := by
  have hp:=r.pos
  have hi:=r.inside
  rw [Req.high,BitVec.toNat_sub,BitVec.toNat_add,BitVec.toNat_ofNat,show (1 : Addr).toNat=1 from rfl]
  omega

theorem ofReq_injective : Function.Injective ofReq := by
  intro p q h
  obtain ⟨hc,hl,hh⟩:=Lock.mk.inj h
  have hsz : p.size=q.size := by
    have hn:=congrArg BitVec.toNat hh
    rw [high_toNat,high_toNat,hl] at hn
    have hp:=p.pos
    have hq:=q.pos
    omega
  cases p
  cases q
  cases hc
  cases hl
  cases hsz
  rfl

theorem ofReq_bytes (q : Req) : (ofReq q).bytes=q.bytes := by
  have hp:=q.pos
  ext x
  simp only [bytes,ofReq,Req.bytes,high_toNat,Set.mem_Icc,Set.mem_Ico]
  omega

theorem intersects_iff (q r : Req) : (ofReq q).intersects r=true ↔ ¬Disjoint r.bytes q.bytes := by
  have hp:=q.pos
  have hr:=r.pos
  simp only [intersects,ofReq,Bool.and_eq_true,decide_eq_true_eq,BitVec.le_def,high_toNat]
  rw [Set.not_disjoint_iff]
  simp only [Req.bytes,Set.mem_Ico]
  constructor
  · intro ⟨h1,h2⟩
    exact ⟨max q.paddr.toNat r.paddr.toNat,by omega,by omega⟩
  · intro ⟨x,h1,h2⟩
    omega

theorem matchesReq_iff (q r : Req) : (ofReq q).matchesReq r=true ↔ q.contextId=r.contextId ∧ r.bytes ⊆ q.bytes := by
  have hp:=q.pos
  have hr:=r.pos
  simp only [matchesReq,ofReq,Bool.and_eq_true,decide_eq_true_eq,BitVec.le_def,high_toNat,and_assoc]
  refine and_congr decide_eq_true_iff ?_
  rw [Req.bytes,Req.bytes,Set.Ico_subset_Ico_iff (by omega)]
  omega

end Lock

namespace LockedBlk

structure Apart (ls : List Lock) : Prop where
  held : ∀ l∈ls, ∃ q, Lock.ofReq q=l
  apart : ls.Pairwise fun l m => Disjoint l.bytes m.bytes

theorem Apart.of_sublist {ls ms : List Lock} (h : Apart ls) (hs : ms.Sublist ls) : Apart ms :=
  ⟨fun l hl => h.held l (hs.subset hl),h.apart.sublist hs⟩

theorem apart_trackLoadLocked (b : LockedBlk) (r : Req) (h : Apart b.lockList) :
    Apart (b.trackLoadLocked r).lockList := by
  have hrest:=h.of_sublist (List.filter_sublist (p := fun l => !l.intersects r))
  refine ⟨fun l hl => ?_,List.Pairwise.cons (fun l hl => ?_) hrest.apart⟩
  · rcases List.mem_cons.mp hl with rfl | hl
    · exact ⟨r,rfl⟩
    · exact hrest.held l hl
  · obtain ⟨q,rfl⟩:=hrest.held l hl
    have hno:=(List.mem_filter.mp hl).2
    rw [Bool.not_eq_true',← Bool.not_eq_true,Lock.intersects_iff,not_not] at hno
    rw [Lock.ofReq_bytes,Lock.ofReq_bytes]
    exact hno

theorem mem_trackLoadLocked (b : LockedBlk) (r q : Req) : Lock.ofReq q∈(b.trackLoadLocked r).lockList ↔
      q=r ∨ (Lock.ofReq q∈b.lockList ∧ Disjoint r.bytes q.bytes) := by
  rw [trackLoadLocked,List.mem_cons,Lock.ofReq_injective.eq_iff,List.mem_filter,Bool.not_eq_true',
    ← Bool.not_eq_true,Lock.intersects_iff,not_not]

theorem mem_clearLoadLocks (b : LockedBlk) (r q : Req) : Lock.ofReq q∈(b.clearLoadLocks r).lockList ↔
      Lock.ofReq q∈b.lockList ∧ ¬(r.contextId≠q.contextId ∧ ¬Disjoint r.bytes q.bytes) := by
  rw [clearLoadLocks,List.mem_filter,Bool.not_eq_true',← Bool.not_eq_true,Bool.and_eq_true,Lock.intersects_iff,
    decide_eq_true_eq,show (Lock.ofReq q).contextId=q.contextId from rfl,and_comm (b := q.contextId≠_),
    ne_comm]

theorem consume_sublist (r : Req) (ls : List Lock) : (consume r ls).2.Sublist ls := by
  induction ls with
  | nil => exact .slnil
  | cons l ls ih =>
    rw [consume]
    split
    · exact List.sublist_cons_self l ls
    · exact ih.cons_cons l

theorem consume_fst (r : Req) (ls : List Lock) : (consume r ls).1=true ↔ ∃ l∈ls,l.matchesReq r=true := by
  induction ls with
  | nil => simp [consume]
  | cons l ls ih =>
    rw [consume]
    split
    case isTrue h => simp [h]
    case isFalse h => simp [h,ih]

theorem mem_consume {ls : List Lock} (h : Apart ls) (r q : Req) :
    Lock.ofReq q∈(consume r ls).2 ↔ Lock.ofReq q∈ls ∧ ¬(q.contextId=r.contextId ∧ r.bytes ⊆ q.bytes) := by
  rw [← Lock.matchesReq_iff]
  induction ls with
  | nil => simp [consume]
  | cons l ls ih =>
    have hfirst:=(List.pairwise_cons.mp h.apart).1
    obtain ⟨p,rfl⟩:=h.held l (List.mem_cons_self ..)
    rw [consume]
    split
    case isTrue hl =>
      have hp:=((Lock.matchesReq_iff p r).mp hl).2
      rw [List.mem_cons,Lock.ofReq_injective.eq_iff]
      constructor
      · intro hq
        refine ⟨.inr hq,fun hm => ?_⟩
        have hd:=hfirst _ hq
        rw [Lock.ofReq_bytes,Lock.ofReq_bytes] at hd
        have hr : r.paddr.toNat∈r.bytes := Set.left_mem_Ico.mpr (Nat.lt_add_of_pos_right r.pos)
        exact Set.disjoint_left.mp hd (hp hr) (((Lock.matchesReq_iff q r).mp hm).2 hr)
      · intro ⟨hq,hm⟩
        rcases hq with rfl | hq
        · exact (hm hl).elim
        · exact hq
    case isFalse hl =>
      rw [List.mem_cons,List.mem_cons,ih (h.of_sublist (List.sublist_cons_self ..)),Lock.ofReq_injective.eq_iff,
        or_and_right]
      refine or_congr_left (iff_self_and.mpr ?_)
      intro hq
      rw [hq]
      exact hl

theorem checkWrite_answer (b : LockedBlk) (r : Req) :
    (b.checkWrite r true).1=true ↔ ∃ l∈b.lockList,l.matchesReq r=true := by
  rw [← consume_fst]
  rfl

theorem checkWrite_plain (b : LockedBlk) (r : Req) :
    (b.checkWrite r false).1=true ∧ (b.checkWrite r false).2.2.lockList=(b.clearLoadLocks r).lockList := by
  rw [checkWrite]
  split
  case isTrue h =>
    rw [Bool.and_eq_true,List.isEmpty_iff] at h
    simp only [clearLoadLocks,h.2,List.filter_nil,and_self]
  case isFalse => simp

theorem apart_apply (b : LockedBlk) (op : LockOp) (h : Apart b.lockList) : Apart (b.apply op).2.lockList := by
  cases op with
  | trackLoadLocked r => exact apart_trackLoadLocked b r h
  | clearLoadLocks r => exact h.of_sublist List.filter_sublist
  | invalidate => exact ⟨fun l hl => (List.not_mem_nil hl).elim,List.Pairwise.nil⟩
  | checkWrite isLLSC r =>
    cases isLLSC with
    | false =>
      rw [apply,(checkWrite_plain b r).2]
      exact h.of_sublist List.filter_sublist
    | true => exact h.of_sublist (List.filter_sublist.trans (consume_sublist r b.lockList))

theorem mem_apply (b : LockedBlk) (op : LockOp) (h : Apart b.lockList) (q : Req) :
    Lock.ofReq q∈(b.apply op).2.lockList ↔
      op = .trackLoadLocked q ∨ (Lock.ofReq q∈b.lockList ∧ ¬Ends q ⟨op,(b.apply op).1⟩) := by
  cases op with
  | trackLoadLocked r =>
    rw [apply,mem_trackLoadLocked,LockOp.trackLoadLocked.injEq,eq_comm,Ends,not_not]
  | clearLoadLocks r =>
    rw [apply,mem_clearLoadLocks,Ends,or_iff_right (fun hf => by cases hf)]
  | invalidate => simp [apply,invalidated,Ends]
  | checkWrite isLLSC r =>
    rw [or_iff_right (fun hf => by cases hf)]
    cases isLLSC with
    | false =>
      rw [apply,(checkWrite_plain b r).2,mem_clearLoadLocks,Ends]
      simp only [Bool.false_eq_true,false_and,or_false]
    | true =>
      have hmem : Lock.ofReq q∈(b.apply (.checkWrite true r)).2.lockList ↔
          Lock.ofReq q∈(consume r b.lockList).2 ∧ ¬(r.contextId≠q.contextId ∧ ¬Disjoint r.bytes q.bytes) :=
        mem_clearLoadLocks {b with lockList := (consume r b.lockList).2} r q
      rw [hmem,mem_consume h,Ends,apply,and_assoc]
      refine and_congr_right fun hq => ?_
      have hanswer : q.contextId=r.contextId ∧ r.bytes ⊆ q.bytes → (b.checkWrite r true).1=true :=
        fun hm => (checkWrite_answer b r).mpr ⟨_,hq,(Lock.matchesReq_iff q r).mpr hm⟩
      simp only [true_and]
      tauto

theorem runLocks_snoc (ops : List LockOp) (op : LockOp) : runLocks (ops++[op]) =
      (((runLocks ops).1.apply op).2,(runLocks ops).2++[⟨op,((runLocks ops).1.apply op).1⟩]) := by
  rw [runLocks,List.foldl_append]
  rfl

theorem apart_runLocks (ops : List LockOp) : Apart (runLocks ops).1.lockList := by
  induction ops using List.reverseRecOn with
  | nil => exact ⟨fun l hl => (List.not_mem_nil hl).elim,List.Pairwise.nil⟩
  | append_singleton ops op ih =>
    rw [runLocks_snoc]
    exact apart_apply _ op ih

theorem mem_runLocks (ops : List LockOp) (q : Req) :
    Lock.ofReq q∈(runLocks ops).1.lockList ↔ Linked (runLocks ops).2 q := by
  induction ops using List.reverseRecOn with
  | nil => simp [runLocks,invalidated,Linked]
  | append_singleton ops op ih =>
    rw [runLocks_snoc,mem_apply _ op (apart_runLocks ops),Linked,since_snoc,ih]
    rfl

theorem checkWrite_storeConditional (ops : List LockOp) (r : Req) :
    (runLocks ops).1.lockList.Pairwise (fun l m => Disjoint l.bytes m.bytes) ∧
      (((runLocks ops).1.checkWrite r true).1=true ↔
        ∃ q, q.contextId=r.contextId ∧ r.bytes ⊆ q.bytes ∧ Linked (runLocks ops).2 q) := by
  refine ⟨(apart_runLocks ops).apart,?_⟩
  rw [checkWrite_answer]
  constructor
  · intro ⟨l,hl,hm⟩
    obtain ⟨q,rfl⟩:=(apart_runLocks ops).held l hl
    obtain ⟨hc,hb⟩:=(Lock.matchesReq_iff q r).mp hm
    exact ⟨q,hc,hb,(mem_runLocks ops q).mp hl⟩
  · intro ⟨q,hc,hb,hq⟩
    exact ⟨Lock.ofReq q,(mem_runLocks ops q).mpr hq,(Lock.matchesReq_iff q r).mpr ⟨hc,hb⟩⟩

end LockedBlk

end AquaGem5.Cache
