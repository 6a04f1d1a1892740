import AquaGem5.Controller.MemPacket
import AquaGem5.Lib.Checked
import AquaGem5.Lib.Queues
import AquaGem5.Lib.Ticks

/-!
# The queues and their QoS counters (qos/mem_ctrl.hh, qos/mem_ctrl.cc)

`queue .READ` is `readQueue` and `queue .WRITE` is `writeQueue`, and the same goes for the sizes.
-/

namespace AquaGem5.Controller
open Ticks Checked Queues

namespace Qos

inductive Fault where
  | assertion
  | panic
  | outOfBounds
  | loop
  deriving DecidableEq

end Qos

structure Qos where
  queue : BusState → ℕ → List MemPacket
  queueSizes : BusState → ℕ → ℕ
  totalQueueSize : BusState → ℕ
  requestors : List ℕ
  packetPriorities : ℕ → ℕ → ℕ
  requestTimes : ℕ → ℕ → List ℕ

namespace Qos

def new : Qos := ⟨fun _ _ => [],fun _ _ => 0,fun _ => 0,[],fun _ _ => 0,fun _ _ => []⟩

def setQueue (q : Qos) (dir : BusState) (prio : ℕ) (l : List MemPacket) : Qos :=
  {q with queue := Function.update q.queue dir (Function.update (q.queue dir) prio l)}

def setSize (q : Qos) (dir : BusState) (prio size : ℕ) : Qos :=
  {q with queueSizes := Function.update q.queueSizes dir (Function.update (q.queueSizes dir) prio size)}

def setTotal (q : Qos) (dir : BusState) (size : ℕ) : Qos :=
  {q with totalQueueSize := Function.update q.totalQueueSize dir size}

def setPriorities (q : Qos) (id prio packets : ℕ) : Qos :=
  {q with packetPriorities := Function.update q.packetPriorities id (Function.update (q.packetPriorities id) prio packets)}

def setTimes (q : Qos) (id addr : ℕ) (times : List ℕ) : Qos :=
  {q with requestTimes := Function.update q.requestTimes id (Function.update (q.requestTimes id) addr times)}

def addRequestor (q : Qos) (id : ℕ) : Qos :=
  if id∈q.requestors then q else {q with requestors := q.requestors++[id]}

def logRequest (q : Qos) (curTick : ℕ) (dir : BusState) (id qos addr : ℕ) : Qos :=
  let q := q.addRequestor id
  let q := (q.setSize dir qos (q.queueSizes dir qos+1)).setTotal dir (q.totalQueueSize dir+1)
  let q := q.setPriorities id qos (q.packetPriorities id qos+1)
  q.setTimes id addr (q.requestTimes id addr++[curTick])

/-- One entry; the sizes wrap. -/
def logResponse (q : Qos) (dir : BusState) (id qos addr : ℕ) : Except Fault Qos := do
  check (id∈q.requestors) .panic
  let q := (q.setSize dir qos (tickSub (q.queueSizes dir qos) 1)).setTotal dir (tickSub (q.totalQueueSize dir) 1)
  check (q.packetPriorities id qos≠0) .panic
  let q := q.setPriorities id qos (q.packetPriorities id qos-1)
  check (q.requestTimes id addr≠[]) .panic
  return q.setTimes id addr (q.requestTimes id addr).tail

section Escalation

variable (numPriorities entrySize : ℕ)

def entries (size entrySize : ℕ) : ℕ := (size+entrySize-1)/entrySize

/-- A packet of requestor `id` moves to the queue of `tgt`; `l` is what it leaves behind. -/
def moveTo (dir : BusState) (id curr tgt : ℕ) (l : List MemPacket) (pkt : MemPacket) (q : Qos) : Except Fault Qos := do
  let moved := entries pkt.size entrySize
  let size : BusState := if pkt.read then .READ else .WRITE
  check (moved≤q.queueSizes size curr) .panic
  let q := q.setSize size curr (q.queueSizes size curr-moved)
  check (tgt<numPriorities) .outOfBounds
  let q := q.setSize size tgt (q.queueSizes size tgt+moved)
  let q := q.setQueue dir tgt (q.queue dir tgt++[{pkt with qosValue := tgt}])
  let q := q.setQueue dir curr l
  check (moved≤q.packetPriorities id curr) .panic
  let q := q.setPriorities id curr (q.packetPriorities id curr-moved)
  return q.setPriorities id tgt (q.packetPriorities id tgt+moved)

/-- The loop of `escalateQueues` with `before` passed and the given packets ahead. -/
def escalateFrom (dir : BusState) (id curr tgt : ℕ) (before : List MemPacket) : List MemPacket → Qos → Except Fault Qos
  | [],q => pure q
  | pkt::ahead,q =>
    if q.packetPriorities id curr=0 then pure q
    else if pkt.requestorId=id then do
      let q ← moveTo numPriorities entrySize dir id curr tgt (before++ahead) pkt q
      escalateFrom dir id curr tgt before ahead q
    else escalateFrom dir id curr tgt (before++[pkt]) ahead q

def escalateQueues (dir : BusState) (id curr tgt : ℕ) (q : Qos) : Except Fault Qos :=
  escalateFrom numPriorities entrySize dir id curr tgt [] (q.queue dir curr) q

/-- `while (packetPriorities[id][curr_prio] > 0)`. -/
def escalateWhile (id curr tgt : ℕ) : ℕ → Qos → Except Fault Qos
  | 0,_ => .error .loop
  | fuel+1,q =>
    if q.packetPriorities id curr=0 then pure q
    else do
      let q ← escalateQueues numPriorities entrySize .READ id curr tgt q
      let q ← escalateQueues numPriorities entrySize .WRITE id curr tgt q
      escalateWhile id curr tgt fuel q

def escalate (fuel id tgt : ℕ) (q : Qos) : Except Fault Qos :=
  (List.range numPriorities).foldlM (fun q curr =>
    if curr=tgt then pure q else escalateWhile numPriorities entrySize id curr tgt fuel q) (q.addRequestor id)

/-- What the QoS policy, if there is one, says when a packet arrives: the priority of the packet
and of the other requestors, which it visits in an order of its own. -/
structure Schedule where
  pktPriority : ℕ
  priorityOf : ℕ → ℕ
  order : List ℕ → List ℕ
  fuel : ℕ

def qosSchedule (syncro escalation : Bool) (d : Schedule) (id : ℕ) (q : Qos) : Except Fault Qos := do
  check (d.pktPriority<numPriorities) .assertion
  let q ← (if syncro&&escalation then
      ((d.order q.requestors).filter (·≠id)).foldlM
        (fun q other => escalate numPriorities entrySize d.fuel other (d.priorityOf other) q) q
    else pure q)
  if escalation then escalate numPriorities entrySize d.fuel id d.pktPriority q else pure q

end Escalation

end Qos

/-!
## Escalation of a requestor (qos/mem_ctrl.hh)

The counters tell how many packets are queued for each direction, priority and requestor.
-/

open List Function

def MemPacket.dir (pkt : MemPacket) : BusState := if pkt.read then .READ else .WRITE

namespace Qos
open Ticks Checked Queues

variable {n entrySize id curr tgt prio : ℕ} {dir : BusState} {q q' : Qos} {pkt : MemPacket}
  {before ahead : List MemPacket} {p : MemPacket → Bool}

def count (q : Qos) (p : MemPacket → Bool) (prio : ℕ) : ℕ :=
  (q.queue .READ prio).countP p+(q.queue .WRITE prio).countP p

structure Consistent (n entrySize : ℕ) (q : Qos) : Prop where
  sizes : ∀ dir,∀ prio<n,q.queueSizes dir prio=q.count (fun pkt => decide (pkt.dir=dir)) prio
  priorities : ∀ id,∀ prio<n,q.packetPriorities id prio=q.count (fun pkt => decide (pkt.requestorId=id)) prio
  fits : ∀ dir,∀ prio<n,∀ pkt∈q.queue dir prio,0<pkt.size ∧ pkt.size≤entrySize

theorem entries_one {size : ℕ} (hpos : 0<size) (hle : size≤entrySize) : entries size entrySize=1 := by
  rw [entries,Nat.div_eq_iff (by omega)]
  omega

theorem countP_le_count (q : Qos) (p : MemPacket → Bool) (dir : BusState) (prio : ℕ) :
    (q.queue dir prio).countP p≤q.count p prio := by
  cases dir with
  | READ => exact Nat.le_add_right _ _
  | WRITE => exact Nat.le_add_left _ _

theorem count_congr (h : ∀ dir,q'.queue dir prio=q.queue dir prio) : q'.count p prio=q.count p prio := by
  rw [count,count,h,h]

theorem count_change (h : ∀ other,other≠dir → q'.queue other prio=q.queue other prio) :
    q'.count p prio+(q.queue dir prio).countP p=q.count p prio+(q'.queue dir prio).countP p := by
  cases dir with
  | READ =>
    rw [count,count,h .WRITE (by decide)]
    omega
  | WRITE =>
    rw [count,count,h .READ (by decide)]
    omega

theorem count_zero : q.count p prio=0 ↔ ∀ dir,∀ pkt∈q.queue dir prio,p pkt=false := by
  rw [count,Nat.add_eq_zero_iff,countP_eq_zero,countP_eq_zero]
  constructor
  · intro h dir pkt hin
    cases dir with
    | READ => exact Bool.eq_false_iff.mpr (h.1 pkt hin)
    | WRITE => exact Bool.eq_false_iff.mpr (h.2 pkt hin)
  · exact fun h => ⟨fun pkt hin => Bool.eq_false_iff.mp (h .READ pkt hin),fun pkt hin => Bool.eq_false_iff.mp (h .WRITE pkt hin)⟩

def push (q : Qos) (curTick : ℕ) (pkt : MemPacket) : Qos :=
  (q.setQueue pkt.dir pkt.qosValue (q.queue pkt.dir pkt.qosValue++[pkt])).logRequest curTick pkt.dir pkt.requestorId
    pkt.qosValue pkt.addr

theorem new_consistent (n entrySize : ℕ) : new.Consistent n entrySize :=
  ⟨fun _ _ _ => rfl,fun _ _ _ => rfl,fun _ _ _ _ hin => absurd hin not_mem_nil⟩

theorem push_queue (q : Qos) (curTick : ℕ) (pkt : MemPacket) :
    (q.push curTick pkt).queue=Function.update q.queue pkt.dir
      (Function.update (q.queue pkt.dir) pkt.qosValue (q.queue pkt.dir pkt.qosValue++[pkt])) := by
  unfold push logRequest addRequestor
  split <;> rfl

theorem entry_added {κ : Type} [DecidableEq κ] (f : κ → ℕ → ℕ) (key : κ) (i : ℕ) (other : κ) (prio : ℕ) :
    Function.update f key (Function.update (f key) i (f key i+1)) other prio =
      f other prio+if prio=i ∧ key=other then 1 else 0 := by
  by_cases hother : key=other
  · subst hother
    rw [update_self]
    by_cases hprio : prio=i
    · rw [hprio,update_self,if_pos ⟨rfl,rfl⟩]
    · rw [update_of_ne hprio,if_neg fun hboth => hprio hboth.1]
      rfl
  · rw [update_of_ne (Ne.symm hother),if_neg fun hboth => hother hboth.2]
    rfl

theorem push_queueSizes (q : Qos) (curTick : ℕ) (pkt : MemPacket) (dir : BusState) (prio : ℕ) :
    (q.push curTick pkt).queueSizes dir prio=q.queueSizes dir prio+if prio=pkt.qosValue ∧ pkt.dir=dir then 1 else 0 := by
  rw [← entry_added q.queueSizes pkt.dir pkt.qosValue]
  unfold push logRequest addRequestor
  split <;> rfl

theorem push_packetPriorities (q : Qos) (curTick : ℕ) (pkt : MemPacket) (id prio : ℕ) :
    (q.push curTick pkt).packetPriorities id prio =
      q.packetPriorities id prio+if prio=pkt.qosValue ∧ pkt.requestorId=id then 1 else 0 := by
  rw [← entry_added q.packetPriorities pkt.requestorId pkt.qosValue]
  unfold push logRequest addRequestor
  split <;> rfl

theorem push_mem {pkt' : MemPacket} {curTick : ℕ} (h : pkt'∈(q.push curTick pkt).queue dir prio) :
    pkt'∈q.queue dir prio ∨ pkt'=pkt := by
  rw [push_queue] at h
  by_cases hdir : dir=pkt.dir
  · subst hdir
    rw [update_self] at h
    by_cases hprio : prio=pkt.qosValue
    · subst hprio
      rw [update_self] at h
      exact (mem_append.mp h).imp_right mem_singleton.mp
    · rw [update_of_ne hprio] at h
      exact .inl h
  · rw [update_of_ne hdir] at h
    exact .inl h

theorem push_count (q : Qos) (curTick : ℕ) (pkt : MemPacket) (p : MemPacket → Bool) (prio : ℕ) :
    (q.push curTick pkt).count p prio=q.count p prio+if prio=pkt.qosValue ∧ p pkt=true then 1 else 0 := by
  have hself : ∀ prio,(q.push curTick pkt).queue pkt.dir prio =
      q.queue pkt.dir prio++if prio=pkt.qosValue then [pkt] else [] := fun prio => by
    rw [push_queue,update_self]
    by_cases hprio : prio=pkt.qosValue
    · rw [hprio,update_self,if_pos rfl]
    · rw [update_of_ne hprio,if_neg hprio,append_nil]
  have hothers : ∀ other,other≠pkt.dir → (q.push curTick pkt).queue other prio=q.queue other prio := fun other hother => by
    rw [push_queue,update_of_ne hother]
  have hchange:=count_change (p := p) hothers
  rw [hself,countP_append] at hchange
  by_cases hprio : prio=pkt.qosValue
  · rw [if_pos hprio,countP_singleton] at hchange
    simp only [hprio,true_and] at hchange ⊢
    omega
  · rw [if_neg hprio,countP_nil] at hchange
    rw [if_neg fun hboth => hprio hboth.1]
    omega

theorem push_consistent (h : q.Consistent n entrySize) (curTick : ℕ) (hbyte : 0<pkt.size) (hle : pkt.size≤entrySize) :
    (q.push curTick pkt).Consistent n entrySize := by
  refine ⟨fun dir prio hlt => ?_,fun id prio hlt => ?_,fun dir prio hlt pkt' hin => ?_⟩
  · rw [push_queueSizes,push_count,h.sizes dir prio hlt]
    simp only [decide_eq_true_eq]
  · rw [push_packetPriorities,push_count,h.priorities id prio hlt]
    simp only [decide_eq_true_eq]
  · rcases push_mem hin with hin | heq
    · exact h.fits dir prio hlt pkt' hin
    · exact heq ▸ ⟨hbyte,hle⟩

structure Shifted (dir : BusState) (curr tgt : ℕ) (before ahead : List MemPacket) (pkt : MemPacket) (q q' : Qos) : Prop where
  source : q'.queue dir curr=before++ahead
  target : q'.queue dir tgt=q.queue dir tgt++[{pkt with qosValue := tgt}]
  others : ∀ other prio,(other=dir → prio≠curr ∧ prio≠tgt) → q'.queue other prio=q.queue other prio

theorem Shifted.count (h : Shifted dir curr tgt before ahead pkt q q') (hq : q.queue dir curr=before++pkt::ahead)
    (hne : curr≠tgt) (hp : p {pkt with qosValue := tgt}=p pkt) (prio : ℕ) :
    q'.count p prio+(if prio=curr ∧ p pkt=true then 1 else 0) =
      q.count p prio+if prio=tgt ∧ p pkt=true then 1 else 0 := by
  by_cases hcurr : prio=curr
  · subst hcurr
    have hchange:=count_change (p := p) (fun other hother => h.others other prio fun heq => absurd heq hother)
    rw [h.source,hq,countP_append,countP_append,countP_cons] at hchange
    simp only [true_and,hne,false_and,if_false]
    omega
  · by_cases htgt : prio=tgt
    · subst htgt
      have hchange:=count_change (p := p) (fun other hother => h.others other prio fun heq => absurd heq hother)
      rw [h.target,countP_append,countP_singleton,hp] at hchange
      simp only [true_and,hcurr,false_and,if_false]
      omega
    · simp only [hcurr,htgt,false_and,if_false]
      exact count_congr fun other => h.others other prio fun _ => ⟨hcurr,htgt⟩

theorem Shifted.fits (h : Shifted dir curr tgt before ahead pkt q q') (hq : q.queue dir curr=before++pkt::ahead)
    (hcurr : curr<n) (htgt : tgt<n) (hfits : ∀ dir,∀ prio<n,∀ pkt∈q.queue dir prio,0<pkt.size ∧ pkt.size≤entrySize) :
    ∀ dir,∀ prio<n,∀ pkt∈q'.queue dir prio,0<pkt.size ∧ pkt.size≤entrySize := by
  intro other prio hprio pkt' hin
  by_cases hsame : other=dir ∧ (prio=curr ∨ prio=tgt)
  · obtain ⟨rfl,rfl | rfl⟩:=hsame
    · rw [h.source] at hin
      refine hfits other prio hprio pkt' ?_
      rw [hq]
      exact mem_append.mpr ((mem_append.mp hin).imp_right (mem_cons_of_mem _))
    · rw [h.target] at hin
      rcases mem_append.mp hin with hin | hin
      · exact hfits other prio hprio pkt' hin
      · rw [mem_singleton.mp hin]
        exact hfits other curr hcurr pkt (hq ▸ mem_append_right _ (mem_cons_self ..))
  · rw [h.others other prio fun hdir => ⟨fun hc => hsame ⟨hdir,.inl hc⟩,fun ht => hsame ⟨hdir,.inr ht⟩⟩] at hin
    exact hfits other prio hprio pkt' hin

theorem entry_moved {κ : Type} [DecidableEq κ] {f f1 f2 : κ → ℕ → ℕ} {key : κ} (hne : curr≠tgt) (hpos : 1≤f key curr)
    (h1 : f1=Function.update f key (Function.update (f key) curr (f key curr-1)))
    (h2 : f2=Function.update f1 key (Function.update (f1 key) tgt (f1 key tgt+1))) (other : κ) (prio : ℕ) :
    f2 other prio+(if prio=curr ∧ key=other then 1 else 0)=f other prio+if prio=tgt ∧ key=other then 1 else 0 := by
  by_cases hother : key=other
  · subst hother
    have hcurr : f1 key=update (f key) curr (f key curr-1) := by rw [h1,update_self]
    rw [h2,update_self,hcurr,update_of_ne hne.symm]
    simp only [and_true]
    by_cases htgt : prio=tgt
    · rw [htgt,update_self,if_neg hne.symm,if_pos rfl]
    · rw [update_of_ne htgt,if_neg htgt]
      by_cases hprio : prio=curr
      · rw [hprio,update_self,if_pos rfl]
        omega
      · rw [update_of_ne hprio,if_neg hprio]
  · rw [h2,update_of_ne (Ne.symm hother),h1,update_of_ne (Ne.symm hother),if_neg fun hboth => hother hboth.2,
      if_neg fun hboth => hother hboth.2]

theorem moveTo_shifted (id : ℕ) (hne : curr≠tgt) (q : Qos) :
    Post (moveTo n entrySize dir id curr tgt (before++ahead) pkt q) (fun q' => tgt<n ∧
      Shifted dir curr tgt before ahead pkt q q' ∧ q'.totalQueueSize=q.totalQueueSize) := by
  rw [moveTo]
  simp only [post_bind,partly_check,post_pure]
  refine fun _ htgt _ => ⟨htgt,?_,?_⟩
  · generalize hq' : setPriorities _ id tgt _=q'
    have hqueue : q'.queue=update (update q.queue dir (update (q.queue dir) tgt
        (q.queue dir tgt++[{pkt with qosValue := tgt}]))) dir (update (update (q.queue dir) tgt
        (q.queue dir tgt++[{pkt with qosValue := tgt}])) curr (before++ahead)) := by
      rw [← hq']
      simp only [setPriorities,setQueue,setSize,update_self]
    refine ⟨?_,?_,fun other prio hother => ?_⟩
    · rw [hqueue,update_self,update_self]
    · rw [hqueue,update_self,update_of_ne hne.symm,update_self]
    · rw [hqueue]
      by_cases hdir : other=dir
      · obtain ⟨hc,ht⟩:=hother hdir
        rw [hdir,update_self,update_of_ne hc,update_of_ne ht]
      · rw [update_of_ne hdir,update_of_ne hdir]
  · rfl

theorem moveTo_counters (hsize : 1≤q.queueSizes pkt.dir curr) (hprio : 1≤q.packetPriorities id curr) (htgt : tgt<n)
    (hne : curr≠tgt) (hone : entries pkt.size entrySize=1) :
    Post (moveTo n entrySize dir id curr tgt (before++ahead) pkt q) (fun q' =>
      (∀ other prio,q'.queueSizes other prio+(if prio=curr ∧ pkt.dir=other then 1 else 0) =
        q.queueSizes other prio+if prio=tgt ∧ pkt.dir=other then 1 else 0) ∧
      ∀ other prio,q'.packetPriorities other prio+(if prio=curr ∧ id=other then 1 else 0) =
        q.packetPriorities other prio+if prio=tgt ∧ id=other then 1 else 0) fun _ => False := by
  rw [moveTo,hone]
  simp only [post_bind,post_check,post_pure]
  refine ⟨fun _ => ⟨fun _ => ⟨fun _ => ⟨?_,?_⟩,fun hno => hno hprio⟩,fun hno => hno htgt⟩,fun hno => hno hsize⟩
  · exact entry_moved hne hsize rfl rfl
  · exact entry_moved hne hprio rfl rfl

theorem moveTo_spec (h : q.Consistent n entrySize) (hq : q.queue dir curr=before++pkt::ahead)
    (hcurr : curr<n) (htgt : tgt<n) (hne : curr≠tgt) :
    Post (moveTo n entrySize dir pkt.requestorId curr tgt (before++ahead) pkt q) (fun q' => q'.Consistent n entrySize ∧
      Shifted dir curr tgt before ahead pkt q q' ∧ q'.totalQueueSize=q.totalQueueSize) fun _ => False := by
  have hin : pkt∈q.queue dir curr := hq ▸ mem_append_right _ (mem_cons_self ..)
  have hpos : ∀ p : MemPacket → Bool,p pkt=true → 1≤q.count p curr := fun p hp =>
    le_trans (countP_pos_iff.mpr ⟨pkt,hin,hp⟩) (countP_le_count q p dir curr)
  have hsize : 1≤q.queueSizes pkt.dir curr := by
    rw [h.sizes _ _ hcurr]
    exact hpos _ (decide_eq_true rfl)
  have hprio : 1≤q.packetPriorities pkt.requestorId curr := by
    rw [h.priorities _ _ hcurr]
    exact hpos _ (decide_eq_true rfl)
  obtain ⟨hbyte,hle⟩:=h.fits dir curr hcurr pkt hin
  refine ((moveTo_shifted pkt.requestorId hne q).and (moveTo_counters hsize hprio htgt hne (entries_one hbyte hle))).mono
    (fun q' hq' => ?_) fun _ he => he.2
  obtain ⟨⟨_,hshift,htotal⟩,hsizes,hpriorities⟩:=hq'
  refine ⟨⟨fun other prio hlt => ?_,fun other prio hlt => ?_,hshift.fits hq hcurr htgt h.fits⟩,hshift,htotal⟩
  · have hcount:=hshift.count (p := fun pkt => decide (pkt.dir=other)) hq hne rfl prio
    have hmoved:=hsizes other prio
    rw [h.sizes other prio hlt] at hmoved
    simp only [decide_eq_true_eq] at hcount
    omega
  · have hcount:=hshift.count (p := fun pkt => decide (pkt.requestorId=other)) hq hne rfl prio
    have hmoved:=hpriorities other prio
    rw [h.priorities other prio hlt] at hmoved
    simp only [decide_eq_true_eq] at hcount
    omega

def kept (id : ℕ) (l : List MemPacket) : List MemPacket := l.filter fun pkt => decide (pkt.requestorId≠id)

def taken (id tgt : ℕ) (l : List MemPacket) : List MemPacket :=
  (l.filter fun pkt => decide (pkt.requestorId=id)).map fun pkt => {pkt with qosValue := tgt}

variable {l : List MemPacket}

theorem kept_of_none (h : ∀ pkt∈l,pkt.requestorId≠id) : kept id l=l :=
  filter_eq_self.mpr fun pkt hin => decide_eq_true (h pkt hin)

theorem taken_of_none (h : ∀ pkt∈l,pkt.requestorId≠id) : taken id tgt l=[] := by
  rw [taken,filter_eq_nil_iff.mpr fun pkt hin => by simp [h pkt hin]]
  rfl

theorem kept_none (hin : pkt∈kept id l) : pkt.requestorId≠id :=
  of_decide_eq_true (mem_filter.mp hin).2

structure Passed (dir : BusState) (id curr tgt : ℕ) (q q' : Qos) : Prop where
  source : q'.queue dir curr=kept id (q.queue dir curr)
  target : q'.queue dir tgt=q.queue dir tgt++taken id tgt (q.queue dir curr)
  others : ∀ other prio,(other=dir → prio≠curr ∧ prio≠tgt) → q'.queue other prio=q.queue other prio

theorem Consistent.none_left (h : q.Consistent n entrySize) (hcurr : curr<n) :
    q.packetPriorities id curr=0 ↔ ∀ dir,∀ pkt∈q.queue dir curr,pkt.requestorId≠id := by
  rw [h.priorities id curr hcurr,count_zero]
  simp only [decide_eq_false_iff_not,ne_eq]

theorem escalateFrom_spec {id : ℕ} (hcurr : curr<n) (htgt : tgt<n) (hne : curr≠tgt) :
    ∀ (ahead before : List MemPacket) (q : Qos),q.Consistent n entrySize → q.queue dir curr=before++ahead →
      Post (escalateFrom n entrySize dir id curr tgt before ahead q) (fun q' => q'.Consistent n entrySize ∧
        q'.queue dir curr=before++kept id ahead ∧ q'.queue dir tgt=q.queue dir tgt++taken id tgt ahead ∧
        (∀ other prio,(other=dir → prio≠curr ∧ prio≠tgt) → q'.queue other prio=q.queue other prio) ∧
        q'.totalQueueSize=q.totalQueueSize) fun _ => False := by
  intro ahead
  induction ahead with
  | nil =>
    intro before q h hq
    exact ⟨h,hq,(append_nil _).symm,fun _ _ _ => rfl,rfl⟩
  | cons pkt ahead ih =>
    intro before q h hq
    rw [escalateFrom,post_ite]
    refine ⟨fun hzero => ?_,fun _ => ?_⟩
    · -- the counter says that there is nothing left to move
      have hnone : ∀ pkt'∈pkt::ahead,pkt'.requestorId≠id := fun pkt' hin =>
        (h.none_left hcurr).mp hzero dir pkt' (hq ▸ mem_append_right before hin)
      refine ⟨h,?_,?_,fun _ _ _ => rfl,rfl⟩
      · rw [kept_of_none hnone]
        exact hq
      · rw [taken_of_none hnone,append_nil]
    · rw [post_ite]
      refine ⟨fun hid => ?_,fun hid => ?_⟩
      · subst hid
        refine (moveTo_spec h hq hcurr htgt hne).bind fun q1 h1 => ?_
        obtain ⟨hcons,⟨hsource,htarget,hothers⟩,htotal⟩:=h1
        refine (ih before q1 hcons hsource).imp fun q2 h2 => ?_
        obtain ⟨hcons2,hsource2,htarget2,hothers2,htotal2⟩:=h2
        refine ⟨hcons2,?_,?_,fun other prio hother => (hothers2 other prio hother).trans (hothers other prio hother),
          htotal2.trans htotal⟩
        · rw [hsource2,kept,kept,filter_cons_of_neg (by simp)]
        · rw [htarget2,htarget,taken,taken,filter_cons_of_pos (by simp),map_cons,append_assoc]
          rfl
      · refine (ih (before++[pkt]) q h (by rw [hq,append_assoc]; rfl)).imp fun q2 h2 => ?_
        obtain ⟨hcons2,hsource2,htarget2,hothers2,htotal2⟩:=h2
        refine ⟨hcons2,?_,?_,hothers2,htotal2⟩
        · rw [hsource2,kept,kept,filter_cons_of_pos (by simp [hid]),append_assoc]
          rfl
        · rw [htarget2,taken,taken,filter_cons_of_neg (by simp [hid])]

theorem escalateQueues_spec (h : q.Consistent n entrySize) (hcurr : curr<n) (htgt : tgt<n) (hne : curr≠tgt) :
    Post (escalateQueues n entrySize dir id curr tgt q) (fun q' => q'.Consistent n entrySize ∧
      Passed dir id curr tgt q q' ∧ q'.totalQueueSize=q.totalQueueSize) fun _ => False :=
  (escalateFrom_spec hcurr htgt hne (q.queue dir curr) [] q h rfl).imp
    fun _ hq => ⟨hq.1,⟨hq.2.1,hq.2.2.1,hq.2.2.2.1⟩,hq.2.2.2.2⟩

structure Cleared (id curr tgt : ℕ) (q q' : Qos) : Prop where
  source : ∀ dir,q'.queue dir curr=kept id (q.queue dir curr)
  target : ∀ dir,q'.queue dir tgt=q.queue dir tgt++taken id tgt (q.queue dir curr)
  others : ∀ dir prio,prio≠curr → prio≠tgt → q'.queue dir prio=q.queue dir prio

theorem Passed.cleared {q1 q2 : Qos} (h : Passed .READ id curr tgt q q1) (h' : Passed .WRITE id curr tgt q1 q2) :
    Cleared id curr tgt q q2 := by
  have hread : ∀ prio,q2.queue .READ prio=q1.queue .READ prio := fun prio => h'.others .READ prio (by simp)
  have hwrite : ∀ prio,q1.queue .WRITE prio=q.queue .WRITE prio := fun prio => h.others .WRITE prio (by simp)
  refine ⟨fun dir => ?_,fun dir => ?_,fun dir prio hc ht => ?_⟩
  · cases dir with
    | READ => rw [hread,h.source]
    | WRITE => rw [h'.source,hwrite]
  · cases dir with
    | READ => rw [hread,h.target]
    | WRITE => rw [h'.target,hwrite,hwrite]
  · exact (h'.others dir prio fun _ => ⟨hc,ht⟩).trans (h.others dir prio fun _ => ⟨hc,ht⟩)

theorem cleared_refl (h : ∀ dir,∀ pkt∈q.queue dir curr,pkt.requestorId≠id) : Cleared id curr tgt q q := by
  refine ⟨fun dir => (kept_of_none (h dir)).symm,fun dir => ?_,fun _ _ _ _ => rfl⟩
  rw [taken_of_none (h dir),append_nil]

theorem escalateWhile_spec (h : q.Consistent n entrySize) (id : ℕ) (hcurr : curr<n) (htgt : tgt<n) (hne : curr≠tgt)
    (fuel : ℕ) : Post (escalateWhile n entrySize id curr tgt (fuel+2) q) (fun q' => q'.Consistent n entrySize ∧
      Cleared id curr tgt q q' ∧ q'.totalQueueSize=q.totalQueueSize) fun _ => False := by
  rw [escalateWhile,post_ite]
  refine ⟨fun hzero => ⟨h,cleared_refl ((h.none_left hcurr).mp hzero),rfl⟩,fun _ => ?_⟩
  refine (escalateQueues_spec h hcurr htgt hne).bind fun q1 h1 => ?_
  refine (escalateQueues_spec h1.1 hcurr htgt hne).bind fun q2 h2 => ?_
  have hcleared:=h1.2.1.cleared h2.2.1
  have hzero : q2.packetPriorities id curr=0 := (h2.1.none_left hcurr).mpr fun dir pkt hin =>
    kept_none (hcleared.source dir ▸ hin)
  rw [escalateWhile,if_pos hzero]
  exact ⟨h2.1,hcleared,h2.2.2.trans h1.2.2⟩

structure Escalated (id tgt : ℕ) (done : List ℕ) (q q' : Qos) : Prop where
  source : ∀ dir prio,prio≠tgt →
    q'.queue dir prio=if prio∈done then kept id (q.queue dir prio) else q.queue dir prio
  target : ∀ dir,q'.queue dir tgt=q.queue dir tgt++done.flatMap fun prio => taken id tgt (q.queue dir prio)
  total : q'.totalQueueSize=q.totalQueueSize

theorem Escalated.clear {done : List ℕ} {q1 q2 : Qos} (h : Escalated id tgt done q q1) (h' : Cleared id curr tgt q1 q2)
    (htotal : q2.totalQueueSize=q1.totalQueueSize) (hne : curr≠tgt) (hnew : curr∉done) :
    Escalated id tgt (done++[curr]) q q2 := by
  have hsource : ∀ dir,q1.queue dir curr=q.queue dir curr := fun dir => by rw [h.source dir curr hne,if_neg hnew]
  refine ⟨fun dir prio hprio => ?_,fun dir => ?_,htotal.trans h.total⟩
  · cases Decidable.eq_or_ne prio curr with
    | inl heq => rw [heq,h'.source,hsource,if_pos (mem_append_right done (mem_singleton_self curr))]
    | inr hother =>
      rw [h'.others dir prio hother hprio,h.source dir prio hprio]
      simp [hother]
  · rw [h'.target,h.target,hsource,flatMap_append,flatMap_singleton,append_assoc]

theorem addRequestor_consistent (h : q.Consistent n entrySize) (id : ℕ) :
    (q.addRequestor id).Consistent n entrySize ∧ Escalated id tgt [] q (q.addRequestor id) := by
  have hself : Escalated id tgt [] q q :=
    ⟨fun _ _ _ => (if_neg not_mem_nil).symm,fun _ => (append_nil _).symm,rfl⟩
  rw [addRequestor]
  split
  next => exact ⟨h,hself⟩
  next => exact ⟨⟨h.sizes,h.priorities,h.fits⟩,⟨hself.source,hself.target,rfl⟩⟩

theorem escalate_spec (h : q.Consistent n entrySize) (id : ℕ) (htgt : tgt<n) (fuel : ℕ) :
    ∃ q',escalate n entrySize (fuel+2) id tgt q = .ok q' ∧ q'.Consistent n entrySize ∧
      Escalated id tgt ((List.range n).filter (·≠tgt)) q q' := by
  refine foldlM_range (P := fun k q1 => q1.Consistent n entrySize ∧ Escalated id tgt ((range k).filter (·≠tgt)) q q1)
    (addRequestor_consistent h id) fun curr hcurr q1 h1 => ?_
  obtain ⟨hcons,hesc⟩:=h1
  rw [range_succ,filter_append]
  by_cases htarget : curr=tgt
  · refine ⟨q1,if_pos htarget,hcons,?_⟩
    rw [filter_cons_of_neg (by simp [htarget]),filter_nil,append_nil]
    exact hesc
  · obtain ⟨q2,hrun,hcons2,hcleared,htotal⟩:=(escalateWhile_spec hcons id hcurr htgt htarget fuel).returns
    refine ⟨q2,(if_neg htarget).trans hrun,hcons2,?_⟩
    rw [filter_cons_of_pos (by simp [htarget]),filter_nil]
    refine hesc.clear hcleared htotal htarget fun hin => ?_
    exact absurd (mem_range.mp (mem_filter.mp hin).1) (lt_irrefl curr)

/-- Escalation ends without a panic. The packets of the requestor are in the queues of the target priority, behind the
ones that were there and in the order of their queues, every other packet is where it was, and the counters agree with
the queues again. -/
theorem escalation_conserves (h : q.Consistent n entrySize) (id : ℕ) (htgt : tgt<n) (fuel : ℕ) :
    ∃ q',escalate n entrySize (fuel+2) id tgt q = .ok q' ∧
      (∀ dir,q'.queue dir tgt=q.queue dir tgt ++
        ((List.range n).filter (·≠tgt)).flatMap fun prio => taken id tgt (q.queue dir prio)) ∧
      (∀ dir,∀ prio<n,prio≠tgt → q'.queue dir prio=kept id (q.queue dir prio)) ∧
      q'.totalQueueSize=q.totalQueueSize ∧ q'.Consistent n entrySize := by
  obtain ⟨q',hrun,hcons,hesc⟩:=escalate_spec h id htgt fuel
  refine ⟨q',hrun,hesc.target,fun dir prio hlt hne => ?_,hesc.total,hcons⟩
  rw [hesc.source dir prio hne,if_pos]
  exact List.mem_filter.mpr ⟨List.mem_range.mpr hlt,decide_eq_true hne⟩

def packetOf (ref requestorId : ℕ) (read : Bool) (qosValue : ℕ) : MemPacket :=
  ⟨ref,ref,requestorId,read,true,0,0,0,0,ref*64,64,none,qosValue,0,0,false,0,0⟩

/-- Requestor 7 has a read and a write at priority 1, behind a read of requestor 8; all of its packets go to priority 0. -/
theorem escalation_conserves_three : ∃ q' : Qos,(q'.queue .READ 0).map MemPacket.ref=[0,2] ∧
    (q'.queue .READ 1).map MemPacket.ref=[1] ∧ (q'.queue .WRITE 0).map MemPacket.ref=[3] ∧ q'.Consistent 2 64 := by
  have hq : ((((new.push 0 (packetOf 0 7 true 0)).push 0 (packetOf 1 8 true 1)).push 0 (packetOf 2 7 true 1)).push 0
      (packetOf 3 7 false 1)).Consistent 2 64 := by
    refine push_consistent (push_consistent (push_consistent (push_consistent (new_consistent 2 64) 0 ?_ ?_) 0 ?_ ?_) 0 ?_ ?_) 0 ?_ ?_
    all_goals decide
  obtain ⟨q',_,htarget,hsource,_,hcons⟩:=escalation_conserves hq 7 (by decide : 0<2) 0
  refine ⟨q',?_,?_,?_,hcons⟩
  · rw [htarget]
    decide
  · rw [hsource .READ 1 (by decide) (by decide)]
    decide
  · rw [htarget]
    decide

end Qos

end AquaGem5.Controller
