import AquaGem5.Controller.MemPacket
import AquaGem5.Lib.Queues
import AquaGem5.Lib.Checked

/-!
# Packet queues (packet_queue.cc, packet_queue.hh)

`sendEvent` holds the tick the event is scheduled at. What the peer does with a packet is not
known to the queue: it refuses it, or it accepts it and has the queue take more packets before the
call returns.
-/

namespace AquaGem5.Ports
open Checked BackInsert Controller List

namespace PacketQueue

inductive Fault where
  /-- `assert(when >= curTick())`. -/
  | late
  | expressSnoop
  /-- More than 128 packets. -/
  | sanity
  /-- `assert(waitingOnRetry)`, or its negation. -/
  | waiting
  /-- `assert(deferredPacketReady())`. -/
  | notReady
  /-- `assert(!sendEvent.scheduled())`. -/
  | scheduled
  deriving DecidableEq

structure Packet where
  id : ℕ
  addr : ℕ
  secure : Bool
  expressSnoop : Bool
  deriving DecidableEq

def Packet.matchAddr (p pkt : Packet) : Bool := decide (p.addr=pkt.addr ∧ p.secure=pkt.secure)

structure DeferredPacket where
  tick : ℕ
  pkt : Packet
  deriving DecidableEq

/-- What `sendTiming` does: it accepts the packet after it has enqueued others, or refuses it. -/
inductive Answer where
  | accept (nested : List (Packet × ℕ))
  | refuse

end PacketQueue

structure PacketQueue where
  forceOrder : Bool
  disableSanityCheck : Bool
  curTick : ℕ
  transmitList : List PacketQueue.DeferredPacket
  sendEvent : Option ℕ
  waitingOnRetry : Bool

namespace PacketQueue

def new (forceOrder disableSanityCheck : Bool) : PacketQueue := ⟨forceOrder,disableSanityCheck,0,[],none,false⟩

def deferredPacketReady (q : PacketQueue) : Prop := ∃ d∈q.transmitList.head?,d.tick≤q.curTick

instance (q : PacketQueue) : Decidable q.deferredPacketReady :=
  decidable_of_iff (q.transmitList.head?.any fun d => decide (d.tick≤q.curTick)) (by
    cases h : q.transmitList.head? <;> simp [deferredPacketReady,h])

def deferredPacketReadyTime (q : PacketQueue) : ℕ := (q.transmitList.head?.map DeferredPacket.tick).getD maxTick

def schedSendEvent (q : PacketQueue) (when_ : ℕ) : Except Fault PacketQueue :=
  if q.waitingOnRetry then do
    check (q.sendEvent=none) .scheduled
    return q
  else if when_≠maxTick then
    let at_ := max when_ (q.curTick+1)
    return {q with sendEvent := some (min (q.sendEvent.getD at_) at_)}
  else return q

/-- The scan for the place of a packet stops at one that is not later, or that must not be overtaken. -/
def stops (q : PacketQueue) (pkt : Packet) (when_ : ℕ) (d : DeferredPacket) : Bool :=
  (q.forceOrder&&d.pkt.matchAddr pkt) || decide (d.tick≤when_)

def schedSendTiming (q : PacketQueue) (pkt : Packet) (when_ : ℕ) : Except Fault PacketQueue := do
  check (q.curTick≤when_) .late
  check (pkt.expressSnoop=false) .expressSnoop
  check (q.disableSanityCheck=true ∨ q.transmitList.length≤128) .sanity
  let placed := {q with transmitList := insertBack (q.stops pkt when_) ⟨when_,pkt⟩ q.transmitList}
  if q.transmitList.any (q.stops pkt when_) then return placed else placed.schedSendEvent when_

def schedAll (q : PacketQueue) (pkts : List (Packet × ℕ)) : Except Fault PacketQueue :=
  pkts.foldlM (fun q p => q.schedSendTiming p.1 p.2) q

def sendDeferredPacket (q : PacketQueue) (answer : Answer) : Except Fault PacketQueue := do
  check (q.waitingOnRetry=false) .waiting
  check q.deferredPacketReady .notReady
  let popped := {q with transmitList := q.transmitList.tail}
  match answer with
  | .accept nested => do
    let q ← popped.schedAll nested
    q.schedSendEvent q.deferredPacketReadyTime
  -- the packet goes back to the front of the list
  | .refuse => return {popped with waitingOnRetry := true, transmitList := q.transmitList.head?.toList++popped.transmitList}

def processSendEvent (q : PacketQueue) (answer : Answer) : Except Fault PacketQueue := do
  let q := {q with sendEvent := none}
  check (q.waitingOnRetry=false) .waiting
  q.sendDeferredPacket answer

def retry (q : PacketQueue) (answer : Answer) : Except Fault PacketQueue := do
  check (q.waitingOnRetry=true) .waiting
  {q with waitingOnRetry := false}.sendDeferredPacket answer

/-- The packets in the order of their enqueueing and of their acceptance, and every offer with its tick. -/
structure Log where
  enqueued : List DeferredPacket
  accepted : List DeferredPacket
  offered : List (DeferredPacket × ℕ)

def Log.enqueue (l : Log) (pkt : Packet) (when_ : ℕ) : Log := {l with enqueued := l.enqueued++[⟨when_,pkt⟩]}

def Log.offer (l : Log) (q : PacketQueue) : Answer → Log
  | .accept nested => ⟨l.enqueued++nested.map fun p => ⟨p.2,p.1⟩,l.accepted++q.transmitList.head?.toList,
      l.offered++q.transmitList.head?.toList.map fun d => (d,q.curTick)⟩
  | .refuse => {l with offered := l.offered++q.transmitList.head?.toList.map fun d => (d,q.curTick)}

inductive Reachable (forceOrder disableSanityCheck : Bool) : PacketQueue → Log → Prop
  | init : Reachable forceOrder disableSanityCheck (new forceOrder disableSanityCheck) ⟨[],[],[]⟩
  | schedSendTiming (q q' : PacketQueue) (l : Log) (pkt : Packet) (when_ : ℕ) :
      Reachable forceOrder disableSanityCheck q l → q.schedSendTiming pkt when_ = .ok q' →
      Reachable forceOrder disableSanityCheck q' (l.enqueue pkt when_)
  | sendEvent (q q' : PacketQueue) (l : Log) (answer : Answer) : Reachable forceOrder disableSanityCheck q l →
      q.sendEvent=some q.curTick → q.processSendEvent answer = .ok q' →
      Reachable forceOrder disableSanityCheck q' (l.offer q answer)
  | retry (q q' : PacketQueue) (l : Log) (answer : Answer) : Reachable forceOrder disableSanityCheck q l →
      q.waitingOnRetry=true → q.retry answer = .ok q' → Reachable forceOrder disableSanityCheck q' (l.offer q answer)
  | tick (q : PacketQueue) (l : Log) (t : ℕ) : Reachable forceOrder disableSanityCheck q l → q.curTick≤t →
      (∀ w∈q.sendEvent,t≤w) → Reachable forceOrder disableSanityCheck {q with curTick := t} l

variable {q q' : PacketQueue} {l : Log} {pkt : Packet} {when_ : ℕ}

/-- Nothing is lost or doubled, and nothing overtakes what it must not. -/
structure Kept (q : PacketQueue) (l : Log) : Prop where
  perm : (l.accepted++q.transmitList).Perm l.enqueued
  byAddr : q.forceOrder=true → ∀ pkt : Packet,
    (l.accepted++q.transmitList).filter (·.pkt.matchAddr pkt)=l.enqueued.filter (·.pkt.matchAddr pkt)
  sorted : q.forceOrder=false → q.transmitList.Pairwise fun d e => d.tick≤e.tick
  byTick : q.forceOrder=false → ∀ t,
    (l.accepted++q.transmitList).filter (·.tick=t)=l.enqueued.filter (·.tick=t)
  offered : ∀ o∈l.offered,o.1.tick≤o.2

theorem filter_enqueue {p stop : DeferredPacket → Bool} {x : DeferredPacket} {accepted list enqueued : List DeferredPacket}
    (hold : (accepted++list).filter p=enqueued.filter p) (hstop : p x=true → ∀ d,p d=true → stop d=true) :
    (accepted++insertBack stop x list).filter p=(enqueued++[x]).filter p := by
  rw [filter_append] at hold
  rw [filter_append,filter_append]
  cases hp : p x with
  | true =>
    rw [insertBack_filter (fun d _ => hstop hp d) hp,← append_assoc,hold,filter_cons_of_pos hp,filter_nil]
  | false =>
    rw [insertBack_filter_of_neg hp,hold,filter_cons_of_neg (by rw [hp]; simp),filter_nil,append_nil]

theorem Kept.enqueue (h : Kept q l) (pkt : Packet) (when_ : ℕ) :
    Kept {q with transmitList := insertBack (q.stops pkt when_) ⟨when_,pkt⟩ q.transmitList} (l.enqueue pkt when_) := by
  constructor
  · exact (((insertBack_perm _ _ _).append_left _).trans perm_middle).trans
      ((h.perm.cons _).trans (perm_append_singleton _ _).symm)
  · intro hforce p
    refine filter_enqueue (h.byAddr hforce p) fun hx d hd => ?_
    replace hforce : q.forceOrder=true := hforce
    obtain ⟨haddr,hsecure⟩:=of_decide_eq_true hx
    obtain ⟨haddr',hsecure'⟩:=of_decide_eq_true hd
    rw [stops,hforce,Packet.matchAddr,haddr',hsecure',haddr,hsecure]
    simp
  · intro hforce
    replace hforce : q.forceOrder=false := hforce
    exact insertBack_sorted (fun d => by simp [stops,hforce]) (h.sorted hforce)
  · intro hforce t
    refine filter_enqueue (h.byTick hforce t) fun hx d hd => ?_
    have htick : d.tick=when_ := (of_decide_eq_true hd).trans (of_decide_eq_true hx).symm
    rw [stops,htick]
    simp
  · exact h.offered

theorem Kept.accept {d : DeferredPacket} {rest : List DeferredPacket} (h : Kept q l) (hq : q.transmitList=d::rest)
    (hready : d.tick≤q.curTick) :
    Kept {q with transmitList := rest} {l with accepted := l.accepted++[d], offered := l.offered++[(d,q.curTick)]} := by
  have hsame : l.accepted++[d]++rest=l.accepted++q.transmitList := by
    rw [hq,append_assoc,singleton_append]
  refine ⟨hsame ▸ h.perm,fun hforce => hsame ▸ h.byAddr hforce,fun hforce => ?_,fun hforce => hsame ▸ h.byTick hforce,
    fun o ho => ?_⟩
  · have hsorted:=h.sorted hforce
    rw [hq] at hsorted
    exact hsorted.of_cons
  · cases mem_append.mp ho with
    | inl hin => exact h.offered o hin
    | inr hnew => exact (mem_singleton.mp hnew) ▸ hready

structure Armed (q : PacketQueue) : Prop where
  waiting : q.waitingOnRetry=true → q.sendEvent=none ∧ q.deferredPacketReady
  event : ∀ w,q.sendEvent=some w → q.curTick≤w ∧ ∃ d∈q.transmitList.head?,
    d.tick≤w ∧ (d.tick=maxTick ∨ w ≤ max d.tick (q.curTick+1))

def Idle (q : PacketQueue) : Prop :=
  q.waitingOnRetry=false → q.sendEvent=none → ∀ d∈q.transmitList.head?,d.tick=maxTick

theorem schedSendEvent_post {d : DeferredPacket} (hwaiting : q.waitingOnRetry=false) (hd : q.transmitList.head?=some d)
    (hlate : ∀ w,q.sendEvent=some w → q.curTick≤w ∧ d.tick≤w) :
    Post (q.schedSendEvent d.tick) (fun q' => q'.Armed ∧ q'.Idle ∧ ∃ event,q'={q with sendEvent := event})
      fun _ => False := by
  have hnot : ¬q.waitingOnRetry=true := by simp [hwaiting]
  rw [schedSendEvent,if_neg hnot]
  split
  next hsend =>
    have hmin : d.tick ≤ min (q.sendEvent.getD (max d.tick (q.curTick+1))) (max d.tick (q.curTick+1)) ∧
        q.curTick ≤ min (q.sendEvent.getD (max d.tick (q.curTick+1))) (max d.tick (q.curTick+1)) := by
      cases hevent : q.sendEvent with
      | none =>
        rw [Option.getD_none]
        omega
      | some w =>
        have hw:=hlate w hevent
        rw [Option.getD_some]
        omega
    refine ⟨⟨fun h => (hnot h).elim,fun w hw => ?_⟩,fun _ hnone => (by cases hnone),_,rfl⟩
    cases hw
    exact ⟨hmin.2,d,hd,hmin.1,.inr (Nat.min_le_right _ _)⟩
  next hnever =>
    have hmax:=not_not.mp hnever
    refine ⟨⟨fun h => (hnot h).elim,fun w hw => ?_⟩,fun _ _ e he => ?_,q.sendEvent,rfl⟩
    · exact ⟨(hlate w hw).1,d,hd,(hlate w hw).2,.inl hmax⟩
    · rw [hd] at he
      cases he
      exact hmax

def Misuse (e : Fault) : Prop := e = .late ∨ e = .expressSnoop ∨ e = .sanity

theorem schedSendTiming_post (hk : Kept q l) (ha : q.Armed) (pkt : Packet) (when_ : ℕ) :
    Post (q.schedSendTiming pkt when_) (fun q' => Kept q' (l.enqueue pkt when_) ∧ q'.Armed ∧ (q.Idle → q'.Idle) ∧
      q'.waitingOnRetry=q.waitingOnRetry ∧ q'.curTick=q.curTick) Misuse := by
  have hkept:=hk.enqueue pkt when_
  simp only [schedSendTiming,post_bind,post_check]
  refine ⟨fun hlate => ⟨fun _ => ⟨fun _ => ?_,fun _ => .inr (.inr rfl)⟩,fun _ => .inr (.inl rfl)⟩,fun _ => .inl rfl⟩
  split
  next hstop =>
    have hhead:=insertBack_head? (x := ⟨when_,pkt⟩) hstop
    refine ⟨hkept,⟨fun hw => ⟨(ha.waiting hw).1,?_⟩,fun w hw => ?_⟩,fun hidle hw hnone d hd => ?_,rfl,rfl⟩
    · have hready:=(ha.waiting hw).2
      rw [deferredPacketReady] at hready ⊢
      rwa [hhead]
    · have hevent:=ha.event w hw
      rwa [← hhead] at hevent
    · exact hidle hw hnone d (hhead ▸ hd)
  next hnone =>
    have hfront:=insertBack_of_none (x := ⟨when_,pkt⟩) hnone
    have hahead : ∀ d∈q.transmitList,when_<d.tick := fun d hd => by
      by_contra hle
      refine hnone (any_eq_true.mpr ⟨d,hd,?_⟩)
      rw [stops,decide_eq_true (Nat.le_of_not_lt hle),Bool.or_true]
    -- the queue cannot be waiting: its front would be ready, and would have stopped the scan
    have hwaiting : q.waitingOnRetry=false := by
      by_contra hw
      obtain ⟨d,hd,hready⟩:=(ha.waiting (by simpa using hw)).2
      have hlt:=hahead d (mem_of_mem_head? hd)
      omega
    rw [hfront] at hkept ⊢
    have hplaced : ({q with transmitList := ⟨when_,pkt⟩::q.transmitList} : PacketQueue).transmitList.head? =
      some ⟨when_,pkt⟩ := rfl
    have hfree : ({q with transmitList := ⟨when_,pkt⟩::q.transmitList} : PacketQueue).waitingOnRetry=false := hwaiting
    refine (schedSendEvent_post hfree hplaced fun w hw => ?_).mono (fun q' hq' => ?_) fun _ he => he.elim
    · obtain ⟨hcur,d,hd,hle,_⟩:=ha.event w hw
      exact ⟨hcur,Nat.le_trans (Nat.le_of_lt (hahead d (mem_of_mem_head? hd))) hle⟩
    · obtain ⟨harmed,hidle,event,rfl⟩:=hq'
      exact ⟨⟨hkept.perm,hkept.byAddr,hkept.sorted,hkept.byTick,hkept.offered⟩,harmed,fun _ => hidle,rfl,rfl⟩

theorem schedAll_post (pkts : List (Packet × ℕ)) (hk : Kept q l) (ha : q.Armed) (hw : q.waitingOnRetry=false) :
    Post (q.schedAll pkts) (fun q' => Kept q' {l with enqueued := l.enqueued++pkts.map fun p => ⟨p.2,p.1⟩} ∧
      q'.Armed ∧ q'.waitingOnRetry=false) Misuse := by
  induction pkts generalizing q l with
  | nil =>
    rw [map_nil,append_nil]
    exact ⟨hk,ha,hw⟩
  | cons p pkts ih =>
    rw [schedAll,foldlM_cons]
    refine (schedSendTiming_post hk ha p.1 p.2).bind fun q' hq' => ?_
    obtain ⟨hk',ha',_,hw',_⟩:=hq'
    have hrest:=ih hk' ha' (hw'.trans hw)
    rw [Log.enqueue,append_assoc] at hrest
    exact hrest

theorem sendDeferredPacket_post (answer : Answer) (hk : Kept q l) (hwaiting : q.waitingOnRetry=false)
    (hevent : q.sendEvent=none) (hready : q.deferredPacketReady) :
    Post (q.sendDeferredPacket answer) (fun q' => Kept q' (l.offer q answer) ∧ q'.Armed ∧ q'.Idle) Misuse := by
  obtain ⟨d,hd,htick⟩:=hready
  obtain ⟨rest,hlist⟩ : ∃ rest,q.transmitList=d::rest := head?_eq_some_iff.mp hd
  have haccept:=hk.accept hlist htick
  simp only [sendDeferredPacket,post_bind,post_check]
  refine ⟨fun _ => ⟨fun _ => ?_,fun hno => absurd ⟨d,hd,htick⟩ hno⟩,fun hno => absurd hwaiting hno⟩
  cases answer with
  | accept nested =>
    have hpopped : ({q with transmitList := q.transmitList.tail} : PacketQueue)={q with transmitList := rest} := by
      rw [hlist,tail_cons]
    have hlog : l.offer q (.accept nested)=⟨l.enqueued++nested.map fun p => ⟨p.2,p.1⟩,l.accepted++[d],
        l.offered++[(d,q.curTick)]⟩ := by
      rw [Log.offer,hlist]
      rfl
    rw [hpopped,hlog]
    have harmed : ({q with transmitList := rest} : PacketQueue).Armed :=
      ⟨fun hw => absurd hw (by simp [hwaiting]),fun w hw => absurd hw (by simp [hevent])⟩
    refine (schedAll_post nested haccept harmed hwaiting).bind fun q' hq' => ?_
    obtain ⟨hk',ha',hw'⟩:=hq'
    cases hhead : q'.transmitList.head? with
    | none =>
      rw [schedSendEvent,hw',if_neg (by simp),deferredPacketReadyTime,hhead,if_neg (by simp)]
      refine ⟨hk',ha',fun _ _ e he => ?_⟩
      rw [hhead] at he
      cases he
    | some e =>
      rw [deferredPacketReadyTime,hhead,Option.map_some,Option.getD_some]
      refine (schedSendEvent_post hw' hhead fun w hw => ?_).mono (fun q'' hq'' => ?_) fun _ he => he.elim
      · obtain ⟨hcur,e',he',hle,_⟩:=ha'.event w hw
        rw [hhead] at he'
        cases he'
        exact ⟨hcur,hle⟩
      · obtain ⟨harmed',hidle,event,rfl⟩:=hq''
        exact ⟨⟨hk'.perm,hk'.byAddr,hk'.sorted,hk'.byTick,hk'.offered⟩,harmed',hidle⟩
  | refuse =>
    have hback : q.transmitList.head?.toList++q.transmitList.tail=q.transmitList := by rw [hlist]; rfl
    have hoffer : ∀ o∈(l.offer q .refuse).offered,o.1.tick≤o.2 := by
      rw [Log.offer,hlist]
      exact haccept.offered
    rw [post_pure,hback]
    exact ⟨⟨hk.perm,hk.byAddr,hk.sorted,hk.byTick,hoffer⟩,
      ⟨fun _ => ⟨hevent,d,hd,htick⟩,fun w hw => absurd hw (by simp [hevent])⟩,fun hw => (by cases hw)⟩

variable {forceOrder disableSanityCheck : Bool}

theorem processSendEvent_post (answer : Answer) (hk : Kept q l) (ha : q.Armed) (hevent : q.sendEvent=some q.curTick) :
    Post (q.processSendEvent answer) (fun q' => Kept q' (l.offer q answer) ∧ q'.Armed ∧ q'.Idle) Misuse := by
  have hwaiting : q.waitingOnRetry=false := by
    cases hw : q.waitingOnRetry with
    | false => rfl
    | true =>
      rw [(ha.waiting hw).1] at hevent
      cases hevent
  obtain ⟨_,d,hd,hle,_⟩:=ha.event q.curTick hevent
  have hk' : Kept {q with sendEvent := none} l := ⟨hk.perm,hk.byAddr,hk.sorted,hk.byTick,hk.offered⟩
  simp only [processSendEvent,post_bind,post_check]
  exact ⟨fun _ => sendDeferredPacket_post answer hk' hwaiting rfl ⟨d,hd,hle⟩,fun hno => absurd hwaiting hno⟩

theorem retry_post (answer : Answer) (hk : Kept q l) (ha : q.Armed) (hwaiting : q.waitingOnRetry=true) :
    Post (q.retry answer) (fun q' => Kept q' (l.offer q answer) ∧ q'.Armed ∧ q'.Idle) Misuse := by
  obtain ⟨hevent,hready⟩:=ha.waiting hwaiting
  have hk' : Kept {q with waitingOnRetry := false} l := ⟨hk.perm,hk.byAddr,hk.sorted,hk.byTick,hk.offered⟩
  simp only [retry,post_bind,post_check]
  exact ⟨fun _ => sendDeferredPacket_post answer hk' rfl hevent hready,fun hno => absurd hwaiting hno⟩

theorem Armed.tick (h : q.Armed) {t : ℕ} (hle : q.curTick≤t) (hfree : ∀ w∈q.sendEvent,t≤w) :
    ({q with curTick := t} : PacketQueue).Armed := by
  refine ⟨fun hw => ?_,fun w hw => ?_⟩
  · obtain ⟨hevent,d,hd,hready⟩:=h.waiting hw
    exact ⟨hevent,d,hd,Nat.le_trans hready hle⟩
  · obtain ⟨_,d,hd,hfront,hbound⟩:=h.event w hw
    refine ⟨hfree w hw,d,hd,hfront,hbound.imp_right fun hsoon => ?_⟩
    show w ≤ max d.tick (t+1)
    omega

theorem reachable_inv (h : Reachable forceOrder disableSanityCheck q l) : Kept q l ∧ q.Armed ∧ q.Idle := by
  induction h with
  | init =>
    refine ⟨⟨.refl _,fun _ _ => rfl,fun _ => .nil,fun _ _ => rfl,fun o ho => absurd ho not_mem_nil⟩,
      ⟨fun hw => (by cases hw),fun w hw => (by cases hw)⟩,fun _ _ d hd => (by cases hd)⟩
  | schedSendTiming q q' l pkt when_ _ hcall ih =>
    obtain ⟨hk,ha,hi⟩:=ih
    obtain ⟨hk',ha',hi',_⟩:=(schedSendTiming_post hk ha pkt when_).of_ok hcall
    exact ⟨hk',ha',hi' hi⟩
  | sendEvent q q' l answer _ hevent hcall ih => exact (processSendEvent_post answer ih.1 ih.2.1 hevent).of_ok hcall
  | retry q q' l answer _ hw hcall ih => exact (retry_post answer ih.1 ih.2.1 hw).of_ok hcall
  | tick q l t _ hle hfree ih =>
    obtain ⟨hk,ha,hi⟩:=ih
    exact ⟨⟨hk.perm,hk.byAddr,hk.sorted,hk.byTick,hk.offered⟩,ha.tick hle hfree,hi⟩

/-- What a queue has accepted and still holds is what it was given, in an order that `forceOrder`
decides; it sends nothing early, its event is there when it is needed, and no assertion fails
but for a caller's misuse. -/
theorem sends_in_order (h : Reachable forceOrder disableSanityCheck q l) :
    (l.accepted++q.transmitList).Perm l.enqueued ∧ (∀ o∈l.offered,o.1.tick≤o.2) ∧
      (q.forceOrder=true → ∀ pkt : Packet,
        (l.accepted++q.transmitList).filter (·.pkt.matchAddr pkt)=l.enqueued.filter (·.pkt.matchAddr pkt)) ∧
      (q.forceOrder=false → q.transmitList.Pairwise (fun d e => d.tick≤e.tick) ∧
        ∀ t,(l.accepted++q.transmitList).filter (·.tick=t)=l.enqueued.filter (·.tick=t)) ∧
      (∀ d∈q.transmitList.head?,q.waitingOnRetry=false → d.tick≠maxTick →
        ∃ w,q.sendEvent=some w ∧ w ≤ max d.tick (q.curTick+1)) ∧
      ∀ answer,(q.sendEvent=some q.curTick → Post (q.processSendEvent answer) (fun _ => True) Misuse) ∧
        (q.waitingOnRetry=true → Post (q.retry answer) (fun _ => True) Misuse) := by
  obtain ⟨hk,ha,hi⟩:=reachable_inv h
  refine ⟨hk.perm,hk.offered,hk.byAddr,fun hf => ⟨hk.sorted hf,hk.byTick hf⟩,fun d hd hw hmax => ?_,fun answer =>
    ⟨fun hevent => (processSendEvent_post answer hk ha hevent).imp fun _ _ => trivial,
      fun hw => (retry_post answer hk ha hw).imp fun _ _ => trivial⟩⟩
  cases hevent : q.sendEvent with
  | none => exact absurd (hi hw hevent d hd) hmax
  | some w =>
    obtain ⟨_,e,he,_,hbound⟩:=ha.event w hevent
    rw [hd] at he
    cases he
    exact ⟨w,rfl,hbound.resolve_left hmax⟩

def to64 (id : ℕ) : Packet := ⟨id,64,false,false⟩

/-- The second packet goes first, is refused, and is accepted at the retry. -/
theorem sends_in_order_retried : ∃ q l,Reachable false false q l ∧ l.accepted=[⟨3,to64 1⟩] ∧
    q.transmitList=[⟨5,to64 0⟩,⟨5,to64 2⟩] ∧ (l.accepted++q.transmitList).Perm [⟨5,to64 0⟩,⟨3,to64 1⟩,⟨5,to64 2⟩] ∧
    ∃ w,q.sendEvent=some w ∧ w≤5 := by
  have hrun : ∃ q l,Reachable false false q l ∧ l.enqueued=[⟨5,to64 0⟩,⟨3,to64 1⟩,⟨5,to64 2⟩] ∧
      l.accepted=[⟨3,to64 1⟩] ∧ q.transmitList=[⟨5,to64 0⟩,⟨5,to64 2⟩] ∧ q.waitingOnRetry=false ∧ q.curTick=3 :=
    ⟨_,_,.retry _ _ _ (.accept []) (.sendEvent _ _ _ .refuse (.tick _ _ 3 (.schedSendTiming _ _ _ (to64 2) 5
      (.schedSendTiming _ _ _ (to64 1) 3 (.schedSendTiming _ _ _ (to64 0) 5 .init rfl) rfl) rfl) (by decide)
      (fun w hw => by cases hw; decide)) rfl rfl) rfl rfl,rfl,rfl,rfl,rfl,rfl⟩
  obtain ⟨q,l,hreach,henqueued,haccepted,hlist,hwait,htick⟩:=hrun
  obtain ⟨hperm,_,_,_,hsend,_⟩:=sends_in_order hreach
  obtain ⟨w,hw,hle⟩:=hsend ⟨5,to64 0⟩ (by rw [hlist]; rfl) hwait (by decide)
  rw [htick] at hle
  exact ⟨q,l,hreach,haccepted,hlist,henqueued ▸ hperm,w,hw,hle⟩

/-- A packet for the last tick: nothing will send it. -/
theorem not_scheduled : ∃ q l,Reachable false false q l ∧ q.transmitList≠[] ∧ q.waitingOnRetry=false ∧
    q.sendEvent=none :=
  ⟨⟨false,false,0,[⟨maxTick,⟨0,64,false,false⟩⟩],none,false⟩,_,
    .schedSendTiming (new false false) _ ⟨[],[],[]⟩ ⟨0,64,false,false⟩ maxTick .init rfl,by simp,rfl,rfl⟩

end PacketQueue

end AquaGem5.Ports
