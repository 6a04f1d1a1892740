import AquaGem5.Controller.Capacity

/-!
# Runs of a controller of DRAM

A view of a state is what waits in the controller, at whatever priority. Escalation does not change it; every other call
adds the pieces of a packet, or takes a packet from a queue.
-/

namespace AquaGem5.Controller
open Ticks Checked Queues

/-- The bytes of a packet, which is in memory: the access to the memory asserts so, and a range ends in 64 bits. -/
structure Packet.InMemory (pkt : Packet) : Prop where
  size_lt : pkt.size<2^32
  end_lt : pkt.addr+pkt.size<2^64

namespace MemCtrl

/-- The controller has no NVM interface. The constructor of the other one checks its burst size. -/
structure Params.DramOnly (P : Params) : Prop where
  hasNvm : P.hasNvm=false
  contains : ∀ addr,P.contains false addr=false
  burst : ∃ k<32,P.burstSize true=2^k

/-- A state between the calls of a run, with the packets that were accepted. The event of the responses comes at its
tick. -/
inductive Run (P : Params) : List Packet → State → Prop
  | init : Run P [] (.new P)
  | recvTimingReq (A : List Packet) (s s' : State) (curTick : ℕ) (schedule : Qos.Schedule)
      (defense : MemPacket → Protection) (pkt : Packet) (accepted : Bool) : Run P A s → pkt.InMemory →
      recvTimingReq P curTick schedule defense pkt s = .ok (accepted,s') → Run P (if accepted then A++[pkt] else A) s'
  | processRespondEvent (A : List Packet) (s s' : State) (curTick : ℕ) : Run P A s → s.respondEvent=some curTick →
      processRespondEvent curTick s = .ok s' → Run P A s'
  | processNextReqEvent (A : List Packet) (s s' : State) (fuel curTick : ℕ) (turn : Turn) : Run P A s →
      processNextReqEvent P fuel curTick turn s = .ok s' → Run P A s'
  | mediaEvent (A : List Packet) (s : State) (dram : Dram.State) (nvm : Nvm.State) : Run P A s →
      Run P A {s with dram := dram, nvm := nvm}

structure View where
  reads : Multiset MemPacket
  writes : Multiset MemPacket
  respQueue : List MemPacket
  isInWriteQueue : Finset ℕ
  burstHelpers : List BurstHelper
  responses : List ℕ
  respondEvent : Option ℕ
  nextBurstAt : ℕ

def State.view (n : ℕ) (s : State) : View :=
  ⟨s.qos.contents n .READ,s.qos.contents n .WRITE,s.respQueue.map Qos.forgetQos,s.isInWriteQueue,s.burstHelpers,
    s.responses,s.respondEvent,s.nextBurstAt⟩

end MemCtrl

namespace Qos

variable {n prio k : ℕ} {dir other : BusState} {q q' : Qos} {pkt : MemPacket}

theorem contents_congr (h : q'.queue=q.queue) (dir : BusState) : q'.contents n dir=q.contents n dir := by
  rw [contents,contents,h]

theorem contents_push (q : Qos) (curTick : ℕ) (hprio : pkt.qosValue<n) (dir : BusState) :
    (q.push curTick pkt).contents n dir =
      if dir=pkt.dir then forgetQos pkt ::ₘ q.contents n dir else q.contents n dir := by
  rw [contents,contents,push_queue]
  by_cases hdir : dir=pkt.dir
  · rw [if_pos hdir,hdir,Function.update_self,queued_push hprio,Multiset.map_cons]
  · rw [if_neg hdir,Function.update_of_ne hdir]

theorem contents_served (hprio : prio<n) (hk : (q.queue dir prio)[k]?=some pkt) :
    q.contents n dir=forgetQos pkt ::ₘ (q.setQueue dir prio ((q.queue dir prio).eraseIdx k)).contents n dir := by
  rw [contents,contents,setQueue]
  dsimp only
  rw [Function.update_self,queued_erase hprio hk,Multiset.map_cons]

theorem contents_setQueue_of_ne (q : Qos) (prio : ℕ) (h : other≠dir) (l : List MemPacket) :
    (q.setQueue dir prio l).contents n other=q.contents n other := by
  rw [contents,contents,setQueue]
  dsimp only
  rw [Function.update_of_ne h]

theorem new_contents (n : ℕ) (dir : BusState) : new.contents n dir=0 := by
  have hnone : queued n (new.queue dir)=[] := List.flatMap_eq_nil_iff.mpr fun _ _ => rfl
  rw [contents,hnone]
  rfl

end Qos

namespace MemCtrl

variable {P : Params} {A : List Packet} {s s' : State} {fuel curTick n : ℕ} {defense : MemPacket → Protection}
  {pkt : Packet} {memPkt : MemPacket}

/-! ### A packet that arrives -/

structure PieceOf (P : Params) (pkt : Packet) (piece : ℕ × ℕ) (isRead : Bool) (memPkt : MemPacket) : Prop where
  ref : memPkt.pkt=pkt.ref
  addr : memPkt.addr=piece.1
  size : memPkt.size=piece.2
  read : memPkt.read=isRead
  dram : memPkt.dram=true
  qosValue : memPkt.qosValue=pkt.qosValue
  inject : memPkt.rhInjectDelay=true → P.rhDefenseEnable=true

theorem decodePacket_pieceOf (P : Params) (defense : MemPacket → Protection) (g : MemInterface) (curTick ref : ℕ)
    (pkt : Packet) (piece : ℕ × ℕ) (isRead : Bool) : Post (g.decodePacket curTick ref pkt piece.1 piece.2 isRead true)
      (fun memPkt => PieceOf P pkt piece isRead (protect P defense memPkt)) := by
  refine (post_true (g.decode (g.getCtrlAddr piece.1))).bind fun d _ => ?_
  rw [post_pure,protect]
  split
  next henable => exact ⟨rfl,rfl,rfl,rfl,rfl,rfl,fun _ => henable⟩
  next => exact ⟨rfl,rfl,rfl,rfl,rfl,rfl,fun hinject => absurd hinject Bool.false_ne_true⟩

theorem addWritePiece_view (hprio : pkt.qosValue<n) (piece : ℕ × ℕ) :
    Post (addWritePiece P curTick defense true pkt s piece) (fun s' =>
      (burstAlign P piece.1 true∈s.isInWriteQueue ∧ s'.view n=s.view n) ∨
      (burstAlign P piece.1 true∉s.isInWriteQueue ∧ ∃ memPkt,PieceOf P pkt piece false memPkt ∧
        s'.view n={s.view n with
          writes := Qos.forgetQos memPkt ::ₘ (s.view n).writes
          isInWriteQueue := insert (burstAlign P piece.1 true) s.isInWriteQueue})) := by
  rw [addWritePiece,post_bind,partly_check]
  intro _
  rw [post_ite]
  refine ⟨fun hin => .inl ⟨hin,rfl⟩,fun hout => ?_⟩
  rw [post_bind,post_within]
  refine (decodePacket_pieceOf P defense _ _ _ _ _ _).forget fun memPkt hpiece => ?_
  simp only [if_true,post_bind,partly_check,post_pure]
  refine fun _ _ => .inr ⟨hout,protect P defense memPkt,hpiece,?_⟩
  have hdir : (protect P defense memPkt).dir = .WRITE := if_neg (by rw [hpiece.read]; exact Bool.false_ne_true)
  have hlt : (protect P defense memPkt).qosValue<n := hpiece.qosValue ▸ hprio
  rw [State.view,State.view]
  dsimp only
  rw [Qos.contents_push _ _ hlt,Qos.contents_push _ _ hlt,hdir]
  rfl

def forwarded (P : Params) (s : State) (piece : ℕ × ℕ) : ℕ :=
  if burstAlign P piece.1 true∈s.isInWriteQueue then servedByWrQ P s piece.1 piece.2 else 0

/-- The piece of a read that has not been served joins a queue, with the helper of a packet of several. -/
structure Joined (P : Params) (n : ℕ) (pkt : Packet) (pktCount : ℕ) (piece : ℕ × ℕ) (loop loop' : ReadLoop) (memPkt : MemPacket) :
    Prop where
  piece : PieceOf P pkt piece true memPkt
  burstHelper : memPkt.burstHelper=loop'.burstHelper
  helper : (loop'.s.burstHelpers,loop'.burstHelper)=if 1<pktCount ∧ loop.burstHelper=none then
      (loop.s.burstHelpers++[⟨pktCount,0⟩],some loop.s.burstHelpers.length)
    else (loop.s.burstHelpers,loop.burstHelper)
  serviced : loop'.pktsServicedByWrQ=loop.pktsServicedByWrQ
  view : loop'.s.view n={loop.s.view n with
    reads := Qos.forgetQos memPkt ::ₘ (loop.s.view n).reads
    burstHelpers := loop'.s.burstHelpers}

theorem addReadPiece_view (hprio : pkt.qosValue<n) (pktCount : ℕ) (loop : ReadLoop) (piece : ℕ × ℕ) :
    Post (addReadPiece P curTick defense true pkt pktCount loop piece) (fun loop' =>
      (forwarded P loop.s piece≠0 ∧
        loop'={loop with pktsServicedByWrQ := loop.pktsServicedByWrQ+forwarded P loop.s piece}) ∨
      (forwarded P loop.s piece=0 ∧ ∃ memPkt,Joined P n pkt pktCount piece loop loop' memPkt)) := by
  rw [addReadPiece,post_bind,partly_check]
  intro _
  rw [post_ite]
  refine ⟨fun hserved => .inl ⟨hserved,rfl⟩,fun hserved => ?_⟩
  have hzero : forwarded P loop.s piece=0 := Decidable.not_not.mp hserved
  generalize hhelper : (if 1<pktCount ∧ loop.burstHelper=none then
      ({loop.s with burstHelpers := loop.s.burstHelpers++[⟨pktCount,0⟩]},some loop.s.burstHelpers.length)
    else (loop.s,loop.burstHelper) : State × Option ℕ)=helped
  have hhelped : helped.1={loop.s with burstHelpers := helped.1.burstHelpers} ∧
      (helped.1.burstHelpers,helped.2)=if 1<pktCount ∧ loop.burstHelper=none then
        (loop.s.burstHelpers++[⟨pktCount,0⟩],some loop.s.burstHelpers.length)
      else (loop.s.burstHelpers,loop.burstHelper) := by
    rw [← hhelper]
    split <;> exact ⟨rfl,rfl⟩
  obtain ⟨hstate,hhelpers⟩:=hhelped
  dsimp only
  rw [readPacket]
  simp only [post_bind,post_within,if_true]
  refine (decodePacket_pieceOf P defense _ _ _ _ _ _).forget fun memPkt hpiece => ?_
  simp only [partly_check,post_pure]
  refine fun _ => .inr ⟨hzero,{protect P defense memPkt with burstHelper := helped.2},?_⟩
  have hdir : ({protect P defense memPkt with burstHelper := helped.2} : MemPacket).dir = .READ := if_pos hpiece.read
  have hlt : ({protect P defense memPkt with burstHelper := helped.2} : MemPacket).qosValue<n := hpiece.qosValue ▸ hprio
  refine ⟨⟨hpiece.ref,hpiece.addr,hpiece.size,hpiece.read,hpiece.dram,hpiece.qosValue,hpiece.inject⟩,rfl,hhelpers,rfl,?_⟩
  rw [State.view,State.view]
  dsimp only
  rw [Qos.contents_push _ _ hlt,Qos.contents_push _ _ hlt,hdir,hstate]
  rfl

theorem qosSchedule_view (schedule : Qos.Schedule) (id entrySize : ℕ) (s : State) :
    Post (s.qos.qosSchedule P.numPriorities entrySize P.qosSyncroScheduler P.qosPriorityEscalation schedule id)
      (fun qos => schedule.pktPriority<P.numPriorities ∧
        ({s with qos := qos} : State).view P.numPriorities=s.view P.numPriorities) := by
  refine (Qos.qosSchedule_rearranged _ _ _ _ schedule id s.qos).forget fun qos hqos => ⟨hqos.1,?_⟩
  rw [State.view,State.view]
  dsimp only
  rw [hqos.2.contents,hqos.2.contents]

/-- A packet that is refused changes nothing that waits; an accepted one is added to a queue at its new priority. -/
inductive Arrived (P : Params) (curTick : ℕ) (defense : MemPacket → Protection) (pkt : Packet) (s : State) :
    Bool → State → Prop
  | refused (s' : State) : s'.view P.numPriorities=s.view P.numPriorities → Arrived P curTick defense pkt s false s'
  | write (s1 s' : State) (prio : ℕ) : s1.view P.numPriorities=s.view P.numPriorities → prio<P.numPriorities →
      pkt.size≠0 → addToWriteQueue P curTick defense true {pkt with qosValue := prio}
        (pktCount (P.burstSize true) pkt.addr pkt.size) s1 = .ok s' → Arrived P curTick defense pkt s true s'
  | read (s1 s' : State) (prio : ℕ) : s1.view P.numPriorities=s.view P.numPriorities → prio<P.numPriorities →
      pkt.size≠0 → addToReadQueue P curTick defense true {pkt with qosValue := prio}
        (pktCount (P.burstSize true) pkt.addr pkt.size) s1 = .ok s' → Arrived P curTick defense pkt s true s'

theorem recvTimingReq_view (hP : P.DramOnly) (schedule : Qos.Schedule) (s : State) :
    Post (recvTimingReq P curTick schedule defense pkt s) (fun answer => Arrived P curTick defense pkt s answer.1 answer.2) := by
  rw [recvTimingReq]
  simp only [post_bind,post_check,post_within,hP.contains]
  refine ⟨fun _ => ⟨fun _ => ⟨fun hin => ?_,fun _ => trivial⟩,fun _ => trivial⟩,fun _ => trivial⟩
  rw [hin.resolve_right Bool.false_ne_true]
  refine (qosSchedule_view schedule _ _ s).forget fun qos hqos => ?_
  obtain ⟨hprio,hview⟩:=hqos
  refine ⟨fun hsize => ?_,fun _ => trivial⟩
  rw [post_ite]
  refine ⟨fun _ => ?_,fun _ => ?_⟩
  · rw [post_ite]
    refine ⟨fun _ => .refused _ hview,fun _ => ?_⟩
    exact (post_true _).eq_ok.bind fun s' hs' => .write _ s' schedule.pktPriority hview hprio hsize hs'.1
  · rw [post_ite]
    refine ⟨fun _ => .refused _ hview,fun _ => ?_⟩
    exact (post_true _).eq_ok.bind fun s' hs' => .read _ s' schedule.pktPriority hview hprio hsize hs'.1

/-! ### A response -/

theorem processRespondEvent_view (s : State) : Post (processRespondEvent curTick s) (fun s' =>
    ∃ memPkt rest,s.respQueue=memPkt::rest ∧ s'.view n={(s.serviced memPkt).view n with
      respQueue := rest.map Qos.forgetQos
      respondEvent := (rest.map Qos.forgetQos).head?.map MemPacket.readyTime}) := by
  rw [processRespondEvent]
  cases hresp : s.respQueue with
  | nil => trivial
  | cons memPkt rest =>
    cases rest with
    | nil => exact ⟨memPkt,[],rfl,rfl⟩
    | cons next rest =>
      dsimp only [List.head?_cons]
      rw [post_bind,partly_check]
      exact fun _ => ⟨memPkt,next::rest,rfl,rfl⟩

/-! ### A packet that is served -/

/-- A burst of DRAM: the packet gets its ready time, and the bus is taken up to the end of the burst. -/
structure Issued (P : Params) (curTick : ℕ) (s : State) (memPkt : MemPacket) (served : MemPacket × State) : Prop where
  memPkt : served.1={memPkt with readyTime := served.1.readyTime}
  state : served.2={s with
    dram := served.2.dram
    nvm := served.2.nvm
    burstTicks := served.2.burstTicks
    nextBurstAt := served.2.nextBurstAt}

theorem doBurstAccess_issued (s : State) (hdram : memPkt.dram=true) :
    Post (s.doBurstAccess P fuel curTick memPkt) (Issued P curTick s memPkt) := by
  rw [State.doBurstAccess]
  dsimp only
  rw [if_pos hdram]
  refine Post.bind (R := fun r => r.1.memPkt={memPkt with readyTime := r.1.memPkt.readyTime}) ?_ fun r hr => ⟨hr,rfl⟩
  rw [post_within,Dram.doBurstAccess]
  exact (post_true _).bind fun _ _ => (post_true _).bind fun _ _ => (post_true _).bind fun _ _ => rfl

/-- A read has gone to the responses, behind the others; the event of the first one is scheduled. -/
structure ReadServed (P : Params) (n fuel curTick : ℕ) (s s' s0 : State) (memPkt : MemPacket) (served : MemPacket × State) :
    Prop where
  same : s0.view n=s.view n
  burst : s0.doBurstAccess P fuel curTick memPkt = .ok served
  issued : Issued P curTick s0 memPkt served
  reads : (s.view n).reads=Qos.forgetQos memPkt ::ₘ (s'.view n).reads
  view : s'.view n={s.view n with
    reads := (s'.view n).reads
    respQueue := (s.view n).respQueue++[Qos.forgetQos served.1]
    respondEvent := if (s.view n).respQueue=[] then some served.1.readyTime else (s.view n).respondEvent
    nextBurstAt := served.2.nextBurstAt}

/-- A write has left its queue, and its burst the index. -/
structure WriteServed (P : Params) (n fuel curTick : ℕ) (s s' s0 : State) (memPkt : MemPacket) (served : MemPacket × State) :
    Prop where
  same : s0.view n=s.view n
  burst : s0.doBurstAccess P fuel curTick memPkt = .ok served
  issued : Issued P curTick s0 memPkt served
  writes : (s.view n).writes=Qos.forgetQos memPkt ::ₘ (s'.view n).writes
  view : s'.view n={s.view n with
    writes := (s'.view n).writes
    isInWriteQueue := (s.view n).isInWriteQueue.erase (burstAlign P memPkt.addr true)
    nextBurstAt := served.2.nextBurstAt}

def AllDram (v : View) : Prop := ∀ memPkt∈v.reads+v.writes,memPkt.dram=true

theorem mem_contents {dir : BusState} {prio k : ℕ} (hprio : prio<n) (hk : (s.qos.queue dir prio)[k]?=some memPkt) :
    Qos.forgetQos memPkt∈s.qos.contents n dir :=
  Qos.contents_served hprio hk ▸ Multiset.mem_cons_self _ _

theorem serveRead_view {prio k : ℕ} (h : AllDram (s.view n)) (hprio : prio<n)
    (hk : (s.qos.queue .READ prio)[k]?=some memPkt) :
    Post (serveRead P fuel curTick prio k memPkt s) (fun s' => ∃ served,ReadServed P n fuel curTick s s' s memPkt served) := by
  have hdram : memPkt.dram=true := h (Qos.forgetQos memPkt) (Multiset.mem_add.mpr (.inl (mem_contents hprio hk)))
  rw [serveRead]
  refine (doBurstAccess_issued s hdram).eq_ok.bind fun served hserved => ?_
  obtain ⟨hburst,hissued⟩:=hserved
  obtain ⟨memPkt1,s1⟩:=served
  have hstate:=hissued.state
  dsimp only at hstate
  have hqos : s1.qos=s.qos := by rw [hstate]
  simp only [post_bind,partly_check,post_within]
  intro _ _
  refine (Qos.logResponse_spec s1.qos .READ _ _ _).forget fun qos hlog => ?_
  refine Post.mono (E := fun _ => True) (Q := fun event => event=if s1.respQueue=[] then some memPkt1.readyTime else s1.respondEvent) ?_
    (fun event hevent => ?_) fun _ _ => trivial
  · cases hlast : s1.respQueue.getLast? with
    | none =>
      rw [if_pos (List.getLast?_eq_none_iff.mp hlast)]
      dsimp only
      rw [post_bind,partly_check]
      exact fun _ => rfl
    | some last =>
      have hne : s1.respQueue≠[] := fun hnil => by rw [hnil] at hlast; cases hlast
      rw [if_neg hne]
      dsimp only
      rw [post_bind,partly_check]
      exact fun _ => rfl
  · refine (eraseServed_spec .READ prio k memPkt1 qos).forget fun qos' herased => ?_
    have hk1 : (qos.queue .READ prio)[k]?=some memPkt := by rwa [hlog.1,hqos]
    have hcontents : ∀ dir,qos.contents n dir=s.qos.contents n dir := fun dir =>
      (Qos.contents_congr hlog.1 dir).trans (by rw [hqos])
    have hreads:=Qos.contents_served hprio hk1
    rw [hcontents,← herased] at hreads
    have hwrites : qos'.contents n .WRITE=s.qos.contents n .WRITE := by
      rw [herased,Qos.contents_setQueue_of_ne _ _ (by decide),hcontents]
    refine ⟨(memPkt1,s1),rfl,hburst,hissued,hreads,?_⟩
    rw [State.view,State.view]
    dsimp only
    rw [hwrites,hevent,hstate]
    simp only [List.map_append,List.map_cons,List.map_nil,List.map_eq_nil_iff]

theorem serveWrite_view {prio k : ℕ} (h : AllDram (s.view n)) (hprio : prio<n)
    (hk : (s.qos.queue .WRITE prio)[k]?=some memPkt) :
    Post (serveWrite P fuel curTick prio k memPkt s) (fun s' => ∃ served,WriteServed P n fuel curTick s s' s memPkt served) := by
  have hdram : memPkt.dram=true := h (Qos.forgetQos memPkt) (Multiset.mem_add.mpr (.inr (mem_contents hprio hk)))
  rw [serveWrite,post_bind,partly_check]
  intro _
  refine (doBurstAccess_issued s hdram).eq_ok.bind fun served hserved => ?_
  obtain ⟨hburst,hissued⟩:=hserved
  obtain ⟨memPkt1,s1⟩:=served
  have hstate:=hissued.state
  have hpkt:=hissued.memPkt
  dsimp only at hstate hpkt
  have hqos : s1.qos=s.qos := by rw [hstate]
  simp only [post_bind,post_within]
  refine (Qos.logResponse_spec s1.qos .WRITE _ _ _).forget fun qos hlog => ?_
  refine (eraseServed_spec .WRITE prio k memPkt1 qos).forget fun qos' herased => ?_
  have hk1 : (qos.queue .WRITE prio)[k]?=some memPkt := by rwa [hlog.1,hqos]
  have hcontents : ∀ dir,qos.contents n dir=s.qos.contents n dir := fun dir =>
    (Qos.contents_congr hlog.1 dir).trans (by rw [hqos])
  have hwrites:=Qos.contents_served hprio hk1
  rw [hcontents,← herased] at hwrites
  have hreads : qos'.contents n .READ=s.qos.contents n .READ := by
    rw [herased,Qos.contents_setQueue_of_ne _ _ (by decide),hcontents]
  refine ⟨(memPkt1,s1),rfl,hburst,hissued,hwrites,?_⟩
  have haddr : memPkt1.addr=memPkt.addr := by rw [hpkt]
  have hdram1 : memPkt1.dram=true := by rw [hpkt]; exact hdram
  rw [State.view,State.view]
  dsimp only
  rw [hreads,haddr,hdram1,hstate]

/-- What the next request does: nothing to the queues, or a read or a write is served. -/
inductive Turned (P : Params) (n fuel curTick : ℕ) (s s' : State) : Prop
  | none : s'.view n=s.view n → Turned P n fuel curTick s s'
  | read (s0 : State) (memPkt : MemPacket) (served : MemPacket × State) :
      ReadServed P n fuel curTick s s' s0 memPkt served → Turned P n fuel curTick s s'
  | write (s0 : State) (memPkt : MemPacket) (served : MemPacket × State) :
      WriteServed P n fuel curTick s s' s0 memPkt served → Turned P n fuel curTick s s'

theorem ReadServed.congr {s0 s1 s2 : State} {served : MemPacket × State} (h : ReadServed P n fuel curTick s1 s2 s0 memPkt served)
    (hs : s1.view n=s.view n) (hs' : s'.view n=s2.view n) : ReadServed P n fuel curTick s s' s0 memPkt served :=
  ⟨h.same.trans hs,h.burst,h.issued,by rw [hs',← hs]; exact h.reads,by rw [hs',← hs]; exact h.view⟩

theorem WriteServed.congr {s0 s1 s2 : State} {served : MemPacket × State}
    (h : WriteServed P n fuel curTick s1 s2 s0 memPkt served) (hs : s1.view n=s.view n) (hs' : s'.view n=s2.view n) :
    WriteServed P n fuel curTick s s' s0 memPkt served :=
  ⟨h.same.trans hs,h.burst,h.issued,by rw [hs',← hs]; exact h.writes,by rw [hs',← hs]; exact h.view⟩

theorem nextRead_view (h : AllDram (s.view P.numPriorities)) (turn : Turn) (allWritesNvm : Bool) :
    Post (nextRead P fuel curTick turn allWritesNvm s) (Turned P P.numPriorities fuel curTick s) := by
  rw [nextRead,post_ite]
  refine ⟨fun _ => ?_,fun _ => ?_⟩
  · rw [post_ite]
    exact ⟨fun _ => .none rfl,fun _ => .none rfl⟩
  · cases hchosen : chosen (turn.chooseNext .READ) (s.qos.queue .READ) P.numPriorities with
    | none => exact .none rfl
    | some found =>
      obtain ⟨prio,k,memPkt⟩:=found
      obtain ⟨hprio,hk⟩:=chosen_spec hchosen
      refine (serveRead_view h hprio hk).bind fun s1 h1 => ?_
      obtain ⟨served,h1⟩:=h1
      dsimp only
      rw [post_pure]
      split
      · exact .read s memPkt served (h1.congr rfl rfl)
      · exact .read s memPkt served (h1.congr rfl rfl)

theorem nextWrite_view (h : AllDram (s.view P.numPriorities)) (turn : Turn) (allWritesNvm : Bool) :
    Post (nextWrite P fuel curTick turn allWritesNvm s) (Turned P P.numPriorities fuel curTick s) := by
  rw [nextWrite]
  cases hchosen : chosen (turn.chooseNext .WRITE) (s.qos.queue .WRITE) P.numPriorities with
  | none => exact .none rfl
  | some found =>
    obtain ⟨prio,k,memPkt⟩:=found
    obtain ⟨hprio,hk⟩:=chosen_spec hchosen
    refine (serveWrite_view h hprio hk).bind fun s1 h1 => ?_
    obtain ⟨served,h1⟩:=h1
    dsimp only
    rw [post_pure]
    split
    · exact .write s memPkt served (h1.congr rfl rfl)
    · exact .write s memPkt served (h1.congr rfl rfl)

theorem Turned.congr {s1 : State} (h : Turned P n fuel curTick s1 s') (hs : s1.view n=s.view n) :
    Turned P n fuel curTick s s' := by
  cases h with
  | none h => exact .none (h.trans hs)
  | read s0 memPkt served h => exact .read s0 memPkt served (h.congr hs rfl)
  | write s0 memPkt served h => exact .write s0 memPkt served (h.congr hs rfl)

theorem processNextReqEvent_view (hP : P.DramOnly) (h : AllDram (s.view P.numPriorities)) (turn : Turn) :
    Post (processNextReqEvent P fuel curTick turn s) (Turned P P.numPriorities fuel curTick s) := by
  rw [processNextReqEvent]
  dsimp only
  rw [if_neg (by rw [hP.hasNvm]; exact Bool.false_ne_true),post_bind,post_pure,post_ite]
  refine ⟨fun _ => .none rfl,fun _ => ?_⟩
  generalize turn.selectNextBusState.getD s.busStateNext=busState
  cases busState with
  | READ => exact (nextRead_view (by exact h) turn _).forget fun _ hs => hs.congr rfl
  | WRITE => exact (nextWrite_view (by exact h) turn _).forget fun _ hs => hs.congr rfl

end MemCtrl

end AquaGem5.Controller
