import AquaGem5.Controller.WriteIndex

/-!
# The order of the bursts on the data bus

A burst comes no sooner than the end of the one before.
-/

namespace AquaGem5.Dram
open Ticks Controller Checked

variable {P : Params} {fuel curTick nextBurstAt : ℕ} {burstTicks : Multiset ℕ} {s : State} {memPkt : MemPacket}
  {queue : List (List MemPacket)}

def busTick (P : Params) (memPkt : MemPacket) (nextBurstAt : ℕ) : ℕ :=
  if memPkt.rhInjectDelay=true ∧ memPkt.rhBubbleSize=90000 then tickSub (tickSub nextBurstAt P.tCL) P.tBURST
  else nextBurstAt

theorem busTick_le (P : Params) (curTick : ℕ) (memPkt : MemPacket) (colAllowedAt nextBurstAt : ℕ) :
    busTick P memPkt nextBurstAt≤burstTick P curTick memPkt colAllowedAt nextBurstAt ∧
      curTick≤burstTick P curTick memPkt colAllowedAt nextBurstAt := by
  rw [busTick,burstTick]
  split <;> exact ⟨(Nat.le_max_right _ _).trans (Nat.le_max_left _ _),Nat.le_max_right _ _⟩

/-- A burst on the bus: from its command to the next one there is the length of a burst, and the data is ready after
the latency and the burst. -/
structure OnBus (P : Params) (b : Burst) (burstGap : ℕ) : Prop where
  ready : b.memPkt.readyTime=b.cmdAt+P.tCL+P.tBURST
  next : b.nextBurstAt=b.cmdAt+burstGap
  gap : burstGap=P.tBURST ∨ burstGap=P.tBURST_MIN

theorem interleaveBurst_gap (P : Params) (rk : Rank) (cmdAt : ℕ) :
    (interleaveBurst P rk cmdAt).2=P.tBURST ∨ (interleaveBurst P rk cmdAt).2=P.tBURST_MIN := by
  rw [interleaveBurst]
  split
  next =>
    split
    next => exact .inl rfl
    next => split <;> exact .inr rfl
  next => exact .inr rfl

theorem doBurstAccess_onBus : Post (doBurstAccess P fuel curTick burstTicks s memPkt nextBurstAt queue)
    (fun r => (∃ burstGap,OnBus P r.1 burstGap) ∧ busTick P memPkt nextBurstAt≤r.1.cmdAt ∧ curTick≤r.1.cmdAt) := by
  rw [doBurstAccess]
  refine (post_true _).bind fun opened _ => ?_
  refine (verifyBurst_post P fuel opened.2 opened.1 _).partly.bind fun verified hverified => ?_
  refine (post_true _).bind fun finished _ => ?_
  have hbus:=busTick_le P curTick memPkt
    (if memPkt.read then (opened.1.banks memPkt.bank).rdAllowedAt else (opened.1.banks memPkt.bank).wrAllowedAt) nextBurstAt
  have hlater:=hverified.1.trans (le_interleaveBurst P opened.1 verified.1)
  exact ⟨⟨_,rfl,rfl,interleaveBurst_gap P opened.1 verified.1⟩,hbus.1.trans hlater,hbus.2.trans hlater⟩

end AquaGem5.Dram

namespace AquaGem5.Controller
open Ticks Checked Queues List

namespace MemCtrl

variable {P : Params} {A : List Packet} {s s' : State} {v v' : View} {fuel curTick n : ℕ}
  {defense : MemPacket → Protection} {pkt : Packet} {memPkt : MemPacket}

/-- The tick of the command of a burst, and the ticks to the next one. -/
structure BusBurst where
  cmdAt : ℕ
  burstGap : ℕ

/-- What `doBurstAccess` leaves behind a burst: the ready time of the packet and the next tick of the bus. -/
structure BusBurst.Of (P : Params) (b : BusBurst) (served : MemPacket × State) : Prop where
  ready : served.1.readyTime=b.cmdAt+P.dram.tCL+P.dram.tBURST
  next : served.2.nextBurstAt=b.cmdAt+b.burstGap
  gap : b.burstGap=P.dram.tBURST ∨ b.burstGap=P.dram.tBURST_MIN

theorem le_busTick (hsum : P.dram.tCL+P.dram.tBURST≤90000)
    (hinject : memPkt.rhInjectDelay=true → P.rhDefenseEnable=true) (nextBurstAt : ℕ) :
    nextBurstAt≤Dram.busTick P.dram memPkt (nextBurstAt +
      if P.rhDefenseEnable=true ∧ memPkt.rhInjectDelay=true ∧ 0 < memPkt.rhBubbleSize then
        if 7800*1000 ≤ memPkt.rhBubbleSize then 7000*1000 else memPkt.rhBubbleSize else 0) := by
  rw [Dram.busTick]
  split
  next hshort =>
    obtain ⟨hdelay,hbubble⟩:=hshort
    rw [if_pos ⟨hinject hdelay,hdelay,by omega⟩,if_neg (by omega),hbubble]
    have hlatency : tickSub (nextBurstAt+90000) P.dram.tCL=nextBurstAt+90000-P.dram.tCL := tickSub_of_le (by omega)
    rw [hlatency,tickSub_of_le (by omega)]
    omega
  next => exact Nat.le_add_right _ _

theorem doBurstAccess_busBurst (hsum : P.dram.tCL+P.dram.tBURST≤90000) (hdram : memPkt.dram=true)
    (hinject : memPkt.rhInjectDelay=true → P.rhDefenseEnable=true) (s : State) :
    Post (s.doBurstAccess P fuel curTick memPkt)
      (fun served => ∃ b : BusBurst,b.Of P served ∧ s.nextBurstAt≤b.cmdAt ∧ curTick≤b.cmdAt) := by
  rw [State.doBurstAccess]
  dsimp only
  rw [if_pos hdram]
  refine Post.bind (R := fun r => (∃ burstGap,Dram.OnBus P.dram r.1 burstGap) ∧ s.nextBurstAt≤r.1.cmdAt ∧
    curTick≤r.1.cmdAt) ?_ fun r hr => ?_
  · rw [post_within]
    refine Dram.doBurstAccess_onBus.forget fun r hr => ⟨hr.1,?_,hr.2.2⟩
    exact (le_busTick hsum hinject s.nextBurstAt).trans hr.2.1
  · obtain ⟨⟨burstGap,hbus⟩,hnext,hcur⟩:=hr
    exact ⟨⟨r.1.cmdAt,burstGap⟩,⟨hbus.ready,hbus.next,hbus.gap⟩,hnext,hcur⟩

/-- The bursts of DRAM in the order of their issue. Between two of them anything but the next tick of the bus may change. -/
inductive Bursts (P : Params) : List BusBurst → State → Prop
  | init (s : State) : Bursts P [] s
  | other (l : List BusBurst) (s s' : State) : Bursts P l s → s'.nextBurstAt=s.nextBurstAt → Bursts P l s'
  | burst (l : List BusBurst) (s : State) (fuel curTick : ℕ) (memPkt : MemPacket) (served : MemPacket × State)
      (b : BusBurst) : Bursts P l s → memPkt.dram=true → (memPkt.rhInjectDelay=true → P.rhDefenseEnable=true) →
      s.doBurstAccess P fuel curTick memPkt = .ok served → b.Of P served → Bursts P (l++[b]) served.2

theorem Bursts.ordered {l : List BusBurst} (hsum : P.dram.tCL+P.dram.tBURST≤90000) (h : Bursts P l s) :
    l.Pairwise (fun a b => a.cmdAt+a.burstGap≤b.cmdAt) ∧ ∀ b∈l,b.cmdAt+b.burstGap ≤ s.nextBurstAt := by
  induction h with
  | init => exact ⟨Pairwise.nil,fun b hb => absurd hb not_mem_nil⟩
  | other l s s' _ hsame ih => exact ⟨ih.1,hsame ▸ ih.2⟩
  | burst l s fuel curTick memPkt served b _ hdram hinject hrun hof ih =>
    obtain ⟨b',hof',hnext,_⟩:=(doBurstAccess_busBurst hsum hdram hinject s).of_ok hrun
    have hsame : b'.cmdAt=b.cmdAt := by
      have hready:=hof.ready
      rw [hof'.ready] at hready
      omega
    have hbefore : ∀ a∈l,a.cmdAt+a.burstGap≤b.cmdAt := fun a ha => by
      have hle:=ih.2 a ha
      omega
    refine ⟨?_,fun a ha => ?_⟩
    · rw [pairwise_append]
      refine ⟨ih.1,pairwise_singleton _ _,fun a ha c hc => ?_⟩
      rw [mem_singleton.mp hc]
      exact hbefore a ha
    · rw [hof.next]
      cases mem_append.mp ha with
      | inl ha => exact (hbefore a ha).trans (Nat.le_add_right _ _)
      | inr ha => rw [mem_singleton.mp ha]

/-- The responses are in the order of their ready times, none later than the next burst would be, and the event is
scheduled at the first. -/
structure Ordered (P : Params) (v : View) : Prop where
  sorted : v.respQueue.Pairwise fun a b => a.readyTime≤b.readyTime
  last : ∀ memPkt∈v.respQueue,memPkt.readyTime≤v.nextBurstAt+P.dram.tCL+P.dram.tBURST
  event : v.respondEvent=v.respQueue.head?.map MemPacket.readyTime

structure SameBus (v v' : View) : Prop where
  respQueue : v'.respQueue=v.respQueue
  respondEvent : v'.respondEvent=v.respondEvent
  nextBurstAt : v'.nextBurstAt=v.nextBurstAt

theorem SameBus.ordered (h : SameBus v v') (hv : Ordered P v) : Ordered P v' := by
  refine ⟨h.respQueue ▸ hv.sorted,?_,?_⟩
  · rw [h.respQueue,h.nextBurstAt]
    exact hv.last
  · rw [h.respQueue,h.respondEvent]
    exact hv.event

theorem addToWriteQueue_sameBus {pktCount : ℕ} (hprio : pkt.qosValue<n) (s : State) :
    Post (addToWriteQueue P curTick defense true pkt pktCount s) (fun s' => SameBus (s.view n) (s'.view n)) := by
  rw [addToWriteQueue]
  simp only [post_bind,partly_check,post_pure]
  intro _ _
  refine Post.mono (E := fun _ => True) (Post.foldlM (I := fun s' : State => SameBus (s.view n) (s'.view n)) ⟨rfl,rfl,rfl⟩
    fun s1 h1 piece _ => ?_) (fun s1 h1 => ⟨h1.respQueue,h1.respondEvent,h1.nextBurstAt⟩) fun _ _ => trivial
  refine (addWritePiece_view hprio piece).forget fun s' hs' => ?_
  rcases hs' with ⟨_,hview⟩ | ⟨_,memPkt,_,hview⟩
  · rw [hview]
    exact h1
  · rw [hview]
    exact ⟨h1.respQueue,h1.respondEvent,h1.nextBurstAt⟩

theorem addToReadQueue_sameBus {pktCount : ℕ} (hprio : pkt.qosValue<n) (s : State) :
    Post (addToReadQueue P curTick defense true pkt pktCount s) (fun s' => SameBus (s.view n) (s'.view n)) := by
  rw [addToReadQueue]
  simp only [post_bind,partly_check]
  intro _ _ _
  refine Post.mono (E := fun _ => True) (Post.foldlM (I := fun loop : ReadLoop => SameBus (s.view n) (loop.s.view n))
    ⟨rfl,rfl,rfl⟩ fun loop h1 piece _ => ?_) (fun loop h1 => ?_) fun _ _ => trivial
  · refine (addReadPiece_view hprio pktCount loop piece).forget fun loop' hloop' => ?_
    rcases hloop' with ⟨_,heq⟩ | ⟨_,memPkt,hjoined⟩
    · rw [heq]
      exact h1
    · rw [hjoined.view]
      exact ⟨h1.respQueue,h1.respondEvent,h1.nextBurstAt⟩
  · rw [post_ite]
    refine ⟨fun _ => ⟨h1.respQueue,h1.respondEvent,h1.nextBurstAt⟩,fun _ => ?_⟩
    cases loop.burstHelper with
    | none => exact h1
    | some i => exact ⟨h1.respQueue,h1.respondEvent,h1.nextBurstAt⟩

theorem Arrived.ordered {accepted : Bool} (h : Arrived P curTick defense pkt s accepted s')
    (hs : Ordered P (s.view P.numPriorities)) : Ordered P (s'.view P.numPriorities) := by
  cases h with
  | refused _ h => exact h ▸ hs
  | write s1 _ prio hview hprio hsize h =>
    have hprio' : ({pkt with qosValue := prio} : Packet).qosValue<P.numPriorities := hprio
    exact ((addToWriteQueue_sameBus hprio' s1).of_ok h).ordered (hview ▸ hs)
  | read s1 _ prio hview hprio hsize h =>
    have hprio' : ({pkt with qosValue := prio} : Packet).qosValue<P.numPriorities := hprio
    exact ((addToReadQueue_sameBus hprio' s1).of_ok h).ordered (hview ▸ hs)

theorem Whole.busBurst {s0 : State} {served : MemPacket × State} (hsum : P.dram.tCL+P.dram.tBURST≤90000)
    (h : Whole P (Qos.forgetQos memPkt)) (hsame : s0.view n=s.view n)
    (hburst : s0.doBurstAccess P fuel curTick memPkt = .ok served) :
    ∃ b : BusBurst,b.Of P served ∧ (s.view n).nextBurstAt≤b.cmdAt := by
  have hdram : memPkt.dram=true := h.dram
  have hinject : memPkt.rhInjectDelay=true → P.rhDefenseEnable=true := h.inject
  obtain ⟨b,hof,hnext,_⟩:=(doBurstAccess_busBurst hsum hdram hinject s0).of_ok hburst
  exact ⟨b,hof,(congrArg View.nextBurstAt hsame).ge.trans hnext⟩

theorem Turned.ordered (hsum : P.dram.tCL+P.dram.tBURST≤90000) (hindexed : Indexed P (s.view n))
    (h : Turned P n fuel curTick s s') (hs : Ordered P (s.view n)) : Ordered P (s'.view n) := by
  cases h with
  | none h => exact h ▸ hs
  | read s0 memPkt served h =>
    obtain ⟨b,hof,hfree⟩:=Whole.busBurst hsum (hindexed.whole _ (Multiset.mem_add.mpr
      (.inl (h.reads ▸ Multiset.mem_cons_self _ _)))) h.same h.burst
    have hready : (Qos.forgetQos served.1).readyTime=b.cmdAt+P.dram.tCL+P.dram.tBURST := hof.ready
    have hlast : ∀ memPkt∈(s.view n).respQueue,memPkt.readyTime≤b.cmdAt+P.dram.tCL+P.dram.tBURST :=
      fun memPkt hin => by
        have hle:=hs.last memPkt hin
        omega
    rw [h.view]
    refine ⟨?_,fun memPkt hin => ?_,?_⟩
    · dsimp only
      rw [pairwise_append]
      refine ⟨hs.sorted,pairwise_singleton _ _,fun memPkt hin later hlater => ?_⟩
      rw [mem_singleton.mp hlater,hready]
      exact hlast memPkt hin
    · dsimp only at hin ⊢
      rw [hof.next]
      cases mem_append.mp hin with
      | inl hin =>
        have hle:=hlast memPkt hin
        omega
      | inr hin =>
        rw [mem_singleton.mp hin,hready]
        omega
    · dsimp only
      rw [hs.event]
      cases (s.view n).respQueue with
      | nil | cons first rest => rfl
  | write s0 memPkt served h =>
    obtain ⟨b,hof,hfree⟩:=Whole.busBurst hsum (hindexed.whole _ (Multiset.mem_add.mpr
      (.inr (h.writes ▸ Multiset.mem_cons_self _ _)))) h.same h.burst
    rw [h.view]
    refine ⟨hs.sorted,fun memPkt hin => ?_,hs.event⟩
    have hle:=hs.last memPkt hin
    dsimp only
    rw [hof.next]
    omega

theorem Run.ordered (hP : P.DramOnly) (hsum : P.dram.tCL+P.dram.tBURST≤90000) (h : Run P A s) :
    Ordered P (s.view P.numPriorities) := by
  induction h with
  | init => exact ⟨Pairwise.nil,fun memPkt hin => absurd hin not_mem_nil,rfl⟩
  | recvTimingReq A s s' curTick schedule defense pkt accepted _ _ hrun ih =>
    exact ((recvTimingReq_view hP schedule s).of_ok hrun).ordered ih
  | processRespondEvent A s s' curTick _ _ hrun ih =>
    obtain ⟨memPkt,rest,hresp,hview⟩:=(processRespondEvent_view s).of_ok hrun
    have hqueue : (s.view P.numPriorities).respQueue=Qos.forgetQos memPkt::rest.map Qos.forgetQos :=
      congrArg (map Qos.forgetQos) hresp
    have hsorted:=ih.sorted
    have hlast:=ih.last
    rw [hqueue] at hsorted hlast
    rw [hview,serviced_view]
    exact ⟨(pairwise_cons.mp hsorted).2,fun later hin => hlast later (mem_cons_of_mem _ hin),rfl⟩
  | processNextReqEvent A s s' fuel curTick turn hs hrun ih =>
    have hindexed:=hs.indexed hP
    exact ((processNextReqEvent_view hP hindexed.allDram turn).of_ok hrun).ordered hsum hindexed ih
  | mediaEvent A s dram nvm _ ih => exact ih

theorem Whole.size_le (hP : P.DramOnly) (h : Whole P memPkt) : memPkt.size≤P.burstSize memPkt.dram := by
  obtain ⟨k,_,hburst⟩:=hP.burst
  have hsame:=h.burst
  rw [h.dram,hburst] at *
  have hstart:=Nat.div_mul_le_self memPkt.addr (2^k)
  have hend:=Nat.lt_mul_of_div_lt (Nat.lt_succ_self ((memPkt.addr+memPkt.size-1)/2^k)) (Nat.two_pow_pos k)
  rw [← hsame,Nat.succ_eq_add_one,Nat.add_mul,Nat.one_mul] at hend
  omega

theorem doBurstAccess_faults (s : State) :
    Post (s.doBurstAccess P fuel curTick memPkt) (fun _ => True) fun e => e ≠ .assertion := by
  rw [State.doBurstAccess]
  dsimp only
  rw [post_ite]
  simp only [post_bind,post_within,post_pure]
  refine ⟨fun _ => (post_true _).mono (fun _ h => h) fun d _ h => ?_,
    fun _ => (post_true _).mono (fun _ h => h) fun d _ h => ?_⟩
  · cases h
  · cases h

theorem logResponse_faults (q : Qos) (dir : BusState) (id qos addr : ℕ) :
    Post (within Fault.qos (q.logResponse dir id qos addr)) (fun _ => True) fun e => e ≠ .assertion := by
  rw [post_within]
  refine (post_true _).mono (fun _ h => h) fun d _ h => ?_
  cases h

theorem eraseServed_faults (dir : BusState) (prio k : ℕ) (memPkt : MemPacket) (q : Qos) :
    Post (eraseServed dir prio k memPkt q) (fun _ => True) fun e => e ≠ .assertion := by
  rw [eraseServed,post_bind,post_check]
  refine ⟨fun _ => trivial,fun _ h => ?_⟩
  cases h

theorem burst_served (hsum : P.dram.tCL+P.dram.tBURST≤90000) (hwhole : Whole P memPkt) (s : State) :
    Post (s.doBurstAccess P fuel curTick memPkt) (fun served => Issued P curTick s memPkt served ∧
      ∃ b : BusBurst,b.Of P served ∧ s.nextBurstAt≤b.cmdAt ∧ curTick≤b.cmdAt) fun e => e ≠ .assertion :=
  ((doBurstAccess_faults s).and ((doBurstAccess_issued s hwhole.dram).and
    (doBurstAccess_busBurst hsum hwhole.dram hwhole.inject s))).mono (fun _ h => h.2) fun _ h => h.1

theorem whole_of_getElem? {dir : BusState} {prio k : ℕ} (hs : Indexed P (s.view n)) (hprio : prio<n)
    (hk : (s.qos.queue dir prio)[k]?=some memPkt) : Whole P memPkt := by
  have hwhole : Whole P (Qos.forgetQos memPkt) := by
    refine hs.whole _ (Multiset.mem_add.mpr ?_)
    cases dir with
    | READ => exact .inl (mem_contents hprio hk)
    | WRITE => exact .inr (mem_contents hprio hk)
  exact ⟨hwhole.dram,hwhole.positive,hwhole.burst,hwhole.inject⟩

theorem serveRead_checks {prio k : ℕ} (hP : P.DramOnly) (hsum : P.dram.tCL+P.dram.tBURST≤90000)
    (hindexed : Indexed P (s.view n)) (hs : Ordered P (s.view n)) (hprio : prio<n)
    (hk : (s.qos.queue .READ prio)[k]?=some memPkt) :
    Post (serveRead P fuel curTick prio k memPkt s) (fun _ => True) fun e => e ≠ .assertion := by
  have hwhole:=whole_of_getElem? hindexed hprio hk
  rw [serveRead]
  refine (burst_served hsum hwhole s).bind fun served hserved => ?_
  obtain ⟨hissued,b,hof,hnext,hcur⟩:=hserved
  obtain ⟨memPkt1,s1⟩:=served
  have hpkt:=hissued.memPkt
  have hstate:=hissued.state
  have hready:=hof.ready
  dsimp only at hpkt hstate hready
  have hle:=hwhole.size_le hP
  have hsize : memPkt1.size≤P.burstSize memPkt1.dram := by
    rw [hpkt]
    exact hle
  have hresp : s1.respQueue=s.respQueue := by rw [hstate]
  have hevent : s1.respondEvent=s1.respQueue.head?.map MemPacket.readyTime := by
    rw [hstate]
    refine hs.event.trans ?_
    rw [State.view]
    dsimp only
    cases s.respQueue <;> rfl
  have hlast : ∀ last∈s1.respQueue,last.readyTime ≤ memPkt1.readyTime := fun last hin => by
    have hle : last.readyTime ≤ s.nextBurstAt+P.dram.tCL+P.dram.tBURST :=
      hs.last (Qos.forgetQos last) (mem_map_of_mem (hresp ▸ hin))
    omega
  simp only [post_bind,post_check]
  refine ⟨fun _ => ⟨fun _ => ?_,fun hlate => absurd (by omega) hlate⟩,fun hlarge => absurd hsize hlarge⟩
  refine (logResponse_faults ..).imp fun qos _ => ?_
  refine Post.mono (E := fun e => e ≠ .assertion) (Q := fun _ => True) ?_
    (fun event _ => (eraseServed_faults .READ prio k memPkt1 qos).imp fun _ _ => trivial) fun _ he => he
  cases hl : s1.respQueue.getLast? with
  | none =>
    have hnil:=getLast?_eq_none_iff.mp hl
    dsimp only
    rw [post_bind,post_check]
    refine ⟨fun _ => trivial,fun hscheduled => absurd ?_ hscheduled⟩
    rw [hevent,hnil]
    rfl
  | some last =>
    have hin:=mem_of_getLast? hl
    dsimp only
    rw [post_bind,post_check]
    refine ⟨fun _ => trivial,fun hbad => absurd ⟨hlast last hin,?_⟩ hbad⟩
    rw [hevent]
    cases hq : s1.respQueue with
    | nil =>
      rw [hq] at hin
      exact absurd hin not_mem_nil
    | cons first rest =>
      intro h
      cases h

theorem serveWrite_checks {prio k : ℕ} (hP : P.DramOnly) (hindexed : Indexed P (s.view n)) (hprio : prio<n)
    (hk : (s.qos.queue .WRITE prio)[k]?=some memPkt) :
    Post (serveWrite P fuel curTick prio k memPkt s) (fun _ => True) fun e => e ≠ .assertion := by
  have hwhole:=whole_of_getElem? hindexed hprio hk
  rw [serveWrite,post_bind,post_check]
  refine ⟨fun _ => ?_,fun hlarge => absurd (hwhole.size_le hP) hlarge⟩
  refine (doBurstAccess_faults s).bind fun served _ => ?_
  refine (logResponse_faults ..).bind fun qos _ => ?_
  exact (eraseServed_faults .WRITE prio k served.1 qos).bind fun _ _ => trivial

theorem nextRead_checks (hP : P.DramOnly) (hsum : P.dram.tCL+P.dram.tBURST≤90000)
    (hindexed : Indexed P (s.view P.numPriorities)) (hs : Ordered P (s.view P.numPriorities)) (turn : Turn)
    (allWritesNvm : Bool) :
    Post (nextRead P fuel curTick turn allWritesNvm s) (fun _ => True) fun e => e ≠ .assertion := by
  rw [nextRead,post_ite]
  refine ⟨fun _ => ?_,fun _ => ?_⟩
  · rw [post_ite]
    exact ⟨fun _ => trivial,fun _ => trivial⟩
  · cases hchosen : chosen (turn.chooseNext .READ) (s.qos.queue .READ) P.numPriorities with
    | none => trivial
    | some found =>
      obtain ⟨prio,k,memPkt⟩:=found
      obtain ⟨hprio,hk⟩:=chosen_spec hchosen
      refine (serveRead_checks hP hsum hindexed hs hprio hk).bind fun _ _ => ?_
      trivial

theorem nextWrite_checks (hP : P.DramOnly) (hindexed : Indexed P (s.view P.numPriorities)) (turn : Turn)
    (allWritesNvm : Bool) :
    Post (nextWrite P fuel curTick turn allWritesNvm s) (fun _ => True) fun e => e ≠ .assertion := by
  rw [nextWrite]
  cases hchosen : chosen (turn.chooseNext .WRITE) (s.qos.queue .WRITE) P.numPriorities with
  | none => trivial
  | some found =>
    obtain ⟨prio,k,memPkt⟩:=found
    obtain ⟨hprio,hk⟩:=chosen_spec hchosen
    refine (serveWrite_checks hP hindexed hprio hk).bind fun _ _ => ?_
    trivial

theorem processNextReqEvent_checks (hP : P.DramOnly) (hsum : P.dram.tCL+P.dram.tBURST≤90000)
    (hindexed : Indexed P (s.view P.numPriorities)) (hs : Ordered P (s.view P.numPriorities)) (turn : Turn) :
    Post (processNextReqEvent P fuel curTick turn s) (fun _ => True) fun e => e ≠ .assertion := by
  rw [processNextReqEvent]
  dsimp only
  rw [if_neg (by rw [hP.hasNvm]; exact Bool.false_ne_true),post_bind,post_pure,post_ite]
  refine ⟨fun _ => trivial,fun _ => ?_⟩
  generalize turn.selectNextBusState.getD s.busStateNext=busState
  cases busState with
  | READ => exact nextRead_checks hP hsum (by exact hindexed) (by exact hs) turn _
  | WRITE => exact nextWrite_checks hP (by exact hindexed) turn _

theorem processRespondEvent_checks (hs : Ordered P (s.view n)) (hevent : s.respondEvent=some curTick) :
    Post (processRespondEvent curTick s) (fun _ => True) fun _ => False := by
  have hhead:=hs.event.symm.trans hevent
  have hsorted:=hs.sorted
  have hqueue : (s.view n).respQueue=s.respQueue.map Qos.forgetQos := rfl
  rw [hqueue] at hhead hsorted
  rw [processRespondEvent]
  cases hresp : s.respQueue with
  | nil =>
    rw [hresp] at hhead
    cases hhead
  | cons memPkt rest =>
    rw [hresp] at hhead hsorted
    cases rest with
    | nil => trivial
    | cons next rest =>
      have hready : memPkt.readyTime=curTick := Option.some.inj hhead
      have hnext : memPkt.readyTime≤next.readyTime :=
        (pairwise_cons.mp hsorted).1 (Qos.forgetQos next) (mem_cons_self ..)
      dsimp only [head?_cons]
      rw [post_bind,post_check]
      exact ⟨fun _ => trivial,fun hlate => hlate (hready ▸ hnext)⟩

/-- Bursts do not come before the end of the ones before, and nothing is taken back of a bubble that was not added. The
responses are in the order of their ready times, and no assertion about them fails. -/
structure BusOrder (P : Params) : Prop where
  takenBack : ∀ nextBurstAt,tickSub (tickSub (nextBurstAt+90000) P.dram.tCL) P.dram.tBURST =
    nextBurstAt+(90000-P.dram.tCL-P.dram.tBURST)
  onBus : ∀ (s : State) fuel curTick memPkt served,memPkt.dram=true →
    (memPkt.rhInjectDelay=true → P.rhDefenseEnable=true) → s.doBurstAccess P fuel curTick memPkt = .ok served →
    ∃ b : BusBurst,b.Of P served ∧ s.nextBurstAt≤b.cmdAt ∧ curTick≤b.cmdAt
  bursts : ∀ l s,Bursts P l s → l.Pairwise fun a b => a.cmdAt+a.burstGap≤b.cmdAt
  sorted : ∀ A s,Run P A s → s.respQueue.Pairwise fun a b => a.readyTime≤b.readyTime
  nextReq : ∀ A s,Run P A s → ∀ fuel curTick turn,processNextReqEvent P fuel curTick turn s ≠ .error .assertion
  respond : ∀ A s,Run P A s → ∀ curTick,s.respondEvent=some curTick → ∃ s',processRespondEvent curTick s = .ok s'

theorem bus_order (hP : P.DramOnly) (hsum : P.dram.tCL+P.dram.tBURST≤90000) : BusOrder P where
  takenBack nextBurstAt := by
    have hlatency : tickSub (nextBurstAt+90000) P.dram.tCL=nextBurstAt+90000-P.dram.tCL := tickSub_of_le (by omega)
    rw [hlatency,tickSub_of_le (by omega)]
    omega
  onBus s _ _ _ _ hdram hinject hrun := (doBurstAccess_busBurst hsum hdram hinject s).of_ok hrun
  bursts _ _ h := (h.ordered hsum).1
  sorted A s h := by
    have hsorted : (s.respQueue.map Qos.forgetQos).Pairwise fun a b => a.readyTime≤b.readyTime :=
      (h.ordered hP hsum).sorted
    have hready:=List.pairwise_map.mp hsorted
    exact hready
  nextReq A s h fuel curTick turn hfault :=
    (processNextReqEvent_checks hP hsum (h.indexed hP) (h.ordered hP hsum) turn).of_error hfault rfl
  respond A s h curTick hevent := by
    exact (processRespondEvent_checks (h.ordered hP hsum) hevent).exists_ok

def defendedCtrl : Params := {ddr3Ctrl with rhDefenseEnable := true}

def bubbled (rhBubbleSize : ℕ) : MemPacket := ⟨0,0,0,true,true,0,0,0,0,0,64,none,0,0,0,true,rhBubbleSize,0⟩

/-- DDR3_1600_8x8 takes 18.75 ns from a command to the end of its burst. A bubble of 90 ns comes before the second read. -/
theorem bus_order_bubble : BusOrder defendedCtrl ∧
    ∃ b c s,Bursts defendedCtrl [b,c] s ∧ b.cmdAt+b.burstGap+50000<c.cmdAt := by
  have hbus : BusOrder defendedCtrl := bus_order ⟨rfl,fun _ => rfl,6,by decide,rfl⟩ (by decide)
  have hrun : Post (do
      let r ← (State.new defendedCtrl).doBurstAccess defendedCtrl 10 0 (bubbled 0)
      let r' ← r.2.doBurstAccess defendedCtrl 10 r.2.nextBurstAt (bubbled 90000)
      pure (r.2.nextBurstAt,r'.1.readyTime)) (fun p => p.1+50000+(13750+5000)<p.2) fun _ => False := by
    decide +kernel
  obtain ⟨_,hok,hlate⟩:=hrun.returns
  obtain ⟨r1,h1,hok⟩:=bind_ok hok
  obtain ⟨r2,h2,hok⟩:=bind_ok hok
  cases hok
  obtain ⟨b,hb,_⟩:=hbus.onBus _ _ _ _ _ rfl (fun _ => rfl) h1
  obtain ⟨c,hc,_⟩:=hbus.onBus _ _ _ _ _ rfl (fun _ => rfl) h2
  refine ⟨hbus,b,c,_,.burst [b] _ _ _ _ _ _ (.burst [] _ _ _ _ _ _ (.init _) rfl (fun _ => rfl) h1 hb) rfl (fun _ => rfl)
    h2 hc,?_⟩
  have hready : r2.1.readyTime=c.cmdAt+13750+5000 := hc.ready
  have hnext:=hb.next
  dsimp only at hlate
  omega

end MemCtrl

end AquaGem5.Controller
