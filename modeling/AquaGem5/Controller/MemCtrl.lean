import AquaGem5.Controller.Qos
import AquaGem5.Controller.MemInterface
import AquaGem5.Controller.Splitting
import AquaGem5.Dram.Interface
import AquaGem5.Nvm.Interface

/-!
# The memory controller (mem_ctrl.cc, mem_ctrl.hh)

`media true` is the DRAM interface and `media false` the NVM interface; one that is not there contains no address. What
the QoS policy, the Rowhammer defense and the scheduler say in a call are arguments of it.
-/

namespace AquaGem5.Controller
open Ticks Checked

namespace MemCtrl

inductive Fault where
  | panic
  | assertion
  | readQueueFull
  | writeQueueFull
  /-- A loop counter that leaves the range of `int`. -/
  | overflow
  /-- An iterator into another queue, or the front of an empty one. -/
  | undefined
  /-- A piece whose size is in no bucket of `readPktSize` and `writePktSize`. -/
  | histogram
  | decode (fault : MemInterface.Fault)
  | qos (fault : Qos.Fault)
  | dram (fault : Dram.Fault)
  | nvm (fault : Nvm.Fault)
  deriving DecidableEq

structure BurstHelper where
  burstCount : ℕ
  burstsServiced : ℕ
  deriving DecidableEq

structure Params where
  media : Bool → MemInterface
  contains : Bool → ℕ → Bool
  dram : Dram.Params
  nvm : Nvm.Params
  hasNvm : Bool
  readBufferSize : ℕ
  writeBufferSize : ℕ
  writeHighThreshold : ℕ
  writeLowThreshold : ℕ
  minWritesPerSwitch : ℕ
  numPriorities : ℕ
  qosSyncroScheduler : Bool
  qosPriorityEscalation : Bool
  rhDefenseEnable : Bool
  cacheLineSize : ℕ
  cacheLine_pos : 0<cacheLineSize

/-- The queues, the interfaces, and the system packets that were answered. A `BurstHelper` is found by its index. -/
structure State where
  qos : Qos
  respQueue : List MemPacket
  isInWriteQueue : Finset ℕ
  burstHelpers : List BurstHelper
  nextRef : ℕ
  busState : BusState
  busStateNext : BusState
  writesThisTime : ℕ
  retryRdReq : Bool
  retryWrReq : Bool
  respondEvent : Option ℕ
  nextBurstAt : ℕ
  burstTicks : Multiset ℕ
  dram : Dram.State
  nvm : Nvm.State
  responses : List ℕ

end MemCtrl

open MemCtrl

section Queues

variable (P : Params)

def MemCtrl.Params.burstSize (isDram : Bool) : ℕ := (P.media isDram).burstSize

def burstAlign (addr : ℕ) (isDram : Bool) : ℕ := addr-addr%P.burstSize isDram

def readQueueFull (s : MemCtrl.State) (neededEntries : ℕ) : Prop :=
  P.readBufferSize<s.qos.totalQueueSize .READ+s.respQueue.length+neededEntries

instance (s : MemCtrl.State) (neededEntries : ℕ) : Decidable (readQueueFull P s neededEntries) :=
  inferInstanceAs (Decidable (_<_))

def writeQueueFull (s : MemCtrl.State) (neededEntries : ℕ) : Prop :=
  P.writeBufferSize<s.qos.totalQueueSize .WRITE+neededEntries

instance (s : MemCtrl.State) (neededEntries : ℕ) : Decidable (writeQueueFull P s neededEntries) :=
  inferInstanceAs (Decidable (_<_))

/-- In how many write queues a packet subsumes the read: the loop leaves each of them at the first such packet. -/
def servedByWrQ (s : MemCtrl.State) (addr size : ℕ) : ℕ :=
  ((List.range P.numPriorities).filter fun prio => (s.qos.queue .WRITE prio).any fun p =>
    decide (p.addr≤addr ∧ addr+size≤p.addr+p.size)).length

/-- What the Rowhammer defense says of an access: its delay, and that of its SRAM structures. -/
structure Protection where
  delay : ℕ
  sramDelay : ℕ

def protect (defense : MemPacket → Protection) (memPkt : MemPacket) : MemPacket :=
  if P.rhDefenseEnable then {memPkt with
    rhInjectDelay := true
    rhBubbleSize := (defense memPkt).delay
    rhSRAMDelay := (defense memPkt).sramDelay}
  else memPkt

section Arrivals

variable (curTick : ℕ) (defense : MemPacket → Protection) (isDram : Bool) (pkt : Packet)

def readPacket (s : MemCtrl.State) (addr size : ℕ) : Except MemCtrl.Fault (MemPacket × MemCtrl.State) := do
  let memPkt ← within Fault.decode ((P.media isDram).decodePacket curTick s.nextRef pkt addr size true isDram)
  let s := {s with nextRef := s.nextRef+1}
  if isDram then return (protect P defense memPkt,s)
  else return ({memPkt with readyTime := maxTick},{s with nvm := s.nvm.setupRank true})

/-- The loop of `addToReadQueue`: the state, `pktsServicedByWrQ` and `burst_helper`. -/
structure ReadLoop where
  s : MemCtrl.State
  pktsServicedByWrQ : ℕ
  burstHelper : Option ℕ

def addReadPiece (pktCount : ℕ) (loop : ReadLoop) (piece : ℕ × ℕ) : Except MemCtrl.Fault ReadLoop := do
  let (addr,size) := piece
  check (Recorded P.cacheLineSize size) .histogram
  let served := if burstAlign P addr isDram∈loop.s.isInWriteQueue then servedByWrQ P loop.s addr size else 0
  if served≠0 then return {loop with pktsServicedByWrQ := loop.pktsServicedByWrQ+served}
  else
    let (s,burstHelper) := if 1<pktCount ∧ loop.burstHelper=none then
        ({loop.s with burstHelpers := loop.s.burstHelpers++[⟨pktCount,0⟩]},some loop.s.burstHelpers.length)
      else (loop.s,loop.burstHelper)
    let (memPkt,s) ← readPacket P curTick defense isDram pkt s addr size
    check (¬readQueueFull P s 1) .readQueueFull
    return ⟨{s with qos := s.qos.push curTick {memPkt with burstHelper := burstHelper} },loop.pktsServicedByWrQ,burstHelper⟩

def MemCtrl.State.accessAndRespond (s : MemCtrl.State) (pkt : ℕ) : MemCtrl.State :=
  {s with responses := s.responses++[pkt]}

def addToReadQueue (pktCount : ℕ) (s : MemCtrl.State) : Except MemCtrl.Fault MemCtrl.State := do
  check (pkt.isWrite=false) .assertion
  check (pktCount≠0) .assertion
  check (pktCount<2^31) .overflow
  let loop ← (pieces (P.burstSize isDram) pkt.addr pkt.size pktCount pkt.addr).foldlM
    (addReadPiece P curTick defense isDram pkt pktCount) ⟨s,0,none⟩
  if loop.pktsServicedByWrQ=pktCount then return loop.s.accessAndRespond pkt.ref
  else
    match loop.burstHelper with
    | none => return loop.s
    | some i => return {loop.s with
        burstHelpers := loop.s.burstHelpers.modify i fun h => {h with burstsServiced := loop.pktsServicedByWrQ} }

def addWritePiece (s : MemCtrl.State) (piece : ℕ × ℕ) : Except MemCtrl.Fault MemCtrl.State := do
  let (addr,size) := piece
  check (Recorded P.cacheLineSize size) .histogram
  if burstAlign P addr isDram∈s.isInWriteQueue then return s
  else
    let memPkt ← within Fault.decode ((P.media isDram).decodePacket curTick s.nextRef pkt addr size false isDram)
    let s := {s with nextRef := s.nextRef+1}
    let (memPkt,s) := if isDram then (protect P defense memPkt,s) else (memPkt,{s with nvm := s.nvm.setupRank false})
    check (s.qos.totalQueueSize .WRITE<P.writeBufferSize) .writeQueueFull
    let s := {s with
      qos := s.qos.push curTick memPkt
      isInWriteQueue := insert (burstAlign P addr isDram) s.isInWriteQueue}
    check (s.qos.totalQueueSize .WRITE=s.isInWriteQueue.card) .assertion
    return s

def addToWriteQueue (pktCount : ℕ) (s : MemCtrl.State) : Except MemCtrl.Fault MemCtrl.State := do
  check (pkt.isWrite=true) .assertion
  check (pktCount<2^31) .overflow
  let s ← (pieces (P.burstSize isDram) pkt.addr pkt.size pktCount pkt.addr).foldlM
    (addWritePiece P curTick defense isDram pkt) s
  return s.accessAndRespond pkt.ref

end Arrivals

def recvTimingReq (curTick : ℕ) (schedule : Qos.Schedule) (defense : MemPacket → Protection) (pkt : Packet)
    (s : MemCtrl.State) : Except MemCtrl.Fault (Bool × MemCtrl.State) := do
  check (pkt.cacheResponding=false) .panic
  check (pkt.isRead=true ∨ pkt.isWrite=true) .panic
  check (P.contains true pkt.addr=true ∨ P.contains false pkt.addr=true) .panic
  let isDram := P.contains true pkt.addr
  let pktCount := pktCount (P.burstSize isDram) pkt.addr pkt.size
  let qos ← within Fault.qos (s.qos.qosSchedule P.numPriorities (P.burstSize isDram) P.qosSyncroScheduler
    P.qosPriorityEscalation schedule pkt.requestorId)
  let pkt := {pkt with qosValue := schedule.pktPriority}
  let s := {s with qos := qos}
  check (pkt.size≠0) .assertion
  if pkt.isWrite then
    if writeQueueFull P s pktCount then return (false,{s with retryWrReq := true})
    else
      let s ← addToWriteQueue P curTick defense isDram pkt pktCount s
      return (true,s)
  else
    if readQueueFull P s pktCount then return (false,{s with retryRdReq := true})
    else
      let s ← addToReadQueue P curTick defense isDram pkt pktCount s
      return (true,s)

/-- The burst of a packet is back: its system packet is answered with the last one. -/
def MemCtrl.State.serviced (s : MemCtrl.State) (memPkt : MemPacket) : MemCtrl.State :=
  match memPkt.burstHelper with
  | none => s.accessAndRespond memPkt.pkt
  | some i =>
    let s := {s with
      burstHelpers := s.burstHelpers.modify i fun h => {h with burstsServiced := h.burstsServiced+1} }
    if s.burstHelpers[i]?.any fun h => decide (h.burstsServiced=h.burstCount) then s.accessAndRespond memPkt.pkt else s

def processRespondEvent (curTick : ℕ) (s : MemCtrl.State) : Except MemCtrl.Fault MemCtrl.State := do
  match s.respQueue with
  | [] => .error .undefined
  | memPkt::respQueue =>
    let s := {s.serviced memPkt with respQueue := respQueue, respondEvent := none, retryRdReq := false}
    match respQueue.head? with
    | none => return s
    | some next =>
      check (curTick≤next.readyTime) .assertion
      return {s with respondEvent := some next.readyTime}

/-- The burst of a packet, by its interface. The other interface switches ranks. -/
def MemCtrl.State.doBurstAccess (fuel curTick : ℕ) (s : MemCtrl.State) (memPkt : MemPacket) :
    Except MemCtrl.Fault (MemPacket × MemCtrl.State) := do
  let burstTicks := pruneBurstTick curTick s.burstTicks
  if memPkt.dram then
    let bubble := if P.rhDefenseEnable=true ∧ memPkt.rhInjectDelay=true ∧ 0 < memPkt.rhBubbleSize then
        if 7800*1000 ≤ memPkt.rhBubbleSize then 7000*1000 else memPkt.rhBubbleSize
      else 0
    let (b,dram,burstTicks) ← within Fault.dram (Dram.doBurstAccess P.dram fuel curTick burstTicks s.dram memPkt
      (s.nextBurstAt+bubble) ((List.range P.numPriorities).map (s.qos.queue memPkt.dir)))
    return (b.memPkt,{s with
      dram := dram
      nvm := s.nvm.addRankToRankDelay P.nvm b.cmdAt
      burstTicks := burstTicks
      nextBurstAt := b.nextBurstAt})
  else
    let (memPkt,cmdAt,nextBurstAt,nvm,burstTicks) ← within Fault.nvm
      (Nvm.doBurstAccess P.nvm fuel curTick burstTicks s.nvm memPkt s.nextBurstAt)
    return (memPkt,{s with
      dram := s.dram.addRankToRankDelay P.dram cmdAt
      nvm := nvm
      burstTicks := burstTicks
      nextBurstAt := nextBurstAt})

/-- What the turnaround policy, the drain manager, the DRAM ranks and the scheduler say in a call: the next bus state, if
there is a policy, whether the controller drains and the DRAM is busy, and the packet to serve from a queue. -/
structure Turn where
  selectNextBusState : Option BusState
  draining : Bool
  dramBusy : Bool
  chooseNext : BusState → ℕ → Option ℕ

/-- The first queue with a packet to serve, from the highest priority on: the priority, the position and the packet. -/
def chosen (choose : ℕ → Option ℕ) (queue : ℕ → List MemPacket) : ℕ → Option (ℕ × ℕ × MemPacket)
  | 0 => none
  | prio+1 =>
    match (choose prio).bind fun k => (queue prio)[k]?.map fun pkt => (prio,k,pkt) with
    | some found => some found
    | none => chosen choose queue prio

def eraseServed (dir : BusState) (prio k : ℕ) (memPkt : MemPacket) (q : Qos) : Except MemCtrl.Fault Qos := do
  check (memPkt.qosValue=prio) .undefined
  return q.setQueue dir prio ((q.queue dir prio).eraseIdx k)

def serveRead (fuel curTick prio k : ℕ) (memPkt : MemPacket) (s : MemCtrl.State) :
    Except MemCtrl.Fault MemCtrl.State := do
  let (memPkt,s) ← s.doBurstAccess P fuel curTick memPkt
  check (memPkt.size≤P.burstSize memPkt.dram) .assertion
  check (curTick ≤ memPkt.readyTime) .assertion
  let qos ← within Fault.qos (s.qos.logResponse .READ memPkt.requestorId memPkt.qosValue memPkt.addr)
  let s := {s with qos := qos}
  let respondEvent ← (match s.respQueue.getLast? with
    | none => do
      check (s.respondEvent=none) .assertion
      pure (some memPkt.readyTime)
    | some last => do
      check (last.readyTime ≤ memPkt.readyTime ∧ s.respondEvent≠none) .assertion
      pure s.respondEvent)
  let qos ← eraseServed .READ prio k memPkt s.qos
  return {s with qos := qos, respQueue := s.respQueue++[memPkt], respondEvent := respondEvent}

def serveWrite (fuel curTick prio k : ℕ) (memPkt : MemPacket) (s : MemCtrl.State) :
    Except MemCtrl.Fault MemCtrl.State := do
  check (memPkt.size≤P.burstSize memPkt.dram) .assertion
  let (memPkt,s) ← s.doBurstAccess P fuel curTick memPkt
  let qos ← within Fault.qos (s.qos.logResponse .WRITE memPkt.requestorId memPkt.qosValue memPkt.addr)
  let qos ← eraseServed .WRITE prio k memPkt qos
  return {s with
    qos := qos
    isInWriteQueue := s.isInWriteQueue.erase (burstAlign P memPkt.addr memPkt.dram)
    writesThisTime := s.writesThisTime+1}

/-- Reads of NVM are issued, one for each queue from the highest priority on. -/
def issueReads (fuel curTick : ℕ) (s : MemCtrl.State) : Except MemCtrl.Fault MemCtrl.State :=
  (List.range P.numPriorities).reverse.foldlM (fun s prio =>
    if s.nvm.readsWaitingToIssue P.nvm then do
      let (queue,nvm,burstTicks) ← within Fault.nvm
        (Nvm.chooseRead P.nvm fuel curTick s.burstTicks s.nvm (s.qos.queue .READ prio))
      return {s with qos := s.qos.setQueue .READ prio queue, nvm := nvm, burstTicks := burstTicks}
    else pure s) s

def MemCtrl.State.retryWrite (s : MemCtrl.State) : MemCtrl.State :=
  {s with retryWrReq := s.retryWrReq && !decide (s.qos.totalQueueSize .WRITE<P.writeBufferSize)}

/-- The controller reads. It goes over to writes if there are many of them, or no reads. -/
def nextRead (fuel curTick : ℕ) (turn : Turn) (allWritesNvm : Bool) (s : MemCtrl.State) :
    Except MemCtrl.Fault MemCtrl.State :=
  if s.qos.totalQueueSize .READ=0 then
    if s.qos.totalQueueSize .WRITE≠0 ∧ (turn.draining=true ∨ P.writeLowThreshold<s.qos.totalQueueSize .WRITE) then
      .ok ({s with busStateNext := .WRITE}.retryWrite P)
    else .ok s
  else
    match chosen (turn.chooseNext .READ) (s.qos.queue .READ) P.numPriorities with
    | none => .ok s
    | some (prio,k,memPkt) => do
      let s ← serveRead P fuel curTick prio k memPkt s
      let switchToWrites := decide (P.writeHighThreshold<s.qos.totalQueueSize .WRITE) &&
        !(P.hasNvm&&allWritesNvm&&s.nvm.writeRespQueueFull P.nvm)
      return (if switchToWrites then {s with busStateNext := .WRITE} else s).retryWrite P

/-- The controller writes. It goes back to reads after enough writes, or if there are few left. -/
def nextWrite (fuel curTick : ℕ) (turn : Turn) (allWritesNvm : Bool) (s : MemCtrl.State) :
    Except MemCtrl.Fault MemCtrl.State :=
  match chosen (turn.chooseNext .WRITE) (s.qos.queue .WRITE) P.numPriorities with
  | none => .ok s
  | some (prio,k,memPkt) => do
    let s ← serveWrite P fuel curTick prio k memPkt s
    let writes := s.qos.totalQueueSize .WRITE
    let reads := s.qos.totalQueueSize .READ
    let switchToReads := decide (writes=0 ∨ (writes+P.minWritesPerSwitch<P.writeLowThreshold ∧ turn.draining=false) ∨
      (reads≠0 ∧ P.minWritesPerSwitch ≤ s.writesThisTime) ∨
      (reads≠0 ∧ P.hasNvm=true ∧ s.nvm.writeRespQueueFull P.nvm=true ∧ allWritesNvm=true))
    return (if switchToReads then {s with busStateNext := .READ} else s).retryWrite P

def processNextReqEvent (fuel curTick : ℕ) (turn : Turn) (s : MemCtrl.State) : Except MemCtrl.Fault MemCtrl.State := do
  let busStateNext := turn.selectNextBusState.getD s.busStateNext
  let s := {s with
    busState := busStateNext
    busStateNext := busStateNext
    writesThisTime := if s.busState = .WRITE ∧ busStateNext ≠ .WRITE then 0 else s.writesThisTime}
  let s ← (if P.hasNvm then issueReads P fuel curTick s else pure s)
  let allWritesNvm := P.hasNvm&&decide (s.nvm.numWritesQueued=s.qos.totalQueueSize .WRITE)
  let nvmBusy := !P.hasNvm ||
    s.nvm.isBusy P.nvm s.busStateNext (decide (s.qos.totalQueueSize .READ=0)) allWritesNvm
  if turn.dramBusy&&nvmBusy then return s
  else
    match s.busState with
    | .READ => nextRead P fuel curTick turn allWritesNvm s
    | .WRITE => nextWrite P fuel curTick turn allWritesNvm s

def MemCtrl.State.new : MemCtrl.State :=
  ⟨Qos.new,[],∅,[],0,.READ,.READ,0,false,false,none,0,0,Dram.State.new P.dram,Nvm.State.new,[]⟩

/-- The states of a controller between its calls, at any ticks. The events of an interface change its own state. -/
inductive MemCtrl.Reachable (P : MemCtrl.Params) : MemCtrl.State → Prop
  | init : Reachable P (.new P)
  | recvTimingReq (s s' : MemCtrl.State) (curTick : ℕ) (schedule : Qos.Schedule) (defense : MemPacket → Protection)
      (pkt : Packet) (accepted : Bool) : Reachable P s →
      recvTimingReq P curTick schedule defense pkt s = .ok (accepted,s') → Reachable P s'
  | processRespondEvent (s s' : MemCtrl.State) (curTick : ℕ) : Reachable P s →
      processRespondEvent curTick s = .ok s' → Reachable P s'
  | processNextReqEvent (s s' : MemCtrl.State) (fuel curTick : ℕ) (turn : Turn) : Reachable P s →
      processNextReqEvent P fuel curTick turn s = .ok s' → Reachable P s'
  | mediaEvent (s : MemCtrl.State) (dram : Dram.State) (nvm : Nvm.State) : Reachable P s →
      Reachable P {s with dram := dram, nvm := nvm}

end Queues

end AquaGem5.Controller
