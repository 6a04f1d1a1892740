import AquaGem5.Controller.CommandBus
import AquaGem5.Controller.MemPacket
import AquaGem5.Lib.Checked

/-!
# The NVM interface (mem_interface.cc, mem_interface.hh)

A read of NVM is issued to the media first, and its burst follows when the data is ready.
-/

namespace AquaGem5.Nvm
open Ticks Controller Checked

inductive Fault where
  | assertion
  /-- `chooseRead` has been handed an empty queue. -/
  | emptyQueue
  /-- A search for command bandwidth that has not ended within its budget. -/
  | search
  /-- The end of simulated time. -/
  | lastTick
  deriving DecidableEq

structure Params where
  burstSize : ℕ
  tCK : ℕ
  tCS : ℕ
  tBURST : ℕ
  tRTW : ℕ
  tWTR : ℕ
  tREAD : ℕ
  tWRITE : ℕ
  tSEND : ℕ
  maxPendingReads : ℕ
  maxPendingWrites : ℕ
  twoCycleRdWr : Bool
  commandWindow : ℕ
  burstPow : ∃ k,burstSize=2^k

namespace Params

def maxCommandsPerWindow (P : Params) : ℕ := P.commandWindow/P.tCK

def writeToReadDelay (P : Params) : ℕ := P.tBURST+P.tWTR

def readToWriteDelay (P : Params) : ℕ := P.tBURST+P.tRTW

def rankToRankDelay (P : Params) : ℕ := P.tBURST+P.tCS

end Params

/-- `openRow` is `none` for `NO_ROW`. -/
structure Bank where
  openRow : Option ℕ
  rdAllowedAt : ℕ
  wrAllowedAt : ℕ
  actAllowedAt : ℕ

/-- The banks by rank, and the reads and writes on their way. The two events hold the tick they are
scheduled at. -/
structure State where
  banks : ℕ → ℕ → Bank
  nextReadAt : ℕ
  numPendingReads : ℕ
  numReadDataReady : ℕ
  numReadsToIssue : ℕ
  numWritesQueued : ℕ
  writeRespQueue : List ℕ
  readReadyQueue : List ℕ
  writeRespondEvent : Option ℕ
  readReadyEvent : Option ℕ

def State.new : State := ⟨fun _ _ => ⟨none,0,0,0⟩,0,0,0,0,0,[],[],none,none⟩

def inc16 (x : ℕ) : ℕ := (x+1)%2^16

def dec16 (x : ℕ) : ℕ := (x+(2^16-1))%2^16

namespace State

def setupRank (s : State) (isRead : Bool) : State :=
  if isRead then {s with numReadsToIssue := inc16 s.numReadsToIssue}
  else {s with numWritesQueued := s.numWritesQueued+1}

def setBank (s : State) (rank bank : ℕ) (b : Bank) : State :=
  {s with banks := Function.update s.banks rank (Function.update (s.banks rank) bank b)}

def addRankToRankDelay (s : State) (P : Params) (cmdAt : ℕ) : State :=
  {s with banks := fun j i => {s.banks j i with
      rdAllowedAt := max (cmdAt+P.rankToRankDelay) (s.banks j i).rdAllowedAt
      wrAllowedAt := max (cmdAt+P.rankToRankDelay) (s.banks j i).wrAllowedAt} }

def writeRespQueueFull (s : State) (P : Params) : Bool := decide (s.writeRespQueue.length=P.maxPendingWrites)

def readsWaitingToIssue (s : State) (P : Params) : Bool :=
  decide (s.numReadsToIssue≠0 ∧ s.numPendingReads<P.maxPendingReads)

def isBusy (s : State) (P : Params) (busStateNext : BusState) (readQueueEmpty allWritesNvm : Bool) : Bool :=
  if busStateNext = .READ then decide (s.numReadDataReady=0) && !readQueueEmpty
  else s.writeRespQueueFull P&&readQueueEmpty&&allWritesNvm

end State

section Commands

variable (P : Params) (fuel : ℕ)

def verify (pair : Bool) (burstTicks : Multiset ℕ) (cmdTick : ℕ) : Except Fault (ℕ × Multiset ℕ) :=
  match if pair then verifyMultiCmd P.commandWindow fuel burstTicks cmdTick P.maxCommandsPerWindow P.tCK
    else verifySingleCmd P.commandWindow fuel burstTicks cmdTick P.maxCommandsPerWindow with
  | some r => .ok r
  | none => .error .search

def unissued (pkt : MemPacket) : Bool := decide (pkt.readyTime=maxTick) && !pkt.dram&&pkt.read

def State.readyAt (s : State) (readyTime : ℕ) : Except Fault State := do
  let event ← match s.readReadyEvent with
    | none => do
      check (s.readReadyQueue=[]) .assertion
      pure readyTime
    | some t => do
      check (s.readReadyQueue≠[]) .assertion
      pure (min t readyTime)
  return {s with readReadyQueue := s.readReadyQueue++[readyTime], readReadyEvent := some event}

def State.issueRead (s : State) (curTick : ℕ) (burstTicks : Multiset ℕ) (pkt : MemPacket) :
    Except Fault (State × ℕ × Multiset ℕ) := do
  let s := {s with numPendingReads := inc16 s.numPendingReads}
  check (s.numPendingReads≤P.maxPendingReads) .assertion
  let (cmdAt,burstTicks) ← verify P fuel P.twoCycleRdWr burstTicks (max curTick s.nextReadAt)
  let bank := s.banks pkt.rank pkt.bank
  let bank := if bank.openRow=some pkt.row then bank
    else {bank with openRow := some pkt.row, actAllowedAt := max cmdAt bank.actAllowedAt+P.tREAD}
  let readyTime := max cmdAt bank.actAllowedAt
  check (readyTime < maxTick) .lastTick
  let s ← ({s with nextReadAt := cmdAt+P.tCK}.setBank pkt.rank pkt.bank bank).readyAt readyTime
  return (s,readyTime,burstTicks)

/-- The first read of the queue that has not been issued is issued; the packet stays in the queue. -/
def chooseRead (curTick : ℕ) (burstTicks : Multiset ℕ) (s : State) (queue : List MemPacket) :
    Except Fault (List MemPacket × State × Multiset ℕ) := do
  check (queue≠[]) .emptyQueue
  check (0<s.numReadsToIssue) .assertion
  let s := {s with numReadsToIssue := dec16 s.numReadsToIssue}
  match queue.findIdx? unissued with
  | none => return (queue,s,burstTicks)
  | some i =>
    match queue[i]? with
    | none => return (queue,s,burstTicks)
    | some pkt => do
      let (s,readyTime,burstTicks) ← s.issueRead P fuel curTick burstTicks pkt
      return (queue.set i {pkt with readyTime := readyTime},s,burstTicks)

def State.afterBurst (s : State) (pkt : MemPacket) (cmdAt : ℕ) : State :=
  {s with banks := fun j i => {s.banks j i with
      rdAllowedAt := max (cmdAt+if pkt.rank≠j then P.rankToRankDelay
        else if pkt.read then P.tBURST else P.writeToReadDelay) (s.banks j i).rdAllowedAt
      wrAllowedAt := max (cmdAt+if pkt.rank≠j then P.rankToRankDelay
        else if pkt.read then P.readToWriteDelay else P.tBURST) (s.banks j i).wrAllowedAt} }

def State.write (s : State) (pkt : MemPacket) (readyTime : ℕ) : Except Fault State := do
  check (0<s.numWritesQueued) .assertion
  let bank := s.banks pkt.rank pkt.bank
  let doneAt := max readyTime bank.actAllowedAt+P.tWRITE
  let s := {s with numWritesQueued := s.numWritesQueued-1}.setBank pkt.rank pkt.bank
    {bank with openRow := some pkt.row, actAllowedAt := doneAt}
  check (s.writeRespQueueFull P=false) .assertion
  check (s.writeRespQueue=[] ↔ s.writeRespondEvent=none) .assertion
  return {s with
    writeRespQueue := (s.writeRespQueue++[doneAt]).mergeSort
    writeRespondEvent := some (min (s.writeRespondEvent.getD doneAt) doneAt)}

def doBurstAccess (curTick : ℕ) (burstTicks : Multiset ℕ) (s : State) (pkt : MemPacket) (nextBurstAt : ℕ) :
    Except Fault (MemPacket × ℕ × ℕ × State × Multiset ℕ) := do
  let bank := s.banks pkt.rank pkt.bank
  let bstAllowedAt := if pkt.read then bank.rdAllowedAt else bank.wrAllowedAt
  let (cmdAt,burstTicks) ← verify P fuel (!pkt.read&&P.twoCycleRdWr) burstTicks
    (max (max bstAllowedAt curTick) nextBurstAt)
  let readyTime := cmdAt+P.tSEND+P.tBURST
  let s := s.afterBurst P pkt cmdAt
  let s ← (if pkt.read then do
      check (s.numPendingReads≠0) .assertion
      check (s.numReadDataReady≠0) .assertion
      pure {s with numPendingReads := s.numPendingReads-1, numReadDataReady := s.numReadDataReady-1}
    else s.write P pkt readyTime)
  return ({pkt with readyTime := readyTime},cmdAt,cmdAt+P.tBURST,s,burstTicks)

/-- The loop over the ready ticks from index `i` on: the index and the tick of the first of the
earliest ones, and the earliest of the others. -/
def earliest : List ℕ → ℕ → ℕ × ℕ × ℕ → ℕ × ℕ × ℕ
  | [],_,found => found
  | t::ticks,i,(k,ready,next) =>
    if t<ready then earliest ticks (i+1) (i,t,ready)
    else if t<next ∧ i≠k then earliest ticks (i+1) (k,ready,t)
    else earliest ticks (i+1) (k,ready,next)

def processReadReadyEvent (curTick : ℕ) (s : State) : Except Fault State := do
  let s := {s with numReadDataReady := inc16 s.numReadDataReady, readReadyEvent := none}
  let (k,ready,next) := earliest s.readReadyQueue 0 (0,s.readReadyQueue.headD 0,maxTick)
  check (s.readReadyQueue≠[] ∧ ready=curTick) .assertion
  let s := {s with readReadyQueue := s.readReadyQueue.eraseIdx k}
  if s.readReadyQueue=[] then return s
  else do
    check (curTick ≤ s.readReadyQueue.headD 0) .assertion
    return {s with readReadyEvent := some next}

def processWriteRespondEvent (curTick : ℕ) (s : State) : Except Fault State := do
  let s := {s with writeRespQueue := s.writeRespQueue.tail, writeRespondEvent := none}
  if s.writeRespQueue=[] then return s
  else do
    check (curTick ≤ s.writeRespQueue.headD 0) .assertion
    return {s with writeRespondEvent := s.writeRespQueue.head?}

end Commands

end AquaGem5.Nvm
