import AquaGem5.Controller.CommandBus
import AquaGem5.Controller.MemPacket
import AquaGem5.Lib.Checked

/-!
# The DRAM interface (mem_interface.cc, mem_interface.hh)

Banks and ranks are functions of their index: a loop over them updates every index, and the ones
past the last are never looked at. Ticks are natural numbers that do not overflow; a subtraction
wraps as in the source.
-/

namespace AquaGem5.Dram
open Ticks Controller Checked

inductive Fault where
  | assertion
  | panic
  /-- A search for command bandwidth that has not ended within its budget. -/
  | search
  deriving DecidableEq

inductive PageManage where
  | openPage
  | openAdaptive
  | closePage
  | closeAdaptive
  deriving DecidableEq

/-- The device and its timing, with the sanity checks of the constructor on them. -/
structure Params where
  burstSize : ℕ
  banksPerRank : ℕ
  bankGroupsPerRank : ℕ
  tCK : ℕ
  tCS : ℕ
  tBURST : ℕ
  tRTW : ℕ
  tWTR : ℕ
  tCL : ℕ
  tBURST_MIN : ℕ
  tBURST_MAX : ℕ
  tCCD_L_WR : ℕ
  tCCD_L : ℕ
  tRCD : ℕ
  tRP : ℕ
  tRAS : ℕ
  tWR : ℕ
  tWTR_L : ℕ
  tRTP : ℕ
  tRRD : ℕ
  tRRD_L : ℕ
  tPPD : ℕ
  tAAD : ℕ
  tXAW : ℕ
  tXP : ℕ
  dataClockSync : Bool
  twoCycleActivate : Bool
  activationLimit : ℕ
  pageMgmt : PageManage
  maxAccessesPerRow : ℕ
  commandWindow : ℕ
  rrdSane : 0<bankGroupsPerRank → tRRD≤tRRD_L
  burstPow : ∃ k,burstSize=2^k

namespace Params

def bankGroupArch (P : Params) : Bool := decide (0<P.bankGroupsPerRank)

def clkResyncDelay (P : Params) : ℕ := P.tCL+P.tBURST_MAX

def burstInterleave (P : Params) : Bool := decide (P.tBURST≠P.tBURST_MIN)

def wrToRdDlySameBG (P : Params) : ℕ := P.tCL+P.tBURST_MAX+P.tWTR_L

def rdToWrDlySameBG (P : Params) : ℕ := P.tRTW+P.tBURST_MAX

def maxCommandsPerWindow (P : Params) : ℕ := P.commandWindow/P.tCK

def writeToReadDelay (P : Params) : ℕ := P.tBURST+P.tWTR+P.tCL

def readToWriteDelay (P : Params) : ℕ := P.tBURST+P.tRTW

def rankToRankDelay (P : Params) : ℕ := P.tBURST+P.tCS

/-- Lower bits of the bank number rotate across the bank groups. -/
def bankgr (P : Params) (bank : ℕ) : ℕ := if 0<P.bankGroupsPerRank then bank%P.bankGroupsPerRank else bank

end Params

/-- `openRow` is `none` for `NO_ROW`. -/
structure Bank where
  openRow : Option ℕ
  rdAllowedAt : ℕ
  wrAllowedAt : ℕ
  preAllowedAt : ℕ
  actAllowedAt : ℕ
  rowAccesses : ℕ
  bytesAccessed : ℕ
  deriving DecidableEq

inductive MemCommand where
  | ACT
  | PRE
  | RD
  | WR
  | PREA
  | REF
  deriving DecidableEq

structure Command where
  type : MemCommand
  bank : ℕ
  timeStamp : ℕ
  deriving DecidableEq

structure Rank where
  banks : ℕ → Bank
  numBanksActive : ℕ
  actTicks : List ℕ
  lastBurstTick : ℕ
  cmdList : List Command
  inLowPowerState : Bool
  wakeUpAllowedAt : ℕ

structure State where
  ranks : ℕ → Rank
  activeRank : ℕ

def Bank.new : Bank := ⟨none,0,0,0,0,0,0⟩

def Rank.new (P : Params) : Rank := ⟨fun _ => Bank.new,0,List.replicate P.activationLimit 0,0,[],false,0⟩

def State.new (P : Params) : State := ⟨fun _ => Rank.new P,0⟩

namespace Rank

def setBank (rk : Rank) (bank : ℕ) (f : Bank → Bank) : Rank :=
  {rk with banks := Function.update rk.banks bank (f (rk.banks bank))}

/-- A loop over the banks that moves `actAllowedAt` to `f` or later. -/
def delayAct (rk : Rank) (f : ℕ → ℕ) : Rank :=
  {rk with banks := fun i => {rk.banks i with actAllowedAt := max (f i) (rk.banks i).actAllowedAt} }

def delayPre (rk : Rank) (t : ℕ) : Rank :=
  {rk with banks := fun i => {rk.banks i with preAllowedAt := max t (rk.banks i).preAllowedAt} }

def delayCol (rk : Rank) (rd wr : ℕ → ℕ) : Rank :=
  {rk with banks := fun i => {rk.banks i with
      rdAllowedAt := max (rd i) (rk.banks i).rdAllowedAt
      wrAllowedAt := max (wr i) (rk.banks i).wrAllowedAt} }

def issue (rk : Rank) (type : MemCommand) (bank timeStamp : ℕ) : Rank :=
  {rk with cmdList := rk.cmdList++[⟨type,bank,timeStamp⟩]}

/-- `scheduleWakeUpEvent`: every constraint of the rank moves past the exit delay. -/
def scheduleWakeUpEvent (rk : Rank) (curTick exitDelay : ℕ) : Rank :=
  let t := max curTick rk.wakeUpAllowedAt+exitDelay
  {((rk.delayCol (fun _ => t) fun _ => t).delayPre t).delayAct fun _ => t with inLowPowerState := false}

def powerDownSleep (rk : Rank) (P : Params) (tick : ℕ) : Rank :=
  {rk with wakeUpAllowedAt := tick+P.tCK, inLowPowerState := true}

def wake (rk : Rank) (P : Params) (curTick : ℕ) : Rank :=
  if rk.inLowPowerState then rk.scheduleWakeUpEvent curTick P.tXP else rk

end Rank

section Commands

variable (P : Params) (fuel : ℕ)

def verifySingle (burstTicks : Multiset ℕ) (cmdTick : ℕ) : Except Fault (ℕ × Multiset ℕ) :=
  match verifySingleCmd P.commandWindow fuel burstTicks cmdTick P.maxCommandsPerWindow with
  | some r => .ok r
  | none => .error .search

def verifyMulti (burstTicks : Multiset ℕ) (cmdTick maxSplit : ℕ) : Except Fault (ℕ × Multiset ℕ) :=
  match verifyMultiCmd P.commandWindow fuel burstTicks cmdTick P.maxCommandsPerWindow maxSplit with
  | some r => .ok r
  | none => .error .search

def Rank.opened (rk : Rank) (bank row actAt : ℕ) : Rank :=
  rk.setBank bank fun b => {b with
    openRow := some row
    bytesAccessed := 0
    rowAccesses := 0
    preAllowedAt := actAt+P.tRAS
    rdAllowedAt := max (actAt+P.tRCD) b.rdAllowedAt
    wrAllowedAt := max (actAt+P.tRCD) b.wrAllowedAt}

/-- tRRD, or tRRD_L within the bank group. -/
def Rank.enforceRRD (rk : Rank) (bank actAt : ℕ) : Rank :=
  rk.delayAct fun i => actAt+if P.bankGroupArch&&decide (P.bankgr bank=P.bankgr i) then P.tRRD_L else P.tRRD

/-- The last element of `actTicks` is the oldest one; 0 is never. -/
def Rank.enforceXAW (rk : Rank) (actAt : ℕ) : Except Fault Rank :=
  if rk.actTicks=[] then .ok rk
  else if rk.actTicks.getLastD 0≠0 ∧ tickSub actAt (rk.actTicks.getLastD 0)<P.tXAW then .error .panic
  else
    let actTicks := actAt::rk.actTicks.dropLast
    let rk := {rk with actTicks := actTicks}
    if actTicks.getLastD 0≠0 ∧ tickSub actAt (actTicks.getLastD 0)<P.tXAW then
      .ok (rk.delayAct fun _ => actTicks.getLastD 0+P.tXAW)
    else .ok rk

/-- Some devices take two commands for an activate. -/
def verifyActivate (burstTicks : Multiset ℕ) (actTick : ℕ) : Except Fault (ℕ × Multiset ℕ) :=
  if P.twoCycleActivate then verifyMulti P fuel burstTicks actTick P.tAAD else verifySingle P fuel burstTicks actTick

def activateBank (burstTicks : Multiset ℕ) (rk : Rank) (bank actTick row : ℕ) : Except Fault (Rank × Multiset ℕ) := do
  check (rk.actTicks.length=P.activationLimit) .assertion
  let (actAt,burstTicks) ← verifyActivate P fuel burstTicks actTick
  check ((rk.banks bank).openRow=none) .assertion
  let rk := {rk.opened P bank row actAt with numBanksActive := rk.numBanksActive+1}
  check (rk.numBanksActive≤P.banksPerRank) .assertion
  let rk ← ((rk.issue .ACT bank actAt).enforceRRD P bank actAt).enforceXAW P actAt
  return (rk,burstTicks)

/-- An automatic precharge is part of the burst and needs no command bandwidth. -/
def prechargeBank (burstTicks : Multiset ℕ) (rk : Rank) (bank preTick : ℕ) (auto : Bool) :
    Except Fault (Rank × Multiset ℕ) := do
  check ((rk.banks bank).openRow≠none) .assertion
  let rk := rk.setBank bank fun b => {b with openRow := none}
  let (rk,preAt,burstTicks) ← (if auto then
      pure (rk.setBank bank fun b => {b with preAllowedAt := preTick},preTick,burstTicks)
    else do
      let (preAt,burstTicks) ← verifySingle P fuel burstTicks preTick
      pure (rk.delayPre (preAt+P.tPPD),preAt,burstTicks))
  let rk := rk.setBank bank fun b => {b with actAllowedAt := max b.actAllowedAt (preAt+P.tRP)}
  check (rk.numBanksActive≠0) .assertion
  return ({rk with numBanksActive := rk.numBanksActive-1}.issue .PRE bank preAt,burstTicks)

def openPage (curTick : ℕ) (burstTicks : Multiset ℕ) (rk : Rank) (bank row : ℕ) : Except Fault (Rank × Multiset ℕ) := do
  let (rk,burstTicks) ← (if (rk.banks bank).openRow=none then pure (rk,burstTicks)
    else prechargeBank P fuel burstTicks rk bank (max (rk.banks bank).preAllowedAt curTick) false)
  activateBank P fuel burstTicks rk bank (max (rk.banks bank).actAllowedAt curTick) row

def burstTick (curTick : ℕ) (memPkt : MemPacket) (colAllowedAt nextBurstAt : ℕ) : ℕ :=
  if memPkt.rhInjectDelay=true ∧ memPkt.rhBubbleSize=90000 then
    max (max colAllowedAt (tickSub (tickSub nextBurstAt P.tCL) P.tBURST)) curTick
  else max (max colAllowedAt nextBurstAt) curTick

def verifyBurst (burstTicks : Multiset ℕ) (rk : Rank) (cmdAt : ℕ) : Except Fault (ℕ × Multiset ℕ) :=
  if P.dataClockSync=true ∧ P.clkResyncDelay<tickSub cmdAt rk.lastBurstTick then
    verifyMulti P fuel burstTicks cmdAt P.tCK
  else verifySingle P fuel burstTicks cmdAt

def interleaveBurst (rk : Rank) (cmdAt : ℕ) : ℕ × ℕ :=
  if P.burstInterleave=true then
    if cmdAt=rk.lastBurstTick+P.tBURST_MIN then (cmdAt,P.tBURST)
    else if cmdAt<rk.lastBurstTick+P.tBURST then (rk.lastBurstTick+P.tBURST,P.tBURST_MIN)
    else (cmdAt,P.tBURST_MIN)
  else (cmdAt,P.tBURST_MIN)

/-- The delay to the next read command of bank `i`, and to its next write command. -/
def colDelays (memPkt : MemPacket) (sameRank : Bool) (burstGap i : ℕ) : ℕ × ℕ :=
  if sameRank then
    if P.bankGroupArch&&decide (P.bankgr memPkt.bank=P.bankgr i) then
      (if memPkt.read then P.tCCD_L else max P.tCCD_L P.wrToRdDlySameBG,
        if memPkt.read then max P.tCCD_L P.rdToWrDlySameBG else P.tCCD_L_WR)
    else
      (if memPkt.read then burstGap else P.writeToReadDelay,if memPkt.read then P.readToWriteDelay else burstGap)
  else (P.rankToRankDelay,P.rankToRankDelay)

/-- Whether the page is closed after the access: the limit of accesses is reached, or an adaptive
policy sees no more hits in the queues. -/
def autoPrecharge (rk : Rank) (memPkt : MemPacket) (queue : List (List MemPacket)) : Bool :=
  let others := queue.flatten.filter fun p => decide (p.ref≠memPkt.ref ∧ p.rank=memPkt.rank ∧ p.bank=memPkt.bank)
  let gotMoreHits := others.any fun p => decide (p.row=memPkt.row)
  let gotBankConflict := others.any fun p => decide (p.row≠memPkt.row)
  let autoPrecharge := decide (P.pageMgmt = .closePage ∨ (rk.banks memPkt.bank).rowAccesses=P.maxAccessesPerRow)
  if !autoPrecharge&&decide (P.pageMgmt = .openAdaptive ∨ P.pageMgmt = .closeAdaptive) then
    !gotMoreHits&&(gotBankConflict || decide (P.pageMgmt = .closeAdaptive))
  else autoPrecharge

def State.afterBurst (s : State) (memPkt : MemPacket) (cmdAt burstGap : ℕ) : State :=
  let delayed := fun j => (s.ranks j).delayCol
    (fun i => cmdAt+(colDelays P memPkt (decide (memPkt.rank=j)) burstGap i).1)
    fun i => cmdAt+(colDelays P memPkt (decide (memPkt.rank=j)) burstGap i).2
  let rk := (delayed memPkt.rank).setBank memPkt.bank fun b => {b with
    preAllowedAt := max b.preAllowedAt (if memPkt.read then cmdAt+P.tRTP else cmdAt+P.tCL+P.tBURST+P.tWR)
    bytesAccessed := b.bytesAccessed+P.burstSize
    rowAccesses := b.rowAccesses+1}
  ⟨Function.update delayed memPkt.rank {rk with lastBurstTick := cmdAt},memPkt.rank⟩

def State.setRank (s : State) (rank : ℕ) (rk : Rank) : State := {s with ranks := Function.update s.ranks rank rk}

def State.finishBurst (curTick : ℕ) (burstTicks : Multiset ℕ) (s : State) (memPkt : MemPacket) (cmdAt : ℕ)
    (queue : List (List MemPacket)) : Except Fault (State × Multiset ℕ) := do
  let rk := (s.ranks memPkt.rank).issue (if memPkt.read then .RD else .WR) memPkt.bank cmdAt
  let (rk,burstTicks) ← (if autoPrecharge P rk memPkt queue then
      prechargeBank P fuel burstTicks rk memPkt.bank (max curTick (rk.banks memPkt.bank).preAllowedAt) true
    else pure (rk,burstTicks))
  return (s.setRank memPkt.rank rk,burstTicks)

def State.addRankToRankDelay (s : State) (cmdAt : ℕ) : State :=
  {s with ranks := fun j => (s.ranks j).delayCol (fun _ => cmdAt+P.rankToRankDelay) fun _ => cmdAt+P.rankToRankDelay}

/-- What a burst returns: the packet with its ready time, the tick of the column command and the
earliest tick of the next one. -/
structure Burst where
  memPkt : MemPacket
  cmdAt : ℕ
  nextBurstAt : ℕ

def doBurstAccess (curTick : ℕ) (burstTicks : Multiset ℕ) (s : State) (memPkt : MemPacket) (nextBurstAt : ℕ)
    (queue : List (List MemPacket)) : Except Fault (Burst × State × Multiset ℕ) := do
  let rk := (s.ranks memPkt.rank).wake P curTick
  let (rk,burstTicks) ← (if (rk.banks memPkt.bank).openRow=some memPkt.row then pure (rk,burstTicks)
    else openPage P fuel curTick burstTicks rk memPkt.bank memPkt.row)
  let colAllowedAt := if memPkt.read then (rk.banks memPkt.bank).rdAllowedAt else (rk.banks memPkt.bank).wrAllowedAt
  let (cmdAt,burstTicks) ← verifyBurst P fuel burstTicks rk (burstTick P curTick memPkt colAllowedAt nextBurstAt)
  let (cmdAt,burstGap) := interleaveBurst P rk cmdAt
  let s := (s.setRank memPkt.rank rk).afterBurst P memPkt cmdAt burstGap
  let (s,burstTicks) ← s.finishBurst P fuel curTick burstTicks memPkt cmdAt queue
  return (⟨{memPkt with readyTime := cmdAt+P.tCL+P.tBURST},cmdAt,cmdAt+burstGap⟩,s,burstTicks)

end Commands

end AquaGem5.Dram
