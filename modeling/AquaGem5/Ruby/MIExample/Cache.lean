import Mathlib.Data.Finset.Card
import AquaGem5.Lib.Checked

/-!
# The L1 cache of the MI example (MI_example-msg.sm, MI_example-cache.sm)

One block of the protocol, so messages carry no address and a cache holds at most one entry and one
TBE. Message sizes, destinations of unicast requests, the `Dirty` bit that no action reads and the
profiling of hits and misses are left out. Only `z_stall` is built in: the message stays at the head.
-/

namespace AquaGem5.Ruby.MIExample
open Checked

inductive MachineID (C D : Type) where
  | L1Cache (c : C)
  | Directory
  | DMA (d : D)
  deriving DecidableEq

inductive CoherenceRequestType where
  | GETX | GETS | PUTX | WB_ACK | WB_NACK | INV
  deriving DecidableEq

inductive CoherenceResponseType where
  | ACK | DATA | DATA_EXCLUSIVE_CLEAN | DATA_EXCLUSIVE_DIRTY | UNBLOCK | UNBLOCK_EXCLUSIVE
  | WRITEBACK_CLEAN | WRITEBACK_DIRTY | WRITEBACK
  deriving DecidableEq

/-- The requestor of a message to the directory is a cache, that of a forwarded message any machine. -/
structure RequestMsg (R V : Type) where
  type : CoherenceRequestType
  requestor : R
  dataBlk : V

structure ResponseMsg (C D V : Type) where
  type : CoherenceResponseType
  sender : MachineID C D
  dataBlk : V

inductive RubyRequestType where
  | LD | IFETCH | ST | ATOMIC
  | other

inductive Fault where
  | assertion
  | error (text : String)
  /-- A `peek` into a port without a message. -/
  | noMessage
  /-- A message without a destination. -/
  | noDestination
  | invalidTransition
  deriving DecidableEq

def orFault {α : Type} (x : Option α) (f : Fault) : Except Fault α :=
  match x with
  | some a => .ok a
  | none => .error f

/-- What the sequencer is told: the block's content when a load or a store completes. -/
inductive Callback (C V : Type) where
  | load (c : C) (v : V)
  | store (c : C) (v : V)

namespace L1Cache

inductive State where
  | I | II | M | MI | MII | IS | IM
  deriving DecidableEq

inductive Event where
  | Load | Ifetch | Store | Data | Fwd_GETX | Inv | Replacement | Writeback_Ack | Writeback_Nack
  deriving DecidableEq

structure Entry (V : Type) where
  cacheState : State
  dataBlk : V

structure TBE (V : Type) where
  tbeState : State
  dataBlk : V

end L1Cache

structure L1Cache (V : Type) where
  entry : Option (L1Cache.Entry V)
  tbe : Option (L1Cache.TBE V)

namespace L1Cache

variable {C D V : Type}

def empty : L1Cache V := ⟨none,none⟩

def getState (x : L1Cache V) : State :=
  match x.tbe,x.entry with
  | some tbe,_ => tbe.tbeState
  | none,some entry => entry.cacheState
  | none,none => .I

def setState (x : L1Cache V) (state : State) : L1Cache V :=
  { entry := x.entry.map fun e => {e with cacheState := state}
    tbe := x.tbe.map fun b => {b with tbeState := state} }

def mandatoryRequestTypeToEvent : RubyRequestType → Except Fault Event
  | .LD => .ok .Load
  | .IFETCH => .ok .Ifetch
  | .ST => .ok .Store
  | .ATOMIC => .ok .Store
  | .other => .error (.error "Invalid RubyRequestType")

def forwardRequestNetworkIn (m : RequestMsg (MachineID C D) V) : Except Fault Event :=
  match m.type with
  | .GETX => .ok .Fwd_GETX
  | .WB_ACK => .ok .Writeback_Ack
  | .WB_NACK => .ok .Writeback_Nack
  | .INV => .ok .Inv
  | .GETS => .error (.error "Unexpected message")
  | .PUTX => .error (.error "Unexpected message")

def responseNetworkIn (m : ResponseMsg C D V) : Except Fault Event :=
  if m.type = .DATA then .ok .Data else .error (.error "Unexpected message")

/-- No event for this block when another block is replaced to make room. -/
def mandatoryQueueIn (x : L1Cache V) (type : RubyRequestType) (cacheAvail : Bool) :
    Except Fault (Option Event) :=
  if x.entry.isNone && !cacheAvail then .ok none else (mandatoryRequestTypeToEvent type).map some

structure Peek (C D V : Type) where
  responseNetwork_in : Option (ResponseMsg C D V)
  forwardRequestNetwork_in : Option (RequestMsg (MachineID C D) V)
  cacheAvail : Bool
  /-- How the store that waits in the sequencer changes the block. -/
  write : V → V

/-- The cache during a transition, with what it has sent, reported and taken from its queues. -/
structure Turn (C D V : Type) where
  cache : L1Cache V
  requests : List (RequestMsg C V)
  responses : List (MachineID C D × ResponseMsg C D V)
  callbacks : List (Callback C V)
  popMandatory : Bool
  popForward : Bool
  popResponse : Bool

def Turn.start (x : L1Cache V) : Turn C D V := ⟨x,[],[],[],false,false,false⟩

inductive Action where
  | issueRequest | issuePUT | sendData | sendDataFromTBE
  | allocateL1CacheBlock | deallocateL1CacheBlock
  | popMandatoryQueue | popResponseQueue | popForwardedRequestQueue
  | loadHit | rxLoadHit | storeHit | sxStoreHit
  | writeDataToCache | forwardEvictionToCpu
  | allocateTBE | deallocateTBE | copyDataFromCacheToTBE
  | stall

def Turn.load (t : Turn C D V) (self : C) (e : Entry V) : Turn C D V :=
  {t with callbacks := t.callbacks++[.load self e.dataBlk]}

/-- `writeCallback` changes the block in place. -/
def Turn.store (t : Turn C D V) (self : C) (write : V → V) (e : Entry V) : Turn C D V :=
  {t with
    cache := {t.cache with entry := some {e with dataBlk := write e.dataBlk} }
    callbacks := t.callbacks++[.store self (write e.dataBlk)]}

def Action.run [Inhabited V] (self : C) (p : Peek C D V) (t : Turn C D V) :
    Action → Except Fault (Turn C D V)
  | .issueRequest => .ok {t with requests := t.requests++[⟨.GETX,self,default⟩]}
  | .issuePUT => do
    let e ← orFault t.cache.entry .assertion
    return {t with requests := t.requests++[⟨.PUTX,self,e.dataBlk⟩]}
  | .sendData => do
    let in_msg ← orFault p.forwardRequestNetwork_in .noMessage
    let e ← orFault t.cache.entry .assertion
    return {t with responses := t.responses++[(in_msg.requestor,⟨.DATA,.L1Cache self,e.dataBlk⟩)]}
  | .sendDataFromTBE => do
    let in_msg ← orFault p.forwardRequestNetwork_in .noMessage
    let tbe ← orFault t.cache.tbe .assertion
    return {t with responses := t.responses++[(in_msg.requestor,⟨.DATA,.L1Cache self,tbe.dataBlk⟩)]}
  | .allocateL1CacheBlock =>
    match t.cache.entry with
    | some _ => .ok t
    | none => do
      check p.cacheAvail .assertion
      return {t with cache := {t.cache with entry := some ⟨.I,default⟩} }
  | .deallocateL1CacheBlock => .ok {t with cache := {t.cache with entry := none} }
  | .popMandatoryQueue => .ok {t with popMandatory := true}
  | .popResponseQueue => .ok {t with popResponse := true}
  | .popForwardedRequestQueue => .ok {t with popForward := true}
  | .loadHit => do
    let e ← orFault t.cache.entry .assertion
    return t.load self e
  | .rxLoadHit => do
    let _ ← orFault p.responseNetwork_in .noMessage
    let e ← orFault t.cache.entry .assertion
    return t.load self e
  | .storeHit => do
    let e ← orFault t.cache.entry .assertion
    return t.store self p.write e
  | .sxStoreHit => do
    let _ ← orFault p.responseNetwork_in .noMessage
    let e ← orFault t.cache.entry .assertion
    return t.store self p.write e
  | .writeDataToCache => do
    let in_msg ← orFault p.responseNetwork_in .noMessage
    let e ← orFault t.cache.entry .assertion
    return {t with cache := {t.cache with entry := some {e with dataBlk := in_msg.dataBlk}}}
  | .forwardEvictionToCpu => .ok t
  | .allocateTBE => do
    check t.cache.tbe.isNone .assertion
    return {t with cache := {t.cache with tbe := some ⟨.I,default⟩} }
  | .deallocateTBE => do
    let _ ← orFault t.cache.tbe .assertion
    return {t with cache := {t.cache with tbe := none} }
  | .copyDataFromCacheToTBE => do
    let e ← orFault t.cache.entry .assertion
    let tbe ← orFault t.cache.tbe .assertion
    return {t with cache := {t.cache with tbe := some {tbe with dataBlk := e.dataBlk}}}
  | .stall => .ok t

/-- The actions of a transition and the state it ends in, `none` where there is none. -/
def transition : State → Event → Option (List Action × State)
  | .IS,.Load | .IS,.Ifetch | .IS,.Store | .IS,.Replacement => some ([.stall],.IS)
  | .IM,.Load | .IM,.Ifetch | .IM,.Store | .IM,.Replacement => some ([.stall],.IM)
  | .MI,.Load | .MI,.Ifetch | .MI,.Store | .MI,.Replacement => some ([.stall],.MI)
  | .II,.Load | .II,.Ifetch | .II,.Store | .II,.Replacement => some ([.stall],.II)
  | .MII,.Load | .MII,.Ifetch | .MII,.Store | .MII,.Replacement => some ([.stall],.MII)
  | .IS,.Fwd_GETX | .IS,.Inv => some ([.stall],.IS)
  | .IM,.Fwd_GETX | .IM,.Inv => some ([.stall],.IM)
  | .MI,.Inv => some ([.popForwardedRequestQueue],.MI)
  | .M,.Store => some ([.storeHit,.popMandatoryQueue],.M)
  | .M,.Load | .M,.Ifetch => some ([.loadHit,.popMandatoryQueue],.M)
  | .I,.Inv => some ([.popForwardedRequestQueue],.I)
  | .I,.Store => some ([.allocateTBE,.allocateL1CacheBlock,.issueRequest,.popMandatoryQueue],.IM)
  | .I,.Load | .I,.Ifetch => some ([.allocateTBE,.allocateL1CacheBlock,.issueRequest,.popMandatoryQueue],.IS)
  | .IS,.Data => some ([.writeDataToCache,.rxLoadHit,.deallocateTBE,.popResponseQueue],.M)
  | .IM,.Data => some ([.writeDataToCache,.sxStoreHit,.deallocateTBE,.popResponseQueue],.M)
  | .M,.Fwd_GETX => some ([.sendData,.forwardEvictionToCpu,.popForwardedRequestQueue],.I)
  | .I,.Replacement => some ([.deallocateL1CacheBlock],.I)
  | .M,.Replacement | .M,.Inv =>
    some ([.allocateTBE,.issuePUT,.copyDataFromCacheToTBE,.forwardEvictionToCpu,.deallocateL1CacheBlock],.MI)
  | .MI,.Writeback_Ack => some ([.deallocateTBE,.popForwardedRequestQueue],.I)
  | .MI,.Fwd_GETX => some ([.sendDataFromTBE,.popForwardedRequestQueue],.II)
  | .MI,.Writeback_Nack => some ([.popForwardedRequestQueue],.MII)
  | .MII,.Fwd_GETX => some ([.sendDataFromTBE,.deallocateTBE,.popForwardedRequestQueue],.I)
  | .II,.Writeback_Nack => some ([.deallocateTBE,.popForwardedRequestQueue],.I)
  | _,_ => none

def runActions [Inhabited V] (self : C) (p : Peek C D V) :
    List Action → Turn C D V → Except Fault (Turn C D V)
  | [],t => .ok t
  | a::rest,t => do
    let t ← a.run self p t
    runActions self p rest t

def doTransition [Inhabited V] (self : C) (p : Peek C D V) (event : Event) (x : L1Cache V) :
    Except Fault (Turn C D V) :=
  match transition x.getState event with
  | none => .error .invalidTransition
  | some (actions,next) => do
    let t ← runActions self p actions (Turn.start x)
    return {t with cache := t.cache.setState next}

end L1Cache

end AquaGem5.Ruby.MIExample
