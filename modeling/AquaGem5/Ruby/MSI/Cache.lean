import Mathlib.Data.Finset.Card
import AquaGem5.Lib.Checked

/-!
# The L1 cache of the MSI protocol (MSI-msg.sm, MSI-cache.sm)

One block of the protocol, so messages carry no address and a cache holds at most one entry and
one TBE. Message sizes, destinations of unicast requests and the data block of the TBE, which no
action reads, are left out. An action named `stall` is not the built-in `z_stall`: it is an
ordinary action that does nothing, and the message stays at the head of its queue.
-/

namespace AquaGem5.Ruby.MSI
open Checked

inductive MachineID (C : Type) where
  | L1Cache (c : C)
  | Directory
  deriving DecidableEq

inductive CoherenceRequestType where
  | GetS | GetM | PutS | PutM | Inv | PutAck
  deriving DecidableEq

inductive CoherenceResponseType where
  | Data | InvAck
  deriving DecidableEq

/-- The requestor of a message to the directory is a cache, that of a forwarded message any
machine. -/
structure RequestMsg (R V : Type) where
  type : CoherenceRequestType
  requestor : R
  dataBlk : V
  deriving DecidableEq

structure ResponseMsg (C V : Type) where
  type : CoherenceResponseType
  sender : MachineID C
  dataBlk : V
  acks : ℤ
  deriving DecidableEq

inductive RubyRequestType where
  | LD | IFETCH | ST
  | other
  deriving DecidableEq

inductive Fault where
  | assertion
  | error (text : String)
  /-- `cache_entry` is used where it is invalid. -/
  | nullEntry
  /-- A `peek` into a port without a message. -/
  | noMessage
  | invalidTransition
  deriving DecidableEq

/-- What the sequencer is told: the block's content when a load or a store completes. -/
inductive Callback (C V : Type) where
  | load (c : C) (v : V)
  | store (c : C) (v : V)
  deriving DecidableEq

namespace L1Cache

inductive State where
  | I | IS_D | IM_AD | IM_A | S | SM_AD | SM_A | M | MI_A | SI_A | II_A
  deriving DecidableEq

inductive Event where
  | Load | Store | Replacement | FwdGetS | FwdGetM | Inv | PutAck
  | DataDirNoAcks | DataDirAcks | DataOwner | InvAck | LastInvAck
  deriving DecidableEq

structure Entry (V : Type) where
  cacheState : State
  dataBlk : V

structure TBE where
  tbeState : State
  acksOutstanding : ℤ

end L1Cache

structure L1Cache (V : Type) where
  entry : Option (L1Cache.Entry V)
  tbe : Option L1Cache.TBE

namespace L1Cache

variable {C V : Type}

def empty : L1Cache V := ⟨none,none⟩

def getState (x : L1Cache V) : State :=
  match x.tbe, x.entry with
  | some tbe, _ => tbe.tbeState
  | none, some entry => entry.cacheState
  | none, none => .I

def setState (x : L1Cache V) (state : State) : L1Cache V :=
  { entry := x.entry.map fun e => {e with cacheState := state}
    tbe := x.tbe.map fun b => {b with tbeState := state} }

def responseIn (x : L1Cache V) (m : ResponseMsg C V) : Except Fault Event :=
  match x.tbe with
  | none => .error .assertion
  | some tbe =>
    match m.sender with
    | .Directory =>
      if m.type ≠ .Data then .error (.error "Directory should only reply with data")
      else if m.acks+tbe.acksOutstanding<0 then .error .assertion
      else if m.acks+tbe.acksOutstanding=0 then .ok .DataDirNoAcks
      else .ok .DataDirAcks
    | .L1Cache _ =>
      match m.type with
      | .Data => .ok .DataOwner
      | .InvAck => if tbe.acksOutstanding=1 then .ok .LastInvAck else .ok .InvAck

def forwardIn (m : RequestMsg (MachineID C) V) : Except Fault Event :=
  match m.type with
  | .GetS => .ok .FwdGetS
  | .GetM => .ok .FwdGetM
  | .Inv => .ok .Inv
  | .PutAck => .ok .PutAck
  | .PutS => .error (.error "Unexpected forward message!")
  | .PutM => .error (.error "Unexpected forward message!")

/-- `mandatory_in`. No event for this block when another block is replaced to make room. -/
def mandatoryIn (x : L1Cache V) (type : RubyRequestType) (cacheAvail : Bool) :
    Except Fault (Option Event) :=
  if x.entry.isNone && !cacheAvail then .ok none
  else
    match type with
    | .LD => .ok (some .Load)
    | .IFETCH => .ok (some .Load)
    | .ST => .ok (some .Store)
    | .other => .error (.error "Unexpected type from processor")

structure Peek (C V : Type) where
  response_in : Option (ResponseMsg C V)
  forward_in : Option (RequestMsg (MachineID C) V)
  cacheAvail : Bool
  /-- How the store that waits in the sequencer changes the block. -/
  write : V → V

/-- The cache during a transition, with what it has sent, reported and taken from its queues. -/
structure Turn (C V : Type) where
  cache : L1Cache V
  requests : List (RequestMsg C V)
  responses : List (MachineID C × ResponseMsg C V)
  callbacks : List (Callback C V)
  popMandatory : Bool
  popForward : Bool
  popResponse : Bool

def Turn.start (x : L1Cache V) : Turn C V := ⟨x,[],[],[],false,false,false⟩

inductive Action where
  | sendGetS | sendGetM | sendPutS | sendPutM
  | sendCacheDataToReq | sendCacheDataToDir | sendInvAcktoReq
  | decrAcks | storeAcks
  | loadHit | externalLoadHit | storeHit | externalStoreHit | forwardEviction
  | allocateCacheBlock | deallocateCacheBlock | writeDataToCache | allocateTBE | deallocateTBE
  | popMandatoryQueue | popResponseQueue | popForwardQueue
  | stall

def orFault {α : Type} (x : Option α) (f : Fault) : Except Fault α :=
  match x with
  | some a => .ok a
  | none => .error f

def Turn.request [Inhabited V] (t : Turn C V) (self : C) (type : CoherenceRequestType) : Turn C V :=
  {t with requests := t.requests++[⟨type,self,default⟩]}

def Turn.load (t : Turn C V) (self : C) (e : Entry V) : Turn C V :=
  {t with callbacks := t.callbacks++[.load self e.dataBlk]}

/-- `writeCallback` changes the block in place. -/
def Turn.store (t : Turn C V) (self : C) (write : V → V) (e : Entry V) : Turn C V :=
  {t with
    cache := {t.cache with entry := some {e with dataBlk := write e.dataBlk} }
    callbacks := t.callbacks++[.store self (write e.dataBlk)]}

def Action.run [Inhabited V] (self : C) (p : Peek C V) (t : Turn C V) :
    Action → Except Fault (Turn C V)
  | .sendGetS => .ok (t.request self .GetS)
  | .sendGetM => .ok (t.request self .GetM)
  | .sendPutS => .ok (t.request self .PutS)
  | .sendPutM => do
    let e ← orFault t.cache.entry .nullEntry
    return {t with requests := t.requests++[⟨.PutM,self,e.dataBlk⟩]}
  | .sendCacheDataToReq => do
    let e ← orFault t.cache.entry .assertion
    let in_msg ← orFault p.forward_in .noMessage
    return {t with
      responses := t.responses++[(in_msg.requestor,⟨.Data,.L1Cache self,e.dataBlk,0⟩)]}
  | .sendCacheDataToDir => do
    let e ← orFault t.cache.entry .nullEntry
    return {t with responses := t.responses++[(.Directory,⟨.Data,.L1Cache self,e.dataBlk,0⟩)]}
  | .sendInvAcktoReq => do
    let in_msg ← orFault p.forward_in .noMessage
    let e ← orFault t.cache.entry .nullEntry
    return {t with
      responses := t.responses++[(in_msg.requestor,⟨.InvAck,.L1Cache self,e.dataBlk,0⟩)]}
  | .decrAcks => do
    let tbe ← orFault t.cache.tbe .assertion
    let tbe := {tbe with acksOutstanding := tbe.acksOutstanding-1}
    return {t with cache := {t.cache with tbe := some tbe} }
  | .storeAcks => do
    let tbe ← orFault t.cache.tbe .assertion
    let in_msg ← orFault p.response_in .noMessage
    let tbe := {tbe with acksOutstanding := in_msg.acks+tbe.acksOutstanding}
    check (tbe.acksOutstanding>0) .assertion
    return {t with cache := {t.cache with tbe := some tbe} }
  | .loadHit => do
    let e ← orFault t.cache.entry .assertion
    return t.load self e
  | .externalLoadHit => do
    let e ← orFault t.cache.entry .assertion
    let _ ← orFault p.response_in .noMessage
    return t.load self e
  | .storeHit => do
    let e ← orFault t.cache.entry .assertion
    return t.store self p.write e
  | .externalStoreHit => do
    let e ← orFault t.cache.entry .assertion
    let _ ← orFault p.response_in .noMessage
    return t.store self p.write e
  | .forwardEviction => .ok t
  | .allocateCacheBlock => do
    check t.cache.entry.isNone .assertion
    check p.cacheAvail .assertion
    return {t with cache := {t.cache with entry := some ⟨.I,default⟩} }
  | .deallocateCacheBlock => do
    let _ ← orFault t.cache.entry .assertion
    return {t with cache := {t.cache with entry := none} }
  | .writeDataToCache => do
    let in_msg ← orFault p.response_in .noMessage
    let e ← orFault t.cache.entry .assertion
    return {t with cache := {t.cache with entry := some {e with dataBlk := in_msg.dataBlk}}}
  | .allocateTBE => do
    check t.cache.tbe.isNone .assertion
    return {t with cache := {t.cache with tbe := some ⟨.I,0⟩} }
  | .deallocateTBE => do
    let _ ← orFault t.cache.tbe .assertion
    return {t with cache := {t.cache with tbe := none} }
  | .popMandatoryQueue => .ok {t with popMandatory := true}
  | .popResponseQueue => .ok {t with popResponse := true}
  | .popForwardQueue => .ok {t with popForward := true}
  | .stall => .ok t

/-- The actions of a transition and the state it ends in, `none` where there is none. -/
def transition : State → Event → Option (List Action × State)
  | .I, .Load =>
    some ([.allocateCacheBlock,.allocateTBE,.sendGetS,.popMandatoryQueue],.IS_D)
  | .I, .Store =>
    some ([.allocateCacheBlock,.allocateTBE,.sendGetM,.popMandatoryQueue],.IM_AD)
  | .IS_D, .Load | .IS_D, .Store | .IS_D, .Replacement | .IS_D, .Inv => some ([.stall],.IS_D)
  | .IS_D, .DataDirNoAcks | .IS_D, .DataOwner =>
    some ([.writeDataToCache,.deallocateTBE,.externalLoadHit,.popResponseQueue],.S)
  | .IM_AD, .Load | .IM_AD, .Store | .IM_AD, .Replacement | .IM_AD, .FwdGetS | .IM_AD, .FwdGetM =>
    some ([.stall],.IM_AD)
  | .IM_A, .Load | .IM_A, .Store | .IM_A, .Replacement | .IM_A, .FwdGetS | .IM_A, .FwdGetM =>
    some ([.stall],.IM_A)
  | .IM_AD, .DataDirNoAcks | .IM_AD, .DataOwner | .SM_AD, .DataDirNoAcks | .SM_AD, .DataOwner =>
    some ([.writeDataToCache,.deallocateTBE,.externalStoreHit,.popResponseQueue],.M)
  | .IM_AD, .DataDirAcks => some ([.writeDataToCache,.storeAcks,.popResponseQueue],.IM_A)
  | .IM_AD, .InvAck => some ([.decrAcks,.popResponseQueue],.IM_AD)
  | .IM_A, .InvAck => some ([.decrAcks,.popResponseQueue],.IM_A)
  | .SM_AD, .InvAck => some ([.decrAcks,.popResponseQueue],.SM_AD)
  | .SM_A, .InvAck => some ([.decrAcks,.popResponseQueue],.SM_A)
  | .IM_A, .LastInvAck | .SM_A, .LastInvAck =>
    some ([.deallocateTBE,.externalStoreHit,.popResponseQueue],.M)
  | .S, .Load => some ([.loadHit,.popMandatoryQueue],.S)
  | .SM_AD, .Load => some ([.loadHit,.popMandatoryQueue],.SM_AD)
  | .SM_A, .Load => some ([.loadHit,.popMandatoryQueue],.SM_A)
  | .M, .Load => some ([.loadHit,.popMandatoryQueue],.M)
  | .S, .Store => some ([.allocateTBE,.sendGetM,.popMandatoryQueue],.SM_AD)
  | .S, .Replacement => some ([.sendPutS],.SI_A)
  | .S, .Inv =>
    some ([.sendInvAcktoReq,.forwardEviction,.deallocateCacheBlock,.popForwardQueue],.I)
  | .SM_AD, .Store | .SM_AD, .Replacement | .SM_AD, .FwdGetS | .SM_AD, .FwdGetM =>
    some ([.stall],.SM_AD)
  | .SM_A, .Store | .SM_A, .Replacement | .SM_A, .FwdGetS | .SM_A, .FwdGetM =>
    some ([.stall],.SM_A)
  | .SM_AD, .Inv => some ([.sendInvAcktoReq,.popForwardQueue],.IM_AD)
  | .SM_AD, .DataDirAcks => some ([.writeDataToCache,.storeAcks,.popResponseQueue],.SM_A)
  | .M, .Store => some ([.storeHit,.forwardEviction,.popMandatoryQueue],.M)
  | .M, .Replacement => some ([.sendPutM],.MI_A)
  | .M, .FwdGetS => some ([.sendCacheDataToReq,.sendCacheDataToDir,.popForwardQueue],.S)
  | .M, .FwdGetM => some ([.sendCacheDataToReq,.deallocateCacheBlock,.popForwardQueue],.I)
  | .MI_A, .Load | .MI_A, .Store | .MI_A, .Replacement => some ([.stall],.MI_A)
  | .SI_A, .Load | .SI_A, .Store | .SI_A, .Replacement => some ([.stall],.SI_A)
  | .II_A, .Load | .II_A, .Store | .II_A, .Replacement => some ([.stall],.II_A)
  | .MI_A, .FwdGetS => some ([.sendCacheDataToReq,.sendCacheDataToDir,.popForwardQueue],.SI_A)
  | .MI_A, .FwdGetM => some ([.sendCacheDataToReq,.popForwardQueue],.II_A)
  | .MI_A, .PutAck | .SI_A, .PutAck | .II_A, .PutAck =>
    some ([.deallocateCacheBlock,.popForwardQueue],.I)
  | .SI_A, .Inv => some ([.sendInvAcktoReq,.popForwardQueue],.II_A)
  | _, _ => none

def runActions [Inhabited V] (self : C) (p : Peek C V) :
    List Action → Turn C V → Except Fault (Turn C V)
  | [], t => .ok t
  | a::rest, t => do
    let t ← a.run self p t
    runActions self p rest t

def doTransition [Inhabited V] (self : C) (p : Peek C V) (event : Event) (x : L1Cache V) :
    Except Fault (Turn C V) :=
  match transition x.getState event with
  | none => .error .invalidTransition
  | some (actions,next) => do
    let t ← runActions self p actions (Turn.start x)
    return {t with cache := t.cache.setState next}

end L1Cache

end AquaGem5.Ruby.MSI
