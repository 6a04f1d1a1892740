import AquaGem5.Ruby.MIExample.Cache

/-!
# The directory of the MI example (MI_example-dir.sm)

Only caches are ever added to the owner and nothing to the sharers, so a `NetDest` is a finite set of
caches. A physical address is the offset of its byte in the block. The entry of a block that is not
allocated yet is the default one, and so are the fields of a TBE that an action leaves out.
-/

namespace AquaGem5.Ruby.MIExample
open Checked

inductive DMARequestType where
  | READ | WRITE | NULL

inductive DMAResponseType where
  | DATA | ACK | NULL
  deriving DecidableEq

structure DMARequestMsg (D V : Type) where
  type : DMARequestType
  physicalAddress : ℕ
  requestor : D
  dataBlk : V
  len : ℕ

structure DMAResponseMsg (V : Type) where
  type : DMAResponseType
  dataBlk : V

inductive MemoryRequestType where
  | MEMORY_READ | MEMORY_WB

/-- `Sender` of a request comes back as `OriginalRequestorMachId`. -/
structure MemoryMsg (C D V : Type) where
  type : MemoryRequestType
  sender : MachineID C D
  dataBlk : V
  len : ℕ

namespace Directory

inductive State where
  | I | M | M_DRD | M_DWR | M_DWRI | M_DRDI | IM | MI | ID | ID_W
  deriving DecidableEq

inductive Event where
  | GETX | GETS | PUTX | PUTX_NotOwner | DMA_READ | DMA_WRITE | Memory_Data | Memory_Ack

structure TBE (D V : Type) where
  physicalAddress : ℕ
  tbeState : State
  dataBlk : V
  len : ℕ
  dmaRequestor : Option D

end Directory

structure Directory (C D V : Type) where
  directoryState : Directory.State
  sharers : Finset C
  owner : Finset C
  tbe : Option (Directory.TBE D V)

namespace Directory

variable {C D V : Type}

def new : Directory C D V := ⟨.I,∅,∅,none⟩

def getState (x : Directory C D V) : State :=
  match x.tbe with
  | some tbe => tbe.tbeState
  | none => x.directoryState

def setState (x : Directory C D V) (state : State) : Except Fault (Directory C D V) := do
  check (state = .M → x.owner.card=1) .assertion
  check (state = .M → x.sharers.card=0) .assertion
  check (state = .I → x.owner.card=0) .assertion
  check (state = .I → x.sharers.card=0) .assertion
  return {x with
    directoryState := state
    tbe := x.tbe.map fun b => {b with tbeState := state} }

def dmaRequestQueueIn (m : DMARequestMsg D V) : Except Fault Event :=
  match m.type with
  | .READ => .ok .DMA_READ
  | .WRITE => .ok .DMA_WRITE
  | .NULL => .error (.error "Invalid message")

def requestQueueIn [DecidableEq C] (x : Directory C D V) (m : RequestMsg C V) : Except Fault Event :=
  match m.type with
  | .GETS => .ok .GETS
  | .GETX => .ok .GETX
  | .PUTX => if m.requestor∈x.owner then .ok .PUTX else .ok .PUTX_NotOwner
  | .WB_ACK => .error (.error "Invalid message")
  | .WB_NACK => .error (.error "Invalid message")
  | .INV => .error (.error "Invalid message")

def memQueueIn (m : MemoryMsg C D V) : Event :=
  match m.type with
  | .MEMORY_READ => .Memory_Data
  | .MEMORY_WB => .Memory_Ack

structure Peek (C D V : Type) where
  dmaRequestQueue_in : Option (DMARequestMsg D V)
  requestQueue_in : Option (RequestMsg C V)
  memQueue_in : Option (MemoryMsg C D V)

/-- What becomes of the message at the head of a queue. -/
inductive Take where
  | stay | pop | recycle

/-- The directory during a transition, with what it has sent and what it does to its queues. -/
structure Turn (C D V : Type) where
  dir : Directory C D V
  forwards : List (Finset C × RequestMsg (MachineID C D) V)
  responses : List (MachineID C D × ResponseMsg C D V)
  dmaResponses : List (D × DMAResponseMsg V)
  memory : List (MemoryMsg C D V)
  takeRequest : Take
  takeDMARequest : Take
  takeMem : Take

def Turn.start (x : Directory C D V) : Turn C D V := ⟨x,[],[],[],[],.stay,.stay,.stay⟩

inductive Action where
  | sendWriteBackAck | sendWriteBackNack | clearOwner | sendData
  | drSendDMAData | drpSendDMAData | sendDMAAck
  | ownerIsRequestor | forwardRequest | sendCacheInvalidate
  | popIncomingRequestQueue | popIncomingDMARequestQueue
  | allocateTBE | allocateTbeForDmaRead | allocateTBEFromRequestNet | deallocateTBE
  | recycleRequestQueue | recycleDMARequestQueue
  | queueMemoryFetchRequest | queueMemoryFetchRequestDMA
  | queueMemoryWBRequestPartial | queueMemoryWBRequestPartialTBE | queueMemoryWBRequest
  | popMemQueue

def Turn.forward (t : Turn C D V) (destination : Finset C) (m : RequestMsg (MachineID C D) V) : Turn C D V :=
  {t with forwards := t.forwards++[(destination,m)]}

def caches [DecidableEq C] : MachineID C D → Finset C
  | .L1Cache c => {c}
  | .Directory => ∅
  | .DMA _ => ∅

def Turn.allocate (t : Turn C D V) (tbe : TBE D V) : Except Fault (Turn C D V) := do
  check t.dir.tbe.isNone .assertion
  return {t with dir := {t.dir with tbe := some tbe} }

/-- A response to the DMA controller that the TBE names. -/
def Turn.respondDMA (t : Turn C D V) (m : DMAResponseMsg V) : Except Fault (Turn C D V) := do
  let tbe ← orFault t.dir.tbe .assertion
  let dmaRequestor ← orFault tbe.dmaRequestor .noDestination
  return {t with dmaResponses := t.dmaResponses++[(dmaRequestor,m)]}

def Turn.queueMemory (t : Turn C D V) (m : MemoryMsg C D V) : Turn C D V := {t with memory := t.memory++[m]}

def Action.run [DecidableEq C] [Inhabited V] (p : Peek C D V) (t : Turn C D V) :
    Action → Except Fault (Turn C D V)
  | .sendWriteBackAck => do
    let in_msg ← orFault p.memQueue_in .noMessage
    return t.forward (caches in_msg.sender) ⟨.WB_ACK,in_msg.sender,default⟩
  | .sendWriteBackNack => do
    let in_msg ← orFault p.requestQueue_in .noMessage
    return t.forward {in_msg.requestor} ⟨.WB_NACK,.L1Cache in_msg.requestor,default⟩
  | .clearOwner => .ok {t with dir := {t.dir with owner := ∅}}
  | .sendData => do
    let in_msg ← orFault p.memQueue_in .noMessage
    return {t with responses := t.responses++[(in_msg.sender,⟨.DATA,.Directory,in_msg.dataBlk⟩)]}
  | .drSendDMAData => do
    let in_msg ← orFault p.memQueue_in .noMessage
    t.respondDMA ⟨.DATA,in_msg.dataBlk⟩
  | .drpSendDMAData => do
    let in_msg ← orFault p.requestQueue_in .noMessage
    t.respondDMA ⟨.DATA,in_msg.dataBlk⟩
  | .sendDMAAck => t.respondDMA ⟨.ACK,default⟩
  | .ownerIsRequestor => do
    let in_msg ← orFault p.requestQueue_in .noMessage
    return {t with dir := {t.dir with owner := {in_msg.requestor}}}
  | .forwardRequest => do
    let in_msg ← orFault p.requestQueue_in .noMessage
    return t.forward t.dir.owner ⟨in_msg.type,.L1Cache in_msg.requestor,default⟩
  | .sendCacheInvalidate => do
    let _ ← orFault p.dmaRequestQueue_in .noMessage
    return t.forward t.dir.owner ⟨.INV,.Directory,default⟩
  | .popIncomingRequestQueue => .ok {t with takeRequest := .pop}
  | .popIncomingDMARequestQueue => .ok {t with takeDMARequest := .pop}
  | .allocateTBE => do
    let in_msg ← orFault p.dmaRequestQueue_in .noMessage
    t.allocate ⟨in_msg.physicalAddress,.I,in_msg.dataBlk,in_msg.len,some in_msg.requestor⟩
  | .allocateTbeForDmaRead => do
    let in_msg ← orFault p.dmaRequestQueue_in .noMessage
    t.allocate ⟨0,.I,default,0,some in_msg.requestor⟩
  | .allocateTBEFromRequestNet => do
    let in_msg ← orFault p.requestQueue_in .noMessage
    t.allocate ⟨0,.I,in_msg.dataBlk,0,none⟩
  | .deallocateTBE => do
    let _ ← orFault t.dir.tbe .assertion
    return {t with dir := {t.dir with tbe := none} }
  | .recycleRequestQueue => .ok {t with takeRequest := .recycle}
  | .recycleDMARequestQueue => .ok {t with takeDMARequest := .recycle}
  | .queueMemoryFetchRequest => do
    let in_msg ← orFault p.requestQueue_in .noMessage
    return t.queueMemory ⟨.MEMORY_READ,.L1Cache in_msg.requestor,default,0⟩
  | .queueMemoryFetchRequestDMA => do
    let in_msg ← orFault p.dmaRequestQueue_in .noMessage
    return t.queueMemory ⟨.MEMORY_READ,.DMA in_msg.requestor,default,0⟩
  | .queueMemoryWBRequestPartial => do
    let in_msg ← orFault p.dmaRequestQueue_in .noMessage
    return t.queueMemory ⟨.MEMORY_WB,.DMA in_msg.requestor,in_msg.dataBlk,in_msg.len⟩
  | .queueMemoryWBRequestPartialTBE => do
    let in_msg ← orFault p.requestQueue_in .noMessage
    let tbe ← orFault t.dir.tbe .assertion
    return t.queueMemory ⟨.MEMORY_WB,.L1Cache in_msg.requestor,tbe.dataBlk,tbe.len⟩
  | .queueMemoryWBRequest => do
    let in_msg ← orFault p.requestQueue_in .noMessage
    return t.queueMemory ⟨.MEMORY_WB,.L1Cache in_msg.requestor,in_msg.dataBlk,0⟩
  | .popMemQueue => .ok {t with takeMem := .pop}

def transition : State → Event → Option (List Action × State)
  | .M_DRD,.GETX => some ([.recycleRequestQueue],.M_DRD)
  | .M_DWR,.GETX => some ([.recycleRequestQueue],.M_DWR)
  | .M_DWRI,.GETX => some ([.recycleRequestQueue],.M_DWRI)
  | .M_DRDI,.GETX => some ([.recycleRequestQueue],.M_DRDI)
  | .IM,.GETX | .IM,.GETS | .IM,.PUTX | .IM,.PUTX_NotOwner => some ([.recycleRequestQueue],.IM)
  | .MI,.GETX | .MI,.GETS | .MI,.PUTX | .MI,.PUTX_NotOwner => some ([.recycleRequestQueue],.MI)
  | .ID,.GETX | .ID,.GETS | .ID,.PUTX | .ID,.PUTX_NotOwner => some ([.recycleRequestQueue],.ID)
  | .ID_W,.GETX | .ID_W,.GETS | .ID_W,.PUTX | .ID_W,.PUTX_NotOwner => some ([.recycleRequestQueue],.ID_W)
  | .IM,.DMA_READ | .IM,.DMA_WRITE => some ([.recycleDMARequestQueue],.IM)
  | .MI,.DMA_READ | .MI,.DMA_WRITE => some ([.recycleDMARequestQueue],.MI)
  | .ID,.DMA_READ | .ID,.DMA_WRITE => some ([.recycleDMARequestQueue],.ID)
  | .ID_W,.DMA_READ | .ID_W,.DMA_WRITE => some ([.recycleDMARequestQueue],.ID_W)
  | .I,.GETX =>
    some ([.allocateTBEFromRequestNet,.queueMemoryFetchRequest,.ownerIsRequestor,.popIncomingRequestQueue],.IM)
  | .IM,.Memory_Data => some ([.sendData,.deallocateTBE,.popMemQueue],.M)
  | .I,.DMA_READ =>
    some ([.allocateTbeForDmaRead,.queueMemoryFetchRequestDMA,.popIncomingDMARequestQueue],.ID)
  | .ID,.Memory_Data => some ([.drSendDMAData,.deallocateTBE,.popMemQueue],.I)
  | .I,.DMA_WRITE => some ([.allocateTBE,.queueMemoryWBRequestPartial,.popIncomingDMARequestQueue],.ID_W)
  | .ID_W,.Memory_Ack => some ([.sendDMAAck,.deallocateTBE,.popMemQueue],.I)
  | .M,.DMA_READ => some ([.allocateTBE,.sendCacheInvalidate,.popIncomingDMARequestQueue],.M_DRD)
  | .M_DRD,.PUTX =>
    some ([.drpSendDMAData,.clearOwner,.queueMemoryWBRequest,.popIncomingRequestQueue],.M_DRDI)
  | .M_DRDI,.Memory_Ack => some ([.sendWriteBackAck,.deallocateTBE,.popMemQueue],.I)
  | .M,.DMA_WRITE => some ([.allocateTBE,.sendCacheInvalidate,.popIncomingDMARequestQueue],.M_DWR)
  | .M_DWR,.PUTX => some ([.queueMemoryWBRequestPartialTBE,.clearOwner,.popIncomingRequestQueue],.M_DWRI)
  | .M_DWRI,.Memory_Ack => some ([.sendWriteBackAck,.sendDMAAck,.deallocateTBE,.popMemQueue],.I)
  | .M,.GETX => some ([.forwardRequest,.ownerIsRequestor,.popIncomingRequestQueue],.M)
  | .M,.PUTX =>
    some ([.clearOwner,.allocateTBEFromRequestNet,.queueMemoryWBRequest,.popIncomingRequestQueue],.MI)
  | .MI,.Memory_Ack => some ([.sendWriteBackAck,.deallocateTBE,.popMemQueue],.I)
  | .M,.PUTX_NotOwner => some ([.sendWriteBackNack,.popIncomingRequestQueue],.M)
  | .I,.PUTX_NotOwner => some ([.sendWriteBackNack,.popIncomingRequestQueue],.I)
  | _,_ => none

def runActions [DecidableEq C] [Inhabited V] (p : Peek C D V) :
    List Action → Turn C D V → Except Fault (Turn C D V)
  | [],t => .ok t
  | a::rest,t => do
    let t ← a.run p t
    runActions p rest t

def doTransition [DecidableEq C] [Inhabited V] (p : Peek C D V) (event : Event) (x : Directory C D V) :
    Except Fault (Turn C D V) :=
  match transition x.getState event with
  | none => .error .invalidTransition
  | some (actions,next) => do
    let t ← runActions p actions (Turn.start x)
    let dir ← t.dir.setState next
    return {t with dir}

end Directory

end AquaGem5.Ruby.MIExample
