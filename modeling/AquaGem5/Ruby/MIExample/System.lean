import AquaGem5.Ruby.MIExample.Directory

/-!
# The DMA controller of the MI example (MI_example-dma.sm, DMASequencer.cc)

A request is for bytes of one block, and a block is the function that gives its bytes.
-/

namespace AquaGem5.Ruby.MIExample
open Checked

abbrev Block (n : ℕ) (B : Type) := Fin n → B

/-- A packet of a DMA device: `offset` is that of its address in the block. -/
structure DMARequest (B : Type) where
  write : Bool
  offset : ℕ
  len : ℕ
  data : ℕ → B

inductive SequencerRequestType where
  | LD | ST | NULL

structure SequencerMsg (V : Type) where
  type : SequencerRequestType
  physicalAddress : ℕ
  len : ℕ
  dataBlk : V

namespace DMASequencer

variable {n : ℕ} {B : Type} [Inhabited B]

/-- `DataBlock::setData`. -/
def setData (blk : Block n B) (data : ℕ → B) (offset len : ℕ) : Block n B :=
  fun i => if offset ≤ i.val ∧ i.val<offset+len then data (i.val-offset) else blk i

/-- The message for the first block of a request. -/
def makeRequest (pkt : DMARequest B) : SequencerMsg (Block n B) :=
  let len := if pkt.offset+pkt.len≤n then pkt.len else n-pkt.offset
  ⟨if pkt.write then .ST else .LD,pkt.offset,len,
    if pkt.write then setData default pkt.data pkt.offset len else default⟩

end DMASequencer

namespace DMA

inductive State where
  | READY | BUSY_RD | BUSY_WR

inductive Event where
  | ReadRequest | WriteRequest | Data | Ack

structure TBE (V : Type) where
  tbeState : State
  dataBlk : V

inductive Callback (V : Type) where
  | data (v : V)
  | ack

end DMA

structure DMA (V : Type) where
  tbe : Option (DMA.TBE V)

namespace DMA

variable {D V : Type}

def empty : DMA V := ⟨none⟩

def getState (x : DMA V) : State :=
  match x.tbe with
  | some tbe => tbe.tbeState
  | none => .READY

def setState (x : DMA V) (state : State) : DMA V := ⟨x.tbe.map fun b => {b with tbeState := state}⟩

def requestQueueIn (m : SequencerMsg V) : Except Fault Event :=
  match m.type with
  | .LD => .ok .ReadRequest
  | .ST => .ok .WriteRequest
  | .NULL => .error (.error "Invalid request type")

def responseQueueIn (m : DMAResponseMsg V) : Except Fault Event :=
  match m.type with
  | .ACK => .ok .Ack
  | .DATA => .ok .Data
  | .NULL => .error (.error "Invalid response type")

structure Peek (V : Type) where
  dmaRequestQueue_in : Option (SequencerMsg V)
  dmaResponseQueue_in : Option (DMAResponseMsg V)

/-- A message that is stalled waits until it is woken up, and then comes in again. -/
structure Turn (D V : Type) where
  dma : DMA V
  requests : List (DMARequestMsg D V)
  callbacks : List (Callback V)
  popRequest : Bool
  popResponse : Bool

def Turn.start (x : DMA V) : Turn D V := ⟨x,[],[],false,false⟩

inductive Action where
  | sendReadRequest | sendWriteRequest | ackCallback | dataCallback | updateTBEData
  | allocateTBE | deallocateTBE | popRequestQueue | popResponseQueue
  | stallAndWaitRequestQueue | wakeUpAllDependents

def Turn.request (t : Turn D V) (self : D) (type : DMARequestType) (in_msg : SequencerMsg V) : Turn D V :=
  {t with requests := t.requests++[⟨type,in_msg.physicalAddress,self,in_msg.dataBlk,in_msg.len⟩]}

def Action.run [Inhabited V] (self : D) (p : Peek V) (t : Turn D V) : Action → Except Fault (Turn D V)
  | .sendReadRequest => do
    let in_msg ← orFault p.dmaRequestQueue_in .noMessage
    return t.request self .READ in_msg
  | .sendWriteRequest => do
    let in_msg ← orFault p.dmaRequestQueue_in .noMessage
    return t.request self .WRITE in_msg
  | .ackCallback => .ok {t with callbacks := t.callbacks++[.ack]}
  | .dataCallback => do
    let tbe ← orFault t.dma.tbe .assertion
    return {t with callbacks := t.callbacks++[.data tbe.dataBlk]}
  | .updateTBEData => do
    let tbe ← orFault t.dma.tbe .assertion
    let in_msg ← orFault p.dmaResponseQueue_in .noMessage
    return {t with dma := ⟨some {tbe with dataBlk := in_msg.dataBlk}⟩}
  | .allocateTBE => do
    check t.dma.tbe.isNone .assertion
    return {t with dma := ⟨some ⟨.READY,default⟩⟩}
  | .deallocateTBE => do
    let _ ← orFault t.dma.tbe .assertion
    return {t with dma := ⟨none⟩}
  | .popRequestQueue => .ok {t with popRequest := true}
  | .popResponseQueue => .ok {t with popResponse := true}
  | .stallAndWaitRequestQueue => .ok t
  | .wakeUpAllDependents => .ok t

def transition : State → Event → Option (List Action × State)
  | .READY,.ReadRequest => some ([.allocateTBE,.sendReadRequest,.popRequestQueue],.BUSY_RD)
  | .READY,.WriteRequest => some ([.allocateTBE,.sendWriteRequest,.popRequestQueue],.BUSY_WR)
  | .BUSY_RD,.Data =>
    some ([.updateTBEData,.dataCallback,.deallocateTBE,.popResponseQueue,.wakeUpAllDependents],.READY)
  | .BUSY_WR,.Ack => some ([.ackCallback,.deallocateTBE,.popResponseQueue,.wakeUpAllDependents],.READY)
  | .BUSY_RD,.ReadRequest | .BUSY_RD,.WriteRequest => some ([.stallAndWaitRequestQueue],.BUSY_RD)
  | .BUSY_WR,.ReadRequest | .BUSY_WR,.WriteRequest => some ([.stallAndWaitRequestQueue],.BUSY_WR)
  | _,_ => none

def runActions [Inhabited V] (self : D) (p : Peek V) : List Action → Turn D V → Except Fault (Turn D V)
  | [],t => .ok t
  | a::rest,t => do
    let t ← a.run self p t
    runActions self p rest t

def doTransition [Inhabited V] (self : D) (p : Peek V) (event : Event) (x : DMA V) : Except Fault (Turn D V) :=
  match transition x.getState event with
  | none => .error .invalidTransition
  | some (actions,next) => do
    let t ← runActions self p actions (Turn.start x)
    return {t with dma := t.dma.setState next}

end DMA

/-!
## The MI example: caches, DMA controllers, directory, network and memory

Every channel from one machine to another delivers in order. A step is one event: a processor request,
a replacement, a DMA request, or the arrival of the message at the head of a channel; a recycled message
goes to the end of its channel. The report of a step is what it tells the sequencers, and also which DMA
requests a controller takes up and the directory answers.
-/

/-- What an observer sees: the directory `answers` a DMA read with the block it sends, and `writes` when
it acknowledges a DMA write. -/
inductive Report (C D B V : Type) where
  | load (c : C) (v : V)
  | store (c : C) (v : V)
  | issues (d : D) (pkt : DMARequest B)
  | answers (d : D) (v : V)
  | writes (d : D)
  | dataCallback (d : D) (v : V)
  | ackCallback (d : D)

@[ext]
structure System (C D : Type) (n : ℕ) (B : Type) where
  cache : C → L1Cache (Block n B)
  dir : Directory C D (Block n B)
  dma : D → DMA (Block n B)
  requestToDir : C → List (RequestMsg C (Block n B))
  forwardFromDir : C → List (RequestMsg (MachineID C D) (Block n B))
  responseToCache : MachineID C D → C → List (ResponseMsg C D (Block n B))
  dmaRequestToDir : D → List (DMARequestMsg D (Block n B))
  dmaResponseFromDir : D → List (DMAResponseMsg (Block n B))
  requestToMemory : List (MemoryMsg C D (Block n B))
  responseFromMemory : List (MemoryMsg C D (Block n B))
  memory : Block n B

inductive Input (C D : Type) (n : ℕ) (B : Type) where
  | mandatory (c : C) (type : RubyRequestType) (cacheAvail : Bool) (write : Block n B → Block n B)
  | replacement (c : C)
  | forward (c : C)
  | response (source : MachineID C D) (c : C) (write : Block n B → Block n B)
  | request (c : C)
  | dmaMandatory (d : D) (pkt : DMARequest B)
  | dmaRequest (d : D)
  | dmaResponse (d : D)
  | memoryRequest
  | memoryResponse

namespace System

variable {C D : Type} {n : ℕ} {B : Type}

def initial (memory : Block n B) : System C D n B :=
  ⟨fun _ => L1Cache.empty,Directory.new,fun _ => DMA.empty,fun _ => [],fun _ => [],fun _ _ => [],fun _ => [],
    fun _ => [],[],[],memory⟩

/-- What can happen next: processors and DMA devices ask for anything, a victim has an entry, and a message
arrives that is the oldest one on its channel. -/
def Deliverable (s : System C D n B) : Input C D n B → Prop
  | .mandatory _ _ _ _ => True
  | .replacement c => (s.cache c).entry.isSome
  | .forward c => s.forwardFromDir c≠[]
  | .response source c _ => s.responseToCache source c≠[]
  | .request c => s.requestToDir c≠[]
  | .dmaMandatory _ _ => True
  | .dmaRequest d => s.dmaRequestToDir d≠[]
  | .dmaResponse d => s.dmaResponseFromDir d≠[]
  | .memoryRequest => s.requestToMemory≠[]
  | .memoryResponse => s.responseFromMemory≠[]

def taken {α : Type} : Directory.Take → List α → List α
  | .stay,l => l
  | .pop,l => l.tail
  | .recycle,l => l.rotate 1

variable [DecidableEq C] [DecidableEq D]

def sentTo {M α : Type} [DecidableEq M] (machine : M) (sent : List (M × α)) : List α :=
  (sent.filter fun x => x.1=machine).map Prod.snd

def forwardedTo (c : C) (sent : List (Finset C × RequestMsg (MachineID C D) (Block n B))) :
    List (RequestMsg (MachineID C D) (Block n B)) :=
  (sent.filter fun x => c∈x.1).map Prod.snd

/-- The network takes what the machines sent. -/
def afterCache (s : System C D n B) (c : C) (t : L1Cache.Turn C D (Block n B)) : System C D n B :=
  {s with
    cache := Function.update s.cache c t.cache
    requestToDir := Function.update s.requestToDir c (s.requestToDir c++t.requests)
    responseToCache := Function.update s.responseToCache (.L1Cache c) fun d =>
      s.responseToCache (.L1Cache c) d++sentTo (.L1Cache d) t.responses}

def afterDirectory (s : System C D n B) (t : Directory.Turn C D (Block n B)) : System C D n B :=
  {s with
    dir := t.dir
    forwardFromDir := fun c => s.forwardFromDir c++forwardedTo c t.forwards
    responseToCache := Function.update s.responseToCache .Directory fun d =>
      s.responseToCache .Directory d++sentTo (.L1Cache d) t.responses
    dmaResponseFromDir := fun d => s.dmaResponseFromDir d++sentTo d t.dmaResponses
    requestToMemory := s.requestToMemory++t.memory}

def cacheReport : Callback C (Block n B) → Report C D B (Block n B)
  | .load c v => .load c v
  | .store c v => .store c v

def dmaReport (d : D) : DMA.Callback (Block n B) → Report C D B (Block n B)
  | .data v => .dataCallback d v
  | .ack => .ackCallback d

/-- The directory's answers to the DMA controllers. -/
def answerReport : D × DMAResponseMsg (Block n B) → Report C D B (Block n B)
  | (d,m) => if m.type = .DATA then .answers d m.dataBlk else .writes d

/-- `serviceMemoryQueue` with the memory behind it: it reads and writes from the start of the block. -/
def serviceMemoryQueue (m : MemoryMsg C D (Block n B)) (memory : Block n B) : Block n B :=
  let reqSize := if 0 < m.len then m.len else n
  match m.type with
  | .MEMORY_READ => memory
  | .MEMORY_WB => fun i => if i.val<reqSize then m.dataBlk i else memory i

variable [Inhabited B]

def recvTimingResp (m : MemoryMsg C D (Block n B)) (memory : Block n B) : MemoryMsg C D (Block n B) :=
  match m.type with
  | .MEMORY_READ => ⟨.MEMORY_READ,m.sender,memory,0⟩
  | .MEMORY_WB => ⟨.MEMORY_WB,m.sender,default,0⟩

def step (s : System C D n B) : Input C D n B → Except Fault (System C D n B × List (Report C D B (Block n B)))
  | .mandatory c type cacheAvail write => do
    let event ← (s.cache c).mandatoryQueueIn type cacheAvail
    match event with
    | none => return (s,[])
    | some event =>
      let t ← L1Cache.doTransition c ⟨none,none,cacheAvail,write⟩ event (s.cache c)
      return (s.afterCache c t,t.callbacks.map cacheReport)
  | .replacement c => do
    let t ← L1Cache.doTransition c ⟨none,none,false,id⟩ .Replacement (s.cache c)
    return (s.afterCache c t,t.callbacks.map cacheReport)
  | .forward c => do
    let m ← orFault (s.forwardFromDir c).head? .noMessage
    let event ← L1Cache.forwardRequestNetworkIn m
    let t ← L1Cache.doTransition c ⟨none,some m,false,id⟩ event (s.cache c)
    let rest := if t.popForward then (s.forwardFromDir c).tail else s.forwardFromDir c
    return ({s.afterCache c t with forwardFromDir := Function.update s.forwardFromDir c rest},
      t.callbacks.map cacheReport)
  | .response source c write => do
    let m ← orFault (s.responseToCache source c).head? .noMessage
    let event ← L1Cache.responseNetworkIn m
    let t ← L1Cache.doTransition c ⟨some m,none,false,write⟩ event (s.cache c)
    let rest := if t.popResponse then (s.responseToCache source c).tail else s.responseToCache source c
    let s := {s with
      responseToCache := Function.update s.responseToCache source (Function.update (s.responseToCache source) c rest)}
    return (s.afterCache c t,t.callbacks.map cacheReport)
  | .request c => do
    let m ← orFault (s.requestToDir c).head? .noMessage
    let event ← s.dir.requestQueueIn m
    let t ← Directory.doTransition ⟨none,some m,none⟩ event s.dir
    return ({s.afterDirectory t with
      requestToDir := Function.update s.requestToDir c (taken t.takeRequest (s.requestToDir c))},
      t.dmaResponses.map answerReport)
  | .dmaMandatory d pkt => do
    let m := DMASequencer.makeRequest pkt
    let event ← DMA.requestQueueIn m
    let t ← DMA.doTransition d ⟨some m,none⟩ event (s.dma d)
    return ({s with
      dma := Function.update s.dma d t.dma
      dmaRequestToDir := Function.update s.dmaRequestToDir d (s.dmaRequestToDir d++t.requests)},
      if t.popRequest then [.issues d pkt] else [])
  | .dmaRequest d => do
    let m ← orFault (s.dmaRequestToDir d).head? .noMessage
    let event ← Directory.dmaRequestQueueIn m
    let t ← Directory.doTransition ⟨some m,none,none⟩ event s.dir
    return ({s.afterDirectory t with
      dmaRequestToDir := Function.update s.dmaRequestToDir d (taken t.takeDMARequest (s.dmaRequestToDir d))},
      t.dmaResponses.map answerReport)
  | .dmaResponse d => do
    let m ← orFault (s.dmaResponseFromDir d).head? .noMessage
    let event ← DMA.responseQueueIn m
    let t ← DMA.doTransition d ⟨none,some m⟩ event (s.dma d)
    let rest := if t.popResponse then (s.dmaResponseFromDir d).tail else s.dmaResponseFromDir d
    return ({s with
      dma := Function.update s.dma d t.dma
      dmaRequestToDir := Function.update s.dmaRequestToDir d (s.dmaRequestToDir d++t.requests)
      dmaResponseFromDir := Function.update s.dmaResponseFromDir d rest},t.callbacks.map (dmaReport d))
  | .memoryRequest => do
    let m ← orFault s.requestToMemory.head? .noMessage
    return ({s with
      requestToMemory := s.requestToMemory.tail
      responseFromMemory := s.responseFromMemory++[recvTimingResp m s.memory]
      memory := serviceMemoryQueue m s.memory},[])
  | .memoryResponse => do
    let m ← orFault s.responseFromMemory.head? .noMessage
    let t ← Directory.doTransition ⟨none,none,some m⟩ (Directory.memQueueIn m) s.dir
    return ({s.afterDirectory t with responseFromMemory := taken t.takeMem s.responseFromMemory},
      t.dmaResponses.map answerReport)

/-- A run of steps that satisfy `good`, with the reports so far, the latest first. It stops at an
undefined transition or a failing assertion. -/
inductive Reachable (good : System C D n B → Input C D n B → Prop) (memory : Block n B) :
    System C D n B → List (Report C D B (Block n B)) → Prop where
  | initial : Reachable good memory (initial memory) []
  | step (s s' : System C D n B) (log reports : List (Report C D B (Block n B))) (i : Input C D n B) :
    Reachable good memory s log → s.Deliverable i → good s i → s.step i = .ok (s',reports) →
      Reachable good memory s' (reports.reverse++log)

end System

end AquaGem5.Ruby.MIExample
