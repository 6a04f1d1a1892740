import AquaGem5.Ruby.MSI.Cache

/-!
# The directory of the MSI protocol (MSI-dir.sm)

Only caches are ever added to the sharers and the owner, so a `NetDest` is a finite set of caches.
The entry of a block that is not allocated yet is the default one: invalid, with empty sets.
-/

namespace AquaGem5.Ruby.MSI
open Checked

inductive MemoryRequestType where
  | MEMORY_READ | MEMORY_WB
  deriving DecidableEq

/-- `Sender` of a request comes back as `OriginalRequestorMachId`. -/
structure MemoryMsg (C V : Type) where
  type : MemoryRequestType
  sender : MachineID C
  dataBlk : V
  deriving DecidableEq

namespace Directory

inductive State where
  | I | S | M | S_D | S_m | M_m | MI_m | SS_m
  deriving DecidableEq

inductive Event where
  | GetS | GetM | PutSNotLast | PutSLast | PutMOwner | PutMNonOwner | Data | MemData | MemAck
  deriving DecidableEq

end Directory

structure Directory (C : Type) where
  dirState : Directory.State
  sharers : Finset C
  owner : Finset C

namespace Directory

variable {C V : Type}

def new : Directory C := ⟨.I,∅,∅⟩

def setState (x : Directory C) (state : State) : Except Fault (Directory C) := do
  check (state = .M → x.owner.card=1) .assertion
  check (state = .M → x.sharers.card=0) .assertion
  check (state = .I → x.owner.card=0) .assertion
  check (state = .I → x.sharers.card=0) .assertion
  return {x with dirState := state}

def memQueueIn (m : MemoryMsg C V) : Event :=
  match m.type with
  | .MEMORY_READ => .MemData
  | .MEMORY_WB => .MemAck

def responseIn (m : ResponseMsg C V) : Except Fault Event :=
  match m.type with
  | .Data => .ok .Data
  | .InvAck => .error (.error "Unexpected message type.")

def requestIn [DecidableEq C] (x : Directory C) (m : RequestMsg C V) : Except Fault Event :=
  match m.type with
  | .GetS => .ok .GetS
  | .GetM => .ok .GetM
  | .PutS =>
    if x.sharers.card=1 then
      if m.requestor∈x.sharers then .ok .PutSLast else .error .assertion
    else .ok .PutSNotLast
  | .PutM => if m.requestor∈x.owner then .ok .PutMOwner else .ok .PutMNonOwner
  | .Inv => .error (.error "Unexpected message type.")
  | .PutAck => .error (.error "Unexpected message type.")

structure Peek (C V : Type) where
  memQueue_in : Option (MemoryMsg C V)
  response_in : Option (ResponseMsg C V)
  request_in : Option (RequestMsg C V)

/-- The directory during a transition, with what it has sent and taken from its queues. -/
structure Turn (C V : Type) where
  dir : Directory C
  forwards : List (Finset C × RequestMsg (MachineID C) V)
  responses : List (MachineID C × ResponseMsg C V)
  memory : List (MemoryMsg C V)
  popRequest : Bool
  popResponse : Bool
  popMem : Bool

def Turn.start (x : Directory C) : Turn C V := ⟨x,[],[],[],false,false,false⟩

inductive Action where
  | sendMemRead | sendDataToMem | sendRespDataToMem
  | addReqToSharers | setOwner | addOwnerToSharers | removeReqFromSharers
  | clearSharers | clearOwner
  | sendInvToSharers | sendFwdGetS | sendFwdGetM
  | sendDataToReq | sendPutAck
  | popResponseQueue | popRequestQueue | popMemQueue
  | stall

/-- The message goes out on `forward_out` to every cache of `destination`. -/
def Turn.forward (t : Turn C V) (destination : Finset C) (m : RequestMsg (MachineID C) V) :
    Turn C V :=
  {t with forwards := t.forwards++[(destination,m)]}

def isElement [DecidableEq C] (s : Finset C) : MachineID C → Bool
  | .L1Cache c => c∈s
  | .Directory => false

def Action.run [DecidableEq C] [Inhabited V] (p : Peek C V) (t : Turn C V) :
    Action → Except Fault (Turn C V)
  | .sendMemRead => do
    let in_msg ← L1Cache.orFault p.request_in .noMessage
    return {t with memory := t.memory++[⟨.MEMORY_READ,.L1Cache in_msg.requestor,default⟩]}
  | .sendDataToMem => do
    let in_msg ← L1Cache.orFault p.request_in .noMessage
    return {t with memory := t.memory++[⟨.MEMORY_WB,.L1Cache in_msg.requestor,in_msg.dataBlk⟩]}
  | .sendRespDataToMem => do
    let in_msg ← L1Cache.orFault p.response_in .noMessage
    return {t with memory := t.memory++[⟨.MEMORY_WB,in_msg.sender,in_msg.dataBlk⟩]}
  | .addReqToSharers => do
    let in_msg ← L1Cache.orFault p.request_in .noMessage
    return {t with dir := {t.dir with sharers := insert in_msg.requestor t.dir.sharers} }
  | .setOwner => do
    let in_msg ← L1Cache.orFault p.request_in .noMessage
    return {t with dir := {t.dir with owner := insert in_msg.requestor t.dir.owner} }
  | .addOwnerToSharers => do
    check (t.dir.owner.card=1) .assertion
    return {t with dir := {t.dir with sharers := t.dir.sharers ∪ t.dir.owner} }
  | .removeReqFromSharers => do
    let in_msg ← L1Cache.orFault p.request_in .noMessage
    return {t with dir := {t.dir with sharers := t.dir.sharers.erase in_msg.requestor} }
  | .clearSharers => .ok {t with dir := {t.dir with sharers := ∅}}
  | .clearOwner => .ok {t with dir := {t.dir with owner := ∅}}
  | .sendInvToSharers => do
    let in_msg ← L1Cache.orFault p.request_in .noMessage
    return t.forward t.dir.sharers ⟨.Inv,.L1Cache in_msg.requestor,default⟩
  | .sendFwdGetS => do
    check (t.dir.owner.card=1) .assertion
    let in_msg ← L1Cache.orFault p.request_in .noMessage
    return t.forward t.dir.owner ⟨.GetS,.L1Cache in_msg.requestor,default⟩
  | .sendFwdGetM => do
    check (t.dir.owner.card=1) .assertion
    let in_msg ← L1Cache.orFault p.request_in .noMessage
    return t.forward t.dir.owner ⟨.GetM,.L1Cache in_msg.requestor,default⟩
  | .sendDataToReq => do
    let in_msg ← L1Cache.orFault p.memQueue_in .noMessage
    let acks := if isElement t.dir.owner in_msg.sender then t.dir.sharers.card else 0
    return {t with responses := t.responses ++
      [(in_msg.sender,⟨.Data,.Directory,in_msg.dataBlk,acks⟩)]}
  | .sendPutAck => do
    let in_msg ← L1Cache.orFault p.request_in .noMessage
    return t.forward {in_msg.requestor} ⟨.PutAck,.Directory,default⟩
  | .popResponseQueue => .ok {t with popResponse := true}
  | .popRequestQueue => .ok {t with popRequest := true}
  | .popMemQueue => .ok {t with popMem := true}
  | .stall => .ok t

def transition : State → Event → Option (List Action × State)
  | .I, .GetS | .S, .GetS => some ([.sendMemRead,.addReqToSharers,.popRequestQueue],.S_m)
  | .I, .PutSNotLast | .I, .PutSLast | .I, .PutMNonOwner =>
    some ([.sendPutAck,.popRequestQueue],.I)
  | .S_m, .MemData => some ([.sendDataToReq,.popMemQueue],.S)
  | .I, .GetM => some ([.sendMemRead,.setOwner,.popRequestQueue],.M_m)
  | .M_m, .MemData => some ([.sendDataToReq,.clearSharers,.popMemQueue],.M)
  | .S, .GetM =>
    some ([.sendMemRead,.removeReqFromSharers,.sendInvToSharers,.setOwner,.popRequestQueue],.M_m)
  | .S, .PutSNotLast | .S, .PutMNonOwner =>
    some ([.removeReqFromSharers,.sendPutAck,.popRequestQueue],.S)
  | .S_D, .PutSNotLast | .S_D, .PutMNonOwner =>
    some ([.removeReqFromSharers,.sendPutAck,.popRequestQueue],.S_D)
  | .SS_m, .PutSNotLast | .SS_m, .PutMNonOwner =>
    some ([.removeReqFromSharers,.sendPutAck,.popRequestQueue],.SS_m)
  | .S_m, .PutSNotLast | .S_m, .PutMNonOwner =>
    some ([.removeReqFromSharers,.sendPutAck,.popRequestQueue],.S_m)
  | .S, .PutSLast => some ([.removeReqFromSharers,.sendPutAck,.popRequestQueue],.I)
  | .M, .GetS =>
    some ([.sendFwdGetS,.addReqToSharers,.addOwnerToSharers,.clearOwner,.popRequestQueue],.S_D)
  | .M, .GetM => some ([.sendFwdGetM,.clearOwner,.setOwner,.popRequestQueue],.M)
  | .M, .PutSNotLast | .M, .PutSLast | .M, .PutMNonOwner =>
    some ([.sendPutAck,.popRequestQueue],.M)
  | .M_m, .PutSNotLast | .M_m, .PutSLast | .M_m, .PutMNonOwner =>
    some ([.sendPutAck,.popRequestQueue],.M_m)
  | .MI_m, .PutSNotLast | .MI_m, .PutSLast | .MI_m, .PutMNonOwner =>
    some ([.sendPutAck,.popRequestQueue],.MI_m)
  | .M, .PutMOwner => some ([.sendDataToMem,.clearOwner,.sendPutAck,.popRequestQueue],.MI_m)
  | .MI_m, .MemAck => some ([.popMemQueue],.I)
  | .S_D, .GetS | .S_D, .GetM => some ([.stall],.S_D)
  | .S_D, .PutSLast => some ([.removeReqFromSharers,.sendPutAck,.popRequestQueue],.S_D)
  | .S_D, .Data => some ([.sendRespDataToMem,.popResponseQueue],.SS_m)
  | .SS_m, .MemAck => some ([.popMemQueue],.S)
  | .MI_m, .GetS | .MI_m, .GetM => some ([.stall],.MI_m)
  | .SS_m, .GetS | .SS_m, .GetM => some ([.stall],.SS_m)
  | .S_m, .GetS | .S_m, .GetM => some ([.stall],.S_m)
  | .M_m, .GetS | .M_m, .GetM => some ([.stall],.M_m)
  | _, _ => none

def runActions [DecidableEq C] [Inhabited V] (p : Peek C V) :
    List Action → Turn C V → Except Fault (Turn C V)
  | [], t => .ok t
  | a::rest, t => do
    let t ← a.run p t
    runActions p rest t

def doTransition [DecidableEq C] [Inhabited V] (p : Peek C V) (event : Event) (x : Directory C) :
    Except Fault (Turn C V) :=
  match transition x.dirState event with
  | none => .error .invalidTransition
  | some (actions,next) => do
    let t ← runActions p actions (Turn.start x)
    let dir ← t.dir.setState next
    return {t with dir}

end Directory

/-!
## The MSI protocol: caches, directory, network and memory

The forward network delivers in order to each cache; any message in flight on another channel may
be the next one delivered. Requests are kept with the cache that sent them, responses with the
machine they go to. A step is one event: a processor request, a replacement, or the arrival of a
message.
-/

variable {C V : Type}

@[ext]
structure System (C V : Type) where
  cache : C → L1Cache V
  dir : Directory C
  requestToDir : C → Multiset (RequestMsg C V)
  forwardFromDir : C → List (RequestMsg (MachineID C) V)
  responseToCache : C → Multiset (ResponseMsg C V)
  responseToDir : Multiset (ResponseMsg C V)
  requestToMemory : Multiset (MemoryMsg C V)
  responseFromMemory : Multiset (MemoryMsg C V)
  memory : V

inductive Input (C V : Type) where
  | mandatory (c : C) (type : RubyRequestType) (cacheAvail : Bool) (write : V → V)
  | replacement (c : C)
  | forward (c : C)
  | response (c : C) (m : ResponseMsg C V) (write : V → V)
  | request (c : C) (m : RequestMsg C V)
  | responseToDir (m : ResponseMsg C V)
  | memoryResponse (m : MemoryMsg C V)
  | memoryRequest (m : MemoryMsg C V)

namespace System

def initial (memory : V) : System C V :=
  ⟨fun _ => L1Cache.empty,Directory.new,fun _ => 0,fun _ => [],fun _ => 0,0,0,0,memory⟩

/-- What can happen next: the processor loads and stores, a victim has an entry, and a message
that arrives is in flight, the oldest one on the forward network. -/
def Deliverable (s : System C V) : Input C V → Prop
  | .mandatory _ type _ _ => type ≠ .other
  | .replacement c => (s.cache c).entry.isSome
  | .forward c => s.forwardFromDir c≠[]
  | .response c m _ => m∈s.responseToCache c
  | .request c m => m∈s.requestToDir c
  | .responseToDir m => m∈s.responseToDir
  | .memoryResponse m => m∈s.responseFromMemory
  | .memoryRequest m => m∈s.requestToMemory

variable [DecidableEq C] [DecidableEq V]

instance (s : System C V) (i : Input C V) : Decidable (s.Deliverable i) := by
  cases i <;> unfold Deliverable <;> infer_instance

def sentTo (machine : MachineID C) (sent : List (MachineID C × ResponseMsg C V)) :
    Multiset (ResponseMsg C V) :=
  (sent.filter fun x => x.1=machine).map Prod.snd

def forwardedTo (c : C) (sent : List (Finset C × RequestMsg (MachineID C) V)) :
    List (RequestMsg (MachineID C) V) :=
  (sent.filter fun x => c∈x.1).map Prod.snd

/-- The network takes what the machines sent. -/
def afterCache (s : System C V) (c : C) (t : L1Cache.Turn C V) : System C V :=
  {s with
    cache := Function.update s.cache c t.cache
    requestToDir := Function.update s.requestToDir c (s.requestToDir c+t.requests)
    responseToCache := fun d => s.responseToCache d+sentTo (.L1Cache d) t.responses
    responseToDir := s.responseToDir+sentTo .Directory t.responses}

def afterDirectory (s : System C V) (t : Directory.Turn C V) : System C V :=
  {s with
    dir := t.dir
    forwardFromDir := fun d => s.forwardFromDir d++forwardedTo d t.forwards
    responseToCache := fun d => s.responseToCache d+sentTo (.L1Cache d) t.responses
    responseToDir := s.responseToDir+sentTo .Directory t.responses
    requestToMemory := s.requestToMemory+t.memory}

/-- The memory answers with its current contents, and acknowledges a write. -/
def memoryStep (s : System C V) (m : MemoryMsg C V) : System C V :=
  let s := {s with requestToMemory := s.requestToMemory.erase m}
  match m.type with
  | .MEMORY_READ =>
    {s with responseFromMemory := ⟨.MEMORY_READ,m.sender,s.memory⟩ ::ₘ s.responseFromMemory}
  | .MEMORY_WB =>
    {s with
      memory := m.dataBlk
      responseFromMemory := ⟨.MEMORY_WB,m.sender,m.dataBlk⟩ ::ₘ s.responseFromMemory}

variable [Inhabited V]

/-- One event. The message is taken from its channel when the transition pops its queue. -/
def step (s : System C V) : Input C V → Except Fault (System C V × List (Callback C V))
  | .mandatory c type cacheAvail write => do
    let event ← (s.cache c).mandatoryIn type cacheAvail
    match event with
    | none => return (s,[])
    | some event =>
      let t ← L1Cache.doTransition c ⟨none,none,cacheAvail,write⟩ event (s.cache c)
      return (s.afterCache c t,t.callbacks)
  | .replacement c => do
    let t ← L1Cache.doTransition c ⟨none,none,false,id⟩ .Replacement (s.cache c)
    return (s.afterCache c t,t.callbacks)
  | .forward c => do
    let m ← L1Cache.orFault (s.forwardFromDir c).head? .noMessage
    let event ← L1Cache.forwardIn m
    let t ← L1Cache.doTransition c ⟨none,some m,false,id⟩ event (s.cache c)
    let rest := if t.popForward then (s.forwardFromDir c).tail else s.forwardFromDir c
    return ({s.afterCache c t with forwardFromDir := Function.update s.forwardFromDir c rest},
      t.callbacks)
  | .response c m write => do
    let event ← (s.cache c).responseIn m
    let t ← L1Cache.doTransition c ⟨some m,none,false,write⟩ event (s.cache c)
    let rest := if t.popResponse then (s.responseToCache c).erase m else s.responseToCache c
    let s := {s with responseToCache := Function.update s.responseToCache c rest}
    return (s.afterCache c t,t.callbacks)
  | .request c m => do
    let event ← s.dir.requestIn m
    let t ← Directory.doTransition ⟨none,none,some m⟩ event s.dir
    let rest := if t.popRequest then (s.requestToDir c).erase m else s.requestToDir c
    return ({s.afterDirectory t with requestToDir := Function.update s.requestToDir c rest},[])
  | .responseToDir m => do
    let event ← Directory.responseIn m
    let t ← Directory.doTransition ⟨none,some m,none⟩ event s.dir
    let rest := if t.popResponse then s.responseToDir.erase m else s.responseToDir
    return (({s with responseToDir := rest} : System C V).afterDirectory t,[])
  | .memoryResponse m => do
    let t ← Directory.doTransition ⟨some m,none,none⟩ (Directory.memQueueIn m) s.dir
    let rest := if t.popMem then s.responseFromMemory.erase m else s.responseFromMemory
    return ({s.afterDirectory t with responseFromMemory := rest},[])
  | .memoryRequest m => return (s.memoryStep m,[])

/-- A run from a memory with content `memory`, with the callbacks so far, the latest first. It
stops at an undefined transition or a failing assertion. -/
inductive Reachable (memory : V) : System C V → List (Callback C V) → Prop where
  | initial : Reachable memory (initial memory) []
  | step {s s' : System C V} {log callbacks : List (Callback C V)} {i : Input C V} :
    Reachable memory s log → s.Deliverable i → s.step i = .ok (s',callbacks) →
      Reachable memory s' (callbacks.reverse++log)

end System

end AquaGem5.Ruby.MSI
