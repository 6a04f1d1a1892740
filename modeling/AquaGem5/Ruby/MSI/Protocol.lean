import Mathlib.Data.Finset.Option
import AquaGem5.Lib.Lines
import AquaGem5.Ruby.MSI.System

/-!
# What the protocol is doing

A state of the protocol without its messages: each cache is in a phase of a transaction, the
directory in a mode, and the caches that were promised the block wait in a queue, of which the
first one has it or collects what it needs. The content of every channel follows from these.
-/

namespace AquaGem5.Ruby.MSI
open Succession

/-- What a cache still holds while it asks for write permission. -/
inductive Copy (V : Type) where
  | current
  | stale (v : V)

inductive Phase (C V : Type) where
  | idle
  | loadAsked
  | loadPending
  | loadAnswered (source : MachineID C)
  | storeAsked (copy : Copy V)
  | storeQueued (copy : Copy V)
  | storeFetching (copy : Copy V) (early : ℕ)
  | storeGranted (copy : Copy V) (acks early : ℕ)
  | storePassed (v : V) (source : C)
  | storeCollecting (copied : Bool) (left : ℕ)
  | shared
  | modified
  | ownerPut
  | ownerAcked
  | ownerGone (v : V)
  | sharerPut (v : V) (dirty : Option V)
  | sharerAcked (v : V)
  | invalidPut (v : V) (dirty : Option V)
  | invalidAcked (v : V)

inductive Mode (C : Type) where
  | invalid
  | shared
  | reading (reader : C) (answered : Bool)
  | fetching (writer : C) (answered : Bool)
  | owned
  | downgrading (reader : C)
  | returning (source : C)
  | sharing (source : C) (answered : Bool)
  | retiring (source : C) (answered : Bool)

/-- The phase of every cache, the mode of the directory, the queue of caches the block was
promised to, the sharers, those still to be invalidated for the first in the queue, the
acknowledgements on the way to it, and the contents of the memory and of the block. -/
structure Protocol (C V : Type) where
  phase : C → Phase C V
  mode : Mode C
  writers : List C
  sharers : Finset C
  invalidated : Finset C
  acks : Multiset (ResponseMsg C V)
  memory : V
  block : V

variable {C V : Type}

namespace Phase

def storing (block : V) (acks : ℤ) : Copy V → L1Cache V
  | .current => ⟨some ⟨.SM_AD,block⟩,some ⟨.SM_AD,acks⟩⟩
  | .stale v => ⟨some ⟨.IM_AD,v⟩,some ⟨.IM_AD,acks⟩⟩

def collecting (block : V) (left : ℤ) : Bool → L1Cache V
  | true => ⟨some ⟨.SM_A,block⟩,some ⟨.SM_A,left⟩⟩
  | false => ⟨some ⟨.IM_A,block⟩,some ⟨.IM_A,left⟩⟩

def loading [Inhabited V] : L1Cache V := ⟨some ⟨.IS_D,default⟩,some ⟨.IS_D,0⟩⟩

def cache [Inhabited V] (block : V) : Phase C V → L1Cache V
  | idle => L1Cache.empty
  | loadAsked => loading
  | loadPending => loading
  | loadAnswered _ => loading
  | storeAsked copy => storing block 0 copy
  | storeQueued copy => storing block 0 copy
  | storeFetching copy early => storing block (-early) copy
  | storeGranted copy _ early => storing block (-early) copy
  | storePassed v _ => storing block 0 (.stale v)
  | storeCollecting copied left => collecting block left copied
  | shared => ⟨some ⟨.S,block⟩,none⟩
  | modified => ⟨some ⟨.M,block⟩,none⟩
  | ownerPut => ⟨some ⟨.MI_A,block⟩,none⟩
  | ownerAcked => ⟨some ⟨.MI_A,block⟩,none⟩
  | ownerGone v => ⟨some ⟨.MI_A,v⟩,none⟩
  | sharerPut v _ => ⟨some ⟨.SI_A,v⟩,none⟩
  | sharerAcked v => ⟨some ⟨.SI_A,v⟩,none⟩
  | invalidPut v _ => ⟨some ⟨.II_A,v⟩,none⟩
  | invalidAcked v => ⟨some ⟨.II_A,v⟩,none⟩

def put [Inhabited V] (c : C) : Option V → RequestMsg C V
  | none => ⟨.PutS,c,default⟩
  | some v => ⟨.PutM,c,v⟩

def request [Inhabited V] (c : C) (block : V) : Phase C V → Multiset (RequestMsg C V)
  | loadAsked => {⟨.GetS,c,default⟩}
  | storeAsked _ => {⟨.GetM,c,default⟩}
  | ownerPut => {⟨.PutM,c,block⟩}
  | sharerPut _ dirty => {put c dirty}
  | invalidPut _ dirty => {put c dirty}
  | _ => 0

def data (block : V) : Phase C V → Multiset (ResponseMsg C V)
  | loadAnswered source => {⟨.Data,source,block,0⟩}
  | storeGranted _ acks _ => {⟨.Data,.Directory,block,acks⟩}
  | storePassed _ source => {⟨.Data,.L1Cache source,block,0⟩}
  | _ => 0

def acked : Phase C V → Bool
  | ownerAcked => true
  | ownerGone _ => true
  | sharerAcked _ => true
  | invalidAcked _ => true
  | _ => false

end Phase

namespace Mode

def dirState : Mode C → Directory.State
  | invalid => .I
  | shared => .S
  | reading _ _ => .S_m
  | fetching _ _ => .M_m
  | owned => .M
  | downgrading _ => .S_D
  | returning _ => .S_D
  | sharing _ _ => .SS_m
  | retiring _ _ => .MI_m

def downgrade : Mode C → Option C
  | downgrading r => some r
  | _ => none

def reader : Mode C → Option C
  | reading r _ => some r
  | downgrading r => some r
  | _ => none

def fetches : Mode C → Option C
  | fetching w _ => some w
  | _ => none

def owns : Mode C → Bool
  | fetching _ _ => true
  | owned => true
  | _ => false

def requestToMemory [Inhabited V] (block : V) : Mode C → Multiset (MemoryMsg C V)
  | reading r false => {⟨.MEMORY_READ,.L1Cache r,default⟩}
  | fetching w false => {⟨.MEMORY_READ,.L1Cache w,default⟩}
  | sharing c false => {⟨.MEMORY_WB,.L1Cache c,block⟩}
  | retiring c false => {⟨.MEMORY_WB,.L1Cache c,block⟩}
  | _ => 0

def responseFromMemory (block : V) : Mode C → Multiset (MemoryMsg C V)
  | reading r true => {⟨.MEMORY_READ,.L1Cache r,block⟩}
  | fetching w true => {⟨.MEMORY_READ,.L1Cache w,block⟩}
  | sharing c true => {⟨.MEMORY_WB,.L1Cache c,block⟩}
  | retiring c true => {⟨.MEMORY_WB,.L1Cache c,block⟩}
  | _ => 0

def responseToDir (block : V) : Mode C → Multiset (ResponseMsg C V)
  | returning source => {⟨.Data,.L1Cache source,block,0⟩}
  | _ => 0

end Mode

def forwarded [Inhabited V] (type : CoherenceRequestType) (c : C) : RequestMsg (MachineID C) V :=
  ⟨type,.L1Cache c,default⟩

def putAck [Inhabited V] : RequestMsg (MachineID C) V := ⟨.PutAck,.Directory,default⟩

namespace Protocol

def Closing (g : Protocol C V) (c : C) : Prop :=
  g.writers.getLast?=some c ∧ g.mode.downgrade≠none

section System

variable [DecidableEq C] [Inhabited V]

def owner (g : Protocol C V) : Finset C := if g.mode.owns then g.writers.getLast?.toFinset else ∅

/-- The forward queue of a cache: an invalidation, the forwarded request of its successor or of a
reader, and the acknowledgement of its eviction, each at most once and in this order. -/
def forwards (g : Protocol C V) (c : C) : List (RequestMsg (MachineID C) V) :=
  (if c∈g.invalidated then g.writers.head?.toList.map (forwarded .Inv) else []) ++
  ((successor g.writers c).toList.map (forwarded .GetM) ++
  ((if g.writers.getLast?=some c then g.mode.downgrade.toList.map (forwarded .GetS) else []) ++
  if (g.phase c).acked then [putAck] else []))

def system (g : Protocol C V) : System C V where
  cache c := (g.phase c).cache g.block
  dir := ⟨g.mode.dirState,g.sharers,g.owner⟩
  requestToDir c := (g.phase c).request c g.block
  forwardFromDir := g.forwards
  responseToCache c := (g.phase c).data g.block+if g.writers.head?=some c then g.acks else 0
  responseToDir := g.mode.responseToDir g.block
  requestToMemory := g.mode.requestToMemory g.block
  responseFromMemory := g.mode.responseFromMemory g.block
  memory := g.memory

variable {g : Protocol C V} {mode : Mode C}

theorem system_dir (hq : g.mode=mode) : g.system.dir=⟨mode.dirState,g.sharers,g.owner⟩ := by
  subst hq
  rfl

omit [DecidableEq C] [Inhabited V]

theorem owner_none (hq : g.mode=mode) (howns : mode.owns=false) : g.owner = ∅ := by
  subst hq
  rw [owner,howns]
  rfl

theorem owner_last {l : C} (hq : g.mode=mode) (howns : mode.owns=true) (hl : g.writers.getLast?=some l) :
    g.owner={l} := by
  subst hq
  rw [owner,if_pos howns,hl]
  rfl

end System

structure Place where
  queued : Prop
  head : Prop
  sharer : Prop
  invalidated : Prop
  forwarded : Prop
  closing : Prop
  reading : Prop
  fetching : Prop

def place [DecidableEq C] (g : Protocol C V) (c : C) : Place where
  queued := c∈g.writers
  head := g.writers.head?=some c
  sharer := c∈g.sharers ∧ g.mode.fetches=none
  invalidated := c∈g.invalidated
  forwarded := successor g.writers c≠none ∨ g.Closing c
  closing := g.Closing c
  reading := g.mode.reader=some c
  fetching := g.mode.fetches=some c

end Protocol

inductive Role where
  | absent | reader | sharer | waiting (current : Bool) | fetching | owner | retired | dropped

def Phase.role : Phase C V → Role
  | idle => .absent
  | loadAsked => .absent
  | loadPending => .reader
  | loadAnswered _ => .sharer
  | storeAsked .current => .sharer
  | storeAsked (.stale _) => .absent
  | storeQueued .current => .waiting true
  | storeQueued (.stale _) => .waiting false
  | storeFetching _ _ => .fetching
  | storeGranted _ _ _ => .owner
  | storePassed _ _ => .owner
  | storeCollecting _ _ => .owner
  | shared => .sharer
  | modified => .owner
  | ownerPut => .owner
  | ownerAcked => .retired
  | ownerGone _ => .absent
  | sharerPut _ _ => .sharer
  | sharerAcked _ => .dropped
  | invalidPut _ _ => .absent
  | invalidAcked _ => .absent

def Role.Fits (p : Protocol.Place) : Role → Prop
  | absent => ¬p.queued ∧ ¬p.sharer ∧ ¬p.invalidated ∧ ¬p.reading
  | reader => ¬p.queued ∧ p.sharer ∧ ¬p.invalidated ∧ p.reading
  | sharer => ¬p.queued ∧ (p.sharer ↔ ¬p.invalidated) ∧ ¬p.reading
  | waiting current =>
    p.queued ∧ ¬p.head ∧ (p.invalidated ↔ current=true) ∧ ¬p.reading ∧ (p.closing → p.sharer)
  | fetching => p.head ∧ p.fetching ∧ ¬p.invalidated ∧ ¬p.reading
  | owner => p.head ∧ ¬p.fetching ∧ ¬p.invalidated ∧ ¬p.reading ∧ (p.closing → p.sharer)
  | retired => p.head ∧ ¬p.fetching ∧ ¬p.invalidated ∧ ¬p.reading ∧ ¬p.sharer ∧ p.forwarded
  | dropped => ¬p.queued ∧ ¬p.sharer ∧ ¬p.reading

def Phase.Awaits (sharers pending : ℕ) : Phase C V → Prop
  | storeFetching _ early => sharers=pending+early
  | storeGranted _ acks early => acks=pending+early
  | storeCollecting _ left => left=pending ∧ 0<left
  | _ => pending=0

namespace Protocol

variable [DecidableEq C]

def pending (g : Protocol C V) : ℕ := g.invalidated.card+Multiset.card g.acks

def ModeFits (g : Protocol C V) : Mode C → Prop
  | .invalid => g.writers=[] ∧ g.sharers = ∅ ∧ g.memory=g.block
  | .shared => g.writers=[] ∧ g.memory=g.block
  | .reading _ _ => g.writers=[] ∧ g.memory=g.block
  | .fetching w _ => g.writers=[w] ∧ g.memory=g.block
  | .owned => g.writers≠[] ∧ g.sharers = ∅
  | .downgrading r => g.writers≠[] ∧ ∀ x∈g.sharers, x=r ∨ g.writers.getLast?=some x
  | .returning _ => g.writers=[]
  | .sharing _ answered => g.writers=[] ∧ (answered=true → g.memory=g.block)
  | .retiring _ answered =>
    g.writers=[] ∧ g.sharers = ∅ ∧ (answered=true → g.memory=g.block)

structure Inv (g : Protocol C V) : Prop where
  nodup : g.writers.Nodup
  places : ∀ c, (g.phase c).role.Fits (g.place c)
  first : ∀ c, g.writers.head?=some c → (g.phase c).Awaits g.sharers.card g.pending
  nobody : g.writers=[] → g.invalidated = ∅ ∧ g.acks=0
  acks : ∀ m∈g.acks, m.type = .InvAck ∧ m.sender ≠ .Directory
  mode : g.ModeFits g.mode

def initial (memory : V) : Protocol C V := ⟨fun _ => .idle,.invalid,[],∅,∅,0,memory,memory⟩

theorem initial_inv (memory : V) : (initial memory : Protocol C V).Inv where
  nodup := List.nodup_nil
  places c := by simp [initial,Phase.role,Role.Fits,place,Mode.reader]
  first c h := by simp [initial] at h
  nobody _ := ⟨rfl,rfl⟩
  acks m h := by simp [initial] at h
  mode := ⟨rfl,rfl,rfl⟩

end Protocol

end AquaGem5.Ruby.MSI
