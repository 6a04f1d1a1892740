import AquaGem5.Lib.Lines
import AquaGem5.Ruby.MIExample.System
import Mathlib.Data.Finset.Option

/-!
# What the protocol is doing

A state of the protocol without its messages: each cache is in a phase of a transaction, each DMA
controller in one of a request, the directory in a mode, and the caches that were promised the block wait
in a queue, of which the first one has it or is about to get it. The content of every channel follows.
-/

namespace AquaGem5.Ruby.MIExample
open Succession

/-- Where a cache is in its transaction. A cache that is `queued` is promised the block, one that is
`gone` has passed it on while its `PUTX` was in flight, and one that is `retired` has returned it. -/
inductive Phase (C D V : Type) where
  | idle (stale : Option V)
  | asked (store : Bool) (stale : V)
  | queued (store : Bool) (stale : V)
  | granted (store : Bool) (stale v : V) (source : MachineID C D)
  | modified (v : V)
  | put (v : V)
  | putNacked (v : V)
  | gone (v : V)
  | goneNacked (v : V)
  | retired (v : V)
  | acked (v : V)

inductive Mode (C D B V : Type) where
  | invalid
  | owned
  | fetching (writer : C) (answered : Option V)
  | retiring (source : C) (v : V) (answered : Bool)
  | dmaReading (d : D) (pkt : DMARequest B) (answered : Option V)
  | dmaWriting (d : D) (pkt : DMARequest B) (answered : Bool)
  | recalling (d : D) (pkt : DMARequest B)
  | returning (d : D) (pkt : DMARequest B) (source : C) (v : V) (answered : Bool)

inductive DMAPhase (B V : Type) where
  | ready
  | asked (pkt : DMARequest B)
  | taken (pkt : DMARequest B)
  | answered (pkt : DMARequest B) (v : V)

/-- The phases, the mode of the directory, the queue of caches the block was promised to, the caches with
an invalidation on the way, and the contents of the memory and of the block. -/
structure Protocol (C D : Type) (n : ℕ) (B : Type) where
  phase : C → Phase C D (Block n B)
  dma : D → DMAPhase B (Block n B)
  mode : Mode C D B (Block n B)
  writers : List C
  invalidated : Finset C
  memory : Block n B
  block : Block n B

variable {C D V : Type} {n : ℕ} {B : Type}

namespace Phase

def waiting [Inhabited V] (store : Bool) (stale : V) : L1Cache V :=
  let state := if store then .IM else .IS
  ⟨some ⟨state,stale⟩,some ⟨state,default⟩⟩

def cache [Inhabited V] : Phase C D V → L1Cache V
  | idle stale => ⟨stale.map fun v => ⟨.I,v⟩,none⟩
  | asked store stale => waiting store stale
  | queued store stale => waiting store stale
  | granted store stale _ _ => waiting store stale
  | modified v => ⟨some ⟨.M,v⟩,none⟩
  | put v => ⟨none,some ⟨.MI,v⟩⟩
  | putNacked v => ⟨none,some ⟨.MI,v⟩⟩
  | gone v => ⟨none,some ⟨.II,v⟩⟩
  | goneNacked v => ⟨none,some ⟨.II,v⟩⟩
  | retired v => ⟨none,some ⟨.MI,v⟩⟩
  | acked v => ⟨none,some ⟨.MI,v⟩⟩

def request [Inhabited V] (c : C) : Phase C D V → List (RequestMsg C V)
  | asked _ _ => [⟨.GETX,c,default⟩]
  | put v => [⟨.PUTX,c,v⟩]
  | gone v => [⟨.PUTX,c,v⟩]
  | _ => []

def data [DecidableEq C] [DecidableEq D] (source : MachineID C D) : Phase C D V → List (ResponseMsg C D V)
  | granted _ _ v s => if source=s then [⟨.DATA,s,v⟩] else []
  | _ => []

def ack [Inhabited V] (c : C) : Phase C D V → List (RequestMsg (MachineID C D) V)
  | putNacked _ => [⟨.WB_NACK,.L1Cache c,default⟩]
  | goneNacked _ => [⟨.WB_NACK,.L1Cache c,default⟩]
  | acked _ => [⟨.WB_ACK,.L1Cache c,default⟩]
  | _ => []

@[simp] theorem request_idle [Inhabited V] (c : C) (stale : Option V) : (idle stale : Phase C D V).request c=[] := rfl

@[simp] theorem data_idle [DecidableEq C] [DecidableEq D] (source : MachineID C D) (stale : Option V) :
    (idle stale : Phase C D V).data source=[] := rfl

@[simp] theorem ack_idle [Inhabited V] (c : C) (stale : Option V) : (idle stale : Phase C D V).ack c=[] := rfl

end Phase

def dmaMsg [Inhabited B] (d : D) (pkt : DMARequest B) : DMARequestMsg D (Block n B) :=
  let m : SequencerMsg (Block n B) := DMASequencer.makeRequest pkt
  ⟨if pkt.write then .WRITE else .READ,m.physicalAddress,d,m.dataBlk,m.len⟩

namespace Mode

def dirState : Mode C D B V → Directory.State
  | invalid => .I
  | owned => .M
  | fetching _ _ => .IM
  | retiring _ _ _ => .MI
  | dmaReading _ _ _ => .ID
  | dmaWriting _ _ _ => .ID_W
  | recalling _ pkt => if pkt.write then .M_DWR else .M_DRD
  | returning _ pkt _ _ _ => if pkt.write then .M_DWRI else .M_DRDI

def owns : Mode C D B V → Bool
  | owned => true
  | fetching _ _ => true
  | recalling _ _ => true
  | _ => false

def recalls : Mode C D B V → Bool
  | recalling _ _ => true
  | _ => false

def fetches : Mode C D B V → Option C
  | fetching w _ => some w
  | _ => none

def source : Mode C D B V → Option C
  | retiring c _ _ => some c
  | returning _ _ c _ _ => some c
  | _ => none

def serves : Mode C D B V → Option (D × DMARequest B)
  | dmaReading d pkt _ => some (d,pkt)
  | dmaWriting d pkt _ => some (d,pkt)
  | recalling d pkt => some (d,pkt)
  | returning d pkt _ _ _ => if pkt.write then some (d,pkt) else none
  | _ => none

variable [Inhabited B]

def dmaTBE (state : Directory.State) (d : D) (pkt : DMARequest B) : Directory.TBE D (Block n B) :=
  let m : DMARequestMsg D (Block n B) := dmaMsg d pkt
  ⟨m.physicalAddress,state,m.dataBlk,m.len,some d⟩

def tbe (mode : Mode C D B (Block n B)) : Option (Directory.TBE D (Block n B)) :=
  match mode with
  | invalid => none
  | owned => none
  | fetching _ _ => some ⟨0,.IM,default,0,none⟩
  | retiring _ v _ => some ⟨0,.MI,v,0,none⟩
  | dmaReading d _ _ => some ⟨0,.ID,default,0,some d⟩
  | dmaWriting d pkt _ => some (dmaTBE .ID_W d pkt)
  | recalling d pkt => some (dmaTBE mode.dirState d pkt)
  | returning d pkt _ _ _ => some (dmaTBE mode.dirState d pkt)

def writeback (sender : MachineID C D) (d : D) (pkt : DMARequest B) : MemoryMsg C D (Block n B) :=
  let m : DMARequestMsg D (Block n B) := dmaMsg d pkt
  ⟨.MEMORY_WB,sender,m.dataBlk,m.len⟩

def requestToMemory : Mode C D B (Block n B) → List (MemoryMsg C D (Block n B))
  | fetching w none => [⟨.MEMORY_READ,.L1Cache w,default,0⟩]
  | retiring c v false => [⟨.MEMORY_WB,.L1Cache c,v,0⟩]
  | dmaReading d _ none => [⟨.MEMORY_READ,.DMA d,default,0⟩]
  | dmaWriting d pkt false => [writeback (.DMA d) d pkt]
  | returning d pkt c v false =>
    if pkt.write then [writeback (.L1Cache c) d pkt] else [⟨.MEMORY_WB,.L1Cache c,v,0⟩]
  | _ => []

def responseFromMemory : Mode C D B (Block n B) → List (MemoryMsg C D (Block n B))
  | fetching w (some v) => [⟨.MEMORY_READ,.L1Cache w,v,0⟩]
  | retiring c _ true => [⟨.MEMORY_WB,.L1Cache c,default,0⟩]
  | dmaReading d _ (some v) => [⟨.MEMORY_READ,.DMA d,v,0⟩]
  | dmaWriting d _ true => [⟨.MEMORY_WB,.DMA d,default,0⟩]
  | returning _ _ c _ true => [⟨.MEMORY_WB,.L1Cache c,default,0⟩]
  | _ => []

end Mode

namespace DMAPhase

def current : DMAPhase B V → Option (DMARequest B)
  | ready => none
  | asked pkt => some pkt
  | taken pkt => some pkt
  | answered pkt _ => some pkt

def controller [Inhabited V] (p : DMAPhase B V) : DMA V :=
  ⟨p.current.map fun pkt => ⟨if pkt.write then .BUSY_WR else .BUSY_RD,default⟩⟩

def request [Inhabited B] (d : D) : DMAPhase B (Block n B) → List (DMARequestMsg D (Block n B))
  | asked pkt => [dmaMsg d pkt]
  | _ => []

def response [Inhabited V] : DMAPhase B V → List (DMAResponseMsg V)
  | answered pkt v => if pkt.write then [⟨.ACK,default⟩] else [⟨.DATA,v⟩]
  | _ => []

end DMAPhase

namespace Protocol

section System

variable [DecidableEq C] [Inhabited B]

def owner (g : Protocol C D n B) : Finset C := if g.mode.owns then g.writers.getLast?.toFinset else ∅

def notices (g : Protocol C D n B) (c : C) : List (RequestMsg (MachineID C D) (Block n B)) :=
  (successor g.writers c).toList.map (fun x => ⟨.GETX,.L1Cache x,default⟩) ++
  if c∈g.invalidated then [⟨.INV,.Directory,default⟩] else []

variable [DecidableEq D]

def system (g : Protocol C D n B) : System C D n B where
  cache c := (g.phase c).cache
  dir := ⟨g.mode.dirState,∅,g.owner,g.mode.tbe⟩
  dma d := (g.dma d).controller
  requestToDir c := (g.phase c).request c
  forwardFromDir c := g.notices c++(g.phase c).ack c
  responseToCache source c := (g.phase c).data source
  dmaRequestToDir d := (g.dma d).request d
  dmaResponseFromDir d := (g.dma d).response
  requestToMemory := g.mode.requestToMemory
  responseFromMemory := g.mode.responseFromMemory
  memory := g.memory

end System

def Fits (g : Protocol C D n B) (c : C) : Phase C D (Block n B) → Prop
  | .idle _ => c∉g.writers ∧ g.mode.source≠some c ∧ c∉g.invalidated
  | .asked _ _ => c∉g.writers ∧ g.mode.source≠some c ∧ c∉g.invalidated
  | .queued _ _ => c∈g.writers ∧ (g.writers.head?=some c → g.mode.fetches=some c)
  | .granted _ _ v _ => g.writers.head?=some c ∧ g.mode.fetches=none ∧ v=g.block
  | .modified v => g.writers.head?=some c ∧ g.mode.fetches=none ∧ v=g.block
  | .put v => g.writers.head?=some c ∧ g.mode.fetches=none ∧ v=g.block
  | .putNacked v =>
    g.writers.head?=some c ∧ g.mode.fetches=none ∧ v=g.block ∧ g.writers.getLast?≠some c
  | .gone _ => c∉g.writers ∧ g.mode.source≠some c ∧ c∉g.invalidated
  | .goneNacked _ => c∉g.writers ∧ g.mode.source≠some c ∧ c∉g.invalidated
  | .retired _ => c∉g.writers ∧ g.mode.source=some c
  | .acked _ => c∉g.writers ∧ g.mode.source≠some c

def overlay (pkt : DMARequest B) (v : Block n B) : Block n B :=
  fun i => if pkt.offset ≤ i.val ∧ i.val<pkt.offset+pkt.len then pkt.data (i.val-pkt.offset) else v i

def merged [Inhabited B] (pkt : DMARequest B) (memory : Block n B) : Block n B :=
  let m : SequencerMsg (Block n B) := DMASequencer.makeRequest pkt
  fun i => if i.val<(if 0 < m.len then m.len else n) then m.dataBlk i else memory i

def ModeFits [Inhabited B] (exact : Prop) (g : Protocol C D n B) : Mode C D B (Block n B) → Prop
  | .invalid => g.writers=[] ∧ g.memory=g.block
  | .owned => g.writers≠[]
  | .fetching w answered => g.writers=[w] ∧ g.memory=g.block ∧ ∀ v,answered=some v → v=g.block
  | .retiring _ v answered => g.writers=[] ∧ v=g.block ∧ (answered=true → g.memory=g.block)
  | .dmaReading _ pkt answered =>
    g.writers=[] ∧ pkt.write=false ∧ g.memory=g.block ∧ ∀ v,answered=some v → v=g.block
  | .dmaWriting _ pkt answered =>
    g.writers=[] ∧ pkt.write=true ∧ (answered=false → g.memory=g.block) ∧
      (exact → answered=true → g.memory=overlay pkt g.block)
  | .recalling _ _ => g.writers≠[]
  | .returning _ pkt _ v answered =>
    g.writers=[] ∧ v=g.block ∧ (pkt.write=false → answered=true → g.memory=g.block) ∧
      (exact → pkt.write=true → (if answered then g.memory else merged pkt g.memory)=overlay pkt g.block)

/-- A DMA write that starts with its block, inside of it. -/
def Aligned (n : ℕ) (pkt : DMARequest B) : Prop := pkt.offset=0 ∧ 0<pkt.len ∧ pkt.len≤n

structure Inv [Inhabited B] (exact : Prop) (g : Protocol C D n B) : Prop where
  nodup : g.writers.Nodup
  fits : ∀ c,g.Fits c (g.phase c)
  invalidated : ∀ c∈g.invalidated,c∈g.writers → g.writers.getLast?=some c ∧ g.mode.recalls=true
  mode : g.ModeFits exact g.mode
  serves : ∀ d pkt,g.dma d = .taken pkt ↔ g.mode.serves=some (d,pkt)
  aligned : exact → ∀ d pkt,(g.dma d).current=some pkt → pkt.write=true → Aligned n pkt

def initial (memory : Block n B) : Protocol C D n B := ⟨fun _ => .idle none,fun _ => .ready,.invalid,[],∅,memory,memory⟩

theorem initial_inv [Inhabited B] (exact : Prop) (memory : Block n B) :
    (initial memory : Protocol C D n B).Inv exact where
  nodup := List.nodup_nil
  fits c := by simp [initial,Fits,Mode.source]
  invalidated c h := by simp [initial] at h
  mode := ⟨rfl,rfl⟩
  serves d pkt := by simp [initial,Mode.serves]
  aligned _ d pkt h := by simp [initial,DMAPhase.current] at h

inductive Evolves (exact : Prop) [DecidableEq D] (g : Protocol C D n B) :
    List (Report C D B (Block n B)) → Protocol C D n B → Prop where
  | silent (g' : Protocol C D n B) : g'.block=g.block → g'.dma=g.dma → Evolves exact g [] g'
  | load (g' : Protocol C D n B) (c : C) : g'.block=g.block → g'.dma=g.dma →
    Evolves exact g [.load c g.block] g'
  | store (g' : Protocol C D n B) (c : C) : g'.dma=g.dma → Evolves exact g [.store c g'.block] g'
  | issues (g' : Protocol C D n B) (d : D) (pkt : DMARequest B) : g'.block=g.block →
    g'.dma=Function.update g.dma d (.asked pkt) → Evolves exact g [.issues d pkt] g'
  | takes (g' : Protocol C D n B) (d : D) (pkt : DMARequest B) : g'.block=g.block → g.dma d = .asked pkt →
    g'.dma=Function.update g.dma d (.taken pkt) → Evolves exact g [] g'
  | answers (g' : Protocol C D n B) (d : D) (pkt : DMARequest B) : g'.block=g.block → g.dma d = .taken pkt →
    pkt.write=false → g'.dma=Function.update g.dma d (.answered pkt g.block) →
    Evolves exact g [.answers d g.block] g'
  | writes (g' : Protocol C D n B) (d : D) (pkt : DMARequest B) (v : Block n B) : g.dma d = .taken pkt →
    pkt.write=true → g'.dma=Function.update g.dma d (.answered pkt v) → g'.memory=g'.block →
    (exact → g'.block=overlay pkt g.block) → Evolves exact g [.writes d] g'
  | dataCallback (g' : Protocol C D n B) (d : D) (pkt : DMARequest B) (v : Block n B) : g'.block=g.block →
    g.dma d = .answered pkt v → pkt.write=false → g'.dma=Function.update g.dma d .ready →
    Evolves exact g [.dataCallback d v] g'
  | ackCallback (g' : Protocol C D n B) (d : D) (pkt : DMARequest B) (v : Block n B) : g'.block=g.block →
    g.dma d = .answered pkt v → pkt.write=true → g'.dma=Function.update g.dma d .ready →
    Evolves exact g [.ackCallback d] g'

def Yields [DecidableEq C] [DecidableEq D] [Inhabited B] (exact : Prop) (g : Protocol C D n B)
    (result : Except Fault (System C D n B × List (Report C D B (Block n B)))) : Prop :=
  ∃ (g' : Protocol C D n B) (reports : List (Report C D B (Block n B))),
    result = .ok (g'.system,reports) ∧ g'.Inv exact ∧ Evolves exact g reports g'

end Protocol

end AquaGem5.Ruby.MIExample

/-! ## What a run has reported -/

namespace AquaGem5.Ruby.MIExample

variable {C D : Type} {n : ℕ} {B V : Type} {exact : Prop}

section

variable [DecidableEq D]

def lastIssue (d : D) : List (Report C D B V) → Option (DMARequest B)
  | [] => none
  | .issues x pkt::earlier => if x=d then some pkt else lastIssue d earlier
  | _::earlier => lastIssue d earlier

def Report.concerns (d : D) : Report C D B V → Bool
  | issues x _ => x=d
  | answers x _ => x=d
  | writes x => x=d
  | _ => false

def latest (memory : Block n B) : List (Report C D B (Block n B)) → Block n B
  | [] => memory
  | .store _ v::_ => v
  | .writes d::earlier =>
    match lastIssue d earlier with
    | some pkt => Protocol.overlay pkt (latest memory earlier)
    | none => latest memory earlier
  | _::earlier => latest memory earlier

/-- Loads and DMA reads get the content of the block, and a controller calls back with what the directory
answered to its request. -/
def Told (memory : Block n B) : Report C D B (Block n B) → List (Report C D B (Block n B)) → Prop
  | .load _ v,earlier => v=latest memory earlier
  | .answers _ v,earlier => v=latest memory earlier
  | .dataCallback d v,earlier => earlier.find? (Report.concerns d)=some (.answers d v)
  | .ackCallback d,earlier => earlier.find? (Report.concerns d)=some (.writes d)
  | _,_ => True

end

def Always {R : Type} (p : R → List R → Prop) (log : List R) : Prop :=
  ∀ later r earlier,log=later++r::earlier → p r earlier

theorem Always.nil {R : Type} (p : R → List R → Prop) : Always p [] := by
  intro later r earlier h
  simp at h

theorem Always.cons {R : Type} {p : R → List R → Prop} {log : List R} (h : Always p log) {r : R} (hr : p r log) :
    Always p (r::log) := by
  intro later x earlier hlog
  cases later with
  | nil =>
    obtain ⟨rfl,rfl⟩:=List.cons.inj hlog
    exact hr
  | cons y later => exact h later x earlier (List.cons.inj hlog).2

namespace Protocol

variable [DecidableEq D]

structure Tracks (memory : Block n B) (g : Protocol C D n B) (log : List (Report C D B (Block n B))) : Prop where
  block : latest memory log=g.block
  issued : ∀ d pkt,(g.dma d).current=some pkt → lastIssue d log=some pkt
  answered : ∀ d pkt v,g.dma d = .answered pkt v →
    log.find? (Report.concerns d)=some (if pkt.write then .writes d else .answers d v)
  told : Always (Told memory) log

theorem initial_tracks (memory : Block n B) : Tracks memory (initial memory : Protocol C D n B) [] where
  block := rfl
  issued d pkt h := by simp [initial,DMAPhase.current] at h
  answered d pkt v h := by simp [initial] at h
  told := Always.nil _

variable {memory : Block n B} {g g' : Protocol C D n B} {log : List (Report C D B (Block n B))}
  {reports : List (Report C D B (Block n B))}

theorem Tracks.report (h : Tracks memory g log) (hdma : g'.dma=g.dma) {r : Report C D B (Block n B)}
    (hissue : ∀ d,lastIssue d (r::log)=lastIssue d log) (hconcerns : ∀ d : D,r.concerns d=false)
    (hblock : latest memory (r::log)=g'.block) (htold : Told memory r log) : Tracks memory g' (r::log) where
  block := hblock
  issued d pkt hd := by
    rw [hissue d]
    exact h.issued d pkt (hdma ▸ hd)
  answered d pkt v hd := by
    rw [List.find?_cons_of_neg (by simp [hconcerns d])]
    exact h.answered d pkt v (hdma ▸ hd)
  told := h.told.cons htold

theorem Tracks.proceed (h : Tracks memory g log) {d : D} {p : DMAPhase B (Block n B)}
    (hdma : g'.dma=Function.update g.dma d p) {log' : List (Report C D B (Block n B))}
    (hothers : ∀ x,x≠d → lastIssue x log'=lastIssue x log ∧
      log'.find? (Report.concerns x)=log.find? (Report.concerns x))
    (hissued : ∀ q,p.current=some q → lastIssue d log'=some q) (hanswered : ∀ q v,p = .answered q v →
      log'.find? (Report.concerns d)=some (if q.write then .writes d else .answers d v))
    (hblock : latest memory log'=g'.block) (htold : Always (Told memory) log') : Tracks memory g' log' where
  block := hblock
  issued x q hq := by
    rw [hdma] at hq
    by_cases hx : x=d
    · subst hx
      exact hissued q (by simpa using hq)
    · rw [(hothers x hx).1]
      exact h.issued x q (by simpa [hx] using hq)
  answered x q v hq := by
    rw [hdma] at hq
    by_cases hx : x=d
    · subst hx
      exact hanswered q v (by simpa using hq)
    · rw [(hothers x hx).2]
      exact h.answered x q v (by simpa [hx] using hq)
  told := htold

theorem Evolves.tracks (h : Evolves exact g reports g') (ht : Tracks memory g log) (he : exact ∨ IsEmpty D) :
    Tracks memory g' (reports.reverse++log) := by
  cases h with
  | silent _ hblock hdma =>
    exact ⟨ht.block.trans hblock.symm,fun d pkt hd => ht.issued d pkt (hdma ▸ hd),
      fun d pkt v hd => ht.answered d pkt v (hdma ▸ hd),ht.told⟩
  | load _ c hblock hdma =>
    exact ht.report hdma (fun _ => rfl) (fun _ => rfl) (ht.block.trans hblock.symm) ht.block.symm
  | store _ c hdma => exact ht.report hdma (fun _ => rfl) (fun _ => rfl) rfl trivial
  | issues _ d pkt hblock hdma =>
    refine ht.proceed hdma ?_ ?_ ?_ (ht.block.trans hblock.symm) (ht.told.cons trivial)
    · intro x hx
      simp [lastIssue,Report.concerns,Ne.symm hx]
    · simp [lastIssue,DMAPhase.current]
    · simp
  | takes _ d pkt hblock hd hdma =>
    refine ht.proceed hdma (fun _ _ => ⟨rfl,rfl⟩) ?_ ?_ (ht.block.trans hblock.symm) ht.told
    · exact fun q hq => ht.issued d q (by rw [hd]; exact hq)
    · simp
  | answers _ d pkt hblock hd hw hdma =>
    refine ht.proceed hdma ?_ ?_ ?_ (ht.block.trans hblock.symm) (ht.told.cons ht.block.symm)
    · intro x hx
      simp [lastIssue,Report.concerns,Ne.symm hx]
    · exact fun q hq => ht.issued d q (by rw [hd]; exact hq)
    · intro q v hq
      cases hq
      simp [Report.concerns,hw]
  | writes _ d pkt u hd hw hdma hmemory hexact =>
    have hissue:=ht.issued d pkt (by rw [hd]; rfl)
    have hoverlay:=hexact (he.resolve_right fun hempty => hempty.false d)
    refine ht.proceed hdma ?_ ?_ ?_ ?_ (ht.told.cons trivial)
    · intro x hx
      simp [lastIssue,Report.concerns,Ne.symm hx]
    · exact fun q hq => ht.issued d q (by rw [hd]; exact hq)
    · intro q v hq
      cases hq
      simp [Report.concerns,hw]
    · simp only [List.reverse_singleton,List.singleton_append,latest,hissue,ht.block,hoverlay]
  | dataCallback _ d pkt v hblock hd hw hdma | ackCallback _ d pkt v hblock hd hw hdma =>
    have hanswer:=ht.answered d pkt v hd
    refine ht.proceed hdma (fun x _ => ⟨rfl,by simp [Report.concerns]⟩) ?_ ?_ (ht.block.trans hblock.symm)
      (ht.told.cons (by simpa [Told,hw] using hanswer))
    · simp [DMAPhase.current]
    · simp

end Protocol

end AquaGem5.Ruby.MIExample
