import AquaGem5.Cache.Packet
import AquaGem5.Lib.Since

/-!
# The functional memory (abstract_mem.hh, abstract_mem.cc)

The host memory is known by the offset from its first byte, and a null memory has none.
-/

namespace AquaGem5.Memory
open Address
open Cache (MemCmd)

abbrev Byte := BitVec 8

/-- Of a packet and its request, what `access` reads. An empty byte enable of the request
enables every byte, and a load-linked or store-conditional comes from a context. -/
structure Packet where
  cmd : MemCmd
  addr : Addr
  size : ℕ
  data : Fin size → Byte
  byteEnable : Fin size → Bool
  contextId : Option ℕ
  extraData : Option (BitVec 64)
  atomicOp : Option ((Fin size → Byte) → Fin size → Byte)
  isCondSwap : Bool
  isInstFetch : Bool
  cacheResponding : Bool
  linked : cmd.testCmdAttrib .isLlsc=true → contextId.isSome=true

namespace Packet

variable (pkt : Packet)

def isRead : Bool := pkt.cmd.testCmdAttrib .isRead

def isWrite : Bool := pkt.cmd.testCmdAttrib .isWrite

def isLLSC : Bool := pkt.cmd.testCmdAttrib .isLlsc

def isInvalidate : Bool := pkt.cmd.testCmdAttrib .isInvalidate

def isClean : Bool := pkt.cmd.testCmdAttrib .isClean

def fromCache : Bool := pkt.cmd.testCmdAttrib .fromCache

def needsResponse : Bool := pkt.cmd.testCmdAttrib .needsResponse

def isMaskedWrite : Bool := decide (pkt.cmd = .writeReq ∧ ∃ i, pkt.byteEnable i=false)

def enabled (i : Fin pkt.size) : Bool := !pkt.isMaskedWrite || pkt.byteEnable i

def getAddrRange : AddrRange := AddrRange.rangeSize pkt.addr (BitVec.ofNat 64 pkt.size)

def makeResponse : Packet :=
  {pkt with
    cmd := pkt.cmd.responseCommand
    linked := fun h => pkt.linked (by
      rcases pkt with ⟨c,_,_,_,_,_,_,_,_,_,_,_⟩
      cases c <;> first | rfl | cases h)}

end Packet

structure LockedAddr where
  addr : Addr
  contextId : ℕ
  deriving DecidableEq

namespace LockedAddr

def mask (paddr : Addr) : Addr := paddr &&& ~~~15

def matchesContext (l : LockedAddr) (pkt : Packet) : Bool := decide (pkt.contextId=some l.contextId)

end LockedAddr

structure AbstractMemory where
  range : AddrRange
  pmem : Option (Addr → Byte)
  lockedAddrList : List LockedAddr

namespace AbstractMemory

def load (mem : Addr → Byte) (host : Addr) (n : ℕ) : Fin n → Byte := fun i => mem (host+BitVec.ofNat 64 i)

def store (mem : Addr → Byte) (host : Addr) {n : ℕ} (data : Fin n → Byte) (enabled : Fin n → Bool) : Addr → Byte :=
  fun a => if h : (a-host).toNat<n then
      if enabled ⟨(a-host).toNat,h⟩ then data ⟨(a-host).toNat,h⟩ else mem a
    else mem a

def modifyRecord (c : ℕ) (paddr : Addr) : List LockedAddr → Option (List LockedAddr)
  | [] => none
  | l::ls => if l.contextId=c then some ({l with addr := paddr}::ls) else (modifyRecord c paddr ls).map (l::·)

variable (m : AbstractMemory) (pkt : Packet)

def toHostAddr (a : Addr) : Addr := a-m.range._start

def trackLoadLocked : Except Fault AbstractMemory :=
  match pkt.contextId with
  | none => .error .assertion
  | some c =>
    let paddr := LockedAddr.mask pkt.addr
    .ok {m with lockedAddrList := (modifyRecord c paddr m.lockedAddrList).getD (⟨paddr,c⟩::m.lockedAddrList)}

/-- Whether the store may be done, and the memory without the records that it ends. -/
def checkLockedAddrList : Bool × AbstractMemory :=
  let paddr := LockedAddr.mask pkt.addr
  let allowStore := !pkt.isLLSC || m.lockedAddrList.any fun l => decide (l.addr=paddr)&&l.matchesContext pkt
  (allowStore,
    if allowStore then {m with lockedAddrList := m.lockedAddrList.filter fun l => decide (l.addr≠paddr)} else m)

def writeOK : Bool × AbstractMemory :=
  if m.lockedAddrList.isEmpty then (!pkt.isLLSC,m) else m.checkLockedAddrList pkt

def storeResult : Option (BitVec 64) :=
  if pkt.isLLSC then some (if (m.writeOK pkt).1 then 1 else 0) else pkt.extraData

/-- Whether the host bytes equal the extra data, the lowest byte first. -/
def memcmp (mem : Addr → Byte) : Except Fault Bool :=
  match pkt.extraData with
  | none => .error .assertion
  | some x => .ok (decide (∀ i : Fin pkt.size, x.extractLsb' (8*i) 8=load mem (m.toHostAddr pkt.addr) pkt.size i))

def overwriteMem (mem : Addr → Byte) : Except Fault Bool :=
  if !pkt.isCondSwap then .ok true
  else if pkt.size=8 ∨ pkt.size=4 then m.memcmp pkt mem
  else .error .panic

def swapAccess : Except Fault (AbstractMemory × Packet) :=
  let host := m.toHostAddr pkt.addr
  match pkt.atomicOp,m.pmem with
  | some _,none => .ok (m,pkt)
  | some op,some mem =>
    let old := load mem host pkt.size
    .ok ({m with pmem := some (store mem host (op old) fun _ => true)},{pkt with data := old})
  | none,none => .error .panic
  | none,some mem =>
    match m.overwriteMem pkt mem with
    | .error e => .error e
    | .ok overwrite =>
      if pkt.isInstFetch then .error .assertion
      else .ok (if overwrite then {m with pmem := some (store mem host pkt.data fun _ => true)} else m,
        {pkt with data := load mem host pkt.size})

/-- The data of a read is that of the memory, if it has any. -/
def readData : Packet :=
  match m.pmem with
  | none => pkt
  | some mem => {pkt with data := load mem (m.toHostAddr pkt.addr) pkt.size}

def readAccess : Except Fault (AbstractMemory × Packet) :=
  if pkt.isWrite then .error .assertion
  else if pkt.isLLSC then
    if pkt.fromCache then .error .assertion
    else (m.trackLoadLocked pkt).map fun m' => (m',m.readData pkt)
  else .ok (m,m.readData pkt)

def writeAccess : Except Fault (AbstractMemory × Packet) :=
  if (m.writeOK pkt).1 then
    if pkt.isInstFetch then .error .assertion
    else .ok ({(m.writeOK pkt).2 with
        pmem := m.pmem.map fun mem => store mem (m.toHostAddr pkt.addr) pkt.data pkt.enabled},
      {pkt with extraData := m.storeResult pkt})
  else .ok ((m.writeOK pkt).2,{pkt with extraData := m.storeResult pkt})

def dispatch : Except Fault (AbstractMemory × Packet) :=
  if pkt.cmd = .swapReq then m.swapAccess pkt
  else if pkt.isRead then m.readAccess pkt
  else if pkt.isInvalidate || pkt.isClean then
    if pkt.isWrite then .error .assertion else .ok (m,pkt)
  else if pkt.isWrite then m.writeAccess pkt
  else .error .panic

def access : Except Fault (AbstractMemory × Packet) :=
  if pkt.cacheResponding then .ok (m,pkt)
  else if pkt.cmd = .cleanEvict ∨ pkt.cmd = .writebackClean then .ok (m,pkt)
  else if pkt.getAddrRange.isSubset m.range ≠ .ok true then .error .assertion
  else (m.dispatch pkt).map fun r => (r.1,if r.2.needsResponse then r.2.makeResponse else r.2)

end AbstractMemory

/-!
## Load-linked and store-conditional in the functional memory

A record is erased only by a store, and only if the store starts in its granule.
-/

open History List

def Packet.Touches (pkt : Packet) (granule : Addr) : Prop :=
  ∃ i, pkt.enabled i=true ∧ LockedAddr.mask (pkt.addr+BitVec.ofNat 64 i)=granule

structure Event where
  pkt : Packet
  wrote : Bool

def Packet.served (pkt : Packet) : Bool :=
  !pkt.cacheResponding&&decide (pkt.cmd ≠ .cleanEvict ∧ pkt.cmd ≠ .writebackClean)

def Event.LoadLinked (c : ℕ) (e : Event) : Prop :=
  e.pkt.served=true ∧ e.pkt.isRead=true ∧ e.pkt.isLLSC=true ∧ e.pkt.contextId=some c

def Event.Writes (granule : Addr) (e : Event) : Prop := e.wrote=true ∧ e.pkt.Touches granule

/-- The last load-linked of the context was to the granule, and nothing has written to it since. -/
def Reserved (h : List Event) (granule : Addr) (c : ℕ) : Prop :=
  Since (fun e => e.LoadLinked c ∧ LockedAddr.mask e.pkt.addr=granule)
    (fun e => e.LoadLinked c ∨ e.Writes granule) h

namespace AbstractMemory

variable (m : AbstractMemory) (pkt : Packet)

/-- Whether the access writes: a swap whose condition holds, an atomic operation, a plain store or a
store-conditional that succeeds. -/
def performs : Bool :=
  pkt.served &&
    if pkt.cmd = .swapReq then
      match m.pmem with
      | none => false
      | some mem => pkt.atomicOp.isSome || decide (m.overwriteMem pkt mem = .ok true)
    else !pkt.isRead && !(pkt.isInvalidate || pkt.isClean)&&(m.writeOK pkt).1

/-- If the packet writes, then in the granules of the records it is a store that starts there and
writes there. -/
def Confined : Prop :=
  m.performs pkt=true → ∀ l∈m.lockedAddrList,
    (pkt.Touches l.addr ↔ pkt.cmd ≠ .swapReq ∧ l.addr=LockedAddr.mask pkt.addr)

inductive Run (Meets : AbstractMemory → Packet → Prop) (m0 : AbstractMemory) : AbstractMemory → List Event → Prop
  | start : Run Meets m0 m0 []
  | access {m m' : AbstractMemory} {h : List Event} {pkt pkt' : Packet} (hr : Run Meets m0 m h)
      (hm : Meets m pkt) (ha : m.access pkt = .ok (m',pkt')) : Run Meets m0 m' (h++[⟨pkt,m.performs pkt⟩])

theorem mem_modifyRecord {c : ℕ} {paddr : Addr} {ls ms : List LockedAddr} (hn : (ls.map (·.contextId)).Nodup)
    (h : modifyRecord c paddr ls=some ms) : ms.map (·.contextId)=ls.map (·.contextId) ∧
      ∀ l, l∈ms ↔ l=⟨paddr,c⟩ ∨ (l∈ls ∧ l.contextId≠c) := by
  induction ls generalizing ms with
  | nil => cases h
  | cons x xs ih =>
    rw [map_cons,nodup_cons] at hn
    rw [modifyRecord] at h
    split at h
    case isTrue hx =>
      cases h
      refine ⟨by rw [map_cons,map_cons],fun l => ?_⟩
      have hrest : ∀ y∈xs, y.contextId≠c := fun y hy hc => hn.1 (hx ▸ hc ▸ mem_map_of_mem hy)
      rw [mem_cons,mem_cons,← hx]
      constructor
      · intro hl
        rcases hl with rfl | hl
        · exact .inl rfl
        · exact .inr ⟨.inr hl,hx ▸ hrest l hl⟩
      · intro hl
        rcases hl with rfl | ⟨rfl | hl,hne⟩
        · exact .inl rfl
        · exact (hne rfl).elim
        · exact .inr hl
    case isFalse hx =>
      obtain ⟨ys,hys,rfl⟩:=Option.map_eq_some_iff.mp h
      obtain ⟨hmap,hmem⟩:=ih hn.2 hys
      refine ⟨by rw [map_cons,map_cons,hmap],fun l => ?_⟩
      rw [mem_cons,mem_cons,hmem]
      constructor
      · intro hl
        rcases hl with rfl | rfl | ⟨hl,hc⟩
        · exact .inr ⟨.inl rfl,hx⟩
        · exact .inl rfl
        · exact .inr ⟨.inr hl,hc⟩
      · intro hl
        rcases hl with rfl | ⟨rfl | hl,hc⟩
        · exact .inr (.inl rfl)
        · exact .inl rfl
        · exact .inr (.inr ⟨hl,hc⟩)

theorem modifyRecord_none {c : ℕ} {paddr : Addr} {ls : List LockedAddr} (h : modifyRecord c paddr ls=none) :
    c∉ls.map (·.contextId) := by
  induction ls with
  | nil => exact not_mem_nil
  | cons x xs ih =>
    rw [modifyRecord] at h
    split at h
    case isTrue => cases h
    case isFalse hx =>
      rw [map_cons,mem_cons]
      intro hc
      rcases hc with rfl | hc
      · exact hx rfl
      · exact ih (Option.map_eq_none_iff.mp h) hc

theorem mem_trackLoadLocked {m m' : AbstractMemory} {pkt : Packet} (hn : (m.lockedAddrList.map (·.contextId)).Nodup)
    (h : m.trackLoadLocked pkt = .ok m') : (m'.lockedAddrList.map (·.contextId)).Nodup ∧ ∃ c, pkt.contextId=some c ∧
      ∀ l, l∈m'.lockedAddrList ↔ l=⟨LockedAddr.mask pkt.addr,c⟩ ∨ (l∈m.lockedAddrList ∧ l.contextId≠c) := by
  rw [trackLoadLocked] at h
  cases hc : pkt.contextId with
  | none =>
    rw [hc] at h
    cases h
  | some c =>
    rw [hc] at h
    cases h
    cases hm : modifyRecord c (LockedAddr.mask pkt.addr) m.lockedAddrList with
    | some ms =>
      obtain ⟨hmap,hmem⟩:=mem_modifyRecord hn hm
      exact ⟨by rw [Option.getD_some,hmap]; exact hn,c,rfl,hmem⟩
    | none =>
      have hnew:=modifyRecord_none hm
      refine ⟨nodup_cons.mpr ⟨hnew,hn⟩,c,rfl,fun l => ?_⟩
      rw [Option.getD_none,mem_cons]
      refine or_congr_right (iff_self_and.mpr fun hl he => hnew (he ▸ mem_map_of_mem hl))

theorem mem_writeOK (l : LockedAddr) : l∈(m.writeOK pkt).2.lockedAddrList ↔
      l∈m.lockedAddrList ∧ ¬((m.writeOK pkt).1=true ∧ l.addr=LockedAddr.mask pkt.addr) := by
  rw [writeOK]
  split
  case isTrue h => simp [isEmpty_iff.mp h]
  case isFalse h =>
    rw [checkLockedAddrList]
    split
    case isTrue ha => simp [ha,mem_filter]
    case isFalse ha => simp [ha]

theorem writeOK_sublist : (m.writeOK pkt).2.lockedAddrList.Sublist m.lockedAddrList := by
  rw [writeOK]
  split
  · exact Sublist.refl _
  · rw [checkLockedAddrList]
    split
    · exact filter_sublist
    · exact Sublist.refl _

inductive Effect (m m' : AbstractMemory) (pkt : Packet) : Prop
  | loadLinked (hs : pkt.served=true) (hr : pkt.isRead=true) (hl : pkt.isLLSC=true)
      (ht : m.trackLoadLocked pkt = .ok m') (hp : m.performs pkt=false)
  | store (hr : pkt.isRead=false) (hc : pkt.cmd ≠ .swapReq) (hp : m.performs pkt=(m.writeOK pkt).1)
      (hl : m'.lockedAddrList=(m.writeOK pkt).2.lockedAddrList)
  | other (hl : m'.lockedAddrList=m.lockedAddrList) (hp : m.performs pkt=true → pkt.cmd = .swapReq)
      (hn : ¬(pkt.served=true ∧ pkt.isRead=true ∧ pkt.isLLSC=true))

variable {m m' : AbstractMemory} {pkt pkt' : Packet}

theorem swapAccess_effect (h : m.swapAccess pkt = .ok (m',pkt')) : m'.lockedAddrList=m.lockedAddrList := by
  rw [swapAccess] at h
  cases ho : pkt.atomicOp with
  | some op =>
    cases hm : m.pmem with
    | none | some mem =>
      simp only [ho,hm] at h
      cases h
      rfl
  | none =>
    cases hm : m.pmem with
    | none =>
      simp only [ho,hm] at h
      cases h
    | some mem =>
      simp only [ho,hm] at h
      cases hw : m.overwriteMem pkt mem with
      | error e =>
        rw [hw] at h
        cases h
      | ok overwrite =>
        simp only [hw] at h
        split at h
        · cases h
        · cases h
          cases overwrite <;> rfl

theorem readAccess_effect (h : m.readAccess pkt = .ok (m',pkt')) :
    if pkt.isLLSC then m.trackLoadLocked pkt = .ok m' else m'=m := by
  rw [readAccess] at h
  split at h
  · cases h
  · split at h
    case isTrue hl =>
      rw [if_pos hl]
      split at h
      · cases h
      · cases ht : m.trackLoadLocked pkt with
        | error e =>
          rw [ht] at h
          cases h
        | ok m1 =>
          rw [ht] at h
          cases h
          rfl
    case isFalse hl =>
      rw [if_neg hl]
      cases h
      rfl

theorem writeAccess_effect (h : m.writeAccess pkt = .ok (m',pkt')) :
    m'.lockedAddrList=(m.writeOK pkt).2.lockedAddrList ∧ pkt'.extraData=m.storeResult pkt := by
  rw [writeAccess] at h
  split at h
  · split at h
    · cases h
    · cases h
      exact ⟨rfl,rfl⟩
  · cases h
    exact ⟨rfl,rfl⟩

theorem served_true : pkt.served=true ↔
    ¬pkt.cacheResponding=true ∧ ¬(pkt.cmd = .cleanEvict ∨ pkt.cmd = .writebackClean) := by
  rw [Packet.served,Bool.and_eq_true,Bool.not_eq_true',decide_eq_true_eq,not_or,Bool.not_eq_true]

theorem dispatch_effect (hs : pkt.served=true) (h : m.dispatch pkt = .ok (m',pkt')) : Effect m m' pkt := by
  have hp : m.performs pkt=if pkt.cmd = .swapReq then
      match m.pmem with
      | none => false
      | some mem => pkt.atomicOp.isSome || decide (m.overwriteMem pkt mem = .ok true)
    else !pkt.isRead && !(pkt.isInvalidate || pkt.isClean)&&(m.writeOK pkt).1 := by
    rw [performs,hs,Bool.true_and]
  rw [dispatch] at h
  split at h
  case isTrue hc =>
    refine .other (swapAccess_effect h) (fun _ => hc) fun ⟨_,_,hl⟩ => ?_
    rw [Packet.isLLSC,hc] at hl
    cases hl
  case isFalse hc =>
    rw [if_neg hc] at hp
    split at h
    case isTrue hr =>
      rw [hr,Bool.not_true,Bool.false_and,Bool.false_and] at hp
      have ht:=readAccess_effect h
      split at ht
      case isTrue hl => exact .loadLinked hs hr hl ht hp
      case isFalse hl =>
        refine .other (by rw [ht]) (fun hw => ?_) fun hn => hl hn.2.2
        rw [hp] at hw
        cases hw
    case isFalse hr =>
      rw [Bool.not_eq_true] at hr
      rw [hr,Bool.not_false,Bool.true_and] at hp
      split at h
      case isTrue hi =>
        rw [hi,Bool.not_true,Bool.false_and] at hp
        split at h
        · cases h
        · cases h
          refine .other rfl (fun hw => ?_) fun hn => ?_
          · rw [hp] at hw
            cases hw
          · rw [hr] at hn
            cases hn.2.1
      case isFalse hi =>
        rw [Bool.not_eq_true] at hi
        rw [hi,Bool.not_false,Bool.true_and] at hp
        split at h
        · exact .store hr hc hp (writeAccess_effect h).1
        · cases h

theorem access_effect (h : m.access pkt = .ok (m',pkt')) : Effect m m' pkt := by
  by_cases hs : pkt.served=true
  · obtain ⟨h1,h2⟩:=served_true.mp hs
    rw [access,if_neg h1,if_neg h2] at h
    split at h
    · cases h
    · cases hd : m.dispatch pkt with
      | error e =>
        rw [hd] at h
        cases h
      | ok r =>
        rw [hd] at h
        cases h
        exact dispatch_effect hs hd
  · have hm : m'=m := by
      rw [access] at h
      split at h
      case isTrue => exact (Prod.ext_iff.mp (Except.ok.inj h)).1.symm
      case isFalse h1 =>
        split at h
        case isTrue => exact (Prod.ext_iff.mp (Except.ok.inj h)).1.symm
        case isFalse h2 => exact (hs (served_true.mpr ⟨h1,h2⟩)).elim
    refine .other (by rw [hm]) (fun hw => ?_) fun hn => hs hn.1
    rw [performs,Bool.not_eq_true _ |>.mp hs,Bool.false_and] at hw
    cases hw

theorem mem_access (hn : (m.lockedAddrList.map (·.contextId)).Nodup) (hc : m.Confined pkt)
    (h : m.access pkt = .ok (m',pkt')) :
    (m'.lockedAddrList.map (·.contextId)).Nodup ∧ ∀ g c, ⟨g,c⟩∈m'.lockedAddrList ↔
      (Event.LoadLinked c ⟨pkt,m.performs pkt⟩ ∧ LockedAddr.mask pkt.addr=g) ∨ (⟨g,c⟩∈m.lockedAddrList ∧
          ¬(Event.LoadLinked c ⟨pkt,m.performs pkt⟩ ∨ Event.Writes g ⟨pkt,m.performs pkt⟩)) := by
  cases access_effect h with
  | loadLinked hs hr hl ht hp =>
    obtain ⟨hnodup,c1,hc1,hmem⟩:=mem_trackLoadLocked hn ht
    refine ⟨hnodup,fun g c => ?_⟩
    have hload : Event.LoadLinked c ⟨pkt,m.performs pkt⟩ ↔ c1=c := by
      rw [Event.LoadLinked,hc1,Option.some_inj]
      exact ⟨fun h => h.2.2.2,fun h => ⟨hs,hr,hl,h⟩⟩
    have hwrites : ¬Event.Writes g ⟨pkt,m.performs pkt⟩ := fun hw => by
      rw [Event.Writes,hp] at hw
      exact Bool.false_ne_true hw.1
    rw [hmem,hload,or_iff_left hwrites,LockedAddr.mk.injEq,and_comm (a := c1=c),eq_comm (b := g),
      eq_comm (b := c)]
  | store hr hne hp hl =>
    refine ⟨hl ▸ hn.sublist ((writeOK_sublist m pkt).map _),fun g c => ?_⟩
    have hload : ¬Event.LoadLinked c ⟨pkt,m.performs pkt⟩ := fun hl => by
      rw [Event.LoadLinked,hr] at hl
      cases hl.2.1
    rw [hl,mem_writeOK,or_iff_right (fun h => hload h.1),or_iff_right hload,Event.Writes,hp]
    refine and_congr_right fun hg => not_congr (and_congr_right fun hw => ?_)
    rw [hc (hp.trans hw) ⟨g,c⟩ hg]
    exact (and_iff_right hne).symm
  | other hl hp hno =>
    refine ⟨hl ▸ hn,fun g c => ?_⟩
    have hload : ¬Event.LoadLinked c ⟨pkt,m.performs pkt⟩ := fun h => hno ⟨h.1,h.2.1,h.2.2.1⟩
    rw [hl,or_iff_right (fun h => hload h.1),or_iff_right hload]
    refine (and_iff_left_of_imp fun hg hw => ?_).symm
    exact ((hc hw.1 ⟨g,c⟩ hg).mp hw.2).1 (hp hw.1)

variable {m0 : AbstractMemory} {h : List Event}

theorem mem_run (hr : Run Confined m0 m h) (h0 : m0.lockedAddrList=[]) :
    (m.lockedAddrList.map (·.contextId)).Nodup ∧ ∀ g c, ⟨g,c⟩∈m.lockedAddrList ↔ Reserved h g c := by
  induction hr with
  | start => simp [h0,Reserved]
  | access hr hm ha ih =>
    obtain ⟨hn,hmem⟩:=mem_access ih.1 hm ha
    refine ⟨hn,fun g c => ?_⟩
    rw [hmem,ih.2,Reserved,Reserved,since_snoc]

theorem writeOK_storeConditional (hl : pkt.isLLSC=true) : (m.writeOK pkt).1=true ↔
    ∃ c, pkt.contextId=some c ∧ ⟨LockedAddr.mask pkt.addr,c⟩∈m.lockedAddrList := by
  rw [writeOK]
  split
  case isTrue h => simp [hl,isEmpty_iff.mp h]
  case isFalse h =>
    simp only [checkLockedAddrList,hl,Bool.not_true,Bool.false_or,any_eq_true,Bool.and_eq_true,
      LockedAddr.matchesContext,decide_eq_true_eq]
    constructor
    · intro ⟨l,hm,ha,hc⟩
      exact ⟨l.contextId,hc,ha ▸ hm⟩
    · intro ⟨c,hc,hm⟩
      exact ⟨_,hm,rfl,hc⟩

structure Conditional (m : AbstractMemory) (pkt : Packet) : Prop where
  cmd : pkt.cmd = .storeCondReq
  responding : pkt.cacheResponding=false
  data : pkt.isInstFetch=false
  inside : pkt.getAddrRange.isSubset m.range = .ok true

theorem access_storeConditional (hp : m.Conditional pkt) :
    ∃ m' pkt', m.access pkt = .ok (m',pkt') ∧ (pkt'.extraData=some 1 ↔ (m.writeOK pkt).1=true) := by
  have hl : pkt.isLLSC=true := by
    rw [Packet.isLLSC,hp.cmd]
    rfl
  have hw : ∃ m1 pkt1, m.dispatch pkt = .ok (m1,pkt1) ∧ pkt1.extraData=m.storeResult pkt := by
    have hd : m.dispatch pkt=m.writeAccess pkt := by
      rw [dispatch,Packet.isRead,Packet.isInvalidate,Packet.isClean,Packet.isWrite,hp.cmd]
      rfl
    rw [hd,writeAccess,hp.data]
    split
    · exact ⟨_,_,rfl,rfl⟩
    · exact ⟨_,_,rfl,rfl⟩
  obtain ⟨m1,pkt1,hd,hx⟩:=hw
  have hserved : pkt.served=true := by
    rw [Packet.served,hp.responding,hp.cmd]
    rfl
  obtain ⟨h1,h2⟩:=served_true.mp hserved
  rw [access,if_neg h1,if_neg h2,if_neg (not_not.mpr hp.inside),hd]
  refine ⟨m1,_,rfl,?_⟩
  have hkeep : ∀ b : Bool, (if b then pkt1.makeResponse else pkt1).extraData=pkt1.extraData := by
    intro b
    cases b <;> rfl
  rw [hkeep,hx,storeResult,if_pos hl]
  split
  case isTrue h => exact iff_of_true rfl h
  case isFalse h => exact iff_of_false (fun hc => by cases hc) h

/-- In a run whose accesses are confined, a store-conditional succeeds exactly when it holds a reservation. -/
theorem storeConditional_of_confined (hr : Run Confined m0 m h) (h0 : m0.lockedAddrList=[])
    (hp : m.Conditional pkt) :
    ∃ m' pkt', m.access pkt = .ok (m',pkt') ∧ (pkt'.extraData=some 1 ↔
      ∃ c, pkt.contextId=some c ∧ Reserved h (LockedAddr.mask pkt.addr) c) := by
  obtain ⟨m',pkt',ha,hx⟩:=access_storeConditional hp
  refine ⟨m',pkt',ha,?_⟩
  rw [hx,writeOK_storeConditional (by rw [Packet.isLLSC,hp.cmd]; rfl)]
  simp only [(mem_run hr h0).2]

def plain (cmd : MemCmd) (addr : Addr) (size c : ℕ) : Packet :=
  ⟨cmd,addr,size,fun _ => 0,fun _ => true,some c,none,none,false,false,false,fun _ => rfl⟩

def nullMemory (records : List LockedAddr) : AbstractMemory := ⟨⟨0,0x1000,[],0⟩,none,records⟩

def linkedAt : Event := ⟨plain .loadLockedReq 0x20 8 0,false⟩

theorem access_linkedAt :
    (nullMemory []).access (plain .loadLockedReq 0x20 8 0) = .ok (nullMemory [⟨0x20,0⟩],plain .readResp 0x20 8 0) :=
  rfl

theorem storeConditional_of_confined_null :
    ∃ m' pkt', (nullMemory [⟨0x20,0⟩]).access (plain .storeCondReq 0x28 8 0) = .ok (m',pkt') ∧
      (pkt'.extraData=some 1 ↔ ∃ c, some 0=some c ∧ Reserved [linkedAt] (LockedAddr.mask 0x28) c) := by
  have hc : (nullMemory []).Confined (plain .loadLockedReq 0x20 8 0) := fun h => (by cases h)
  exact storeConditional_of_confined (.access .start hc access_linkedAt) rfl ⟨rfl,rfl,rfl,rfl⟩

/-- Context 0 links the granule at 0x20, context 1 stores 8 bytes at 0x1c, and the
store-conditional of context 0 still succeeds. -/
theorem straddlingStore_keeps_link :
    ¬∀ (m0 m : AbstractMemory) (h : List Event) (pkt : Packet), Run (fun _ _ => True) m0 m h →
      m0.lockedAddrList=[] → m.Conditional pkt → ∃ m' pkt', m.access pkt = .ok (m',pkt') ∧
        (pkt'.extraData=some 1 ↔ ∃ c, pkt.contextId=some c ∧ Reserved h (LockedAddr.mask pkt.addr) c) := by
  intro hall
  have hstore : (nullMemory [⟨0x20,0⟩]).access (plain .writeReq 0x1c 8 1) =
      .ok (nullMemory [⟨0x20,0⟩],plain .writeResp 0x1c 8 1) := rfl
  have hlink : Run (fun _ _ => True) (nullMemory []) _ _ := .access .start trivial access_linkedAt
  have hrun:=hlink.access trivial hstore
  obtain ⟨m',pkt',ha,hx⟩:=hall _ _ _ (plain .storeCondReq 0x20 8 0) hrun rfl ⟨rfl,rfl,rfl,rfl⟩
  have hpkt : pkt'.extraData=some 1 := by
    cases ha
    rfl
  obtain ⟨c,hc,hres⟩:=hx.mp hpkt
  cases hc
  rcases (since_snoc [linkedAt] _).mp hres with hopen | ⟨_,hclose⟩
  · cases hopen.1.2.1
  · exact hclose (.inr ⟨rfl,⟨4,by decide⟩,rfl,rfl⟩)

end AbstractMemory

end AquaGem5.Memory
