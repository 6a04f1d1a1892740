import AquaGem5.Lib.Checked

/-!
# Register renaming (rename_map.cc, rename_map.hh, free_list.hh, rename_impl.hh)

A pointer to a physical register is the register's id. The scoreboard, the statistics and the counter of
the pinned writes to complete are left out, and the mode of the vector registers does not switch.
-/

namespace AquaGem5.O3
open Checked

inductive RegClass where
  | int
  | float
  | vec
  | vecElem
  | vecPred
  | cc
  | misc
  deriving DecidableEq

inductive VecMode where
  | full
  | elem
  deriving DecidableEq

/-- `elemIndex` is `none` for `ILLEGAL_ELEM_INDEX`. -/
structure RegId where
  classValue : RegClass
  index : ℕ
  elemIndex : Option ℕ
  numPinnedWrites : ℤ

structure PhysReg where
  classValue : RegClass
  index : ℕ
  elemIndex : Option ℕ
  deriving DecidableEq

structure Config where
  /-- The registers of a class of one thread, and the physical ones. -/
  numRegs : RegClass → ℕ
  numPhysRegs : RegClass → ℕ
  numVecElemPerVecReg : ℕ
  zeroReg : ℕ
  numThreads : ℕ
  vecMode : VecMode

namespace Rename

inductive Fault where
  /-- `assert(!freeRegs.empty())`. -/
  | noFreeReg
  | assertion
  | panic
  /-- An index outside a rename map. -/
  | outOfBounds
  deriving DecidableEq

structure RenameHistory where
  instSeqNum : ℕ
  archReg : RegId
  newPhysReg : PhysReg
  prevPhysReg : PhysReg

structure Inst where
  seqNum : ℕ
  destRegs : List RegId

end Rename

open Rename in
structure Rename where
  freeList : RegClass → List PhysReg
  /-- The entries of the map of each thread. -/
  renameMap : ℕ → RegClass → List PhysReg
  historyBuffer : ℕ → List RenameHistory
  numPinnedWrites : PhysReg → ℤ

def RegId.flatIndex (c : Config) (r : RegId) : ℕ :=
  match r.classValue with
  | .vecElem => c.numVecElemPerVecReg*r.index+r.elemIndex.getD 0
  | _ => r.index

/-- `operator==` leaves the pinned writes out. -/
def RegId.same (r r' : RegId) : Bool := r.classValue=r'.classValue&&r.index=r'.index&&r.elemIndex=r'.elemIndex

def PhysReg.isZeroReg (c : Config) (r : PhysReg) : Bool := r.classValue = .int&&r.index=c.zeroReg

namespace Rename

variable (c : Config)

def getReg (s : Rename) (cls : RegClass) : Except Fault (PhysReg × Rename) :=
  match s.freeList cls with
  | [] => .error .noFreeReg
  | r::rest => .ok (r,{s with freeList := Function.update s.freeList cls rest})

def addReg (s : Rename) (freed : PhysReg) : Except Fault Rename :=
  match freed.classValue with
  | .misc => .error .panic
  | cls => .ok {s with freeList := Function.update s.freeList cls (s.freeList cls++[freed])}

/-- The zero register of the map of a class, an integer register for every class. -/
def zeroReg (cls : RegClass) : RegId :=
  match cls with
  | .int => ⟨.int,c.zeroReg,none,0⟩
  | .float => ⟨.int,c.numRegs .float+1,none,0⟩
  | _ => ⟨.int,65535,none,0⟩

/-- The mode in which registers of a class can be renamed. -/
def modeOf : RegClass → Option VecMode
  | .vec => some .full
  | .vecElem => some .elem
  | _ => none

def checkMode (cls : RegClass) : Except Fault Unit := check (∀ mode∈modeOf cls,c.vecMode=mode) .assertion

def setEntries (s : Rename) (tid : ℕ) (cls : RegClass) (entries : List PhysReg) : Rename :=
  {s with renameMap := Function.update s.renameMap tid (Function.update (s.renameMap tid) cls entries)}

def setMap (s : Rename) (tid : ℕ) (cls : RegClass) (i : ℕ) (r : PhysReg) : Rename :=
  s.setEntries tid cls ((s.renameMap tid cls).set i r)

def setPinned (s : Rename) (r : PhysReg) (n : ℤ) : Rename := {s with numPinnedWrites := Function.update s.numPinnedWrites r n}

/-- `SimpleRenameMap::rename` in the map of the register's class. -/
def simpleRename (s : Rename) (tid : ℕ) (archReg : RegId) : Except Fault ((PhysReg × PhysReg) × Rename) :=
  match (s.renameMap tid archReg.classValue)[archReg.flatIndex c]? with
  | none => .error .outOfBounds
  | some prev =>
    if archReg.same (zeroReg c archReg.classValue) then do
      check (prev.isZeroReg c=true) .assertion
      return ((prev,prev),s)
    else if 0<s.numPinnedWrites prev then do
      check (archReg.numPinnedWrites=0) .assertion
      return ((prev,prev),s.setPinned prev (s.numPinnedWrites prev-1))
    else do
      let (renamed,s) ← s.getReg archReg.classValue
      let s := s.setMap tid archReg.classValue (archReg.flatIndex c) renamed
      return ((renamed,prev),s.setPinned renamed archReg.numPinnedWrites)

/-- Misc registers keep their mapping. -/
def miscReg (archReg : RegId) : PhysReg := ⟨.misc,archReg.flatIndex c,none⟩

def rename (s : Rename) (tid : ℕ) (archReg : RegId) : Except Fault ((PhysReg × PhysReg) × Rename) :=
  match archReg.classValue with
  | .misc => .ok ((miscReg c archReg,miscReg c archReg),s)
  | cls => do
    checkMode c cls
    s.simpleRename c tid archReg

def setEntry (s : Rename) (tid : ℕ) (archReg : RegId) (physReg : PhysReg) : Except Fault Rename :=
  match archReg.classValue with
  | .misc => do
    check (physReg=miscReg c archReg) .assertion
    return s
  | cls => do
    check (physReg.classValue=cls) .assertion
    checkMode c cls
    check (archReg.flatIndex c<(s.renameMap tid cls).length) .outOfBounds
    return s.setMap tid cls (archReg.flatIndex c) physReg

def Inst.numDestRegs (inst : Inst) (cls : RegClass) : ℕ := inst.destRegs.countP fun r => r.classValue=cls

def canRename (s : Rename) (inst : Inst) : Bool :=
  inst.numDestRegs .int≤(s.freeList .int).length&&inst.numDestRegs .float≤(s.freeList .float).length &&
    inst.numDestRegs .vec≤(s.freeList .vec).length&&inst.numDestRegs .vecElem≤(s.freeList .vecElem).length &&
    inst.numDestRegs .vecPred≤(s.freeList .vecPred).length&&inst.numDestRegs .cc≤(s.freeList .cc).length

def setHistory (s : Rename) (tid : ℕ) (history : List RenameHistory) : Rename :=
  {s with historyBuffer := Function.update s.historyBuffer tid history}

/-- The loop of `renameDestRegs`. -/
def renameRegs (tid seqNum : ℕ) : List RegId → Rename → Except Fault Rename
  | [],s => .ok s
  | dest::dests,s => do
    let ((new,prev),s) ← s.rename c tid dest
    renameRegs tid seqNum dests (s.setHistory tid (⟨seqNum,dest,new,prev⟩::s.historyBuffer tid))

def renameDestRegs (s : Rename) (tid : ℕ) (inst : Inst) : Except Fault Rename := renameRegs c tid inst.seqNum inst.destRegs s

/-- The loop of `doSquash` along the entries of the history. -/
def undo (squashed tid : ℕ) : List RenameHistory → Rename → Except Fault Rename
  | [],s => .ok (s.setHistory tid [])
  | h::hs,s =>
    if squashed<h.instSeqNum then do
      let s ← (if h.newPhysReg≠h.prevPhysReg then do
          let s ← s.setEntry c tid h.archReg h.prevPhysReg
          s.addReg h.newPhysReg
        else pure s)
      undo squashed tid hs s
    else .ok (s.setHistory tid (h::hs))

def doSquash (s : Rename) (squashed tid : ℕ) : Except Fault Rename := undo c squashed tid (s.historyBuffer tid) s

/-- The loop of `removeFromHistory` along the entries, the oldest first. -/
def retire (committed tid : ℕ) : List RenameHistory → Rename → Except Fault Rename
  | [],s => .ok (s.setHistory tid [])
  | h::hs,s =>
    if h.instSeqNum≤committed then do
      let s ← (if h.newPhysReg≠h.prevPhysReg then s.addReg h.prevPhysReg else pure s)
      retire committed tid hs s
    else .ok (s.setHistory tid (h::hs).reverse)

def removeFromHistory (s : Rename) (committed tid : ℕ) : Except Fault Rename := retire committed tid (s.historyBuffer tid).reverse s

/-- What `initFreeList` puts on the free list of a class. The vector registers are renamed whole or by elements,
and the misc registers are not renamed. -/
def physRegs : RegClass → List PhysReg
  | .misc => []
  | .vec => if c.vecMode = .full then (List.range (c.numPhysRegs .vec)).map fun i => ⟨.vec,i,none⟩ else []
  | .vecElem =>
    if c.vecMode = .elem then
      (List.range (c.numPhysRegs .vec)).flatMap fun i => (List.range c.numVecElemPerVecReg).map fun e => ⟨.vecElem,i,some e⟩
    else []
  | cls => (List.range (c.numPhysRegs cls)).map fun i => ⟨cls,i,none⟩

/-- The classes of the maps that the constructor of the CPU fills, with the sizes of these maps. -/
def maps : List (RegClass × ℕ) :=
  [(.int,c.numRegs .int),(.float,c.numRegs .float),
    (if c.vecMode = .full then (.vec,c.numRegs .vec) else (.vecElem,c.numRegs .vec*c.numVecElemPerVecReg)),
    (.vecPred,c.numRegs .vecPred),(.cc,c.numRegs .cc)]

/-- The loop over the registers of a class, which fills the map from the free list. -/
def fillMap (tid : ℕ) (cls : RegClass) : ℕ → Rename → Except Fault Rename
  | 0,s => .ok s
  | n+1,s => do
    let (r,s) ← s.getReg cls
    fillMap tid cls n (s.setEntries tid cls (s.renameMap tid cls++[r]))

def fillMaps (tid : ℕ) : List (RegClass × ℕ) → Rename → Except Fault Rename
  | [],s => .ok s
  | (cls,n)::maps,s => do
    let s ← fillMap tid cls n s
    fillMaps tid maps s

def fillThreads : ℕ → Rename → Except Fault Rename
  | 0,s => .ok s
  | n+1,s => do
    let s ← fillThreads n s
    fillMaps n (maps c) s

def init : Except Fault Rename :=
  fillThreads c c.numThreads
    {freeList := physRegs c, renameMap := fun _ _ => [], historyBuffer := fun _ => [], numPinnedWrites := fun _ => 0}

end Rename
end AquaGem5.O3
