import AquaGem5.Branch.Tage
import AquaGem5.Branch.Ras

/-!
# The branch predictor of a thread (bpred_unit.hh, bpred_unit.cc, btb.cc)

The direction predictor and the indirect predictor are the ones that `BPredUnit` is used with, given by their virtual
functions. A history object is the value that its pointer stands for.
-/

namespace AquaGem5.Branch

abbrev Addr := BitVec 64

structure StaticInst where
  isUncondCtrl : Bool
  isCall : Bool
  isReturn : Bool
  isDirectCtrl : Bool
  deriving DecidableEq

structure TheISA (PC : Type) where
  instAddr : PC → Addr
  buildRetPC : PC → PC → PC
  advancePC : PC → StaticInst → PC

structure BTBEntry (PC : Type) where
  tag : Addr
  target : PC
  tid : ℕ
  valid : Bool

structure DefaultBTB (PC : Type) where
  btb : ℕ → BTBEntry PC
  numEntries : ℕ
  tagBits : ℕ
  instShiftAmt : ℕ
  log2NumThreads : ℕ

namespace DefaultBTB

variable {PC : Type} (b : DefaultBTB PC)

def tagShiftAmt : ℕ := b.instShiftAmt+Nat.log2 b.numEntries

def getIndex (instPC : Addr) (tid : ℕ) : ℕ :=
  ((instPC >>> b.instShiftAmt ^^^ BitVec.ofNat 64 (tid <<< (b.tagShiftAmt-b.instShiftAmt-b.log2NumThreads))) &&&
    BitVec.ofNat 64 (b.numEntries-1)).toNat

def getTag (instPC : Addr) : Addr := instPC >>> b.tagShiftAmt &&& BitVec.ofNat 64 (2^b.tagBits-1)

def valid (instPC : Addr) (tid : ℕ) : Bool :=
  let e := b.btb (b.getIndex instPC tid)
  e.valid&&b.getTag instPC == e.tag&&e.tid == tid

def lookup [Zero PC] (instPC : Addr) (tid : ℕ) : PC :=
  if b.valid instPC tid then (b.btb (b.getIndex instPC tid)).target else 0

def update (instPC : Addr) (target : PC) (tid : ℕ) : DefaultBTB PC :=
  {b with btb := Function.update b.btb (b.getIndex instPC tid) ⟨b.getTag instPC,target,tid,true⟩}

end DefaultBTB

/-- The virtual functions of `BPredUnit` for a thread, with states `σ` and history objects `κ`. -/
structure Direction (σ κ : Type) where
  uncondBranch : σ → Addr → Except Fault (κ × σ)
  lookup : σ → Addr → Except Fault (Bool × κ × σ)
  btbUpdate : σ → Addr → κ → Except Fault (κ × σ)
  update : σ → Addr → Bool → κ → Bool → StaticInst → Addr → Except Fault σ
  squash : σ → κ → σ

/-- The virtual functions of `IndirectPredictor` for a thread. -/
structure IndirectPredictor (ι η PC : Type) where
  lookup : ι → Addr → PC → Bool × PC × ι
  recordIndirect : ι → Addr → Addr → ℕ → ι
  commit : ι → ℕ → η → ι
  squash : ι → ℕ → ι
  recordTarget : ι → ℕ → η → PC → ι
  genIndirectInfo : ι → η × ι
  updateDirectionInfo : ι → Bool → ι
  deleteIndirectInfo : ι → η → ι
  changeDirectionPrediction : ι → η → Bool → ι

/-- `indirectHistory` is null without an indirect predictor. -/
structure PredictorHistory (PC κ η : Type) where
  seqNum : ℕ
  pc : Addr
  bpHistory : κ
  indirectHistory : Option η
  RASTarget : PC
  RASIndex : ℕ
  predTaken : Bool
  usedRAS : Bool
  pushedRAS : Bool
  wasCall : Bool
  wasReturn : Bool
  wasIndirect : Bool
  target : Addr
  inst : StaticInst

def PredictorHistory.new {PC κ η : Type} [Zero PC] (seqNum : ℕ) (instPC : Addr) (predTaken : Bool) (bpHistory : κ)
    (indirectHistory : Option η) (inst : StaticInst) : PredictorHistory PC κ η :=
  ⟨seqNum,instPC,bpHistory,indirectHistory,0,0,predTaken,false,false,false,false,false,BitVec.allOnes 64,inst⟩

/-- The newest record is the first. `moves` is a history variable, of what each call of the stack has done to its level,
the last call first. -/
structure Predictor (PC σ κ ι η : Type) where
  predHist : List (PredictorHistory PC κ η)
  BTB : DefaultBTB PC
  RAS : ReturnAddrStack PC
  direction : σ
  indirect : ι
  moves : List ℤ

namespace Predictor

variable {PC σ κ ι η : Type} (u : Predictor PC σ κ ι η)

def pushRAS (returnAddr : PC) : Predictor PC σ κ ι η := {u with RAS := u.RAS.push returnAddr, moves := 1::u.moves}

def popRAS : Predictor PC σ κ ι η := {u with RAS := u.RAS.pop, moves := -1::u.moves}

def restoreRAS (topEntryIdx : ℕ) (restored : PC) : Predictor PC σ κ ι η :=
  {u with RAS := u.RAS.restore topEntryIdx restored, moves := 1::u.moves}

end Predictor

structure BPredUnit (PC σ κ ι η : Type) where
  isa : TheISA PC
  direction : Direction σ κ
  iPred : Option (IndirectPredictor ι η PC)
  tid : ℕ

namespace BPredUnit

variable {PC σ κ ι η : Type} [Zero PC] (bp : BPredUnit PC σ κ ι η) (u : Predictor PC σ κ ι η)
  (record : PredictorHistory PC κ η)

def init (RASSize : ℕ) (BTB : DefaultBTB PC) (direction : σ) (indirect : ι) : Predictor PC σ κ ι η :=
  ⟨[],BTB,.init RASSize,direction,indirect,[]⟩

def callIndirect (f : IndirectPredictor ι η PC → ι → ι) : Predictor PC σ κ ι η :=
  match bp.iPred with
  | none => u
  | some iPred => {u with indirect := f iPred u.indirect}

/-- The same, with the history object of a record. -/
def callIndirectWith (indirectHistory : Option η) (f : IndirectPredictor ι η PC → ι → η → ι) : Predictor PC σ κ ι η :=
  match indirectHistory with
  | none => u
  | some h => bp.callIndirect u fun iPred indirect => f iPred indirect h

def genIndirectInfo : Option η × Predictor PC σ κ ι η :=
  match bp.iPred with
  | none => (none,u)
  | some iPred => (some (iPred.genIndirectInfo u.indirect).1,{u with indirect := (iPred.genIndirectInfo u.indirect).2})

def predictDirection (inst : StaticInst) (pc : Addr) : Except Fault (Bool × κ × σ) :=
  if inst.isUncondCtrl then (bp.direction.uncondBranch u.direction pc).map fun h => (true,h)
  else bp.direction.lookup u.direction pc

def predictReturn (pc : PC) : PC × PredictorHistory PC κ η × Predictor PC σ κ ι η :=
  let rasTop := u.RAS.top
  (bp.isa.buildRetPC pc rasTop,
    {record with wasReturn := true, usedRAS := true, RASIndex := u.RAS.topIdx, RASTarget := rasTop},u.popRAS)

def predictCall (inst : StaticInst) (pc : PC) : PredictorHistory PC κ η × Predictor PC σ κ ι η :=
  if inst.isCall then ({record with pushedRAS := true, wasCall := true},u.pushRAS pc) else (record,u)

def cancelCall (inst : StaticInst) : PredictorHistory PC κ η × Predictor PC σ κ ι η :=
  if inst.isCall && !inst.isUncondCtrl then ({record with pushedRAS := false},u.popRAS) else (record,u)

def predictDirect (inst : StaticInst) (pc : PC) :
    Except Fault (Bool × PC × PredictorHistory PC κ η × Predictor PC σ κ ι η) :=
  let instPC := bp.isa.instAddr pc
  if u.BTB.valid instPC bp.tid then .ok (true,u.BTB.lookup instPC bp.tid,record,u)
  else
    let record := {record with predTaken := false}
    if !inst.isCall && !inst.isReturn then
      (bp.direction.btbUpdate u.direction instPC record.bpHistory).map fun h =>
        (false,bp.isa.advancePC pc inst,{record with bpHistory := h.1},{u with direction := h.2})
    else .ok (false,bp.isa.advancePC pc inst,cancelCall u record inst)

def predictIndirect (iPred : IndirectPredictor ι η PC) (u : Predictor PC σ κ ι η) (record : PredictorHistory PC κ η)
    (inst : StaticInst) (pc : PC) : Bool × PC × PredictorHistory PC κ η × Predictor PC σ κ ι η :=
  let instPC := bp.isa.instAddr pc
  let record := {record with wasIndirect := true}
  let (hit,target,indirect) := iPred.lookup u.indirect instPC pc
  let u := {u with indirect := indirect}
  let (target,record,u) :=
    if hit then (target,record,u)
    else (bp.isa.advancePC target inst,cancelCall u {record with predTaken := false} inst)
  (hit,target,record,{u with indirect := iPred.recordIndirect u.indirect instPC (bp.isa.instAddr target) record.seqNum})

def predictTarget (inst : StaticInst) (pc : PC) :
    Except Fault (Bool × PC × PredictorHistory PC κ η × Predictor PC σ κ ι η) :=
  if record.predTaken then
    if inst.isReturn then .ok (true,bp.predictReturn u record pc)
    else
      let (record,u) := predictCall u record inst pc
      match bp.iPred with
      | none => bp.predictDirect u record inst pc
      | some iPred =>
        if inst.isDirectCtrl then bp.predictDirect u record inst pc else .ok (bp.predictIndirect iPred u record inst pc)
  else
    .ok (false,bp.isa.advancePC pc inst,if inst.isReturn then {record with wasReturn := true} else record,u)

def predict (inst : StaticInst) (seqNum : ℕ) (pc : PC) : Except Fault (Bool × PC × Predictor PC σ κ ι η) := do
  let (origPredTaken,bpHistory,direction) ← bp.predictDirection u inst (bp.isa.instAddr pc)
  let (indirectHistory,u) := bp.genIndirectInfo {u with direction := direction}
  let record := PredictorHistory.new seqNum (bp.isa.instAddr pc) origPredTaken bpHistory indirectHistory inst
  let (predTaken,target,record,u) ← bp.predictTarget u record inst pc
  let record := {record with target := bp.isa.instAddr target}
  let u := bp.callIndirect u fun iPred indirect => iPred.updateDirectionInfo indirect origPredTaken
  .ok (predTaken,target,{u with predHist := record::u.predHist})

def commitRecords (doneSn : ℕ) :
    List (PredictorHistory PC κ η) → Predictor PC σ κ ι η → Except Fault (Predictor PC σ κ ι η)
  | [],u => .ok {u with predHist := []}
  | record::newer,u =>
    if record.seqNum≤doneSn then do
      let direction ← bp.direction.update u.direction record.pc record.predTaken record.bpHistory false record.inst
        record.target
      commitRecords doneSn newer (bp.callIndirectWith {u with direction := direction} record.indirectHistory
        fun iPred indirect h => iPred.commit indirect doneSn h)
    else .ok {u with predHist := (record::newer).reverse}

def update (doneSn : ℕ) : Except Fault (Predictor PC σ κ ι η) :=
  bp.commitRecords doneSn u.predHist.reverse u

def squashRecord : Predictor PC σ κ ι η :=
  let u := if record.usedRAS then u.restoreRAS record.RASIndex record.RASTarget
    else if record.wasCall&&record.pushedRAS then u.popRAS else u
  let u := {u with direction := bp.direction.squash u.direction record.bpHistory}
  bp.callIndirectWith u record.indirectHistory fun iPred indirect h => iPred.deleteIndirectInfo indirect h

def squashRecords (squashedSn : ℕ) : List (PredictorHistory PC κ η) → Predictor PC σ κ ι η → Predictor PC σ κ ι η
  | [],u => {u with predHist := []}
  | record::older,u =>
    if squashedSn<record.seqNum then squashRecords squashedSn older (bp.squashRecord u record)
    else {u with predHist := record::older}

def squash (squashedSn : ℕ) : Predictor PC σ κ ι η :=
  bp.squashRecords squashedSn u.predHist (bp.callIndirect u fun iPred indirect => iPred.squash indirect squashedSn)

def correctTaken (corrTarget : PC) : PredictorHistory PC κ η × Predictor PC σ κ ι η :=
  let (record,u) := if record.wasReturn && !record.usedRAS then ({record with usedRAS := true},u.popRAS) else (record,u)
  (record,
    if record.wasIndirect then
      bp.callIndirectWith u record.indirectHistory fun iPred indirect h =>
        iPred.recordTarget indirect record.seqNum h corrTarget
    else {u with BTB := u.BTB.update record.pc corrTarget bp.tid})

def correctNotTaken : PredictorHistory PC κ η × Predictor PC σ κ ι η :=
  if record.usedRAS then ({record with usedRAS := false},u.restoreRAS record.RASIndex record.RASTarget)
  else if record.wasCall&&record.pushedRAS then ({record with pushedRAS := false},u.popRAS)
  else (record,u)

/-- The `squash` for a branch that has been resolved. -/
def squashBranch (squashedSn : ℕ) (corrTarget : PC) (actuallyTaken : Bool) : Except Fault (Predictor PC σ κ ι η) :=
  let u := bp.squash u squashedSn
  match u.predHist with
  | [] => .ok u
  | record::older =>
    if record.seqNum≠squashedSn then .error .assertion
    else do
      let record := {record with predTaken := actuallyTaken, target := bp.isa.instAddr corrTarget}
      let direction ← bp.direction.update u.direction record.pc actuallyTaken record.bpHistory true record.inst
        record.target
      let u := bp.callIndirectWith {u with direction := direction} record.indirectHistory
        fun iPred indirect h => iPred.changeDirectionPrediction indirect h actuallyTaken
      let corrected := if actuallyTaken then bp.correctTaken u record corrTarget else correctNotTaken u record
      .ok {corrected.2 with predHist := corrected.1::older}

end BPredUnit

end AquaGem5.Branch
