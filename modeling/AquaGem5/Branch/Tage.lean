import AquaGem5.Lib.Folding

/-!
# The histories of TAGE (tage_base.hh, tage_base.cc)

The state of one thread. An outcome is a byte that is zero or one in the source, and a pointer into the buffer of
outcomes is an index. The tables and what `tagePredict` reads of them are left out.
-/

namespace AquaGem5.Branch

inductive Fault where
  | assertion
  deriving DecidableEq

structure FoldedHistory where
  comp : BitVec 32
  compLength : ℕ
  origLength : ℕ
  outpoint : ℕ
  deriving DecidableEq

def byte (b : Bool) : BitVec 32 := if b then 1#32 else 0#32

namespace FoldedHistory

def init (originalLength compressedLength : ℕ) : FoldedHistory :=
  ⟨0,compressedLength,originalLength,originalLength%compressedLength⟩

def update (f : FoldedHistory) (h : ℕ → Bool) : FoldedHistory :=
  let comp := f.comp <<< 1 ||| byte (h 0)
  let comp := comp ^^^ byte (h f.origLength) <<< f.outpoint
  let comp := comp ^^^ comp >>> f.compLength
  {f with comp := comp &&& BitVec.ofNat 32 (2^f.compLength-1)}

end FoldedHistory

structure TAGEBase where
  nHistoryTables : ℕ
  histBufferSize : ℕ
  maxHist : ℕ
  pathHistBits : ℕ
  instShiftAmt : ℕ
  histLengths : ℕ → ℕ
  logTagTableSizes : ℕ → ℕ
  tagTableTagWidths : ℕ → ℕ
  speculativeHistUpdate : Bool

/-- The part of the record of a branch that the histories are restored from. -/
structure BranchInfo where
  pathHist : BitVec 32
  ptGhist : ℕ
  ci : ℕ → BitVec 32
  ct0 : ℕ → BitVec 32
  ct1 : ℕ → BitVec 32

def BranchInfo.new : BranchInfo := ⟨0,0,fun _ => 0,fun _ => 0,fun _ => 0⟩

structure ThreadHistory where
  pathHist : BitVec 32
  globalHistory : ℕ → Bool
  gHist : ℕ
  ptGhist : ℕ
  computeIndices : ℕ → FoldedHistory
  computeTags : Fin 2 → ℕ → FoldedHistory

namespace TAGEBase

-- the two sets of folded tags are numbered 0 and 1
local instance : NeZero 2 := ⟨by decide⟩

variable (tage : TAGEBase)

def init : ThreadHistory where
  pathHist := 0
  globalHistory := fun _ => false
  gHist := 0
  ptGhist := 0
  computeIndices i := .init (tage.histLengths i) (tage.logTagTableSizes i)
  computeTags j i := .init (tage.histLengths i) (if j=0 then tage.tagTableTagWidths i else tage.tagTableTagWidths i-1)

def rollOver (tab : ℕ → Bool) : ℕ → Bool :=
  (List.range tage.maxHist).foldl (fun tab i => Function.update tab (tage.histBufferSize-tage.maxHist+i) (tab i)) tab

def updateGHist (t : ThreadHistory) (dir : Bool) : ThreadHistory :=
  let t := if t.ptGhist=0 then
      {t with
        globalHistory := tage.rollOver t.globalHistory
        ptGhist := tage.histBufferSize-tage.maxHist
        gHist := tage.histBufferSize-tage.maxHist}
    else t
  {t with
    ptGhist := t.ptGhist-1
    gHist := t.gHist-1
    globalHistory := Function.update t.globalHistory (t.gHist-1) dir}

def updateFolded (t : ThreadHistory) : ThreadHistory :=
  let h := fun j => t.globalHistory (t.gHist+j)
  {t with
    computeIndices := fun i => if 1 ≤ i ∧ i≤tage.nHistoryTables then (t.computeIndices i).update h else t.computeIndices i
    computeTags := fun j i =>
      if 1 ≤ i ∧ i≤tage.nHistoryTables then (t.computeTags j i).update h else t.computeTags j i}

def restoreFolded (t : ThreadHistory) (bi : BranchInfo) : ThreadHistory :=
  {t with
    computeIndices := fun i =>
      if 1 ≤ i ∧ i≤tage.nHistoryTables then {t.computeIndices i with comp := bi.ci i} else t.computeIndices i
    computeTags := fun j i =>
      if 1 ≤ i ∧ i≤tage.nHistoryTables then {t.computeTags j i with comp := if j=0 then bi.ct0 i else bi.ct1 i}
      else t.computeTags j i}

def save (t : ThreadHistory) (bi : BranchInfo) : BranchInfo where
  pathHist := t.pathHist
  ptGhist := t.ptGhist
  ci i := if 1 ≤ i ∧ i≤tage.nHistoryTables then (t.computeIndices i).comp else bi.ci i
  ct0 i := if 1 ≤ i ∧ i≤tage.nHistoryTables then (t.computeTags 0 i).comp else bi.ct0 i
  ct1 i := if 1 ≤ i ∧ i≤tage.nHistoryTables then (t.computeTags 1 i).comp else bi.ct1 i

def pathbit (branchPc : BitVec 64) : Bool := (branchPc >>> tage.instShiftAmt).getLsbD 0

def updatePath (pathHist : BitVec 32) (pathbit : Bool) : BitVec 32 :=
  (pathHist <<< 1+byte pathbit) &&& BitVec.ofNat 32 (2^tage.pathHistBits-1)

def updateHistories (t : ThreadHistory) (branchPc : BitVec 64) (taken : Bool) (bi : BranchInfo) (speculative : Bool) :
    Except Fault (ThreadHistory × BranchInfo) :=
  if speculative≠tage.speculativeHistUpdate then .ok (t,bi)
  else
    let t := tage.updateGHist t taken
    let t := {t with pathHist := tage.updatePath t.pathHist (tage.pathbit branchPc)}
    let bi := if speculative then tage.save t bi else bi
    let t := tage.updateFolded t
    if t.gHist=t.ptGhist then .ok (t,bi) else .error .assertion

def refold (t : ThreadHistory) (taken : Bool) (bi : BranchInfo) : ThreadHistory :=
  let t := {t with globalHistory := Function.update t.globalHistory t.gHist taken}
  tage.updateFolded (tage.restoreFolded t bi)

def btbUpdate (t : ThreadHistory) (bi : BranchInfo) : Except Fault ThreadHistory :=
  if tage.speculativeHistUpdate then
    if t.gHist=t.ptGhist then .ok (tage.refold t false bi) else .error .assertion
  else .ok t

def squash (t : ThreadHistory) (taken : Bool) (bi : BranchInfo) : ThreadHistory :=
  if tage.speculativeHistUpdate then
    tage.refold {t with pathHist := bi.pathHist, ptGhist := bi.ptGhist, gHist := bi.ptGhist} taken bi
  else t

end TAGEBase

end AquaGem5.Branch
