import AquaGem5.Lib.Rounding
import AquaGem5.Detector.MisraGries
import AquaGem5.Mitigation.Base

/-!
# Randomized row swap (`Randomized_Row_Swap`, rowhammer_mitigation.cc)

Each bank has a row indirection table of swap tuples; `rowHasEntry` holds one above the
number of the tuple a row belongs to. The successive values of `rand()` are a parameter:
`randSeq` holds them and `randPos` counts the calls made so far.
-/

namespace AquaGem5.Swap
open Checked Detector Mitigation

/-- `remapEntry` is the assert of `getRemappedAddr`, `swapEntry` the one `insertTuple` shares with it. -/
inductive Fault where
  | outOfBounds
  | divByZero
  | badConversion
  /-- The `int` counter of a loop passes `INT_MAX`. -/
  | intOverflow
  | detector (f : Detector.Fault)
  | remapEntry
  | swapEntry
  | noRandomRow
  | noUnlockedTuple
  | tooManyTuples
  deriving DecidableEq

instance : Undefined Fault := ⟨.outOfBounds,.divByZero,.badConversion⟩

structure RitEntry where
  valid : Bool
  locked : Bool
  origRowID : ℕ
  remappedRowID : ℕ
  deriving DecidableEq

structure Rit where
  tuples : Cells RitEntry
  rowHasEntry : Cells ℕ
  validTuples : ℕ

structure Stats where
  sRemappedRowAccessed : UInt64
  sCleanInstall : UInt64
  sOnlyUnswap : UInt64
  sCleanReswap : UInt64
  sDirtyReswap : UInt64
  sNumResets : UInt64
  sNumAccesses : UInt64
  sRandRowGenerationFailed : UInt64
  rows : RowStats

structure RandomizedRowSwap where
  tables : Bank → Rit
  maxValidTuples : ℕ
  numTuples : ℕ
  threshold : ℕ
  numRows : ℕ
  numBanks : ℕ
  numRanks : ℕ
  numChannels : ℕ
  lastReset : UInt64
  detector : MisraGries
  decision : Decision
  numAccessesToRow : Cells ℕ
  swapDelay : UInt64
  sramRitAccDelay : UInt64
  randSeq : ℕ → ℕ
  randPos : ℕ
  stats : Stats

def RitEntry.has (e : RitEntry) (r : ℕ) : Prop := e.origRowID=r ∨ e.remappedRowID=r

instance (e : RitEntry) (r : ℕ) : Decidable (e.has r) := inferInstanceAs (Decidable (_ ∨ _))

namespace Rit

/-- To re-swap existing `<X, A>`, install `<X, Y>` in its place; returns `A` as well. -/
def reswap (t : Rit) (tupleID origRow newRow : ℕ) : Except Fault (Rit × ℕ) := do
  let e ← t.tuples.read tupleID
  let (e,prevSwapRow) :=
    if e.origRowID=origRow then ({e with locked := true, remappedRowID := newRow},e.remappedRowID)
    else ({e with locked := true, origRowID := newRow},e.origRowID)
  let index ← t.rowHasEntry.write prevSwapRow 0
  let index ← index.write newRow (tupleID+1)
  pure ({t with tuples := t.tuples.set tupleID e, rowHasEntry := index},prevSwapRow)

/-- The install loop takes the first free tuple; with none it falls through. -/
def install (numTuples : ℕ) (t : Rit) (origRow remappedRow : ℕ) : Except Fault Rit :=
  match (List.range numTuples).find? fun ii => (t.tuples.get ii).valid=false with
  | some ii => do
    let index ← t.rowHasEntry.write origRow (ii+1)
    let index ← index.write remappedRow (ii+1)
    pure {t with tuples := t.tuples.set ii ⟨true,true,origRow,remappedRow⟩, rowHasEntry := index,
                  validTuples := inc32 t.validTuples}
  | none => pure t

/-- The eviction loop un-swaps the first valid tuple that is not locked, and returns its rows. -/
def evict (numTuples : ℕ) (t : Rit) : Except Fault (Rit × ℕ × ℕ) :=
  match (List.range numTuples).find? fun ii =>
      (t.tuples.get ii).valid=true ∧ (t.tuples.get ii).locked=false with
  | some ii => do
    let e := t.tuples.get ii
    let index ← t.rowHasEntry.write e.origRowID 0
    let index ← index.write e.remappedRowID 0
    pure ({ tuples := t.tuples.set ii ⟨false,false,0,0⟩, rowHasEntry := index,
            validTuples := dec32 t.validTuples},e.origRowID,e.remappedRowID)
  | none => .error .noUnlockedTuple

def unlock (numTuples : ℕ) (t : Rit) : Rit :=
  {t with tuples := ⟨t.tuples.size,fun ii =>
      if ii<numTuples then {t.tuples.get ii with locked := false} else t.tuples.get ii⟩}

end Rit

namespace RandomizedRowSwap

/-- `uint32_t(1.428571*float(demandTuples))`: the constant is the double `6433711823272297/2^52`,
the conversion to `float` keeps 24 bits and the product 53; out of range it is undefined. -/
def tupleCount (demandTuples : ℕ) : Except Fault ℕ :=
  let product := roundBits 53 (6433711823272297*roundBits 24 demandTuples)/2^52
  if product<2^32 then .ok product else .error .badConversion

/-- The constructor, with the members `MemCtrl` assigns after it. -/
def construct (demandTuples numRows threshold numBanks numRanks numChannels : ℕ)
    (detector : MisraGries) (swapDelay sramRitAccDelay : UInt64) (randSeq : ℕ → ℕ) (stats : Stats) :
    Except Fault RandomizedRowSwap := do
  let numTuples ← tupleCount demandTuples
  pure {
    tables := fun _ => ⟨.calloc numTuples ⟨false,false,0,0⟩,.calloc numRows 0,0⟩
    maxValidTuples := demandTuples
    numTuples := numTuples
    threshold := threshold
    numRows := numRows
    numBanks := numBanks
    numRanks := numRanks
    numChannels := numChannels
    lastReset := 0
    detector := detector
    decision := .fresh
    numAccessesToRow := .calloc (numRows*numBanks*numRanks*numChannels%2^32) 0
    swapDelay := swapDelay
    sramRitAccDelay := sramRitAccDelay
    randSeq := randSeq
    randPos := 0
    stats := {stats with
      sRemappedRowAccessed := 0, sCleanInstall := 0, sOnlyUnswap := 0, sCleanReswap := 0
      sDirtyReswap := 0, sNumResets := 0, sNumAccesses := 0, rows := ⟨0,.calloc 4 0⟩} }

def hasBank (s : RandomizedRowSwap) (b : Bank) : Prop :=
  b.channelID<s.numChannels ∧ b.rankID<s.numRanks ∧ b.bankID<s.numBanks

instance (s : RandomizedRowSwap) (b : Bank) : Decidable (s.hasBank b) :=
  inferInstanceAs (Decidable (_ ∧ _ ∧ _))

def setTable (s : RandomizedRowSwap) (b : Bank) (t : Rit) : RandomizedRowSwap :=
  {s with tables := Function.update s.tables b t}

def getRemappedAddr (s : RandomizedRowSwap) (rowAddr : ℕ) (b : Bank) (isFuncLookup : Bool) :
    Except Fault (RandomizedRowSwap × ℕ) := do
  check (s.hasBank b) .outOfBounds
  let index ← (s.tables b).rowHasEntry.read rowAddr
  if index≠0 then do
    let e ← (s.tables b).tuples.read (index-1)
    check (e.valid=true ∧ e.has rowAddr) .remapEntry
    let remappedAddr := if e.origRowID=rowAddr then e.remappedRowID else e.origRowID
    let stats := if isFuncLookup=false then
      {s.stats with sRemappedRowAccessed := s.stats.sRemappedRowAccessed+1} else s.stats
    pure ({s with stats := stats},remappedAddr)
  else pure (s,rowAddr)

/-- A row can be drawn when it is not the one to avoid, has no tuple and is not tracked. -/
def canDraw (s : RandomizedRowSwap) (avoidRow row : ℕ) (b : Bank) :
    Except Fault (RandomizedRowSwap × Bool) :=
  if row=avoidRow then pure (s,false)
  else do
    let index ← (s.tables b).rowHasEntry.read row
    if index≠0 then pure (s,false)
    else do
      let r ← within Fault.detector (s.detector.access row b true)
      pure ({s with detector := r.1},!r.2)

def drawRow (s : RandomizedRowSwap) (avoidRow : ℕ) (b : Bank) :
    ℕ → Except Fault (RandomizedRowSwap × ℕ)
  | 0 => pure (s,s.numRows)
  | tries+1 => do
    let guessRow ← umod (s.randSeq s.randPos) s.numRows
    let r ← {s with randPos := s.randPos+1}.canDraw avoidRow guessRow b
    if r.2=true then pure (r.1,guessRow) else r.1.drawRow avoidRow b tries

def firstRow (s : RandomizedRowSwap) (avoidRow : ℕ) (b : Bank) :
    ℕ → ℕ → Except Fault (RandomizedRowSwap × ℕ)
  | 0,_ => pure (s,s.numRows)
  | fuel+1,ii => do
    let r ← s.canDraw avoidRow ii b
    if r.2=true then pure (r.1,ii) else r.1.firstRow avoidRow b fuel (ii+1)

def generateRandomRowAddr (s : RandomizedRowSwap) (avoidRow : ℕ) (b : Bank) :
    Except Fault (RandomizedRowSwap × ℕ) := do
  let r ← s.drawRow avoidRow b 10
  let r ← (if r.2=r.1.numRows then
      {r.1 with stats := {r.1.stats with
        sRandRowGenerationFailed := r.1.stats.sRandRowGenerationFailed+1} }.firstRow
          avoidRow b r.1.numRows 0
    else pure r)
  check (r.2<r.1.numRows) .noRandomRow
  pure r

def recordSwaps (s : RandomizedRowSwap) (row partner : ℕ) : Except Fault RandomizedRowSwap := do
  let d ← s.decision.recordSwap row
  let d ← d.recordSwap partner
  pure {s with decision := d}

/-- Re-swap: `<X, A>` becomes `<X, Y>`, then the freed row `A` is swapped with a new row `B`. -/
def reswapTuple (s : RandomizedRowSwap) (b : Bank) (tupleID origRow newRow : ℕ) :
    Except Fault RandomizedRowSwap := do
  let r ← (s.tables b).reswap tupleID origRow newRow
  let prevSwapRow := r.2
  let g ← (s.setTable b r.1).generateRandomRowAddr prevSwapRow b
  let s ← g.1.recordSwaps prevSwapRow g.2
  let t ← (s.tables b).install s.numTuples prevSwapRow g.2
  pure (s.setTable b t)

def installTuple (s : RandomizedRowSwap) (b : Bank) (origRow newRow : ℕ) :
    Except Fault RandomizedRowSwap := do
  let t ← (s.tables b).install s.numTuples origRow newRow
  pure (s.setTable b t)

/-- Above the demand, un-swap a valid tuple that is not locked. -/
def unswapExcess (s : RandomizedRowSwap) (b : Bank) : Except Fault RandomizedRowSwap :=
  if s.maxValidTuples<(s.tables b).validTuples then do
    let r ← (s.tables b).evict s.numTuples
    let s ← s.recordSwaps r.2.1 r.2.2
    pure (s.setTable b r.1)
  else pure s

def countSwap (s : Stats) (reswapped unswapped : Bool) : Stats :=
  match reswapped,unswapped with
  | false,false => {s with sCleanInstall := s.sCleanInstall+1}
  | false,true => {s with sOnlyUnswap := s.sOnlyUnswap+1}
  | true,false => {s with sCleanReswap := s.sCleanReswap+1}
  | true,true => {s with sDirtyReswap := s.sDirtyReswap+1}

/-- `insertTuple` after the draw of the new row. -/
def insertDrawn (s : RandomizedRowSwap) (origRow newRow : ℕ) (b : Bank) : Except Fault RandomizedRowSwap := do
  let index ← (s.tables b).rowHasEntry.read origRow
  let reswapTupleID ← (if index≠0 then do
      let e ← (s.tables b).tuples.read (index-1)
      check (e.valid=true ∧ e.has origRow) .swapEntry
      pure (index-1)
    else pure s.numTuples : Except Fault ℕ)
  let reswapped := decide (reswapTupleID<s.numTuples)
  let s ← (if reswapped=true then s.reswapTuple b reswapTupleID origRow newRow
    else s.installTuple b origRow newRow)
  let unswapped := decide (s.maxValidTuples<(s.tables b).validTuples)
  let s ← s.unswapExcess b
  check ((s.tables b).validTuples ≤ s.maxValidTuples) .tooManyTuples
  pure {s with stats := countSwap s.stats reswapped unswapped}

def insertTuple (s : RandomizedRowSwap) (origRow : ℕ) (b : Bank) : Except Fault RandomizedRowSwap := do
  check (s.hasBank b) .outOfBounds
  let d ← s.decision.recordSwap origRow
  let g ← {s with decision := d}.generateRandomRowAddr origRow b
  let newRow := g.2
  let d ← g.1.decision.recordSwap newRow
  insertDrawn {g.1 with decision := d} origRow newRow b

def sweepRows (threshold : ℕ) : ℕ → ℕ → RowStats → Cells ℕ → Except Fault (RowStats × Cells ℕ) :=
  Mitigation.sweepRows .intOverflow (RowStats.count · threshold)

def reset (s : RandomizedRowSwap) : Except Fault RandomizedRowSwap := do
  let swept ← sweepRows s.threshold (s.numRows*s.numBanks*s.numRanks*s.numChannels%2^32) 0
    s.stats.rows s.numAccessesToRow
  pure {s with
    tables := fun b => if s.hasBank b then (s.tables b).unlock s.numTuples else s.tables b
    detector := s.detector.reset
    stats := {s.stats with sNumResets := s.stats.sNumResets+1, rows := swept.1}
    numAccessesToRow := swept.2}

def access (s : RandomizedRowSwap) (currTick : UInt64) (rowAddr : ℕ) (b : Bank) :
    Except Fault RandomizedRowSwap := do
  let s := {s with
    stats := {s.stats with sNumAccesses := s.stats.sNumAccesses+1}, decision := .fresh}
  let s ← (if windowOver currTick s.lastReset=true then {s with lastReset := currTick}.reset
    else pure s)
  let row := (b.bankID+s.numBanks*rowAddr)
  let count ← s.numAccessesToRow.read row
  let s := {s with numAccessesToRow := s.numAccessesToRow.set row (inc32 count)}
  let r ← within Fault.detector (s.detector.access rowAddr b false)
  let s := {s with detector := r.1, decision := {s.decision with
    mitigate := r.2, sramDelay := s.decision.sramDelay+s.sramRitAccDelay} }
  if r.2=true then do
    let s ← s.insertTuple rowAddr b
    pure {s with decision := {s.decision with
      delay := s.swapDelay*UInt64.ofNat s.decision.validAddrs/2} }
  else pure s

end RandomizedRowSwap

end AquaGem5.Swap
