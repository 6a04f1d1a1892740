import AquaGem5.Detector.MisraGries
import AquaGem5.Mitigation.Base
import AquaGem5.Quarantine.FunctionalCache
import Mathlib.Data.Nat.Log

/-!
# Row quarantine (`Row_Quarantine`, rowhammer_mitigation.cc)

The constructor sets `numBanks`, `numRanks` and `numChannels` to 1, so there is one pair of
indirection tables. Rows and slot numbers are below `numRows` and `numQREntries`, which are
32-bit, so neither is cut when an `Addr` holding one is assigned to a `uint32_t`.
-/

namespace AquaGem5.Quarantine
open Checked Detector Mitigation

/-- `rowNotMapped`, `filterEntryMissing` and `bitvectorZero` are the asserts of `removeRow`,
`slotNotMapped` is that of `quarantineRow` and `falseNegative` that of `addQCheckDelay`. -/
inductive Fault where
  | outOfBounds
  | divByZero
  | badConversion
  | cache (f : FunctionalCache.Fault)
  | filter (f : CountingBloomFilter.Fault)
  | detector (f : Detector.Fault)
  | rowNotMapped
  | filterEntryMissing
  | bitvectorZero
  | slotNotMapped
  | falseNegative
  deriving DecidableEq

instance : Undefined Fault := ⟨.outOfBounds,.divByZero,.badConversion⟩

structure Entry where
  valid : Bool
  value : ℕ
  deriving DecidableEq

structure IndirectionTables where
  rowToQRT : Cells Entry
  qrToRowT : Cells Entry
  nextFreeQRID : ℕ
  prevQRHeadID : ℕ
  qrTailID : ℕ

structure Stats where
  sNumResets : UInt64
  sNumAccesses : UInt64
  sMoveToQr : UInt64
  sMoveWithinQr : UInt64
  sMoveToQrRemove : UInt64
  sMoveWithinQrRemove : UInt64
  sDrainQr : UInt64
  sBtvTruePositives : UInt64
  sBtvFalsePositives : UInt64
  sBtvTrueNegatives : UInt64
  sCacheHit : UInt64
  sCachePartialHitOrrSet : UInt64
  sCachePartialHitOrrUnset : UInt64
  sCacheMiss : UInt64
  sCacheMissEntryInserts : UInt64
  sCacheMissLineEntryInserts : UInt64
  sCacheCleanEvicts : UInt64
  sCacheDirtyEvicts : UInt64
  sBtvResidency : Cells UInt64
  sQRCumulativeOccupancy : UInt64
  rows : RowStats

structure RowQuarantine where
  indirection : IndirectionTables
  randRowID : Cells ℕ
  numQREntries : ℕ
  numRows : ℕ
  threshold : ℕ
  lastReset : UInt64
  detector : MisraGries
  decision : Decision
  filter : Option CountingBloomFilter
  rowsPerBtvBit : ℕ
  bitvector : Cells ℕ
  orrCBF : Cells ℕ
  numAccessesToRow : Cells ℕ
  cache : Option FunctionalCache
  moveDelay : UInt64
  accDelay : UInt64
  virtualizeRIT : Bool
  sramRQTAccDelay : UInt64
  sramCacheAccDelay : UInt64
  sramCBFAccDelay : UInt64
  prevDrainCacheMissVal : UInt64
  drainCacheMissThreshold : UInt64
  stats : Stats

namespace IndirectionTables

def mapRow (t : IndirectionTables) (rowID : ℕ) : IndirectionTables :=
  {t with rowToQRT := t.rowToQRT.set rowID ⟨true,t.nextFreeQRID⟩}

def clearRow (t : IndirectionTables) (rowID : ℕ) : IndirectionTables :=
  {t with rowToQRT := t.rowToQRT.set rowID {t.rowToQRT.get rowID with valid := false} }

def fillSlot (t : IndirectionTables) (rowID : ℕ) : IndirectionTables :=
  {t with qrToRowT := t.qrToRowT.set t.nextFreeQRID ⟨true,rowID⟩}

def clearSlot (t : IndirectionTables) (slot : ℕ) : IndirectionTables :=
  {t with qrToRowT := t.qrToRowT.set slot {t.qrToRowT.get slot with valid := false} }

/-- `numQREntries` is not zero here: a slot of the region has been read. -/
def advanceTail (numQREntries : ℕ) (t : IndirectionTables) : IndirectionTables :=
  {t with qrTailID := (t.qrTailID+1)%numQREntries}

/-- The head moves on, and pushes the tail when it has wrapped around to it. -/
def advanceHead (numQREntries : ℕ) (t : IndirectionTables) : IndirectionTables :=
  let t := if t.nextFreeQRID=t.qrTailID ∧ t.nextFreeQRID≠t.prevQRHeadID
    then t.advanceTail numQREntries else t
  {t with nextFreeQRID := (t.nextFreeQRID+1)%numQREntries}

end IndirectionTables

namespace Stats

def countEvict (st : Stats) (isDirty : Bool) : Stats :=
  if isDirty=true then {st with sCacheDirtyEvicts := st.sCacheDirtyEvicts+1}
  else {st with sCacheCleanEvicts := st.sCacheCleanEvicts+1}

/-- The statistics of `move_op`: whether A was in the region, and whether B was removed. -/
def countMove (st : Stats) (inRegion removed : Bool) : Stats :=
  match inRegion,removed with
  | false,false => {st with sMoveToQr := st.sMoveToQr+1}
  | true,false => {st with sMoveWithinQr := st.sMoveWithinQr+1}
  | false,true => {st with sMoveToQrRemove := st.sMoveToQrRemove+1}
  | true,true => {st with sMoveWithinQrRemove := st.sMoveWithinQrRemove+1}

end Stats

namespace RowQuarantine

/-- The initial permutation after the swaps with `rand()%numDRAMRows`, from row `ii` on. -/
def shuffle (draws : ℕ → ℕ) (numDRAMRows : ℕ) : ℕ → ℕ → Cells ℕ → Cells ℕ
  | 0,_,ids => ids
  | fuel+1,ii,ids =>
    let jj := draws ii%numDRAMRows
    shuffle draws numDRAMRows fuel (ii+1) ((ids.set ii (ids.get jj)).set jj (ids.get ii))

def zeroed : RowQuarantine where
  indirection := ⟨.calloc 0 ⟨false,0⟩,.calloc 0 ⟨false,0⟩,0,0,0⟩
  randRowID := .calloc 0 0
  numQREntries := 0
  numRows := 0
  threshold := 0
  lastReset := 0
  detector := .construct 0 0 0 0 0 0 fun _ => .zeroed
  decision := .fresh
  filter := none
  rowsPerBtvBit := 0
  bitvector := .calloc 0 0
  orrCBF := .calloc 0 0
  numAccessesToRow := .calloc 0 0
  cache := none
  moveDelay := 0
  accDelay := 0
  virtualizeRIT := false
  sramRQTAccDelay := 0
  sramCacheAccDelay := 0
  sramCBFAccDelay := 0
  prevDrainCacheMissVal := 0
  drainCacheMissThreshold := 0
  stats := ⟨0,0,0,0,0,0,0,0,0,0,0,0,0,0,0,0,0,0,.calloc 4 0,0,⟨0,.calloc 4 0⟩⟩

/-- `draws` are the values of `rand()`. The members that the constructor does not assign, those
that `MemCtrl` assigns after it among them, stay as `memory` holds them. -/
def construct (numQREntries rowsPerBank threshold numBanks numRanks numChannels : ℕ)
    (draws : ℕ → ℕ) (memory : RowQuarantine) : RowQuarantine :=
  let numRows := rowsPerBank*numBanks*numRanks*numChannels%2^32
  {memory with
    indirection := ⟨.calloc numRows ⟨false,0⟩,.calloc numQREntries ⟨false,0⟩,0,0,0⟩
    randRowID := shuffle draws numRows numRows 0 ⟨numRows,id⟩
    numQREntries := numQREntries
    numRows := numRows
    threshold := threshold
    lastReset := 0
    bitvector := .calloc numRows 0
    orrCBF := .calloc numRows 0
    numAccessesToRow := .calloc numRows 0
    prevDrainCacheMissVal := 0
    stats := {memory.stats with
      sNumResets := 0, sNumAccesses := 0, sMoveToQr := 0, sMoveWithinQr := 0
      sMoveToQrRemove := 0, sMoveWithinQrRemove := 0, sDrainQr := 0, sBtvTruePositives := 0
      sBtvFalsePositives := 0, sBtvTrueNegatives := 0, sCacheHit := 0, sCachePartialHitOrrSet := 0
      sCachePartialHitOrrUnset := 0, sCacheMiss := 0, sQRCumulativeOccupancy := 0
      sBtvResidency := .calloc 4 0, rows := ⟨0,.calloc 4 0⟩} }

def addDelay (s : RowQuarantine) (delay : UInt64) : RowQuarantine :=
  {s with decision := {s.decision with delay := s.decision.delay+delay} }

def addVirtualDelay (s : RowQuarantine) (delay : UInt64) : RowQuarantine :=
  if s.virtualizeRIT=true then s.addDelay delay else s

def addSramDelay (s : RowQuarantine) (delay : UInt64) : RowQuarantine :=
  {s with decision := {s.decision with sramDelay := s.decision.sramDelay+delay} }

def addTableDelay (s : RowQuarantine) : RowQuarantine :=
  if s.virtualizeRIT=true then s.addDelay (2*s.accDelay) else s.addSramDelay s.sramRQTAccDelay

def generateCBFID (rowID : ℕ) : ℕ := rowID%2^32

def setFilterEntry (s : RowQuarantine) (index : ℕ) : Except Fault RowQuarantine :=
  match s.filter with
  | some f => do
    let f ← within Fault.filter (f.add index)
    pure {s with filter := some f}
  | none => do
    let group ← udiv index s.rowsPerBtvBit
    let count ← s.bitvector.read group
    let orr ← s.orrCBF.read group
    pure {s with bitvector := s.bitvector.set group (inc32 count),
                  orrCBF := s.orrCBF.set group (inc32 orr)}

def clearFilterEntry (s : RowQuarantine) (index : ℕ) : Except Fault RowQuarantine :=
  match s.filter with
  | some f => do
    let present ← within Fault.filter (f.query index)
    check (present=true) .filterEntryMissing
    let f ← within Fault.filter (f.del index)
    pure {s with filter := some f}
  | none => do
    let group ← udiv index s.rowsPerBtvBit
    let count ← s.bitvector.read group
    check (count≠0) .bitvectorZero
    pure {s with bitvector := s.bitvector.set group (dec32 count)}

/-- `(filter && filter->query(index)) || (bitvector && bitvector[index/rows_per_btv_bit])`. -/
def mayBeRemapped (s : RowQuarantine) (index : ℕ) : Except Fault Bool := do
  let inFilter ← (match s.filter with
    | some f => within Fault.filter (f.query index)
    | none => pure false : Except Fault Bool)
  if inFilter=true then pure true
  else do
    let group ← udiv index s.rowsPerBtvBit
    let count ← s.bitvector.read group
    pure (count≠0)

/-- What is evicted with a valid block: its dirty bit and its row. -/
def evictBlock (s : RowQuarantine) (c : FunctionalCache) (index blkWay : ℕ) :
    Except Fault (RowQuarantine × Bool × ℕ) := do
  let isDirty ← within Fault.cache (c.queryDirtyBit index blkWay)
  let evictedRowID ← within Fault.cache (c.getBlockAddr index blkWay)
  pure ({s with stats := s.stats.countEvict isDirty},isDirty,evictedRowID)

def removeRowFromCache (s : RowQuarantine) (c : FunctionalCache) (index : ℕ) :
    Except Fault (RowQuarantine × Bool) := do
  let r ← within Fault.cache (c.lookup index false)
  if r.2<r.1.mWays then do
    let e ← s.evictBlock r.1 index r.2
    let c ← within Fault.cache (r.1.invalidate index r.2)
    pure ({e.1 with cache := some c},e.2.1)
  else pure ({s with cache := some r.1},false)

def insertRowInCache (s : RowQuarantine) (c : FunctionalCache) (index : ℕ) (setDirty : Bool) :
    Except Fault (RowQuarantine × Bool × ℕ) := do
  let r ← within Fault.cache (c.findVictim index)
  let blkWay := r.2
  let valid ← within Fault.cache (r.1.isBlockValid index blkWay)
  let e ← (if valid=true then s.evictBlock r.1 index blkWay else pure (s,false,0))
  let c ← within Fault.cache (r.1.invalidate index blkWay)
  let c ← within Fault.cache (c.fill index blkWay)
  let c ← within Fault.cache (if setDirty=true then c.setDirtyBit index blkWay else pure c)
  pure ({e.1 with cache := some c},e.2)

/-- The first valid row of a group from row `i` on, or `numRows`. -/
def scanGroup (s : RowQuarantine) : ℕ → ℕ → Except Fault ℕ
  | 0,_ => pure s.numRows
  | fuel+1,i => do
    let e ← s.indirection.rowToQRT.read i
    if e.valid=true then pure i else s.scanGroup fuel (i+1)

/-- The row to insert after a miss: the row itself, or the first remapped row of its group. -/
def findInserted (s : RowQuarantine) (rowID index : ℕ) : Except Fault (RowQuarantine × ℕ) := do
  let e ← s.indirection.rowToQRT.read rowID
  if e.valid=true then
    pure ({s with stats := {s.stats with
      sCacheMissEntryInserts := s.stats.sCacheMissEntryInserts+1} },rowID)
  else do
    let line ← udiv rowID s.rowsPerBtvBit
    let insertedRowID ← s.scanGroup s.rowsPerBtvBit (line*s.rowsPerBtvBit)
    let group ← udiv index s.rowsPerBtvBit
    let orr ← s.orrCBF.read group
    if orr=1 then
      pure ({s with stats := {s.stats with
        sCacheMissLineEntryInserts := s.stats.sCacheMissLineEntryInserts+1} },insertedRowID)
    else pure (s,insertedRowID)

def mayInsert (s : RowQuarantine) (rowID index insertedRowID : ℕ) : Except Fault Bool :=
  if insertedRowID=rowID then pure true
  else do
    let group ← udiv index s.rowsPerBtvBit
    let orr ← s.orrCBF.read group
    pure (orr=1)

def cacheMiss (s : RowQuarantine) (c : FunctionalCache) (rowID index : ℕ) :
    Except Fault RowQuarantine := do
  let r ← s.addTableDelay.findInserted rowID index
  let s := r.1
  let insertedRowID := r.2
  if insertedRowID<s.numRows then do
    let insert ← s.mayInsert rowID index insertedRowID
    if insert=true then do
      let e ← s.insertRowInCache c (generateCBFID insertedRowID) false
      if s.virtualizeRIT=true ∧ e.2.1=true ∧ rowID/32≠e.2.2/32 then
        pure (e.1.addDelay (2*s.accDelay))
      else pure e.1
    else pure {s with cache := some c}
  else pure {s with cache := some c}

def checkCache (s : RowQuarantine) (c : FunctionalCache) (rowID index : ℕ) :
    Except Fault RowQuarantine := do
  let s := s.addSramDelay s.sramCacheAccDelay
  let r ← within Fault.cache (c.lookup index true)
  if r.2<r.1.mWays then
    pure {s with cache := some r.1,
                  stats := {s.stats with sCacheHit := s.stats.sCacheHit+1} }
  else do
    let p ← within Fault.cache (r.1.partialLookup index)
    if p.2<p.1.mWays then do
      let group ← udiv index s.rowsPerBtvBit
      let orr ← s.orrCBF.read group
      if orr=1 then
        pure {s with cache := some p.1, stats := {s.stats with
          sCachePartialHitOrrSet := s.stats.sCachePartialHitOrrSet+1} }
      else do
        let s := {s with stats := {s.stats with
          sCachePartialHitOrrUnset := s.stats.sCachePartialHitOrrUnset+1} }
        s.cacheMiss p.1 rowID index
    else do
      let s := {s with stats := {s.stats with sCacheMiss := s.stats.sCacheMiss+1} }
      s.cacheMiss p.1 rowID index

/-- The counters of the bitvector, or of the filter when there is one. -/
def countPositive (s : RowQuarantine) (remapped : Bool) : RowQuarantine :=
  match s.filter,remapped with
  | some f,true => {s with filter := some {f with sTruePositives := f.sTruePositives+1} }
  | some f,false => {s with filter := some {f with sFalsePositives := f.sFalsePositives+1} }
  | none,true => {s with stats := {s.stats with
      sBtvTruePositives := s.stats.sBtvTruePositives+1} }
  | none,false => {s with stats := {s.stats with
      sBtvFalsePositives := s.stats.sBtvFalsePositives+1} }

def countNegative (s : RowQuarantine) : RowQuarantine :=
  match s.filter with
  | some f => {s with filter := some {f with sTrueNegatives := f.sTrueNegatives+1} }
  | none => {s with stats := {s.stats with sBtvTrueNegatives := s.stats.sBtvTrueNegatives+1} }

def addQCheckDelay (s : RowQuarantine) (rowID : ℕ) : Except Fault RowQuarantine := do
  let index := generateCBFID rowID
  let s := s.addSramDelay s.sramCBFAccDelay
  let possible ← s.mayBeRemapped index
  if possible=true then do
    let s ← (match s.cache with
      | some c => s.checkCache c rowID index
      | none => pure s.addTableDelay : Except Fault RowQuarantine)
    let e ← s.indirection.rowToQRT.read rowID
    pure (s.countPositive e.valid)
  else do
    let e ← s.indirection.rowToQRT.read rowID
    check (e.valid=false) .falseNegative
    pure s.countNegative

/-- The cache and `ORR_CBF` part of `removeRow`. -/
def uncacheRow (s : RowQuarantine) (index : ℕ) : Except Fault (RowQuarantine × Bool) :=
  match s.cache with
  | some c => do
    let r ← s.removeRowFromCache c index
    let group ← udiv index s.rowsPerBtvBit
    let orr ← s.orrCBF.read group
    pure ({r.1 with orrCBF := s.orrCBF.set group (dec32 orr)},r.2)
  | none => pure (s,false)

def removeRow (s : RowQuarantine) (slot : ℕ) : Except Fault (RowQuarantine × Bool) := do
  let b ← s.indirection.qrToRowT.read slot
  let e ← s.indirection.rowToQRT.read b.value
  check (e.valid=true) .rowNotMapped
  let s := {s with indirection := (s.indirection.clearSlot slot).clearRow b.value}
  let s ← s.clearFilterEntry (generateCBFID b.value)
  s.uncacheRow (generateCBFID b.value)

def drainRow (s : RowQuarantine) : Except Fault RowQuarantine := do
  let s := s.addVirtualDelay s.accDelay
  let b ← s.indirection.qrToRowT.read s.indirection.qrTailID
  if s.indirection.qrTailID≠s.indirection.prevQRHeadID ∧ b.valid=true then do
    let s := {s with stats := {s.stats with sDrainQr := s.stats.sDrainQr+1} }
    let r ← s.removeRow s.indirection.qrTailID
    -- both branches on the dirty bit of the cached entry add the same delay
    let s := ((r.1.addDelay s.moveDelay).addVirtualDelay s.accDelay).addVirtualDelay s.accDelay
    pure {s with indirection := s.indirection.advanceTail s.numQREntries}
  else pure s

/-- Add A to the cache, or mark its entry dirty. -/
def cacheRow (s : RowQuarantine) (index : ℕ) : Except Fault RowQuarantine :=
  match s.cache with
  | some c => do
    let r ← within Fault.cache (c.lookup index false)
    if r.2=r.1.mWays then do
      let e ← s.insertRowInCache r.1 index true
      pure (if e.2.1=true then e.1.addVirtualDelay (2*s.accDelay) else e.1)
    else do
      let c ← within Fault.cache (r.1.setDirtyBit index r.2)
      pure {s with cache := some c}
  | none => pure (s.addVirtualDelay s.accDelay)

/-- The first part of `quarantineRow`: A is put to Qi in the filter, the table and the cache. -/
def enterRow (s : RowQuarantine) (rowID : ℕ) (inRegion : Bool) : Except Fault RowQuarantine := do
  let s ← (if inRegion=true then pure s else s.setFilterEntry (generateCBFID rowID))
  let s := {s with indirection := s.indirection.mapRow rowID}
  s.cacheRow (generateCBFID rowID)

/-- The second part: if Qi has B, remove it. -/
def displaceRow (s : RowQuarantine) (rowID : ℕ) (inRegion : Bool) (b : Entry) :
    Except Fault RowQuarantine :=
  if b.valid=true then do
    let r ← s.removeRow s.indirection.nextFreeQRID
    let s := r.1.addDelay s.moveDelay
    -- again one delay, whatever the dirty bit
    pure (if inRegion=true ∧ rowID/32≠b.value/32 then s.addVirtualDelay s.accDelay else s)
  else pure s

/-- The third part: Qi is put to A, and Qj, if A was there, is freed. -/
def placeRow (s : RowQuarantine) (rowID : ℕ) (orig : Entry) : Except Fault RowQuarantine := do
  let s := (s.addDelay s.moveDelay).addVirtualDelay s.accDelay
  check (s.indirection.nextFreeQRID<s.indirection.qrToRowT.size) .outOfBounds
  let s := {s with indirection := s.indirection.fillSlot rowID}
  if orig.valid=true then do
    let s := if s.indirection.nextFreeQRID/16≠orig.value/16 then s.addVirtualDelay s.accDelay
      else s
    let e ← s.indirection.qrToRowT.read orig.value
    check (e.valid=true) .slotNotMapped
    pure {s with indirection := s.indirection.clearSlot orig.value}
  else pure s

def quarantineRow (s : RowQuarantine) (rowID : ℕ) : Except Fault RowQuarantine := do
  let orig ← s.indirection.rowToQRT.read rowID
  let s ← s.enterRow rowID orig.valid
  let s := s.addVirtualDelay s.accDelay
  let b ← s.indirection.qrToRowT.read s.indirection.nextFreeQRID
  let s ← s.displaceRow rowID orig.valid b
  let s ← s.placeRow rowID orig
  pure {s with indirection := s.indirection.advanceHead s.numQREntries,
                stats := s.stats.countMove orig.valid b.valid}

/-- The loop over the rows of `reset`, from row `rval` on. -/
def sweepRows (s : RowQuarantine) : ℕ → ℕ → Except Fault RowQuarantine
  | 0,_ => pure s
  | fuel+1,rval => do
    let count ← s.numAccessesToRow.read rval
    let s := {s with numAccessesToRow := s.numAccessesToRow.set rval 0,
                      stats := {s.stats with rows := s.stats.rows.count s.threshold count} }
    let groups ← udiv s.numRows s.rowsPerBtvBit
    if rval<groups then do
      let residents ← s.bitvector.read rval
      let bucket := min residents 3
      let residency := s.stats.sBtvResidency.set bucket (s.stats.sBtvResidency.get bucket+1)
      let s := {s with stats := {s.stats with sBtvResidency := residency} }
      s.sweepRows fuel (rval+1)
    else s.sweepRows fuel (rval+1)

def occupancy (s : RowQuarantine) : ℕ :=
  (List.range s.numQREntries).countP fun slot => (s.indirection.qrToRowT.get slot).valid

def reset (s : RowQuarantine) : Except Fault RowQuarantine :=
  let stats := {s.stats with
    sNumResets := s.stats.sNumResets+1
    sQRCumulativeOccupancy := s.stats.sQRCumulativeOccupancy+UInt64.ofNat s.occupancy}
  let indirection := {s.indirection with prevQRHeadID := s.indirection.nextFreeQRID}
  let s := {s with detector := s.detector.reset, indirection := indirection, stats := stats}
  s.sweepRows s.numRows 0

structure DecodedAddr where
  rowID : ℕ
  bank : Bank
  deriving DecidableEq

def decodeAddr (s : RowQuarantine) (addr : ℕ) : Except Fault (RowQuarantine × DecodedAddr) := do
  let rowAddr := addr/8192%2^32
  let count ← s.numAccessesToRow.read rowAddr
  let s := {s with numAccessesToRow := s.numAccessesToRow.set rowAddr (inc32 count)}
  let rowAddr ← s.randRowID.read rowAddr
  let rowID ← umod (rowAddr/16) (s.numRows/16)
  pure (s,⟨rowID,⟨0,0,rowAddr%16⟩⟩)

/-- The start of `access`, with the reset when the window is over. -/
def startAccess (s : RowQuarantine) (currTick : UInt64) : Except Fault RowQuarantine :=
  let s := {s with
    stats := {s.stats with sNumAccesses := s.stats.sNumAccesses+1}, decision := Decision.fresh}
  if windowOver currTick s.lastReset=true then {s with lastReset := currTick}.reset else pure s

/-- `access` up to the answer of the detector. -/
def detect (s : RowQuarantine) (currTick : UInt64) (addr : ℕ) : Except Fault RowQuarantine := do
  let s ← s.startAccess currTick
  let rowID ← s.randRowID.read (addr/8192)
  let s ← s.addQCheckDelay rowID
  let r ← s.decodeAddr addr
  let s := r.1
  let d ← within Fault.detector (s.detector.access r.2.rowID r.2.bank false)
  pure {s with detector := d.1, decision := {s.decision with mitigate := d.2} }

def access (s : RowQuarantine) (currTick : UInt64) (addr : ℕ) : Except Fault RowQuarantine := do
  let s ← s.detect currTick addr
  let misses := s.stats.sCacheMiss+s.stats.sCachePartialHitOrrUnset
  if s.decision.mitigate=true then do
    let rowID ← s.randRowID.read (addr/8192)
    s.quarantineRow rowID
  else if s.drainCacheMissThreshold ≤ misses-s.prevDrainCacheMissVal then do
    let s := {s with prevDrainCacheMissVal := misses}
    s.drainRow
  else pure s

end RowQuarantine

/-!
## The row quarantine `MemCtrl` builds (mem_ctrl.cc)

The `rh_mitigation == "RQ"` branch of the constructor. `log2` of the quotient is negative
infinity for a group of more than 32 rows, whose conversion to `int` is undefined.
-/

structure MemCtrlParams where
  rhActualThreshold : ℕ
  rowsPerBank : ℕ
  banksPerRank : ℕ
  ranksPerChannel : ℕ
  rhRqQrSize : ℕ
  rhRqCacheSets : ℕ
  rhRqRowsPerBtvBit : ℕ
  rhRqDrainThreshold : UInt64
  rhRqVirtualizeRit : Bool
  rhRrsSwapDelay : UInt64
  rhRitAccDelay : UInt64

/-- 8KB, 16KB, 32KB, 64KB, 128KB, 256KB. -/
def delayPsCacti : Cells UInt64 := ⟨6,fun i => [136,167,227,316,431,628].getD i 0⟩

/-- The bank and rank counts are cut to the `uint8_t` of the constructors; `trackers` is the
memory of the detector, whose counters no constructor initializes. -/
def buildRQ (p : MemCtrlParams) (draws : ℕ → ℕ) (trackers : Bank → Tracker) (memory : RowQuarantine) :
    Except Fault RowQuarantine := do
  let rhThreshold := p.rhActualThreshold/2
  let rhMgEntries ← udiv 1360000 rhThreshold
  let cacheDelay ← delayPsCacti.read (p.rhRqCacheSets/256)
  let lines ← udiv 32 p.rhRqRowsPerBtvBit
  check (lines≠0) .badConversion
  let cbfDelay ← delayPsCacti.read (Nat.log 2 lines)
  let numBanks := p.banksPerRank%256
  let numRanks := p.ranksPerChannel%256
  pure {RowQuarantine.construct p.rhRqQrSize p.rowsPerBank rhThreshold numBanks numRanks 1 draws memory with
    filter := none
    cache := some (.construct p.rhRqCacheSets 16 p.rhRqRowsPerBtvBit)
    moveDelay := p.rhRrsSwapDelay/2
    accDelay := 45000
    rowsPerBtvBit := p.rhRqRowsPerBtvBit
    drainCacheMissThreshold := p.rhRqDrainThreshold
    virtualizeRIT := p.rhRqVirtualizeRit
    sramCacheAccDelay := if p.rhRqVirtualizeRit=true then cacheDelay else 0
    sramCBFAccDelay := if p.rhRqVirtualizeRit=true then cbfDelay else 0
    sramRQTAccDelay := if p.rhRqVirtualizeRit=true then memory.sramRQTAccDelay else p.rhRitAccDelay
    detector := .construct rhMgEntries rhThreshold p.rowsPerBank numBanks numRanks 1 trackers}

end AquaGem5.Quarantine
