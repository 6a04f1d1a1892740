import AquaGem5.Lib.Cells

/-!
# The Misra-Gries detector (rowhammer_detector.hh, rowhammer_detector.cc)

One tracker per bank: a table of entries, the index `rowHasEntry` from rows to entries
(one above the entry's number, zero for none) and the spill counter. Counters of type
`uint32_t` wrap; statistics keep the source's machine types.
-/

namespace AquaGem5.Detector
open Checked

/-- `staleIndex` is the assert of the hit path, `freeEntryInScan` the one inside the search loop. -/
inductive Fault where
  | outOfBounds
  | divByZero
  | badConversion
  | staleIndex
  | freeEntryInScan
  deriving DecidableEq

instance : Undefined Fault := ⟨.outOfBounds,.divByZero,.badConversion⟩

structure TrackerEntry where
  valid : Bool
  addr : ℕ
  count : ℕ
  deriving DecidableEq

structure Tracker where
  entries : Cells TrackerEntry
  spillCounter : ℕ
  uniqRows : List ℕ
  rowHasEntry : Cells ℕ
  sNumReset : UInt32
  sGlobSpillCount : UInt32
  sNumAccess : UInt64
  sNumInstall : UInt64
  sAggressors : UInt64

def Tracker.zeroed : Tracker := ⟨.calloc 0 ⟨false,0,0⟩,0,[],.calloc 0 0,0,0,0,0,0⟩

structure Bank where
  channelID : ℕ
  rankID : ℕ
  bankID : ℕ
  deriving DecidableEq

structure MisraGries where
  trackers : Bank → Tracker
  threshold : ℕ
  numEntries : ℕ
  numRows : ℕ
  numBanks : ℕ
  numRanks : ℕ
  numChannels : ℕ
  sNumUniqRows : UInt64

namespace Tracker

/-- `uniq_rows.insert(rowAddr).second` counts a row the first time it is flagged. -/
def recordAggressor (t : Tracker) (uniq : UInt64) (rowAddr : ℕ) : Tracker × UInt64 :=
  let t := {t with sAggressors := t.sAggressors+1}
  if rowAddr∈t.uniqRows then (t,uniq)
  else ({t with uniqRows := rowAddr::t.uniqRows},uniq+1)

def flag (threshold : ℕ) (t : Tracker) (uniq : UInt64) (rowAddr count : ℕ) :
    Except Fault (Tracker × UInt64 × Bool) := do
  let rest ← umod count threshold
  if rest=0 then
    let r := t.recordAggressor uniq rowAddr
    pure (r.1,r.2,true)
  else pure (t,uniq,false)

def hit (threshold : ℕ) (t : Tracker) (uniq : UInt64) (rowAddr entryID : ℕ) (isFuncLookup : Bool) :
    Except Fault (Tracker × UInt64 × Bool) := do
  let e ← t.entries.read entryID
  check (e.valid=true ∧ e.addr=rowAddr) .staleIndex
  if isFuncLookup=true then pure (t,uniq,true)
  else
    let e := {e with count := inc32 e.count}
    flag threshold {t with entries := t.entries.set entryID e} uniq rowAddr e.count

/-- The search loop from entry `ii` on: the first entry at the spill counter, or none. The
assert stands inside the loop, so an entry is checked only while the search passes it. -/
def scan (t : Tracker) : ℕ → ℕ → Except Fault (Option ℕ)
  | 0,_ => .ok none
  | fuel+1,ii => do
    let e ← t.entries.read ii
    if e.count=t.spillCounter then pure (some ii)
    else do
      check (e.valid=true) .freeEntryInScan
      t.scan fuel (ii+1)

def install (threshold : ℕ) (t : Tracker) (uniq : UInt64) (rowAddr ii : ℕ) :
    Except Fault (Tracker × UInt64 × Bool) := do
  let e ← t.entries.read ii
  let index ← (if e.valid=true then t.rowHasEntry.write e.addr 0 else pure t.rowHasEntry)
  let index ← index.write rowAddr (ii+1)
  let e := {valid := true, addr := rowAddr, count := inc32 e.count}
  flag threshold {t with entries := t.entries.set ii e, rowHasEntry := index,
                          sNumInstall := t.sNumInstall+1} uniq rowAddr e.count

/-- The body of `Misra_Gries::access` on one tracker; `uniq` is the detector's `s_numUniqRows`. -/
def access (numEntries threshold : ℕ) (t : Tracker) (uniq : UInt64) (rowAddr : ℕ)
    (isFuncLookup : Bool) : Except Fault (Tracker × UInt64 × Bool) := do
  let t := if isFuncLookup=true then t else {t with sNumAccess := t.sNumAccess+1}
  let index ← t.rowHasEntry.read rowAddr
  if index≠0 then t.hit threshold uniq rowAddr (index-1) isFuncLookup
  else if isFuncLookup=true then pure (t,uniq,false)
  else do
    let found ← t.scan numEntries 0
    match found with
    | some ii => t.install threshold uniq rowAddr ii
    | none => pure ({t with spillCounter := inc32 t.spillCounter},uniq,false)

def reset (numEntries numRows : ℕ) (t : Tracker) : Tracker :=
  {t with
    sNumReset := t.sNumReset+1
    sGlobSpillCount := t.sGlobSpillCount+UInt32.ofNat t.spillCounter
    spillCounter := 0
    entries := t.entries.fill numEntries ⟨false,0,0⟩
    rowHasEntry := t.rowHasEntry.fill numRows 0}

end Tracker

namespace MisraGries

def hasBank (d : MisraGries) (b : Bank) : Prop :=
  b.channelID<d.numChannels ∧ b.rankID<d.numRanks ∧ b.bankID<d.numBanks

instance (d : MisraGries) (b : Bank) : Decidable (d.hasBank b) :=
  inferInstanceAs (Decidable (_ ∧ _ ∧ _))

/-- `new Tracker[n]` runs no initializer for the counters of a tracker, so the constructor
leaves `spill_counter` and the statistics as `memory` held them. -/
def construct (numEntries threshold numRows numBanks numRanks numChannels : ℕ)
    (memory : Bank → Tracker) : MisraGries where
  trackers b := {memory b with
    entries := .calloc numEntries ⟨false,0,0⟩
    rowHasEntry := .calloc numRows 0
    uniqRows := []}
  threshold := threshold
  numEntries := numEntries
  numRows := numRows
  numBanks := numBanks
  numRanks := numRanks
  numChannels := numChannels
  sNumUniqRows := 0

def reset (d : MisraGries) : MisraGries :=
  {d with trackers := fun b =>
      if d.hasBank b then (d.trackers b).reset d.numEntries d.numRows else d.trackers b}

def access (d : MisraGries) (rowAddr : ℕ) (b : Bank) (isFuncLookup : Bool) :
    Except Fault (MisraGries × Bool) := do
  check (d.hasBank b) .outOfBounds
  let r ← (d.trackers b).access d.numEntries d.threshold d.sNumUniqRows rowAddr isFuncLookup
  pure ({d with trackers := Function.update d.trackers b r.1, sNumUniqRows := r.2.1},r.2.2)

end MisraGries

end AquaGem5.Detector
