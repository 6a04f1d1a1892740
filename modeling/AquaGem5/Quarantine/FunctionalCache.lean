import AquaGem5.Lib.Cells

/-!
# The functional cache and the counting Bloom filter (rowhammer_mitigation.cc)

`mCache set` is the array `m_cache[set]`; every member function computes `set` as a
remainder by `m_sets`, so only the ways are bounded. The tag of a block is the whole row.
-/

namespace AquaGem5.Quarantine
open Checked

structure FuncCacheBlock where
  tag : ℕ
  valid : Bool
  dirty : Bool
  onlyOneRowRemapped : Bool
  rrip : ℕ
  deriving DecidableEq

structure FunctionalCache where
  mBlkOffset : ℕ
  mCache : ℕ → Cells FuncCacheBlock
  mSets : ℕ
  mWays : ℕ
  partialLookupFactor : ℕ
  sLookups : UInt64
  sHits : UInt64
  sFills : UInt64
  sInvalidations : UInt64
  sEvictions : UInt64

namespace FunctionalCache

inductive Fault where
  | outOfBounds
  | divByZero
  | badConversion
  | fillOfValidBlock
  | noVictim
  | invalidBlock
  deriving DecidableEq

instance : Undefined Fault := ⟨.outOfBounds,.divByZero,.badConversion⟩

/-- `partial_lookup_factor` is assigned by `MemCtrl`. -/
def construct (sets ways partialLookupFactor : ℕ) : FunctionalCache where
  mBlkOffset := 5
  mCache := fun _ => .calloc ways ⟨0,false,false,false,0⟩
  mSets := sets
  mWays := ways
  partialLookupFactor := partialLookupFactor
  sLookups := 0
  sHits := 0
  sFills := 0
  sInvalidations := 0
  sEvictions := 0

def setOf (c : FunctionalCache) (addr : ℕ) : Except Fault ℕ := umod (addr >>> c.mBlkOffset) c.mSets

def block (c : FunctionalCache) (set way : ℕ) : FuncCacheBlock := (c.mCache set).get way

def setBlock (c : FunctionalCache) (set way : ℕ) (b : FuncCacheBlock) : FunctionalCache :=
  {c with mCache := Function.update c.mCache set ((c.mCache set).set way b)}

/-- The search loop over the ways of a set: the first one, or `m_ways`. -/
def firstWay (c : FunctionalCache) (set : ℕ) (p : FuncCacheBlock → Bool) : ℕ :=
  ((List.range c.mWays).find? fun way => p (c.block set way)).getD c.mWays

def hasTag (addr : ℕ) (b : FuncCacheBlock) : Bool := b.valid&&b.tag == addr

def lookup (c : FunctionalCache) (addr : ℕ) (update : Bool) : Except Fault (FunctionalCache × ℕ) := do
  let set ← c.setOf addr
  let blkWay := c.firstWay set (hasTag addr)
  if update=true then
    let c := {c with sLookups := c.sLookups+1}
    if blkWay<c.mWays then
      pure ({c with sHits := c.sHits+1}.setBlock set blkWay
        {c.block set blkWay with rrip := 3},blkWay)
    else pure (c,blkWay)
  else pure (c,blkWay)

/-- `tag/partial_lookup_factor` inside the loop divides by what `addr` was divided by. -/
def partialLookup (c : FunctionalCache) (addr : ℕ) : Except Fault (FunctionalCache × ℕ) := do
  let set ← c.setOf addr
  let partialTag ← udiv addr c.partialLookupFactor
  let blkWay := c.firstWay set fun b => b.valid&&b.tag/c.partialLookupFactor == partialTag
  if blkWay<c.mWays then
    pure (c.setBlock set blkWay {c.block set blkWay with rrip := 3},blkWay)
  else pure (c,blkWay)

def fill (c : FunctionalCache) (addr blkWay : ℕ) : Except Fault FunctionalCache := do
  let set ← c.setOf addr
  let b ← (c.mCache set).read blkWay
  check (b.valid=false) .fillOfValidBlock
  pure {c.setBlock set blkWay ⟨addr,true,false,true,1⟩ with sFills := c.sFills+1}

def invalidate (c : FunctionalCache) (addr blkWay : ℕ) : Except Fault FunctionalCache := do
  let set ← c.setOf addr
  let b ← (c.mCache set).read blkWay
  if b.valid=false then pure c
  else pure {c.setBlock set blkWay ⟨0,false,false,false,0⟩ with
    sInvalidations := c.sInvalidations+1}

def ageSet (c : FunctionalCache) (set : ℕ) : FunctionalCache :=
  {c with mCache := Function.update c.mCache set ⟨(c.mCache set).size,fun way =>
      if way<c.mWays then {c.block set way with rrip := dec32 (c.block set way).rrip}
      else c.block set way⟩}

def searchVictim (set : ℕ) : ℕ → FunctionalCache → FunctionalCache × ℕ
  | 0,c => (c,c.mWays)
  | loopCount+1,c =>
    let way := c.firstWay set fun b => b.rrip == 0
    if way<c.mWays then (c,way) else searchVictim set loopCount (c.ageSet set)

def findVictim (c : FunctionalCache) (addr : ℕ) : Except Fault (FunctionalCache × ℕ) := do
  let set ← c.setOf addr
  let way := c.firstWay set fun b => !b.valid
  let r := if way=c.mWays then searchVictim set 4 {c with sEvictions := c.sEvictions+1}
    else (c,way)
  check (r.2<r.1.mWays) .noVictim
  pure r

def isBlockValid (c : FunctionalCache) (addr blkWay : ℕ) : Except Fault Bool := do
  let set ← c.setOf addr
  let b ← (c.mCache set).read blkWay
  pure b.valid

/-- The blocks that `Get_Block_Addr`, `SetDirtyBit` and `QueryDirtyBit` assert to be valid. -/
def validBlock (c : FunctionalCache) (addr blkWay : ℕ) : Except Fault (ℕ × FuncCacheBlock) := do
  let set ← c.setOf addr
  let b ← (c.mCache set).read blkWay
  check (b.valid=true) .invalidBlock
  pure (set,b)

def getBlockAddr (c : FunctionalCache) (addr blkWay : ℕ) : Except Fault ℕ := do
  let r ← c.validBlock addr blkWay
  pure r.2.tag

def queryDirtyBit (c : FunctionalCache) (addr blkWay : ℕ) : Except Fault Bool := do
  let r ← c.validBlock addr blkWay
  pure r.2.dirty

def setDirtyBit (c : FunctionalCache) (addr blkWay : ℕ) : Except Fault FunctionalCache := do
  let r ← c.validBlock addr blkWay
  pure (c.setBlock r.1 blkWay {r.2 with dirty := true})

end FunctionalCache

/-- `rqHash` is the pair of 64-bit words of `MurmurHash3_x64_128` over the four bytes of a row. -/
structure CountingBloomFilter where
  numHashes : ℕ
  numEntries : ℕ
  entries : Cells ℕ
  rqHash : ℕ → UInt64 × UInt64
  sTruePositives : UInt64
  sFalsePositives : UInt64
  sTrueNegatives : UInt64

namespace CountingBloomFilter

inductive Fault where
  | outOfBounds
  | divByZero
  | badConversion
  deriving DecidableEq

instance : Undefined Fault := ⟨.outOfBounds,.divByZero,.badConversion⟩

def nthHash (n : ℕ) (hashA hashB : UInt64) (filterSize : ℕ) : Except Fault ℕ :=
  umod (hashA+UInt64.ofNat n*hashB).toNat filterSize

def updateEntries (change : ℕ → ℕ) (f : CountingBloomFilter) (rowAddr : ℕ) :
    ℕ → ℕ → Except Fault CountingBloomFilter
  | 0,_ => pure f
  | fuel+1,n => do
    let i ← nthHash n (f.rqHash rowAddr).1 (f.rqHash rowAddr).2 f.numEntries
    let count ← f.entries.read i
    updateEntries change {f with entries := f.entries.set i (change count)} rowAddr fuel (n+1)

def add (f : CountingBloomFilter) (rowAddr : ℕ) : Except Fault CountingBloomFilter :=
  f.updateEntries inc32 rowAddr f.numHashes 0

def del (f : CountingBloomFilter) (rowAddr : ℕ) : Except Fault CountingBloomFilter :=
  f.updateEntries (fun count => if count=0 then 0 else dec32 count) rowAddr f.numHashes 0

def queryFrom (f : CountingBloomFilter) (rowAddr : ℕ) : ℕ → ℕ → Except Fault Bool
  | 0,_ => pure true
  | fuel+1,n => do
    let i ← nthHash n (f.rqHash rowAddr).1 (f.rqHash rowAddr).2 f.numEntries
    let count ← f.entries.read i
    if count=0 then pure false else f.queryFrom rowAddr fuel (n+1)

def query (f : CountingBloomFilter) (rowAddr : ℕ) : Except Fault Bool :=
  f.queryFrom rowAddr f.numHashes 0

end CountingBloomFilter

end AquaGem5.Quarantine
