import AquaGem5.Cache.SectorBlk
import AquaGem5.Lib.Links
import Mathlib.Data.Nat.Prime.Basic

/-!
# Fully associative LRU tags that track smaller caches (fa_lru.cc)

The blocks form one list from the most to the least recently used. A smaller cache holds the
blocks before its boundary, which every block's mask records.
-/

namespace AquaGem5.Cache
open Address Checked Links Nat

/-- The sizes in bytes, as the constructors accept them; they are `unsigned`. -/
structure FalruParams where
  size : ℕ
  blkSize : ℕ
  minTrackedSize : ℕ
  size_lt : size<2^32
  size_pow : size.isPowerOfTwo
  blkSize_pow : blkSize.isPowerOfTwo
  twoBlks : 2*blkSize ≤ size
  oneBlk : blkSize ≤ minTrackedSize
  fraction : ∃ k,minTrackedSize*2^k=size

namespace FalruParams

variable (p : FalruParams)

def numBlocks : ℕ := p.size/p.blkSize

def numTrackedCaches : ℕ :=
  if p.minTrackedSize<p.size then Nat.log2 p.size-Nat.log2 p.minTrackedSize else 0

def inAllCachesMask : BitVec 32 := (mask p.numTrackedCaches).setWidth 32

def trackedBlks (i : ℕ) : ℕ := (p.minTrackedSize <<< i)/p.blkSize

abbrev Blk : Type := Fin p.numBlocks

end FalruParams

structure FalruList (p : FalruParams) where
  prev : p.Blk → Option p.Blk
  next : p.Blk → Option p.Blk
  head : p.Blk
  tail : p.Blk
  inCachesMask : p.Blk → BitVec 32
  boundaries : ℕ → Option p.Blk

namespace FalruList

variable {p : FalruParams} (s : FalruList p)

def setMask (b : p.Blk) (m : BitVec 32) : FalruList p :=
  {s with inCachesMask := Function.update s.inCachesMask b m}

def setBoundary (i : ℕ) (b : Option p.Blk) : FalruList p :=
  {s with boundaries := Function.update s.boundaries i b}

/-- The loop body of `CacheTracking::moveBlockToHead`. -/
def shrinkCache (blk : p.Blk) (updateCachesMask : BitVec 32) (s : FalruList p) (i : ℕ) :
    Except Fault (FalruList p) :=
  let currentCacheMask := 1#32 <<< i
  if currentCacheMask &&& updateCachesMask≠0 then
    match s.boundaries i with
    | some b => .ok ((s.setMask b (s.inCachesMask b &&& ~~~currentCacheMask)).setBoundary i (s.prev b))
    | none => .error .null
  else if s.boundaries i=some blk then .ok (s.setBoundary i (s.prev blk))
  else .ok s

def moveBlockToHead (blk : p.Blk) : Except Fault (FalruList p) := do
  let updateCachesMask := p.inAllCachesMask ^^^ s.inCachesMask blk
  let s ← (List.range p.numTrackedCaches).foldlM (shrinkCache blk updateCachesMask) s
  return s.setMask blk p.inAllCachesMask

/-- The loop body of `CacheTracking::moveBlockToTail`. -/
def growCache (blk : p.Blk) (updateCachesMask : BitVec 32) (s : FalruList p) (i : ℕ) :
    Except Fault (FalruList p) :=
  let currentCacheMask := 1#32 <<< i
  if currentCacheMask &&& updateCachesMask≠0 then
    match s.boundaries i with
    | some b =>
      let boundary := if s.next b=some blk then s.next blk else s.next b
      match boundary with
      | some b => .ok ((s.setBoundary i (some b)).setMask b (s.inCachesMask b ||| currentCacheMask))
      | none => .error .null
    | none => .error .null
  else .ok s

def moveBlockToTail (blk : p.Blk) : Except Fault (FalruList p) := do
  let s ← (List.range p.numTrackedCaches).foldlM (growCache blk (s.inCachesMask blk)) s
  return s.setMask blk 0

/-- `blk->prev->next = blk->next` and `blk->next->prev = blk->prev`. -/
def unlinkInner (blk : p.Blk) : Except Fault (FalruList p) :=
  match s.prev blk,s.next blk with
  | some a,some c =>
    .ok {s with next := Function.update s.next a (some c), prev := Function.update s.prev c (some a)}
  | _,_ => .error .null

def leaveForHead (blk : p.Blk) : Except Fault (FalruList p) :=
  if blk=s.tail then
    if s.next blk≠none then .error .assertion
    else match s.prev blk with
      | some a => .ok {s with tail := a, next := Function.update s.next a none}
      | none => .error .null
  else s.unlinkInner blk

def moveToHead (blk : p.Blk) : Except Fault (FalruList p) :=
  if blk≠s.head then do
    let s ← s.moveBlockToHead blk
    let s ← s.leaveForHead blk
    return {s with
      next := Function.update s.next blk (some s.head)
      prev := Function.update (Function.update s.prev blk none) s.head (some blk)
      head := blk}
  else .ok s

def leaveForTail (blk : p.Blk) : Except Fault (FalruList p) :=
  if blk=s.head then
    if s.prev blk≠none then .error .assertion
    else match s.next blk with
      | some c => .ok {s with head := c, prev := Function.update s.prev c none}
      | none => .error .null
  else s.unlinkInner blk

def moveToTail (blk : p.Blk) : Except Fault (FalruList p) :=
  if blk≠s.tail then do
    let s ← s.moveBlockToTail blk
    let s ← s.leaveForTail blk
    return {s with
      prev := Function.update s.prev blk (some s.tail)
      next := Function.update (Function.update s.next blk none) s.tail (some blk)
      tail := blk}
  else .ok s

/-- The walk of `CacheTracking::check`, which the code compiles in for debugging. -/
def checkLoop (s : FalruList p) : ℕ → Option p.Blk → ℕ → ℕ → BitVec 32 → ℕ → Except Fault Unit
  | _,none,_,_,_,_ => .ok ()
  | 0,some _,_,_,_,_ => .error .endless
  | fuel+1,some blk,currSize,trackedCacheSize,inCachesMask,j =>
    if s.inCachesMask blk≠inCachesMask then .error .panic
    else
      let currSize := currSize+p.blkSize
      if currSize=trackedCacheSize ∧ blk≠s.tail then
        if s.boundaries j≠some blk then .error .panic
        else s.checkLoop fuel (s.next blk) currSize (trackedCacheSize <<< 1) (inCachesMask &&& ~~~(1#32 <<< j)) (j+1)
      else s.checkLoop fuel (s.next blk) currSize trackedCacheSize inCachesMask j

def check : Except Fault Unit :=
  s.checkLoop p.numBlocks (some s.head) 0 p.minTrackedSize p.inAllCachesMask 0

def initLoop : ℕ → FalruList p → Option p.Blk → ℕ → ℕ → BitVec 32 → ℕ → Except Fault (FalruList p)
  | _,s,none,_,_,_,_ => .ok s
  | 0,_,some _,_,_,_,_ => .error .endless
  | fuel+1,s,some blk,currSize,trackedCacheSize,inCachesMask,j =>
    let s := s.setMask blk inCachesMask
    let currSize := currSize+p.blkSize
    if currSize=trackedCacheSize ∧ blk≠s.tail then
      if j<p.numTrackedCaches then
        initLoop fuel (s.setBoundary j (some blk)) (s.next blk) currSize (trackedCacheSize <<< 1)
          (inCachesMask &&& ~~~(1#32 <<< j)) (j+1)
      else .error .bounds
    else initLoop fuel s (s.next blk) currSize trackedCacheSize inCachesMask j

end FalruList

namespace FalruParams

variable (p : FalruParams)

theorem blkSize_pos : 0<p.blkSize := Nat.pos_of_isPowerOfTwo p.blkSize_pow

theorem two_le_numBlocks : 2≤p.numBlocks := (Nat.le_div_iff_mul_le p.blkSize_pos).mpr p.twoBlks

def linkBlks : FalruList p where
  prev := fun b => if b.val=0 then none else some ⟨b.val-1,by omega⟩
  next := fun b => if h : b.val+1<p.numBlocks then some ⟨b.val+1,h⟩ else none
  head := ⟨0,by have h := p.two_le_numBlocks; omega⟩
  tail := ⟨p.numBlocks-1,by have h := p.two_le_numBlocks; omega⟩
  inCachesMask := fun _ => 0
  boundaries := fun _ => none

def tagsInit : Except Fault (FalruList p) :=
  FalruList.initLoop p.numBlocks p.linkBlks (if p.numTrackedCaches≠0 then some p.linkBlks.head else none) 0
    p.minTrackedSize p.inAllCachesMask 0

theorem exponents : ∃ a b c,p.blkSize=2^a ∧ p.minTrackedSize=2^(a+b) ∧ p.size=2^(a+b+c) := by
  obtain ⟨a,ha⟩:=p.blkSize_pow
  obtain ⟨n,hn⟩:=p.size_pow
  obtain ⟨c,hc⟩:=p.fraction
  have hdvd : p.minTrackedSize∣2^n := ⟨2^c,by rw [hc,hn]⟩
  obtain ⟨k,_,hk⟩:=(dvd_prime_pow prime_two).mp hdvd
  have hak : a≤k := by
    have hle:=p.oneBlk
    rw [ha,hk] at hle
    exact (Nat.pow_le_pow_iff_right (by decide)).mp hle
  refine ⟨a,k-a,c,ha,?_,?_⟩
  · rw [hk,Nat.add_sub_cancel' hak]
  · rw [← hc,hk,Nat.add_sub_cancel' hak,Nat.pow_add]

theorem trackedBlks_mul (i : ℕ) : p.trackedBlks i*p.blkSize=p.minTrackedSize <<< i := by
  obtain ⟨a,b,c,ha,hb,_⟩:=p.exponents
  rw [trackedBlks,ha,hb,shiftLeft_eq]
  apply Nat.div_mul_cancel
  rw [Nat.pow_add,mul_assoc]
  exact dvd_mul_right _ _

theorem trackedBlks_succ (i : ℕ) : p.trackedBlks (i+1)=2*p.trackedBlks i := by
  have hmul:=p.trackedBlks_mul i
  have hmul':=p.trackedBlks_mul (i+1)
  rw [shiftLeft_succ,← hmul] at hmul'
  have heq : p.trackedBlks (i+1)*p.blkSize=2*p.trackedBlks i*p.blkSize := by
    rw [hmul',mul_assoc]
  exact eq_of_mul_eq_mul_right p.blkSize_pos heq

theorem trackedBlks_pos (i : ℕ) : 0<p.trackedBlks i := by
  induction i with
  | zero => exact div_pos (by rw [Nat.shiftLeft_zero]; exact p.oneBlk) p.blkSize_pos
  | succ i ih =>
    rw [trackedBlks_succ]
    omega

theorem trackedBlks_lt {i j : ℕ} (h : i<j) : p.trackedBlks i<p.trackedBlks j := by
  induction j with
  | zero => omega
  | succ j ih =>
    have hpos:=p.trackedBlks_pos j
    rw [trackedBlks_succ]
    rcases Nat.lt_succ_iff_lt_or_eq.mp h with hlt | rfl
    · have hlt':=ih hlt
      omega
    · omega

theorem trackedBlks_inj {i j : ℕ} (h : p.trackedBlks i=p.trackedBlks j) : i=j := by
  rcases lt_trichotomy i j with hlt | heq | hlt
  · have hlt':=p.trackedBlks_lt hlt
    omega
  · exact heq
  · have hlt':=p.trackedBlks_lt hlt
    omega

theorem trackedBlks_last : p.trackedBlks p.numTrackedCaches=p.numBlocks := by
  obtain ⟨a,b,c,ha,hb,hc⟩:=p.exponents
  have hnum : p.numTrackedCaches=c := by
    rw [numTrackedCaches,hb,hc,log2_two_pow,log2_two_pow]
    split_ifs with hlt
    · omega
    · have hle : a+b+c≤a+b := by
        rw [not_lt] at hlt
        exact (Nat.pow_le_pow_iff_right (by decide)).mp hlt
      omega
  rw [trackedBlks,numBlocks,hnum,hb,hc,shiftLeft_eq,← Nat.pow_add]

theorem numTrackedCaches_lt : p.numTrackedCaches<32 := by
  have hlt:=p.size_lt
  obtain ⟨n,hn⟩:=p.size_pow
  rw [hn] at hlt
  have hlt':=(Nat.pow_lt_pow_iff_right (by decide)).mp hlt
  rw [numTrackedCaches,hn,log2_two_pow]
  split_ifs <;> omega

theorem trackedBlks_lt_numBlocks {i : ℕ} (h : i<p.numTrackedCaches) : p.trackedBlks i<p.numBlocks := by
  rw [← trackedBlks_last]
  exact p.trackedBlks_lt h

theorem oneBlock (h : p.minTrackedSize=p.blkSize) : p.trackedBlks 0=1 ∧ 0<p.numTrackedCaches := by
  have hblk : p.trackedBlks 0=1 := by
    rw [trackedBlks,Nat.shiftLeft_zero,h,Nat.div_self p.blkSize_pos]
  refine ⟨hblk,?_⟩
  by_contra hzero
  have hlast:=p.trackedBlks_last
  have htwo:=p.two_le_numBlocks
  have hnone : p.numTrackedCaches=0 := by omega
  rw [hnone,hblk] at hlast
  omega

theorem getLsbD_inAllCachesMask (i : ℕ) : p.inAllCachesMask.getLsbD i=decide (i<p.numTrackedCaches) := by
  have hlt:=p.numTrackedCaches_lt
  rw [inAllCachesMask,BitVec.getLsbD_setWidth,getLsbD_mask (by omega),← Bool.decide_and]
  exact decide_eq_decide.mpr (by omega)

end FalruParams

end AquaGem5.Cache
