import AquaGem5.Address.AddrRange

/-!
# Virtual memory areas (vma.hh, vma.cc)

A host pointer is a natural number, and a mapped file buffer is known by a number. The ranges of areas are not
interleaved, so the tests on them do not panic.
-/

namespace AquaGem5.Sim
open Address (Addr AddrRange)

inductive Fault where
  | assertion
  | endless
  deriving DecidableEq

structure VMA where
  addrRange : AddrRange
  pageBytes : Addr
  origHostBuf : Option ℕ
  hostBuf : ℕ
  hostBufLen : Addr
  vmaName : String
  deriving DecidableEq

namespace VMA

variable (v : VMA)

def start : Addr := v.addrRange._start

def stop : Addr := v.addrRange._end

def hasHostBuf : Bool := v.origHostBuf.isSome

/-- What `fillMemPages` copies to an address: a byte of the host buffer, if the offset is not beyond it. -/
def backing (a : ℕ) : Option (ℕ × ℕ) :=
  match v.origHostBuf with
  | none => none
  | some file => if a-v.start.toNat<v.hostBufLen.toNat then some (file,v.hostBuf+(a-v.start.toNat)) else none

def isStrictSuperset (r : AddrRange) : Bool := decide (v.start<r._start)&&decide (r._end<v.stop)

def isSubset (r : AddrRange) : Bool := decide (v.addrRange.isSubset r = .ok true)

def intersects (r : AddrRange) : Bool := decide (v.addrRange.intersects r = .ok true)

def sanityCheck : Except Fault VMA :=
  if v.start≠v.stop ∧ v.start<v.stop ∧ v.start%v.pageBytes=0 ∧ v.stop%v.pageBytes=0 then .ok v
  else .error .assertion

def sliceRegionRight (sliceAddr : Addr) : Except Fault VMA :=
  let nonoverlapLen := sliceAddr-v.start
  sanityCheck {v with
    hostBufLen := if v.hasHostBuf&&decide (nonoverlapLen<v.hostBufLen) then nonoverlapLen else v.hostBufLen
    addrRange := ⟨v.start,sliceAddr,[],0⟩}

def sliceRegionLeft (sliceAddr : Addr) : Except Fault VMA :=
  let overlapLen := sliceAddr-v.start
  let dropped : VMA :=
    if v.hasHostBuf then
      if v.hostBufLen≤overlapLen then
        {v with hostBufLen := 0, origHostBuf := none, hostBuf := overlapLen.toNat}
      else {v with hostBufLen := v.hostBufLen-overlapLen, hostBuf := v.hostBuf+overlapLen.toNat}
    else v
  sanityCheck {dropped with addrRange := ⟨sliceAddr,v.stop,[],0⟩}

def remap (newStart : Addr) : Except Fault VMA :=
  sanityCheck {v with addrRange := ⟨newStart,newStart+v.addrRange.size,[],0⟩}

def Has (a : ℕ) : Prop := v.start.toNat≤a ∧ a<v.stop.toNat

def view (a : ℕ) : String × Option (ℕ × ℕ) := (v.vmaName,v.backing a)

structure Formed (page : Addr) (v : VMA) : Prop where
  plain : v.addrRange.masks=[]
  bytes : v.pageBytes=page
  lt : v.start<v.stop
  startAligned : v.start%page=0
  stopAligned : v.stop%page=0

structure Part (v w : VMA) (lo hi : ℕ) : Prop where
  start : w.start.toNat=lo
  stop : w.stop.toNat=hi
  view : ∀ a, lo≤a → a<hi → w.view a=v.view a

structure Moved (v w : VMA) (dst : ℕ) : Prop where
  start : w.start.toNat=dst
  stop : w.stop.toNat=dst+(v.stop.toNat-v.start.toNat)
  view : ∀ d, v.start.toNat+d<v.stop.toNat → w.view (dst+d)=v.view (v.start.toNat+d)

variable {v w : VMA} {page x : Addr} {lo hi : ℕ}

theorem sanityCheck_ok (hlt : v.start<v.stop) (hs : v.start%v.pageBytes=0) (he : v.stop%v.pageBytes=0) :
    v.sanityCheck = .ok v := by
  have hne : v.start≠v.stop := fun h => by
    rw [h] at hlt
    exact BitVec.lt_irrefl _ hlt
  rw [sanityCheck,if_pos ⟨hne,hlt,hs,he⟩]

theorem backing_none (hb : v.origHostBuf=none) (a : ℕ) : v.backing a=none := by rw [backing,hb]

theorem backing_some {file : ℕ} (hb : v.origHostBuf=some file) (a : ℕ) : v.backing a =
    if a-v.start.toNat<v.hostBufLen.toNat then some (file,v.hostBuf+(a-v.start.toNat)) else none := by
  rw [backing,hb]

theorem hasHostBuf_of_some {file : ℕ} (hb : v.origHostBuf=some file) : v.hasHostBuf=true := by
  rw [hasHostBuf,hb]
  rfl

theorem Formed.sliceRegionRight (hv : Formed page v) (hx : x%page=0) (h1 : v.start<x) :
    ∃ w, v.sliceRegionRight x = .ok w ∧ Formed page w ∧ Part v w v.start.toNat x.toNat := by
  have hp:=hv.bytes
  have hs : v.start%v.pageBytes=0 := hp ▸ hv.startAligned
  have he : x%v.pageBytes=0 := hp ▸ hx
  rw [VMA.sliceRegionRight,sanityCheck_ok (by exact h1) (by exact hs) (by exact he)]
  refine ⟨_,rfl,⟨rfl,hp,h1,hv.startAligned,hx⟩,rfl,rfl,fun a ha hax => ?_⟩
  rw [view,view,Prod.mk.injEq]
  refine ⟨rfl,?_⟩
  cases hb : v.origHostBuf with
  | none => rw [backing_none hb,backing_none rfl]
  | some file =>
    rw [backing_some hb,backing_some rfl]
    have hlen : (x-v.start).toNat=x.toNat-v.start.toNat := BitVec.toNat_sub_of_le (BitVec.le_of_lt h1)
    have hcut : a-v.start.toNat<(if v.hasHostBuf&&decide (x-v.start<v.hostBufLen) then x-v.start
        else v.hostBufLen).toNat ↔ a-v.start.toNat<v.hostBufLen.toNat := by
      rw [hasHostBuf_of_some hb,Bool.true_and]
      split
      case isTrue h =>
        rw [decide_eq_true_eq,BitVec.lt_def] at h
        omega
      case isFalse => exact Iff.rfl
    exact if_congr hcut rfl rfl

theorem Formed.sliceRegionLeft (hv : Formed page v) (hx : x%page=0) (h1 : v.start≤x) (h2 : x<v.stop) :
    ∃ w, v.sliceRegionLeft x = .ok w ∧ Formed page w ∧ Part v w x.toNat v.stop.toNat := by
  have hp:=hv.bytes
  have hs : x%v.pageBytes=0 := hp ▸ hx
  have he : v.stop%v.pageBytes=0 := hp ▸ hv.stopAligned
  have hlen : (x-v.start).toNat=x.toNat-v.start.toNat := BitVec.toNat_sub_of_le h1
  have hle:=BitVec.le_def.mp h1
  cases hb : v.origHostBuf with
  | none =>
    have hslice : v.sliceRegionLeft x=sanityCheck {v with addrRange := ⟨x,v.stop,[],0⟩} := by
      rw [VMA.sliceRegionLeft,if_neg (by rw [hasHostBuf,hb]; exact Bool.false_ne_true)]
    rw [hslice,sanityCheck_ok (by exact h2) (by exact hs) (by exact he)]
    refine ⟨_,rfl,⟨rfl,hp,h2,hx,hv.stopAligned⟩,rfl,rfl,fun a ha hax => ?_⟩
    rw [view,view,backing_none hb,backing_none (by exact hb)]
  | some file =>
    by_cases hd : v.hostBufLen≤x-v.start
    · have hslice : v.sliceRegionLeft x=sanityCheck {v with
          hostBufLen := 0, origHostBuf := none, hostBuf := (x-v.start).toNat, addrRange := ⟨x,v.stop,[],0⟩} := by
        rw [VMA.sliceRegionLeft,hasHostBuf_of_some hb,if_pos rfl,if_pos hd]
      rw [hslice,sanityCheck_ok (by exact h2) (by exact hs) (by exact he)]
      refine ⟨_,rfl,⟨rfl,hp,h2,hx,hv.stopAligned⟩,rfl,rfl,fun a ha hax => ?_⟩
      rw [BitVec.le_def] at hd
      rw [view,view,backing_some hb,if_neg (by omega),backing_none rfl]
    · have hslice : v.sliceRegionLeft x=sanityCheck {v with
          hostBufLen := v.hostBufLen-(x-v.start), hostBuf := v.hostBuf+(x-v.start).toNat
          addrRange := ⟨x,v.stop,[],0⟩} := by
        rw [VMA.sliceRegionLeft,hasHostBuf_of_some hb,if_pos rfl,if_neg hd]
      rw [hslice,sanityCheck_ok (by exact h2) (by exact hs) (by exact he)]
      refine ⟨_,rfl,⟨rfl,hp,h2,hx,hv.stopAligned⟩,rfl,rfl,fun a ha hax => ?_⟩
      have hd' : x-v.start≤v.hostBufLen := BitVec.le_of_lt (BitVec.not_le.mp hd)
      have hrest : (v.hostBufLen-(x-v.start)).toNat=v.hostBufLen.toNat-(x-v.start).toNat :=
        BitVec.toNat_sub_of_le hd'
      rw [view,view,Prod.mk.injEq]
      refine ⟨rfl,?_⟩
      rw [backing_some hb,backing_some (by exact hb)]
      refine if_congr ?_ ?_ rfl
      · show a-x.toNat<(v.hostBufLen-(x-v.start)).toNat ↔ _
        rw [hrest]
        omega
      · show some (file,v.hostBuf+(x-v.start).toNat+(a-x.toNat))=_
        rw [hlen,show v.hostBuf+(x.toNat-v.start.toNat)+(a-x.toNat)=v.hostBuf+(a-v.start.toNat) by omega]

theorem Formed.remap (hv : Formed page v) {newStart : Addr} (hn : newStart.toNat%page.toNat=0)
    (hfit : newStart.toNat+(v.stop.toNat-v.start.toNat)<2^64) :
    ∃ w, v.remap newStart = .ok w ∧ Formed page w ∧ Moved v w newStart.toNat := by
  have hp:=hv.bytes
  have hlt:=BitVec.lt_def.mp hv.lt
  have hsize : v.addrRange.size=v.stop-v.start := by
    rw [AddrRange.size,hv.plain]
    exact BitVec.ushiftRight_zero _
  have hlen : (v.stop-v.start).toNat=v.stop.toNat-v.start.toNat := BitVec.toNat_sub_of_le (BitVec.le_of_lt hv.lt)
  have hstop : (newStart+v.addrRange.size).toNat=newStart.toNat+(v.stop.toNat-v.start.toNat) := by
    rw [BitVec.toNat_add,hsize,hlen,Nat.mod_eq_of_lt hfit]
  have hs : newStart%v.pageBytes=0 := by
    rw [hp]
    exact BitVec.eq_of_toNat_eq (by rw [BitVec.toNat_umod]; exact hn)
  have he : (newStart+v.addrRange.size)%v.pageBytes=0 := by
    have h1:=congrArg BitVec.toNat hv.startAligned
    have h2:=congrArg BitVec.toNat hv.stopAligned
    rw [BitVec.toNat_umod] at h1 h2
    refine BitVec.eq_of_toNat_eq ?_
    rw [BitVec.toNat_umod,hstop,hp]
    exact Nat.mod_eq_zero_of_dvd ((Nat.dvd_add (Nat.dvd_of_mod_eq_zero hn)
      (Nat.dvd_sub (Nat.dvd_of_mod_eq_zero h2) (Nat.dvd_of_mod_eq_zero h1))))
  have hlt' : newStart<newStart+v.addrRange.size := by
    rw [BitVec.lt_def,hstop]
    omega
  rw [VMA.remap,sanityCheck_ok (by exact hlt') (by exact hs) (by exact he)]
  refine ⟨_,rfl,⟨rfl,hp,hlt',hp ▸ hs,hp ▸ he⟩,rfl,hstop,fun d hd => ?_⟩
  rw [view,view,Prod.mk.injEq]
  refine ⟨rfl,?_⟩
  cases hb : v.origHostBuf with
  | none => rw [backing_none hb,backing_none rfl]
  | some file =>
    rw [backing_some hb,backing_some rfl,Nat.add_sub_cancel_left]
    show (if newStart.toNat+d-newStart.toNat<_ then some (file,v.hostBuf+(newStart.toNat+d-newStart.toNat))
      else none)=_
    rw [Nat.add_sub_cancel_left]

theorem isStrictSuperset_iff (v : VMA) (first last : Addr) :
    v.isStrictSuperset ⟨first,last,[],0⟩=true ↔ v.start<first ∧ last<v.stop := by
  rw [isStrictSuperset,Bool.and_eq_true,decide_eq_true_eq,decide_eq_true_eq]

theorem isSubset_iff (hv : Formed page v) (first last : Addr) :
    v.isSubset ⟨first,last,[],0⟩=true ↔ first≤v.start ∧ v.stop≤last := by
  have hi : v.addrRange.interleaved=false := by
    rw [AddrRange.interleaved,hv.plain]
    rfl
  rw [isSubset,AddrRange.isSubset,hi,if_neg Bool.false_ne_true,decide_eq_true_eq]
  exact (Except.ok.injEq ..).to_iff.trans decide_eq_true_iff

theorem intersects_iff (hv : Formed page v) (first last : Addr) :
    v.intersects ⟨first,last,[],0⟩=true ↔ v.start<last ∧ first<v.stop := by
  have hi : v.addrRange.interleaved=false := by
    rw [AddrRange.interleaved,hv.plain]
    rfl
  rw [intersects,AddrRange.intersects,hi,decide_eq_true_eq]
  by_cases h : last≤v.addrRange._start ∨ v.addrRange._end≤first
  · rw [if_pos h]
    refine iff_of_false (fun hf => by cases hf) fun ⟨h1,h2⟩ => ?_
    rcases h with h | h
    · exact BitVec.not_lt.mpr h h1
    · exact BitVec.not_lt.mpr h h2
  · rw [if_neg h]
    rw [not_or,BitVec.not_le,BitVec.not_le] at h
    exact iff_of_true rfl h

end VMA

/-!
## Unmapping and remapping regions (mem_state.cc)

The page table and the TLBs are left out: the loops over the pages return the pages they go through.
-/

structure MemState where
  pageBytes : Addr
  vmaList : List VMA

namespace MemState

def trim (startAddr endAddr : Addr) (v : VMA) : Except Fault VMA :=
  if v.start<startAddr then v.sliceRegionRight startAddr else v.sliceRegionLeft endAddr

def unmapLoop (startAddr endAddr : Addr) : ℕ → List VMA → List VMA → Except Fault (List VMA)
  | 0,_,_ => .error .endless
  | _+1,passed,[] => .ok passed
  | fuel+1,passed,v::rest =>
    if v.isStrictSuperset ⟨startAddr,endAddr,[],0⟩ then do
      let right ← v.sliceRegionRight startAddr
      let left ← v.sliceRegionLeft endAddr
      .ok (passed++left::(rest++[right]))
    else if v.isSubset ⟨startAddr,endAddr,[],0⟩ then unmapLoop startAddr endAddr fuel passed rest
    else if v.intersects ⟨startAddr,endAddr,[],0⟩ then do
      let v' ← trim startAddr endAddr v
      unmapLoop startAddr endAddr fuel (passed++[v']) rest
    else unmapLoop startAddr endAddr fuel (passed++[v]) rest

def remapLoop (startAddr endAddr newStartAddr : Addr) : ℕ → List VMA → List VMA → Except Fault (List VMA)
  | 0,_,_ => .error .endless
  | _+1,passed,[] => .ok passed
  | fuel+1,passed,v::rest =>
    if v.isStrictSuperset ⟨startAddr,endAddr,[],0⟩ then do
      let right ← v.sliceRegionRight startAddr
      let left ← v.sliceRegionLeft endAddr
      let v1 ← v.sliceRegionLeft startAddr
      let v2 ← v1.sliceRegionRight endAddr
      let v3 ← v2.remap newStartAddr
      .ok (passed++v3::(rest++[right,left]))
    else if v.isSubset ⟨startAddr,endAddr,[],0⟩ then do
      let v' ← v.remap (v.start-startAddr+newStartAddr)
      remapLoop startAddr endAddr newStartAddr fuel (passed++[v']) rest
    else if v.intersects ⟨startAddr,endAddr,[],0⟩ then
      if v.start<startAddr then do
        let clone ← v.sliceRegionRight startAddr
        let v1 ← v.sliceRegionLeft startAddr
        let v2 ← v1.remap newStartAddr
        remapLoop startAddr endAddr newStartAddr fuel (passed++[v2]) (rest++[clone])
      else do
        let clone ← v.sliceRegionLeft endAddr
        let v1 ← v.sliceRegionRight endAddr
        let v2 ← v1.remap (newStartAddr+v1.start-startAddr)
        remapLoop startAddr endAddr newStartAddr fuel (passed++[v2]) (rest++[clone])
    else remapLoop startAddr endAddr newStartAddr fuel (passed++[v]) rest

/-- The `do` loop over the pages of a region, whose length is a word. -/
def unmapPages (pageBytes : Addr) : ℕ → Addr → Addr → Except Fault (List Addr)
  | 0,_,_ => .error .endless
  | fuel+1,startAddr,length =>
    if 0<length-pageBytes then
      (unmapPages pageBytes fuel (startAddr+pageBytes) (length-pageBytes)).map (startAddr::·)
    else .ok [startAddr]

def remapPages (pageBytes : Addr) : ℕ → Addr → Addr → Addr → Except Fault (List (Addr × Addr))
  | 0,_,_,_ => .error .endless
  | fuel+1,startAddr,newStartAddr,length =>
    if 0<length-pageBytes then
      (remapPages pageBytes fuel (startAddr+pageBytes) (newStartAddr+pageBytes) (length-pageBytes)).map
        ((startAddr,newStartAddr)::·)
    else .ok [(startAddr,newStartAddr)]

variable (m : MemState)

/-- The state, and the pages whose entries are removed. -/
def unmapRegion (fuel : ℕ) (startAddr length : Addr) : Except Fault (MemState × List Addr) := do
  let areas ← unmapLoop startAddr (startAddr+length) fuel [] m.vmaList
  let pages ← unmapPages m.pageBytes fuel startAddr length
  .ok ({m with vmaList := areas},pages)

/-- The state, and the pages whose entries are moved, with where they go. -/
def remapRegion (fuel : ℕ) (startAddr newStartAddr length : Addr) : Except Fault (MemState × List (Addr × Addr)) := do
  let areas ← remapLoop startAddr (startAddr+length) newStartAddr fuel [] m.vmaList
  let pages ← remapPages m.pageBytes fuel startAddr newStartAddr length
  .ok ({m with vmaList := areas},pages)

end MemState

end AquaGem5.Sim
