import AquaGem5.Lib.Tiling

/-!
# Chunks of a region (chunk_generator.hh)

Addresses have 64 bits, sizes 32. A region is cut where its addresses are multiples of the chunk size.
-/

namespace AquaGem5.Base
open Tiling Nat

structure Region where
  startAddr : ℕ
  totalSize : ℕ
  chunkSize : ℕ
  startAddr_lt : startAddr<2^64
  totalSize_lt : totalSize<2^32
  chunkSize_lt : chunkSize<2^32
  chunkSize_pow : chunkSize=0 ∨ chunkSize.isPowerOfTwo

structure ChunkGenerator where
  curAddr : ℕ
  nextAddr : ℕ
  curSize : ℕ
  sizeLeft : ℕ
  startAddr : ℕ
  chunkSize : ℕ
  deriving DecidableEq

def roundUp (val align : ℕ) : ℕ :=
  let mask := align-1
  (val+mask)%2^64 &&& (2^64-1-mask)

def Region.create (r : Region) : ChunkGenerator :=
  let nextAddr :=
    if r.chunkSize=0 then (r.startAddr+r.totalSize)%2^64
    else
      let nextAddr := roundUp r.startAddr r.chunkSize
      if r.startAddr=nextAddr then (nextAddr+r.chunkSize)%2^64 else nextAddr
  let left_in_chunk := (nextAddr+2^64-r.startAddr)%2^64%2^32
  let curSize := min r.totalSize left_in_chunk
  ⟨r.startAddr,nextAddr,curSize,r.totalSize-curSize,r.startAddr,r.chunkSize⟩

namespace ChunkGenerator

variable (gen : ChunkGenerator)

def addr : ℕ := gen.curAddr

def size : ℕ := gen.curSize

def complete : ℕ := (gen.curAddr+2^64-gen.startAddr)%2^64%2^32

def done : Bool := decide (gen.curSize=0)

def last : Bool := decide (gen.sizeLeft=0)

def next : Bool × ChunkGenerator :=
  if gen.sizeLeft=0 then (false,{gen with curSize := 0})
  else
    let curSize := min gen.sizeLeft gen.chunkSize
    (true,{ gen with curAddr := gen.nextAddr
                     curSize := curSize
                     sizeLeft := gen.sizeLeft-curSize
                     nextAddr := (gen.nextAddr+curSize)%2^64})

/-- The generators at which the body of `for (; !gen.done(); gen.next())` runs, unless there are too few rounds. -/
def visits : ℕ → ChunkGenerator → Option (List ChunkGenerator)
  | 0,gen => if gen.done then some [] else none
  | rounds+1,gen => if gen.done then some [] else (visits rounds gen.next.2).map (gen::·)

end ChunkGenerator

variable {r : Region} {gen : ChunkGenerator} {off k : ℕ}

theorem and_mask {x : ℕ} (hk : k≤64) (hx : x<2^64) : x &&& (2^64-1-(2^k-1))=x/2^k*2^k := by
  have hpos:=Nat.two_pow_pos k
  have hle : 2^k≤2^64 := Nat.pow_le_pow_right Nat.two_pos hk
  refine eq_of_testBit_eq fun i => ?_
  rw [show 2^64-1-(2^k-1)=2^64-((2^k-1)+1) by omega,testBit_and,
    testBit_two_pow_sub_succ (by omega),testBit_two_pow_sub_one,testBit_mul_two_pow,testBit_div_two_pow]
  by_cases hi : k ≤ i
  · by_cases hin : i<64
    · simp [hi,hin,not_lt.mpr hi]
    · have hbit : x.testBit i=false := Nat.testBit_lt_two_pow (hx.trans_le (Nat.pow_le_pow_right Nat.two_pos (by omega)))
      simp [hi,hbit]
  · simp [hi,Nat.lt_of_not_le hi]

theorem roundUp_eq {addr : ℕ} (hk : k<64) (haddr : addr<2^64) :
    roundUp addr (2^k)=if addr%2^k=0 then addr else (addr/2^k+1)*2^k%2^64 := by
  have hpos:=Nat.two_pow_pos k
  have hparts:=div_add_mod addr (2^k)
  have hlt:=mod_lt addr hpos
  have hunit : 2^k*2^(64-k)=2^64 := by rw [← Nat.pow_add,Nat.add_sub_cancel' hk.le]
  have ha : addr/2^k<2^(64-k) := Nat.div_lt_of_lt_mul (hunit ▸ haddr)
  have hnext:=mul_le_mul_left (2^k) (succ_le_of_lt ha)
  rw [roundUp,and_mask hk.le (mod_lt _ (by decide)),mul_comm (addr/2^k+1)]
  generalize addr/2^k=a at *
  generalize addr%2^k=b at *
  rw [hunit,mul_succ] at hnext
  rw [mul_succ]
  have hdiv : ∀ e<2^k,(2^k*a+e)/2^k=a := fun e he => by
    rw [mul_add_div hpos,div_eq_of_lt he,add_zero]
  split
  next hb =>
    rw [mod_eq_of_lt (by omega),show addr+(2^k-1)=2^k*a+(2^k-1) by omega,hdiv _ (by omega),mul_comm]
    omega
  next hb =>
    by_cases hlast : a+1<2^(64-k)
    · have hnext':=mul_le_mul_left (2^k) (succ_le_of_lt hlast)
      rw [hunit,mul_succ,mul_succ] at hnext'
      rw [mod_eq_of_lt (by omega),mod_eq_of_lt (by omega),
        show addr+(2^k-1)=2^k*(a+1)+(b-1) by rw [mul_succ]; omega,mul_add_div hpos,
        div_eq_of_lt (by omega),add_zero,mul_comm,mul_succ]
    · -- the last chunk of the address space: the sum wraps
      have hwrap : 2^k*a+2^k=2^64 := by
        rw [← mul_succ,← hunit]
        congr 1
        omega
      rw [hwrap,mod_self,show (addr+(2^k-1))%2^64=b-1 by omega,div_eq_of_lt (by omega),zero_mul]

theorem nextAddr_eq {addr : ℕ} (hk : k<64) (haddr : addr<2^64) :
    (if addr=roundUp addr (2^k) then (roundUp addr (2^k)+2^k)%2^64 else roundUp addr (2^k)) =
      (addr/2^k+1)*2^k%2^64 := by
  rw [roundUp_eq hk haddr]
  by_cases hb : addr%2^k=0
  · have hparts:=div_add_mod addr (2^k)
    rw [if_pos hb,if_pos rfl,mul_comm (addr/2^k+1),mul_succ]
    congr 1
    omega
  · rw [if_neg hb,if_neg fun h => hb ?_]
    have hdvd : 2^k∣2^64 := pow_dvd_pow 2 hk.le
    rw [h,mod_mod_of_dvd _ hdvd,mul_mod_left]

structure Chunk (r : Region) (gen : ChunkGenerator) (off : ℕ) : Prop where
  startAddr : gen.startAddr=r.startAddr
  chunkSize : gen.chunkSize=r.chunkSize
  curAddr : gen.curAddr=(r.startAddr+off)%2^64
  total : off+gen.curSize+gen.sizeLeft=r.totalSize
  inside : r.chunkSize≠0 → gen.curAddr%r.chunkSize+gen.curSize≤r.chunkSize
  rest : gen.sizeLeft≠0 → 0<gen.curSize ∧ gen.nextAddr=(r.startAddr+(off+gen.curSize))%2^64 ∧
    0<r.chunkSize ∧ gen.nextAddr%r.chunkSize=0

def Visits (r : Region) : ℕ → List ChunkGenerator → Prop
  | off,[] => off=r.totalSize
  | off,gen::visited => Chunk r gen off ∧ 0<gen.size ∧ Visits r (off+gen.size) visited

theorem Region.dvd (h : r.chunkSize≠0) : r.chunkSize∣2^64 := by
  obtain ⟨k,hk⟩:=r.chunkSize_pow.resolve_left h
  have hlt:=hk ▸ r.chunkSize_lt
  have := (Nat.pow_lt_pow_iff_right Nat.one_lt_two).mp hlt
  rw [hk]
  exact pow_dvd_pow 2 (by omega)

theorem create_whole (h : r.chunkSize=0) :
    r.create=⟨r.startAddr,(r.startAddr+r.totalSize)%2^64,r.totalSize,0,r.startAddr,0⟩ := by
  have hs:=r.startAddr_lt
  have ht:=r.totalSize_lt
  have hleft : ((r.startAddr+r.totalSize)%2^64+2^64-r.startAddr)%2^64%2^32=r.totalSize := by omega
  rw [Region.create,h,if_pos rfl,hleft,Nat.min_self,Nat.sub_self]

theorem create_cut (h : r.chunkSize=2^k) :
    r.create=⟨r.startAddr,(r.startAddr/2^k+1)*2^k%2^64,min r.totalSize (2^k-r.startAddr%2^k),
      r.totalSize-min r.totalSize (2^k-r.startAddr%2^k),r.startAddr,2^k⟩ := by
  have hs:=r.startAddr_lt
  have hlt:=h ▸ r.chunkSize_lt
  have hk:=(Nat.pow_lt_pow_iff_right Nat.one_lt_two).mp hlt
  have hpos:=Nat.two_pow_pos k
  have hparts:=div_add_mod r.startAddr (2^k)
  have hleft : ((r.startAddr/2^k+1)*2^k%2^64+2^64-r.startAddr)%2^64%2^32 =
      2^k-r.startAddr%2^k := by
    rw [mul_comm (r.startAddr/2^k+1),mul_succ]
    omega
  simp only [Region.create,h,if_neg (ne_of_gt hpos),nextAddr_eq (by omega : k<64) hs,hleft]

theorem create_chunk (r : Region) : Chunk r r.create 0 := by
  by_cases h : r.chunkSize=0
  · rw [create_whole h]
    exact ⟨rfl,h.symm,(mod_eq_of_lt r.startAddr_lt).symm,zero_add _,fun hne => absurd h hne,
      fun hne => absurd rfl hne⟩
  · obtain ⟨k,hk⟩:=r.chunkSize_pow.resolve_left h
    have hpos:=Nat.two_pow_pos k
    have hparts:=div_add_mod r.startAddr (2^k)
    have hdvd:=hk ▸ Region.dvd h
    rw [create_cut hk]
    refine ⟨rfl,hk.symm,(mod_eq_of_lt r.startAddr_lt).symm,?_,fun _ => ?_,fun hleft => ?_⟩
    all_goals dsimp only at *
    · omega
    · rw [hk]
      omega
    · refine ⟨by omega,congrArg (·%2^64) ?_,by omega,by rw [hk,mod_mod_of_dvd _ hdvd,mul_mod_left]⟩
      rw [mul_comm (r.startAddr/2^k+1),mul_succ]
      omega

theorem Chunk.next (h : Chunk r gen off) (hleft : gen.sizeLeft≠0) : Chunk r gen.next.2 (off+gen.curSize) := by
  obtain ⟨-,hnext,hcut,haligned⟩:=h.rest hleft
  have htotal:=h.total
  rw [ChunkGenerator.next,if_neg hleft,h.chunkSize]
  refine ⟨h.startAddr,rfl,hnext,?_,fun _ => ?_,fun hmore => ?_⟩
  all_goals dsimp only at *
  · omega
  · omega
  · have hfull : min gen.sizeLeft r.chunkSize=r.chunkSize := by omega
    refine ⟨by omega,?_,hcut,?_⟩
    · rw [hfull,hnext]
      omega
    · rw [hfull,mod_mod_of_dvd _ (Region.dvd (ne_of_gt hcut)),add_mod_right,haligned]

theorem visits_of_done {rounds : ℕ} (h : gen.curSize=0) : gen.visits rounds=some [] := by
  cases rounds with
  | zero | succ rounds => exact if_pos (decide_eq_true h)

theorem Chunk.visits (h : Chunk r gen off) {bound : ℕ} (hbound : gen.curSize+gen.sizeLeft≤bound) :
    ∃ visited,(∀ rounds,bound≤rounds → gen.visits rounds=some visited) ∧ Visits r off visited := by
  have htotal:=h.total
  by_cases hdone : gen.curSize=0
  · have hleft : gen.sizeLeft=0 := by
      by_contra hleft
      exact absurd hdone (ne_of_gt (h.rest hleft).1)
    exact ⟨[],fun rounds _ => visits_of_done hdone,show off=r.totalSize by omega⟩
  · induction bound generalizing gen off with
    | zero => omega
    | succ bound ih =>
      have hround : ∀ rounds,gen.visits (rounds+1)=(gen.next.2.visits rounds).map (gen::·) := fun rounds =>
        if_neg (by rwa [ChunkGenerator.done,decide_eq_true_eq])
      by_cases hleft : gen.sizeLeft=0
      · have hlast : gen.next.2.curSize=0 := by rw [ChunkGenerator.next,if_pos hleft]
        refine ⟨[gen],fun rounds hrounds => ?_,h,pos_of_ne_zero hdone,?_⟩
        · obtain ⟨rounds,rfl⟩:=Nat.exists_eq_add_of_le' hrounds
          rw [← add_assoc,hround,visits_of_done hlast]
          rfl
        · show off+gen.curSize=r.totalSize
          omega
      · have hnext:=h.next hleft
        have hcut:=h.chunkSize ▸ (h.rest hleft).2.2.1
        have hsize : gen.next.2.curSize=min gen.sizeLeft gen.chunkSize := by rw [ChunkGenerator.next,if_neg hleft]
        have hrest:=hnext.total
        obtain ⟨visited,hvisited,hvisits⟩:=ih hnext (by omega) hrest (by omega)
        refine ⟨gen::visited,fun rounds hrounds => ?_,h,pos_of_ne_zero hdone,hvisits⟩
        obtain ⟨rounds,rfl⟩:=Nat.exists_eq_add_of_le' hrounds
        rw [← add_assoc,hround,hvisited _ (by omega)]
        rfl

variable {visited before after : List ChunkGenerator}

theorem Visits.split (h : Visits r off (before++gen::after)) :
    ∃ off',off'=off+(before.map (·.size)).sum ∧ Chunk r gen off' ∧ 0<gen.size ∧ Visits r (off'+gen.size) after := by
  induction before generalizing off with
  | nil => exact ⟨off,rfl,h⟩
  | cons g before ih =>
    obtain ⟨off',hoff,rest⟩:=ih h.2.2
    exact ⟨off',by rw [hoff,List.map_cons,List.sum_cons,add_assoc],rest⟩

theorem Visits.mem (h : Visits r off visited) (hgen : gen∈visited) : ∃ off',Chunk r gen off' ∧ 0<gen.size := by
  obtain ⟨before,after,rfl⟩:=List.append_of_mem hgen
  obtain ⟨off',-,hchunk,hpos,-⟩:=h.split
  exact ⟨off',hchunk,hpos⟩

theorem Chunk.complete (h : Chunk r gen off) : gen.complete=off := by
  have hs:=r.startAddr_lt
  have ht:=r.totalSize_lt
  have htotal:=h.total
  rw [ChunkGenerator.complete,h.curAddr,h.startAddr]
  omega

theorem Visits.tiles (h : Visits r off visited) : Tiles off (visited.map fun g => (g.complete,g.size)) r.totalSize := by
  induction visited generalizing off with
  | nil => exact h
  | cons g visited ih => exact ⟨h.1.complete,ih h.2.2⟩

def ChunkGenerator.holds (gen : ChunkGenerator) (a : ℕ) : Bool := decide ((a+2^64-gen.addr)%2^64<gen.size)

theorem Chunk.holds_iff (h : Chunk r gen off) (a : ℕ) (ha : a<2^64) :
    gen.holds a=decide (gen.complete≤(a+2^64-r.startAddr)%2^64 ∧
      (a+2^64-r.startAddr)%2^64<gen.complete+gen.size) := by
  have hs:=r.startAddr_lt
  have ht:=r.totalSize_lt
  have htotal:=h.total
  rw [ChunkGenerator.holds,decide_eq_decide,ChunkGenerator.addr,h.curAddr,h.complete,ChunkGenerator.size]
  omega

structure Decomposes (r : Region) (visited : List ChunkGenerator) : Prop where
  positive : ∀ gen∈visited,0<gen.size
  consecutive : ∀ before gen gen' after,visited=before++gen::gen'::after →
    gen'.addr=(gen.addr+gen.size)%2^64
  inside : r.chunkSize≠0 → ∀ gen∈visited,gen.addr%r.chunkSize+gen.size≤r.chunkSize
  once : ∀ a<2^64,visited.countP (·.holds a)=if (a+2^64-r.startAddr)%2^64<r.totalSize then 1 else 0
  complete : ∀ before gen after,visited=before++gen::after → gen.complete=(before.map (·.size)).sum
  last : ∀ before gen after,visited=before++gen::after → (gen.last ↔ after=[])

theorem Visits.once (h : Visits r 0 visited) {a : ℕ} (ha : a<2^64) :
    visited.countP (·.holds a)=if (a+2^64-r.startAddr)%2^64<r.totalSize then 1 else 0 := by
  have hholds : ∀ gen∈visited,gen.holds a=decide (gen.complete≤(a+2^64-r.startAddr)%2^64 ∧
      (a+2^64-r.startAddr)%2^64<gen.complete+gen.size) := fun gen hgen => by
    obtain ⟨off,hchunk,-⟩:=h.mem hgen
    exact hchunk.holds_iff a ha
  generalize (a+2^64-r.startAddr)%2^64=x at hholds ⊢
  have htiles:=h.tiles.holding_length x
  rw [holding,← List.countP_eq_length_filter,List.countP_map] at htiles
  simp only [zero_le,true_and] at htiles
  rw [← htiles]
  refine List.countP_congr fun gen hgen => ?_
  rw [hholds gen hgen,Function.comp_apply]

theorem Visits.decomposes (h : Visits r 0 visited) : Decomposes r visited := by
  refine ⟨fun gen hgen => ?_,?_,fun hcut gen hgen => ?_,fun a ha => ?_,?_,?_⟩
  · obtain ⟨-,-,hpos⟩:=h.mem hgen
    exact hpos
  · rintro before gen gen' after rfl
    obtain ⟨off,-,hchunk,-,hafter⟩:=h.split
    rw [ChunkGenerator.addr,hafter.1.curAddr,ChunkGenerator.addr,hchunk.curAddr,ChunkGenerator.size]
    omega
  · obtain ⟨off,hchunk,-⟩:=h.mem hgen
    exact hchunk.inside hcut
  · exact h.once ha
  · rintro before gen after rfl
    obtain ⟨off,hoff,hchunk,-⟩:=h.split
    rw [hchunk.complete,hoff,zero_add]
  · rintro before gen after rfl
    obtain ⟨off,-,hchunk,-,hafter⟩:=h.split
    have htotal:=hchunk.total
    rw [ChunkGenerator.last,decide_eq_true_eq]
    cases after with
    | nil =>
      have hend : off+gen.size=r.totalSize := hafter
      rw [ChunkGenerator.size] at hend
      exact iff_of_true (by omega) rfl
    | cons g after =>
      have hmore:=hafter.1.total
      have hpos:=hafter.2.1
      rw [ChunkGenerator.size] at hmore hpos
      exact iff_of_false (by omega) (List.cons_ne_nil _ _)

/-- A loop over a generator ends within as many rounds as the region has bytes. -/
theorem visits_decompose (r : Region) :
    ∃ visited,(∀ rounds,r.totalSize≤rounds → r.create.visits rounds=some visited) ∧ Decomposes r visited := by
  have hchunk:=create_chunk r
  have htotal:=hchunk.total
  obtain ⟨visited,hvisited,hvisits⟩:=hchunk.visits (by omega : r.create.curSize+r.create.sizeLeft≤r.totalSize)
  exact ⟨visited,hvisited,hvisits.decomposes⟩

end AquaGem5.Base
