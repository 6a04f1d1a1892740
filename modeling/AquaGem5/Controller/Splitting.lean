import AquaGem5.Lib.Ticks
import AquaGem5.Lib.Tiling

/-!
# Splitting a packet into bursts (mem_ctrl.cc)

An address is a 64-bit number; the size of a packet, its offset in a burst and the count of its pieces are 32-bit
numbers.
-/

namespace AquaGem5.Controller
open Ticks Tiling Nat

/-- `divCeil(offset + size, burst_size)` on 32-bit numbers. -/
def pktCount (burstSize addr size : ℕ) : ℕ :=
  ((addr &&& (burstSize-1))+size+burstSize+(2^32-1))%2^32/burstSize

def nextAddr (burstSize addr : ℕ) : ℕ := ((addr ||| (burstSize-1))+1)%2^64

def pieceSize (burstSize baseAddr size addr : ℕ) : ℕ :=
  tickSub (min (nextAddr burstSize addr) ((baseAddr+size)%2^64)) addr%2^32

/-- The addresses and sizes of the loop of `addToReadQueue` and `addToWriteQueue`. -/
def pieces (burstSize baseAddr size : ℕ) : ℕ → ℕ → List (ℕ × ℕ)
  | 0,_ => []
  | cnt+1,addr => (addr,pieceSize burstSize baseAddr size addr) ::
      pieces burstSize baseAddr size cnt (nextAddr burstSize addr)

def split (burstSize addr size : ℕ) : List (ℕ × ℕ) := pieces burstSize addr size (pktCount burstSize addr size) addr

def ceilLog2 (n : ℕ) : ℕ := if n=1 then 0 else log2 (n-1)+1

/-- The assertions of `ceilLog2` and of the index of `readPktSize` and `writePktSize`, whose last bucket is a line's. -/
def Recorded (cacheLineSize size : ℕ) : Prop := 0<size ∧ ceilLog2 size<ceilLog2 cacheLineSize+1

instance (cacheLineSize size : ℕ) : Decidable (Recorded cacheLineSize size) := inferInstanceAs (Decidable (_ ∧ _))

/-- How many bytes of a packet are in the burst with number `b`. -/
def inBurst (burstSize addr size b : ℕ) : ℕ := min (addr+size) ((b+1)*burstSize)-max addr (b*burstSize)

def Countable (burstSize addr size : ℕ) : Prop := pktCount burstSize addr size<2^31

instance (burstSize addr size : ℕ) : Decidable (Countable burstSize addr size) := inferInstanceAs (Decidable (_<_))

/-- The pieces are as many as bursts are touched, each is a part of one burst, they follow each other from the first
byte of the packet to the last, and each byte of the packet is in one of them. -/
structure Splits (burstSize addr size : ℕ) (l : List (ℕ × ℕ)) : Prop where
  length : l.length=(addr%burstSize+size+burstSize-1)/burstSize
  positive : ∀ p∈l,0<p.2
  burst : ∀ p∈l,p.1/burstSize=(p.1+p.2-1)/burstSize
  tiles : Tiles addr l (addr+size)
  once : ∀ x,(holding x l).length=if addr≤x ∧ x<addr+size then 1 else 0

variable {k burstSize addr size cnt : ℕ}

theorem or_mask (k addr : ℕ) : (addr ||| (2^k-1))+1=(addr/2^k+1)*2^k := by
  have hpos:=Nat.two_pow_pos k
  have hmask : 2^k-1<2^k := by omega
  have hdiv : (addr ||| (2^k-1))/2^k=addr/2^k := by
    rw [or_div_two_pow,div_eq_of_lt hmask,or_zero]
  have hmod : (addr ||| (2^k-1))%2^k=2^k-1 := by
    have hlt:=mod_lt (addr ||| (2^k-1)) hpos
    rw [or_mod_two_pow,mod_eq_of_lt hmask] at hlt ⊢
    have hle:=right_le_or (n := addr%2^k) (m := 2^k-1)
    omega
  have hsum:=div_add_mod (addr ||| (2^k-1)) (2^k)
  rw [hdiv,hmod] at hsum
  rw [← hsum,add_mul,one_mul,mul_comm]
  omega

theorem nextAddr_eq (hlast : (addr/2^k+1)*2^k<2^64) : nextAddr (2^k) addr=(addr/2^k+1)*2^k := by
  rw [nextAddr,or_mask,mod_eq_of_lt hlast]

variable {base last : ℕ}

theorem pieceSize_eq (hk : k<32) (hlast : base+size=last) (hend : last<2^64) (haddr : addr<last)
    (hburst : (addr/2^k+1)*2^k<2^64) : pieceSize (2^k) base size addr=min ((addr/2^k+1)*2^k) last-addr := by
  have hstart:=div_mul_le_self addr (2^k)
  have hstop : addr<(addr/2^k+1)*2^k := Nat.lt_mul_of_div_lt (Nat.lt_succ_self _) (Nat.two_pow_pos k)
  have hword : 2^k<2^32 := Nat.pow_lt_pow_right (by decide) hk
  rw [pieceSize,nextAddr_eq hburst,hlast,mod_eq_of_lt hend,tickSub_of_le (by omega)]
  rw [add_mul,one_mul] at hstop ⊢
  exact mod_eq_of_lt (by omega)

theorem part_of_burst {last : ℕ} (haddr : addr<last) (hlast : last≤(addr/2^k+1)*2^k) :
    0<last-addr ∧ addr/2^k=(addr+(last-addr)-1)/2^k := by
  have hstart:=div_mul_le_self addr (2^k)
  refine ⟨by omega,(Nat.div_eq_of_lt_le ?_ ?_).symm⟩
  · omega
  · omega

theorem pieces_part (hk : k<32) (hlast : base+size=last) (hend : last<2^64) (haddr : addr<last)
    (hcnt : cnt≤cuts (2^k) addr last) : ∀ p∈pieces (2^k) base size cnt addr,0<p.2 ∧ p.1/2^k=(p.1+p.2-1)/2^k := by
  have hpos:=Nat.two_pow_pos k
  induction cnt generalizing addr with
  | zero => exact fun p hp => absurd hp List.not_mem_nil
  | succ cnt ih =>
    have hlt:=div_lt_cut hpos haddr
    have hstop : addr<(addr/2^k+1)*2^k := Nat.lt_mul_of_div_lt (Nat.lt_succ_self _) hpos
    rw [pieces,List.forall_mem_cons]
    by_cases hdone : last≤(addr/2^k+1)*2^k
    · -- the last burst, which may end with the last address there is
      have hone : cnt=0 := by
        rw [cuts,cut_of_le hpos haddr hdone] at hcnt
        omega
      rw [hone,pieces]
      refine ⟨?_,fun p hp => absurd hp List.not_mem_nil⟩
      by_cases hburst : (addr/2^k+1)*2^k<2^64
      · rw [pieceSize_eq hk hlast hend haddr hburst,min_eq_right hdone]
        exact part_of_burst haddr hdone
      · have hword : 2^k<2^32 := Nat.pow_lt_pow_right (by decide) hk
        have htop : (addr/2^k+1)*2^k=2^64 := by
          have hsplit : 2^64=2^(64-k)*2^k := by rw [← Nat.pow_add,Nat.sub_add_cancel (by omega)]
          have hdiv : addr/2^k+1≤2^(64-k) := succ_le_of_lt ((div_lt_iff_lt_mul hpos).mpr (by omega))
          have hle:=mul_le_mul_right (2^k) hdiv
          omega
        have hsize : pieceSize (2^k) base size addr=2^64-addr := by
          have hstart:=div_mul_le_self addr (2^k)
          rw [add_mul,one_mul] at htop
          rw [pieceSize,nextAddr,or_mask,add_mul,one_mul,htop,mod_self,zero_min,tickSub,if_neg (by omega),
            zero_add]
          exact mod_eq_of_lt (by omega)
        rw [hsize]
        exact part_of_burst (by omega) htop.ge
    · have hburst : (addr/2^k+1)*2^k<2^64 := by omega
      have hdiv : (addr/2^k+1)*2^k/2^k=addr/2^k+1 := Nat.mul_div_cancel _ hpos
      rw [pieceSize_eq hk hlast hend haddr hburst,min_eq_left (by omega),nextAddr_eq hburst]
      refine ⟨part_of_burst hstop (le_refl _),ih (by omega) ?_⟩
      rw [cuts] at hcnt ⊢
      rw [hdiv]
      omega

/-- The pieces follow each other, and are what the packet has in each burst from the one of its first byte on. -/
theorem pieces_tile (hk : k<32) (hlast : base+size=last) (hend : (last+2^k-1)/2^k*2^k<2^64)
    (haddr : addr<last) (hcnt : cnt=cuts (2^k) addr last) :
    Tiles addr (pieces (2^k) base size cnt addr) last ∧ (pieces (2^k) base size cnt addr).map Prod.snd=
      (List.range cnt).map fun i => inBurst (2^k) addr (last-addr) (addr/2^k+i) := by
  have hpos:=Nat.two_pow_pos k
  induction cnt generalizing addr with
  | zero =>
    have hlt:=div_lt_cut hpos haddr
    rw [cuts] at hcnt
    omega
  | succ cnt ih =>
    have hlt:=div_lt_cut hpos haddr
    have hburst:=(mul_le_mul_right (2^k) hlt).trans_lt hend
    have hstart:=div_mul_le_self addr (2^k)
    have hstop : addr<(addr/2^k+1)*2^k := Nat.lt_mul_of_div_lt (Nat.lt_succ_self _) hpos
    have hround : last≤(last+2^k-1)/2^k*2^k := by
      have hdiv:=div_add_mod' (last+2^k-1) (2^k)
      omega
    have hfirst : min ((addr/2^k+1)*2^k) last-addr=inBurst (2^k) addr (last-addr) (addr/2^k) := by
      rw [inBurst,max_eq_left hstart,min_comm,Nat.add_sub_cancel' haddr.le]
    rw [pieces,pieceSize_eq hk hlast (by omega) haddr hburst,nextAddr_eq hburst,List.range_succ_eq_map,List.map_cons,
      List.map_cons,List.map_map]
    by_cases hdone : last≤(addr/2^k+1)*2^k
    · -- the last burst
      have hone : cnt=0 := by
        rw [cuts,cut_of_le hpos haddr hdone] at hcnt
        omega
      rw [hone]
      refine ⟨⟨rfl,?_⟩,congrArg (· :: []) hfirst⟩
      rw [min_eq_right hdone]
      exact Nat.add_sub_cancel' haddr.le
    · have hdiv : (addr/2^k+1)*2^k/2^k=addr/2^k+1 := Nat.mul_div_cancel _ hpos
      have hrest : cnt=cuts (2^k) ((addr/2^k+1)*2^k) last := by
        rw [cuts] at hcnt ⊢
        rw [hdiv]
        omega
      obtain ⟨htiles,hsizes⟩:=ih (by omega) hrest
      refine ⟨⟨rfl,?_⟩,congrArg₂ List.cons hfirst ?_⟩
      · rw [min_eq_left (by omega),Nat.add_sub_cancel' hstop.le]
        exact htiles
      · rw [hsizes,hdiv]
        refine List.map_congr_left fun i _ => ?_
        have hnext : (addr/2^k+1)*2^k≤(addr/2^k+1+i)*2^k := Nat.mul_le_mul_right _ (le_add_right _ _)
        have hindex : addr/2^k+succ i=addr/2^k+1+i := by omega
        rw [Function.comp_apply,inBurst,inBurst,hindex,max_eq_right hnext,max_eq_right (hstop.le.trans hnext),
          Nat.add_sub_cancel' (by omega),Nat.add_sub_cancel' haddr.le]

theorem ceilLog2_le (hsize : 0<size) (c : ℕ) : ceilLog2 size≤c ↔ size≤2^c := by
  rw [ceilLog2]
  split
  next hone => exact iff_of_true (Nat.zero_le c) (hone ▸ Nat.one_le_two_pow)
  next hone => rw [Nat.add_one_le_iff,Nat.log2_lt (by omega),Nat.sub_lt_iff_lt_add' hsize,Nat.lt_one_add_iff]

theorem pieces_length (burstSize base size cnt addr : ℕ) : (pieces burstSize base size cnt addr).length=cnt := by
  induction cnt generalizing addr with
  | zero => rfl
  | succ cnt ih => rw [pieces,List.length_cons,ih]

theorem pktCount_eq (k addr : ℕ) (hsize : 0<size) : pktCount (2^k) addr size=(addr%2^k+size+2^k-1)%2^32/2^k := by
  have hsum : addr%2^k+size+2^k+(2^32-1)=addr%2^k+size+2^k-1+2^32 := by omega
  rw [pktCount,and_two_pow_sub_one_eq_mod,hsum,add_mod_right]

theorem fits_of_count (hk : k<32) (hsize' : size<2^32)
    (hcount : (addr%2^k+size+2^k-1)%2^32/2^k=(addr%2^k+size+2^k-1)/2^k) : addr%2^k+size+2^k≤2^32 := by
  have hpos:=Nat.two_pow_pos k
  have hmod:=mod_lt addr hpos
  have hburst : 2^k≤2^31 := Nat.pow_le_pow_right (by decide) (by omega)
  have hword : 2^32=2^k*2^(32-k) := by rw [← Nat.pow_add,Nat.add_sub_cancel' hk.le]
  have hmany : 0<2^(32-k) := Nat.two_pow_pos _
  by_contra hbig
  have hover : (addr%2^k+size+2^k-1)%2^32+2^32=addr%2^k+size+2^k-1 := by omega
  rw [← hover,add_mod_right,mod_mod,hword,add_mul_div_left _ _ hpos] at hcount
  omega

theorem split_iff (hk : k<32) (hsize : 0<size) (hsize' : size<2^32) (hend : (addr+size+2^k-1)/2^k*2^k<2^64) :
    Countable (2^k) addr size ∧ Splits (2^k) addr size (split (2^k) addr size) ↔
      addr%2^k+size+2^k≤2^32 ∧ (k=0 → size<2^31) := by
  have hpos:=Nat.two_pow_pos k
  have hcount:=pktCount_eq k addr hsize
  constructor
  · rintro ⟨hcountable,hsplits⟩
    have hlen:=hsplits.length
    rw [split,pieces_length,hcount] at hlen
    have hfits:=fits_of_count hk hsize' hlen
    refine ⟨hfits,fun hzero => ?_⟩
    subst hzero
    rw [Countable,hcount] at hcountable
    omega
  · rintro ⟨hfits,hint⟩
    rw [mod_eq_of_lt (by omega),← cuts_eq hpos] at hcount
    have hin : addr<addr+size := by omega
    have hlast : addr+size<2^64 := by
      have hdiv:=div_add_mod' (addr+size+2^k-1) (2^k)
      omega
    have htiles:=(pieces_tile hk rfl hend hin hcount).1
    have hparts:=pieces_part hk rfl hlast hin hcount.le
    refine ⟨?_,⟨?_,fun p hp => (hparts p hp).1,fun p hp => (hparts p hp).2,htiles,htiles.holding_length⟩⟩
    · rw [Countable,hcount,cuts_eq hpos]
      cases k with
      | zero =>
        have hlt:=hint rfl
        omega
      | succ k =>
        have htwo : 2≤2^(k+1) := le_self_pow (succ_ne_zero k) 2
        refine (div_le_div_left htwo (by decide)).trans_lt ?_
        omega
    · rw [split,pieces_length,hcount,cuts_eq hpos]

theorem inBurst_le (burstSize addr size b : ℕ) : inBurst burstSize addr size b≤burstSize := by
  rw [inBurst,add_mul,one_mul]
  omega

theorem inBurst_zero {b : ℕ} (hout : (b+1)*2^k≤addr ∨ addr+size≤b*2^k) : inBurst (2^k) addr size b=0 := by
  rw [inBurst]
  omega

/-- Every piece is in the histogram of sizes exactly when no burst has more of the packet than a line has bytes. -/
theorem recorded_iff (hk : k<32) (hsize : 0<size) (hend : (addr+size+2^k-1)/2^k*2^k<2^64) (line : ℕ)
    (hcount : pktCount (2^k) addr size=cuts (2^k) addr (addr+size)) :
    (∀ p∈split (2^k) addr size,Recorded line p.2) ↔ ∀ b,inBurst (2^k) addr size b≤2^ceilLog2 line := by
  have hpos:=Nat.two_pow_pos k
  have hin : addr<addr+size := by omega
  have hround:=div_add_mod' (addr+size+2^k-1) (2^k)
  have hparts:=pieces_part hk rfl (by omega) hin hcount.le
  have hsizes:=(pieces_tile hk rfl hend hin hcount).2
  rw [Nat.add_sub_cancel_left,hcount] at hsizes
  rw [hcount] at hparts
  rw [split,hcount]
  constructor
  · intro hrecorded b
    by_cases hout : (b+1)*2^k≤addr ∨ addr+size≤b*2^k
    · rw [inBurst_zero hout]
      exact Nat.zero_le _
    · obtain ⟨hfirst,hlast⟩:=not_or.mp hout
      have hle : addr/2^k≤b := Nat.lt_succ_iff.mp ((div_lt_iff_lt_mul hpos).mpr (not_le.mp hfirst))
      have hlt : b<(addr+size+2^k-1)/2^k := by
        rw [← Nat.succ_le_iff,Nat.le_div_iff_mul_le hpos,succ_mul]
        omega
      -- the piece of this burst
      have hmem : inBurst (2^k) addr size b∈(pieces (2^k) addr size (cuts (2^k) addr (addr+size)) addr).map Prod.snd := by
        rw [hsizes,List.mem_map]
        exact ⟨b-addr/2^k,List.mem_range.mpr (by rw [cuts]; omega),by rw [Nat.add_sub_cancel' hle]⟩
      obtain ⟨p,hp,hburst⟩:=List.mem_map.mp hmem
      obtain ⟨hpos',hlog⟩:=hrecorded p hp
      exact hburst ▸ (ceilLog2_le hpos' _).mp (Nat.lt_succ_iff.mp hlog)
  · intro hburst p hp
    have hmem:=List.mem_map_of_mem (f := Prod.snd) hp
    rw [hsizes,List.mem_map] at hmem
    obtain ⟨i,_,hi⟩:=hmem
    have hpositive:=(hparts p hp).1
    exact ⟨hpositive,Nat.lt_succ_of_le ((ceilLog2_le hpositive _).mpr (hi ▸ hburst _))⟩

theorem split_recorded_iff (hk : k<32) (hsize : 0<size) (hsize' : size<2^32) (hend : (addr+size+2^k-1)/2^k*2^k<2^64)
    (line : ℕ) : Countable (2^k) addr size ∧ Splits (2^k) addr size (split (2^k) addr size) ∧
        (∀ p∈split (2^k) addr size,Recorded line p.2) ↔
      addr%2^k+size+2^k≤2^32 ∧ (k=0 → size<2^31) ∧ ∀ b,inBurst (2^k) addr size b≤2^ceilLog2 line := by
  rw [← and_assoc,← and_assoc,split_iff hk hsize hsize' hend,and_congr_right_iff]
  rintro ⟨hfits,-⟩
  refine recorded_iff hk hsize hend line ?_
  rw [pktCount_eq k addr hsize,mod_eq_of_lt (by have hpos:=Nat.two_pow_pos k; omega),cuts_eq (Nat.two_pow_pos k)]

end AquaGem5.Controller
