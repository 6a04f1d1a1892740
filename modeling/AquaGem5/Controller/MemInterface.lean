import AquaGem5.Controller.MemPacket
import AquaGem5.Lib.Checked
import AquaGem5.Lib.Radix
import Mathlib.Tactic.Ring

/-!
# Decoding an address (mem_interface.cc)

The rank and the bank of a packet are 8-bit numbers and its bank id a 16-bit number; the counts of
an interface are 32-bit numbers.
-/

namespace AquaGem5.Controller
open Checked Radix Nat Finset

inductive AddrMap where
  | RoRaBaChCo
  | RoRaBaCoCh
  | RoCoRaBaCh
  deriving DecidableEq

structure MemInterface where
  addrMapping : AddrMap
  burstSize : ℕ
  rowBufferSize : ℕ
  burstsPerStripe : ℕ
  ranksPerChannel : ℕ
  banksPerRank : ℕ
  rowsPerBank : ℕ
  getCtrlAddr : ℕ → ℕ
  rows_lt : rowsPerBank<2^32

structure Location where
  rank : ℕ
  bank : ℕ
  row : ℕ
  bankId : ℕ
  deriving DecidableEq

def noRow : ℕ := 2^32-1

namespace MemInterface

inductive Fault where
  | assertion
  deriving DecidableEq

def burstsPerRowBuffer (g : MemInterface) : ℕ := g.rowBufferSize/g.burstSize

/-- The address above the column bits that the bank and rank bits do not come after. -/
def withoutColumn (g : MemInterface) (addr : ℕ) : ℕ :=
  match g.addrMapping with
  | .RoRaBaChCo | .RoRaBaCoCh => addr/g.burstSize/g.burstsPerRowBuffer
  | .RoCoRaBaCh =>
    if g.burstsPerRowBuffer<g.burstsPerStripe then addr/g.burstSize/g.burstsPerRowBuffer
    else addr/g.burstSize/g.burstsPerStripe

def withoutHighColumn (g : MemInterface) (addr : ℕ) : ℕ :=
  match g.addrMapping with
  | .RoRaBaChCo | .RoRaBaCoCh => addr
  | .RoCoRaBaCh =>
    if g.burstsPerStripe<g.burstsPerRowBuffer then addr/(g.burstsPerRowBuffer/g.burstsPerStripe) else addr

def decode (g : MemInterface) (ctrlAddr : ℕ) : Except Fault Location := do
  let addr := g.withoutColumn ctrlAddr
  let bank := addr%g.banksPerRank%2^8
  let addr := addr/g.banksPerRank
  let rank := addr%g.ranksPerChannel%2^8
  let addr := addr/g.ranksPerChannel
  let row := g.withoutHighColumn addr%g.rowsPerBank
  check (rank<g.ranksPerChannel) .assertion
  check (bank<g.banksPerRank) .assertion
  check (row<g.rowsPerBank) .assertion
  check (row<noRow) .assertion
  return ⟨rank,bank,row,(g.banksPerRank*rank+bank)%2^16⟩

/-- `ref` is the pointer to the new packet. -/
def decodePacket (g : MemInterface) (curTick ref : ℕ) (pkt : Packet) (pktAddr size : ℕ) (isRead isDram : Bool) :
    Except Fault MemPacket := do
  let d ← g.decode (g.getCtrlAddr pktAddr)
  return ⟨ref,pkt.ref,pkt.requestorId,isRead,isDram,d.rank,d.bank,d.row,d.bankId,pktAddr,size,none,pkt.qosValue,
    curTick,curTick,false,0,0⟩

def hits (g : MemInterface) (rank bank row addr : ℕ) : Bool :=
  match g.decode addr with
  | .ok d => decide (d.rank=rank ∧ d.bank=bank ∧ d.row=row)
  | .error _ => false

/-- The sizes divide as the constructor and the check of the mapping want them to, and the capacity
is that of all rows. -/
structure Geometry (g : MemInterface) (capacity : ℕ) : Prop where
  capacity_eq : capacity=g.rowBufferSize*g.banksPerRank*g.ranksPerChannel*g.rowsPerBank
  burst_dvd : g.burstSize∣g.rowBufferSize
  stripe_pow : ∃ k,g.burstsPerStripe=2^k
  rowBuffer_pow : ∃ k,g.burstsPerRowBuffer=2^k

/-- The decoder shares out the addresses below the capacity evenly among the rows. -/
structure Balanced (g : MemInterface) (capacity : ℕ) : Prop where
  decodes : ∀ a<capacity,∃ d,g.decode a = .ok d
  burst : ∀ a<capacity,∀ b<capacity,a/g.burstSize=b/g.burstSize → g.decode a=g.decode b
  rows : ∀ rank<g.ranksPerChannel,∀ bank<g.banksPerRank,∀ row<g.rowsPerBank,
    ((Finset.range capacity).filter fun a => g.hits rank bank row a=true).card=g.rowBufferSize
  bankId_eq : ∀ a<capacity,∀ d,g.decode a = .ok d → d.bankId=g.banksPerRank*d.rank+d.bank
  bankId_unique : ∀ a<capacity,∀ b<capacity,∀ d d',g.decode a = .ok d → g.decode b = .ok d' →
    d.bankId=d'.bankId → d.rank=d'.rank ∧ d.bank=d'.bank

variable {g : MemInterface} {capacity a b : ℕ} {d : Location}

def lowColumn (g : MemInterface) : ℕ :=
  match g.addrMapping with
  | .RoRaBaChCo | .RoRaBaCoCh => g.rowBufferSize
  | .RoCoRaBaCh => if g.burstsPerStripe<g.burstsPerRowBuffer then g.burstSize*g.burstsPerStripe else g.rowBufferSize

def highColumn (g : MemInterface) : ℕ :=
  match g.addrMapping with
  | .RoRaBaChCo | .RoRaBaCoCh => 1
  | .RoCoRaBaCh => if g.burstsPerStripe<g.burstsPerRowBuffer then g.burstsPerRowBuffer/g.burstsPerStripe else 1

namespace Geometry

theorem rowBuffer_eq (h : Geometry g capacity) : g.burstSize*g.burstsPerRowBuffer=g.rowBufferSize :=
  Nat.mul_div_cancel' h.burst_dvd

theorem rowBuffer_pos (h : Geometry g capacity) : 0<g.rowBufferSize := by
  obtain ⟨k,hk⟩:=h.rowBuffer_pow
  have hpos : 0<g.rowBufferSize/g.burstSize := by
    rw [burstsPerRowBuffer] at hk
    rw [hk]
    exact Nat.two_pow_pos k
  exact pos_of_div_pos hpos

theorem stripe_dvd (h : Geometry g capacity) (hlt : g.burstsPerStripe<g.burstsPerRowBuffer) :
    g.burstsPerStripe∣g.burstsPerRowBuffer := by
  obtain ⟨k,hk⟩:=h.stripe_pow
  obtain ⟨l,hl⟩:=h.rowBuffer_pow
  rw [hk,hl] at hlt ⊢
  exact Nat.pow_dvd_pow 2 ((Nat.pow_lt_pow_iff_right (by decide)).mp hlt).le

theorem low_mul_high (h : Geometry g capacity) : g.lowColumn*g.highColumn=g.rowBufferSize := by
  rw [lowColumn,highColumn]
  split
  · exact mul_one _
  · exact mul_one _
  · split_ifs with hlt
    · rw [Nat.mul_assoc,Nat.mul_div_cancel' (h.stripe_dvd hlt),h.rowBuffer_eq]
    · exact mul_one _

theorem burst_dvd_low (h : Geometry g capacity) : g.burstSize∣g.lowColumn := by
  rw [lowColumn]
  split
  · exact h.burst_dvd
  · exact h.burst_dvd
  · split_ifs
    · exact dvd_mul_right _ _
    · exact h.burst_dvd

theorem withoutColumn_eq (h : Geometry g capacity) (a : ℕ) : g.withoutColumn a=a/g.lowColumn := by
  have hrow:=h.rowBuffer_eq
  rw [withoutColumn,lowColumn]
  split
  · rw [Nat.div_div_eq_div_mul,hrow]
  · rw [Nat.div_div_eq_div_mul,hrow]
  · split_ifs with hgt hlt hlt
    · omega
    · rw [Nat.div_div_eq_div_mul,hrow]
    · rw [Nat.div_div_eq_div_mul]
    · rw [Nat.div_div_eq_div_mul,show g.burstsPerStripe=g.burstsPerRowBuffer by omega,hrow]

theorem withoutHighColumn_eq (a : ℕ) : g.withoutHighColumn a=a/g.highColumn := by
  rw [withoutHighColumn,highColumn]
  split
  · rw [Nat.div_one]
  · rw [Nat.div_one]
  · split_ifs
    · rfl
    · rw [Nat.div_one]

end Geometry

def places (g : MemInterface) (rank bank row : ℕ) : List Place :=
  [(g.lowColumn,Finset.range g.lowColumn),(g.banksPerRank,{bank}),(g.ranksPerChannel,{rank}),
    (g.highColumn,Finset.range g.highColumn),(g.rowsPerBank,{row})]

namespace Geometry

theorem radices_places (h : Geometry g capacity) (rank bank row : ℕ) : radices (g.places rank bank row)=capacity := by
  rw [h.capacity_eq,← h.low_mul_high]
  simp only [radices,places,List.map_cons,List.map_nil,List.prod_cons,List.prod_nil]
  ring

theorem choices_places (h : Geometry g capacity) (rank bank row : ℕ) :
    choices (g.places rank bank row)=g.rowBufferSize := by
  rw [← h.low_mul_high]
  simp [choices,places]

theorem counts_pos (h : Geometry g capacity) (hpos : 0<capacity) :
    0<g.banksPerRank ∧ 0<g.ranksPerChannel ∧ 0<g.rowsPerBank := by
  rw [h.capacity_eq] at hpos
  have hrest:=Nat.pos_of_mul_pos_right hpos
  exact ⟨Nat.pos_of_mul_pos_left (Nat.pos_of_mul_pos_right hrest),Nat.pos_of_mul_pos_left hrest,
    Nat.pos_of_mul_pos_left hpos⟩

end Geometry

theorem decode_eq (h : Geometry g capacity) (hpos : 0<capacity) (a : ℕ) : g.decode a =
    .ok ⟨a/g.lowColumn/g.banksPerRank%g.ranksPerChannel%2^8,a/g.lowColumn%g.banksPerRank%2^8,
      a/g.lowColumn/g.banksPerRank/g.ranksPerChannel/g.highColumn%g.rowsPerBank,
      (g.banksPerRank*(a/g.lowColumn/g.banksPerRank%g.ranksPerChannel%2^8) +
        a/g.lowColumn%g.banksPerRank%2^8)%2^16⟩ := by
  obtain ⟨hbanks,hranks,hrows⟩:=h.counts_pos hpos
  have hnarrow : ∀ {x count : ℕ},0<count → x%count%2^8<count := fun hcount =>
    (mod_le _ _).trans_lt (Nat.mod_lt _ hcount)
  have hrow:=Nat.mod_lt (a/g.lowColumn/g.banksPerRank/g.ranksPerChannel/g.highColumn) hrows
  have hnoRow : a/g.lowColumn/g.banksPerRank/g.ranksPerChannel/g.highColumn%g.rowsPerBank<noRow := by
    have := g.rows_lt
    rw [noRow]
    omega
  simp only [decode,h.withoutColumn_eq,Geometry.withoutHighColumn_eq,check,if_pos (hnarrow hranks),if_pos (hnarrow hbanks),
    if_pos hrow,if_pos hnoRow]
  rfl

theorem hits_iff (h : Geometry g capacity) (hbanks : g.banksPerRank≤2^8)
    (hranks : g.ranksPerChannel≤2^8) {rank bank row : ℕ} (ha : a<capacity) :
    g.hits rank bank row a=true ↔ DigitsIn (g.places rank bank row) a := by
  obtain ⟨hbankpos,hrankpos,_⟩:=h.counts_pos (zero_lt_of_lt ha)
  have hbank:=Nat.mod_lt (a/g.lowColumn) hbankpos
  have hrank:=Nat.mod_lt (a/g.lowColumn/g.banksPerRank) hrankpos
  have hlow : 0<g.lowColumn*g.highColumn := h.low_mul_high ▸ h.rowBuffer_pos
  rw [hits,decode_eq h (zero_lt_of_lt ha)]
  simp only [decide_eq_true_eq,places,DigitsIn,mem_range,mem_singleton,and_true]
  rw [Nat.mod_eq_of_lt (show _%_<2^8 by omega),Nat.mod_eq_of_lt (show a/g.lowColumn%_<2^8 by omega)]
  have hlowlt:=Nat.mod_lt a (Nat.pos_of_mul_pos_right hlow)
  have hhighlt:=Nat.mod_lt (a/g.lowColumn/g.banksPerRank/g.ranksPerChannel) (Nat.pos_of_mul_pos_left hlow)
  constructor
  · rintro ⟨hr,hb,hrow⟩
    exact ⟨hlowlt,hb,hr,hhighlt,hrow⟩
  · rintro ⟨_,hb,hr,_,hrow⟩
    exact ⟨hr,hb,hrow⟩

theorem balanced_of_narrow (h : Geometry g capacity) (hbanks : g.banksPerRank≤2^8) (hranks : g.ranksPerChannel≤2^8) :
    Balanced g capacity := by
  have hlow : ∀ {a b},a/g.burstSize=b/g.burstSize → a/g.lowColumn=b/g.lowColumn := by
    intro a b hab
    obtain ⟨c,hc⟩:=h.burst_dvd_low
    rw [hc,← Nat.div_div_eq_div_mul,← Nat.div_div_eq_div_mul,hab]
  have hid : ∀ {a d},a<capacity → g.decode a = .ok d → d.rank<g.ranksPerChannel ∧ d.bank<g.banksPerRank ∧
      d.bankId=g.banksPerRank*d.rank+d.bank := by
    intro a d ha hd
    have hpos:=zero_lt_of_lt ha
    rw [decode_eq h hpos] at hd
    cases hd
    obtain ⟨hbankpos,hrankpos,_⟩:=h.counts_pos hpos
    have hbank:=Nat.mod_lt (a/g.lowColumn) hbankpos
    have hrank:=Nat.mod_lt (a/g.lowColumn/g.banksPerRank) hrankpos
    simp only
    rw [Nat.mod_eq_of_lt (show _%g.ranksPerChannel<2^8 by omega),
      Nat.mod_eq_of_lt (show a/g.lowColumn%_<2^8 by omega)]
    refine ⟨hrank,hbank,Nat.mod_eq_of_lt ?_⟩
    calc g.banksPerRank*(a/g.lowColumn/g.banksPerRank%g.ranksPerChannel)+a/g.lowColumn%g.banksPerRank
        < g.banksPerRank*(a/g.lowColumn/g.banksPerRank%g.ranksPerChannel+1) := by
          rw [mul_succ]
          omega
      _≤2^8*2^8 := Nat.mul_le_mul hbanks (by omega)
  refine ⟨fun a ha => ⟨_,decode_eq h (zero_lt_of_lt ha) a⟩,fun a ha b hb hab => ?_,
    fun rank hrank bank hbank row hrow => ?_,fun a ha d hd => (hid ha hd).2.2,fun a ha b hb d d' hd hd' heq => ?_⟩
  · rw [decode_eq h (zero_lt_of_lt ha),decode_eq h (zero_lt_of_lt hb),hlow hab]
  · have hfilter : (range capacity).filter (fun a => g.hits rank bank row a=true) =
        (range (radices (g.places rank bank row))).filter (DigitsIn (g.places rank bank row)) := by
      rw [h.radices_places]
      refine filter_congr fun a ha => ?_
      have ha:=mem_range.mp ha
      exact hits_iff h hbanks hranks ha
    rw [hfilter,card_digitsIn,h.choices_places]
    intro place hplace
    simp only [places,List.mem_cons,List.not_mem_nil,or_false] at hplace
    rcases hplace with rfl | rfl | rfl | rfl | rfl
    · exact Subset.refl _
    · exact singleton_subset_iff.mpr (mem_range.mpr hbank)
    · exact singleton_subset_iff.mpr (mem_range.mpr hrank)
    · exact Subset.refl _
    · exact singleton_subset_iff.mpr (mem_range.mpr hrow)
  · obtain ⟨_,hbank,hbid⟩:=hid ha hd
    obtain ⟨_,hbank',hbid'⟩:=hid hb hd'
    rw [hbid,hbid'] at heq
    have hpos:=zero_lt_of_lt hbank
    have hrank : d.rank=d'.rank := by
      have hdiv:=congrArg (·/g.banksPerRank) heq
      simpa [mul_add_div hpos,div_eq_of_lt hbank,div_eq_of_lt hbank'] using hdiv
    rw [hrank] at heq
    exact ⟨hrank,by omega⟩

theorem not_hits_of_wide (h : Geometry g capacity) (ha : a<capacity) {rank bank row : ℕ}
    (hwide : 2^8≤bank ∨ 2^8≤rank) : ¬g.hits rank bank row a=true := by
  rw [hits,decode_eq h (zero_lt_of_lt ha)]
  simp only [decide_eq_true_eq]
  rintro ⟨hr,hb,_⟩
  have := Nat.mod_lt (a/g.lowColumn/g.banksPerRank%g.ranksPerChannel) (show 0<2^8 by decide)
  have := Nat.mod_lt (a/g.lowColumn%g.banksPerRank) (show 0<2^8 by decide)
  omega

theorem narrow_of_balanced (h : Geometry g capacity) (hbal : Balanced g capacity) (hpos : 0<capacity) :
    g.banksPerRank≤2^8 ∧ g.ranksPerChannel≤2^8 := by
  obtain ⟨hbanks,hranks,hrows⟩:=h.counts_pos hpos
  have hempty : ∀ {rank bank},rank<g.ranksPerChannel → bank<g.banksPerRank → ¬(2^8≤bank ∨ 2^8≤rank) := by
    intro rank bank hrank hbank hwide
    have hcard:=hbal.rows rank hrank bank hbank 0 hrows
    rw [filter_false_of_mem fun a ha => not_hits_of_wide h (mem_range.mp ha) hwide,
      card_empty] at hcard
    have := h.rowBuffer_pos
    omega
  constructor
  · by_contra hwide
    exact hempty hranks (Nat.lt_of_not_le hwide) (.inl (Nat.le_refl _))
  · by_contra hwide
    exact hempty (Nat.lt_of_not_le hwide) hbanks (.inr (Nat.le_refl _))

theorem balanced_of_empty (h : Geometry g 0) : Balanced g 0 := by
  refine ⟨fun a ha => absurd ha (not_lt_zero a),fun a ha => absurd ha (not_lt_zero a),
    fun rank hrank bank hbank row hrow => ?_,fun a ha => absurd ha (not_lt_zero a),
    fun a ha => absurd ha (not_lt_zero a)⟩
  have hcap : 0<g.rowBufferSize*g.banksPerRank*g.ranksPerChannel*g.rowsPerBank :=
    mul_pos (mul_pos (mul_pos h.rowBuffer_pos (zero_lt_of_lt hbank)) (zero_lt_of_lt hrank))
      (zero_lt_of_lt hrow)
  have := h.capacity_eq
  omega

/-- Exactly the counts that fit in the 8-bit rank and bank are decoded evenly. -/
theorem balanced_iff (h : Geometry g capacity) :
    Balanced g capacity ↔ capacity=0 ∨ g.banksPerRank≤2^8 ∧ g.ranksPerChannel≤2^8 := by
  constructor
  · intro hbal
    rcases Nat.eq_zero_or_pos capacity with hzero | hpos
    · exact .inl hzero
    · exact .inr (narrow_of_balanced h hbal hpos)
  · rintro (rfl | ⟨hbanks,hranks⟩)
    · exact balanced_of_empty h
    · exact balanced_of_narrow h hbanks hranks

theorem balanced_two_ranks : Balanced ⟨.RoCoRaBaCh,64,8192,64,2,8,65536,id,by decide⟩ (2^33) :=
  (balanced_iff ⟨rfl,⟨128,rfl⟩,⟨6,rfl⟩,⟨7,rfl⟩⟩).mpr (.inr ⟨by decide,by decide⟩)

/-- Of 512 banks the upper half is never used. -/
theorem not_balanced_512_banks : Geometry ⟨.RoRaBaCoCh,64,64,1,1,512,1,id,by decide⟩ 32768 ∧
    ¬Balanced ⟨.RoRaBaCoCh,64,64,1,1,512,1,id,by decide⟩ 32768 := by
  have hgeo : Geometry ⟨.RoRaBaCoCh,64,64,1,1,512,1,id,by decide⟩ 32768 := ⟨rfl,⟨1,rfl⟩,⟨0,rfl⟩,⟨0,rfl⟩⟩
  refine ⟨hgeo,fun hbal => ?_⟩
  exact absurd (narrow_of_balanced hgeo hbal (by decide)).1 (by decide)

end MemInterface

end AquaGem5.Controller
