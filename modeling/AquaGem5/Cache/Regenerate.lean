import AquaGem5.Cache.CompressedTags
import Mathlib.Tactic.Ring

/-! # Addresses put together again (set_associative.cc, sector_tags.cc) -/

namespace AquaGem5.Cache
open Address Checked BitVec Nat

namespace SetAssociative

/-- `entry->getSet() << setShift` is a `uint32_t`. -/
def regenerateAddr (p : BaseIndexingPolicy) (tag : Addr) (entry : Entry) : Addr :=
  tag <<< p.tagShift ||| (entry.set <<< p.setShift).setWidth 64

end SetAssociative

def regenerateBlkAddr (p : BaseIndexingPolicy) (blk : CacheBlk) (entry : Entry) : Addr :=
  SetAssociative.regenerateAddr p blk.tag entry

/-- The set and the way that `setEntry` gives to the entry at a position. -/
def BaseIndexingPolicy.entryAt (p : BaseIndexingPolicy) (e : p.Position) : Entry := ⟨BitVec.ofNat 32 e.1,e.2⟩

def SectorTags.regenerateBlkAddr {g : SectorGeometry} (p : BaseIndexingPolicy) (t : SectorTags g p.Position)
    (b : SubBlk g p.Position) : Addr :=
  let sec_addr := SetAssociative.regenerateAddr p (t.blk b).tag (p.entryAt b.1)
  sec_addr ||| (BitVec.ofNat 64 b.2 <<< g.sectorShift)

section Parts

variable (p : BaseIndexingPolicy) (a : Addr) (way : ℕ)

/-- The set part of an address fits in the 32 bits that it is shifted in. -/
def SetFits : Prop := (SetAssociative.extractSet p a).toNat*2^p.setShift<2^32

instance : Decidable (SetFits p a) := inferInstanceAs (Decidable (_<_))

theorem extractTag_toNat : (p.extractTag a).toNat=a.toNat/2^p.tagShift := by
  rw [BaseIndexingPolicy.extractTag,toNat_ushiftRight,shiftRight_eq_div_pow]

theorem extractSet_toNat : (SetAssociative.extractSet p a).toNat=a.toNat/2^p.setShift%2^Nat.log2 p.numSets := by
  rw [SetAssociative.toNat_extractSet,toNat_ushiftRight,shiftRight_eq_div_pow,← p.numSets_eq]

theorem toNat_parts : a.toNat=a.toNat/2^p.tagShift*2^p.tagShift +
    (SetAssociative.extractSet p a).toNat*2^p.setShift+a.toNat%2^p.setShift := by
  have hlow:=div_add_mod a.toNat (2^p.setShift)
  have hhigh:=div_add_mod (a.toNat/2^p.setShift) (2^log2 p.numSets)
  rw [Nat.div_div_eq_div_mul,← Nat.pow_add,← BaseIndexingPolicyParams.tagShift] at hhigh
  rw [extractSet_toNat]
  calc a.toNat=2^p.setShift*(a.toNat/2^p.setShift)+a.toNat%2^p.setShift := hlow.symm
    _=2^p.setShift*(2^log2 p.numSets*(a.toNat/2^p.tagShift) +
          a.toNat/2^p.setShift%2^log2 p.numSets)+a.toNat%2^p.setShift := by rw [hhigh]
    _=a.toNat/2^p.tagShift*2^p.tagShift +
          a.toNat/2^p.setShift%2^log2 p.numSets*2^p.setShift+a.toNat%2^p.setShift := by
        have hpow : 2^p.tagShift=2^p.setShift*2^log2 p.numSets := Nat.pow_add ..
        rw [hpow]
        ring

theorem extractSet_shift_lt : (SetAssociative.extractSet p a).toNat*2^p.setShift<2^p.tagShift := by
  have hlt:=SetAssociative.extractSet_lt p a
  rw [p.numSets_eq] at hlt
  rw [BaseIndexingPolicyParams.tagShift,add_comm,Nat.pow_add]
  exact Nat.mul_lt_mul_of_pos_right hlt (Nat.two_pow_pos _)

theorem regenerateAddr_toNat :
    (SetAssociative.regenerateAddr p (p.extractTag a) ⟨SetAssociative.extractSet p a,way⟩).toNat =
      a.toNat/2^p.tagShift*2^p.tagShift+(SetAssociative.extractSet p a).toNat*2^p.setShift%2^32 := by
  have hle : a.toNat/2^p.tagShift*2^p.tagShift≤a.toNat := div_mul_le_self _ _
  have hset:=(mod_le _ (2^32)).trans_lt (extractSet_shift_lt p a)
  have htag : (p.extractTag a <<< p.tagShift).toNat=2^p.tagShift*(a.toNat/2^p.tagShift) := by
    rw [toNat_shiftLeft,extractTag_toNat,Nat.shiftLeft_eq,Nat.mod_eq_of_lt (hle.trans_lt a.isLt),
      mul_comm]
  have hlow : ((SetAssociative.extractSet p a <<< p.setShift).setWidth 64).toNat =
      (SetAssociative.extractSet p a).toNat*2^p.setShift%2^32 := by
    rw [toNat_setWidth,toNat_shiftLeft,Nat.shiftLeft_eq]
    omega
  rw [SetAssociative.regenerateAddr,toNat_or,htag,hlow,← two_pow_add_eq_or_of_lt hset,mul_comm]

theorem dvd_regenerateAddr : 2^p.setShift ∣
    (SetAssociative.regenerateAddr p (p.extractTag a) ⟨SetAssociative.extractSet p a,way⟩).toNat := by
  have htag : 2^p.setShift∣2^p.tagShift := Nat.pow_dvd_pow 2 (le_add_right _ _)
  have hset : 2^p.setShift∣(SetAssociative.extractSet p a).toNat*2^p.setShift%2^32 := by
    rcases le_total p.setShift 32 with hle | hle
    · exact (dvd_mod_iff (Nat.pow_dvd_pow 2 hle)).mpr (dvd_mul_left _ _)
    · have hzero:=Nat.dvd_mul_left_of_dvd (Nat.pow_dvd_pow 2 hle) (SetAssociative.extractSet p a).toNat
      rw [mod_eq_zero_of_dvd hzero]
      exact dvd_zero _
  rw [regenerateAddr_toNat]
  exact Nat.dvd_add (Nat.dvd_mul_left_of_dvd htag _) hset

theorem regenerated_iff {low : ℕ} (hlow : low=a.toNat%2^p.setShift) :
    (SetAssociative.regenerateAddr p (p.extractTag a) ⟨SetAssociative.extractSet p a,way⟩).toNat+low=a.toNat ↔
      SetFits p a := by
  have hparts:=toNat_parts p a
  rw [regenerateAddr_toNat,SetFits,hlow]
  constructor
  · intro heq
    have hsame : (SetAssociative.extractSet p a).toNat*2^p.setShift%2^32 =
        (SetAssociative.extractSet p a).toNat*2^p.setShift := by omega
    rw [← hsame]
    exact Nat.mod_lt _ (by decide)
  · intro hfits
    rw [Nat.mod_eq_of_lt hfits]
    exact hparts.symm

end Parts

namespace SectorGeometry

variable {g : SectorGeometry} {a : Addr}

theorem extractSectorOffset_val (g : SectorGeometry) (a : Addr) :
    (g.extractSectorOffset a).val=a.toNat/2^g.sectorShift%g.numBlocksPerSector := by
  obtain ⟨k,hk⟩:=g.blocks_pow
  apply eq_of_testBit_eq
  intro j
  change ((a >>> g.sectorShift) &&& g.sectorMask).toNat.testBit j=_
  rw [sectorMask,hk,testBit_toNat,getLsbD_and,getLsbD_ushiftRight,
    getLsbD_ofNat,testBit_two_pow_sub_one,testBit_mod_two_pow,← shiftRight_eq_div_pow,
    testBit_shiftRight,testBit_toNat]
  by_cases hj : g.sectorShift+j<64
  · have hlt : j<64 := by omega
    rw [decide_eq_true hlt,Bool.true_and,Bool.and_comm]
  · rw [getLsbD_of_ge a _ (by omega),Bool.false_and,Bool.and_false]

theorem two_pow_setShift {p : BaseIndexingPolicyParams} (hp : p.entrySize=g.blkSize*g.numBlocksPerSector) :
    2^p.setShift=2^g.sectorShift*g.numBlocksPerSector := by
  obtain ⟨i,hi⟩:=g.blkSize_pow
  obtain ⟨k,hk⟩:=g.blocks_pow
  rw [BaseIndexingPolicyParams.setShift,sectorShift,hp,hi,hk,← Nat.pow_add,log2_two_pow,log2_two_pow,
    Nat.pow_add]

theorem offset_shift {p : BaseIndexingPolicyParams} (hp : p.entrySize=g.blkSize*g.numBlocksPerSector)
    (ha : 2^g.sectorShift∣a.toNat) : (g.extractSectorOffset a).val*2^g.sectorShift=a.toNat%2^p.setShift := by
  rw [two_pow_setShift hp,mod_mul,mod_eq_zero_of_dvd ha,extractSectorOffset_val,zero_add,mul_comm]

end SectorGeometry

namespace SectorTags

variable {g : SectorGeometry} {p : BaseIndexingPolicy} {t t' : SectorTags g p.Position} {a : Addr}
  {b : SubBlk g p.Position} {isSecure : Bool}

theorem entryAt_of_possible {e : p.Position} (he : e∈SetAssociative.getPossibleEntries p a) :
    p.entryAt e=⟨SetAssociative.extractSet p a,e.2⟩ := by
  simp only [SetAssociative.getPossibleEntries,List.mem_map] at he
  obtain ⟨way,_,rfl⟩:=he
  rw [BaseIndexingPolicy.entryAt,ofNat_toNat,setWidth_eq]

theorem regenerateBlkAddr_iff (hp : p.entrySize=g.blkSize*g.numBlocksPerSector)
    (ha : 2^g.sectorShift∣a.toNat) (hentry : b.1∈SetAssociative.getPossibleEntries p a)
    (hoffset : b.2=g.extractSectorOffset a) (htag : (t.blk b).tag=p.extractTag a) :
    t.regenerateBlkAddr p b=a ↔ SetFits p a := by
  have hlow:=SectorGeometry.offset_shift hp ha
  have hlt : a.toNat%2^p.setShift<2^p.setShift := Nat.mod_lt _ (Nat.two_pow_pos _)
  have hshift : (BitVec.ofNat 64 b.2 <<< g.sectorShift).toNat=a.toNat%2^p.setShift := by
    have hle : a.toNat%2^p.setShift<2^64 := (mod_le _ _).trans_lt a.isLt
    rw [toNat_shiftLeft,toNat_ofNat,Nat.shiftLeft_eq,Nat.mod_mul_mod,hoffset,hlow,
      Nat.mod_eq_of_lt hle]
  obtain ⟨k,hk⟩:=dvd_regenerateAddr p a b.1.2
  rw [← regenerated_iff p a b.1.2 rfl,regenerateBlkAddr,htag,entryAt_of_possible hentry,← toNat_inj,
    toNat_or,hshift,hk,two_pow_add_eq_or_of_lt hlt]

theorem insertBlock_tag {P : IndexingPolicy g p.Position} (hok : t.insertBlock P a isSecure b = .ok t') :
    (t'.blk b).tag=P.extractTag a := by
  have hpost : Post (t.insertBlock P a isSecure b) (fun t' => (t'.blk b).tag=P.extractTag a) := by
    unfold insertBlock
    refine (post_ite _ _ _ _ _).mpr ⟨fun _ => trivial,fun _ => ?_⟩
    refine (CompressedTags.insert_post _ _ _ _).bind fun s hs => ?_
    simp only [post_pure]
    rw [hs]
    simp [blk,setSector,SectorBlk.filled,CacheBlk.inserted]
  exact hpost.of_ok hok

end SectorTags

/-- The tag stores that use the policy: one block an entry, or a sector an entry. -/
theorem regenerate_iff (p : BaseIndexingPolicy) :
    (∀ (a : Addr) (way : ℕ) (isSecure : Bool),p.EntryAligned a →
      (regenerateBlkAddr p (CacheBlk.inserted (p.extractTag a) isSecure) ⟨SetAssociative.extractSet p a,way⟩=a ↔
        SetFits p a)) ∧
    ∀ (g : SectorGeometry) (hp : p.entrySize=g.blkSize*g.numBlocksPerSector) (t t' : SectorTags g p.Position)
      (a : Addr) (isSecure : Bool) (b : SubBlk g p.Position),2^g.sectorShift∣a.toNat →
      b.1∈(setAssociative p hp).getPossibleEntries a → b.2=g.extractSectorOffset a →
      t.insertBlock (setAssociative p hp) a isSecure b = .ok t' →
      (t'.regenerateBlkAddr p b=a ↔ SetFits p a) := by
  constructor
  · intro a way isSecure ha
    have hlow : 0=a.toNat%2^p.setShift := (Nat.mod_eq_zero_of_dvd ha).symm
    rw [← regenerated_iff p a way hlow,Nat.add_zero,BitVec.toNat_inj]
    rfl
  · intro g hp t t' a isSecure b ha hentry hoffset hok
    exact SectorTags.regenerateBlkAddr_iff hp ha hentry hoffset (SectorTags.insertBlock_tag hok)

def largeTable : BaseIndexingPolicy where
  size := 2^34
  entrySize := 64
  assoc := 1
  isPowerOf2 := ⟨28,by decide⟩
  assoc_pos := Nat.one_pos

def pairGeometry : SectorGeometry where
  blkSize := 32
  numBlocksPerSector := 2
  blkSize_ge := by decide
  blkSize_pow := ⟨5,rfl⟩
  blocks_pow := ⟨1,rfl⟩

def largePolicy : IndexingPolicy pairGeometry largeTable.Position := setAssociative largeTable rfl

def pairBlk : SubBlk pairGeometry largeTable.Position := ((⟨1,by decide⟩,⟨0,by decide⟩),⟨1,by decide⟩)

theorem regenerate_iff_one :
    (regenerateBlkAddr largeTable (CacheBlk.inserted (largeTable.extractTag 0#64) false)
      ⟨SetAssociative.extractSet largeTable 0#64,0⟩=0#64 ↔ SetFits largeTable 0#64) ∧
    ∃ t',SectorTags.init.insertBlock largePolicy 96#64 false pairBlk = .ok t' ∧
      (t'.regenerateBlkAddr largeTable pairBlk=96#64 ↔ SetFits largeTable 96#64) := by
  have hiff:=regenerate_iff largeTable
  refine ⟨hiff.1 0#64 0 false (by decide),?_⟩
  have hmem : pairBlk.1∈largePolicy.getPossibleEntries 96#64 := by decide
  exact ⟨_,rfl,hiff.2 pairGeometry rfl SectorTags.init _ 96#64 false pairBlk (by decide) hmem (by decide) rfl⟩

/-- The block at 4 GiB is taken for the block at 0. -/
theorem not_regenerated_large :
    ¬∀ (p : BaseIndexingPolicy) (a : Addr) (way : ℕ) (isSecure : Bool),p.EntryAligned a →
      regenerateBlkAddr p (CacheBlk.inserted (p.extractTag a) isSecure) ⟨SetAssociative.extractSet p a,way⟩=a := by
  intro hall
  have hwrong:=hall largeTable (BitVec.ofNat 64 (2^32)) 0 false (by decide)
  revert hwrong
  decide

end AquaGem5.Cache
