import AquaGem5.Address.AddrRange
import AquaGem5.Lib.ShiftRegister

/-!
# Indexing policies of the tag stores (indexing_policies/base.cc, set_associative.cc)

A table entry is known by its position: its set, a 32-bit number, and its way.
-/

namespace AquaGem5.Cache
open Address ShiftRegister Nat BitVec

/-- `bits(val, first, last)`; the assertion on the positions is an argument. -/
def bits (val : Addr) (first last : ℕ) (_ : last≤first) : Addr :=
  (val >>> last) &&& mask (first-last+1)

def bit (val : Addr) (pos : ℕ) : Addr := bits val pos pos (Nat.le_refl pos)

def mbits (val : Addr) (first last : ℕ) : Addr := val &&& (mask (first+1) &&& ~~~mask last)

def insertBit (val : Addr) (pos : ℕ) (bitVal : Addr) : Addr :=
  let bmask := mask 1 <<< pos
  ((bitVal <<< pos) &&& bmask) ||| (val &&& ~~~bmask)

theorem insertBits_same (val : Addr) (pos : ℕ) (bitVal : Addr) :
    insertBits val pos pos bitVal = .ok (insertBit val pos bitVal) := by
  rw [insertBits,if_pos (by omega)]
  simp [insertBit]

theorem getLsbD_bits (val : Addr) {first last : ℕ} (h : last≤first) (j : ℕ) : (bits val first last h).getLsbD j =
      (val.getLsbD (last+j)&&decide (j≤first-last)) := by
  rw [bits,getLsbD_and,getLsbD_ushiftRight,getLsbD_mask (by omega)]
  rcases lt_or_ge (last+j) 64 with hj | hj
  · have hiff : ((j : ℤ)<first-last+1 ∧ j<64) ↔ j≤first-last := by omega
    rw [decide_eq_decide.mpr hiff]
  · rw [getLsbD_of_ge val _ hj,Bool.false_and,Bool.false_and]

theorem narrow_bits (val : Addr) {first last : ℕ} (h : last≤first) :
    Narrow (first-last+1) (bits val first last h) := by
  intro j hj
  have hgt : ¬j≤first-last := by omega
  rw [getLsbD_bits,decide_eq_false hgt,Bool.and_false]

theorem getLsbD_bit_zero (val : Addr) (pos : ℕ) : (bit val pos).getLsbD 0=val.getLsbD pos := by
  rw [bit,getLsbD_bits,add_zero,decide_eq_true (zero_le _),Bool.and_true]

theorem getLsbD_mbits_low (val : Addr) (first j : ℕ) :
    (mbits val first 0).getLsbD j=(val.getLsbD j&&decide (j≤first)) := by
  rw [mbits,getLsbD_and,getLsbD_and,getLsbD_not,getLsbD_mask (by omega),
    getLsbD_mask (by omega)]
  rcases lt_or_ge j 64 with hj | hj
  · have hiff : ((j : ℤ)<first+1 ∧ j<64) ↔ j≤first := by omega
    have hlow : ¬((j : ℤ)<(0 : ℕ) ∧ j<64) := by omega
    rw [decide_eq_decide.mpr hiff,decide_eq_false hlow,decide_eq_true hj,Bool.not_false,Bool.and_true,
      Bool.and_true]
  · rw [getLsbD_of_ge val _ hj,Bool.false_and,Bool.false_and]

theorem getLsbD_insertBit (val bitVal : Addr) {pos : ℕ} (hp : pos<64) (j : ℕ) :
    (insertBit val pos bitVal).getLsbD j=if j=pos then bitVal.getLsbD 0 else val.getLsbD j := by
  obtain ⟨a,ha,hbits⟩:=insertBits_at val bitVal hp
  rw [insertBits_same,Except.ok.injEq] at ha
  rw [ha,hbits]

structure BaseIndexingPolicyParams where
  size : ℕ
  entrySize : ℕ
  assoc : ℕ

namespace BaseIndexingPolicyParams

variable (p : BaseIndexingPolicyParams)

/-- The product is an `unsigned` and the quotient is stored in a `uint32_t`. -/
def numSets : ℕ := p.size/(p.entrySize*p.assoc%2^32)%2^32

def setShift : ℕ := Nat.log2 p.entrySize

def setMask : Addr := BitVec.ofNat 64 (p.numSets-1)

def tagShift : ℕ := p.setShift+Nat.log2 p.numSets

end BaseIndexingPolicyParams

structure BaseIndexingPolicy extends BaseIndexingPolicyParams where
  isPowerOf2 : toBaseIndexingPolicyParams.numSets.isPowerOfTwo
  assoc_pos : 0<assoc

structure Entry where
  set : BitVec 32
  way : ℕ
  deriving DecidableEq

namespace BaseIndexingPolicy

variable (p : BaseIndexingPolicy)

abbrev Position : Type := Fin p.numSets × Fin p.assoc

def extractTag (addr : Addr) : Addr := addr >>> p.tagShift

def EntryAligned (addr : Addr) : Prop := 2^p.setShift∣addr.toNat

instance (addr : Addr) : Decidable (p.EntryAligned addr) :=
  inferInstanceAs (Decidable (2^p.setShift∣addr.toNat))

theorem numSets_eq : p.numSets=2^Nat.log2 p.numSets := by
  obtain ⟨n,hn⟩:=p.isPowerOf2
  rw [hn,log2_two_pow]

theorem numSets_lt : p.numSets<2^32 := Nat.mod_lt _ (by decide)

theorem log2_numSets_lt : Nat.log2 p.numSets<32 := by
  have hlt:=p.numSets_lt
  rw [p.numSets_eq] at hlt
  exact (Nat.pow_lt_pow_iff_right (by decide)).mp hlt

theorem getLsbD_setMask (j : ℕ) : p.setMask.getLsbD j=decide (j<Nat.log2 p.numSets) := by
  have hlt:=p.log2_numSets_lt
  rw [BaseIndexingPolicyParams.setMask,getLsbD_ofNat,p.numSets_eq,log2_two_pow,
    testBit_two_pow_sub_one,← Bool.decide_and]
  exact decide_eq_decide.mpr (by omega)

theorem and_setMask {v : Addr} (hv : Narrow (Nat.log2 p.numSets) v) : v &&& p.setMask=v := by
  apply eq_of_getLsbD_eq
  intro j _
  rw [getLsbD_and,p.getLsbD_setMask]
  rcases lt_or_ge j (log2 p.numSets) with hj | hj
  · rw [decide_eq_true hj,Bool.and_true]
  · rw [hv j hj,Bool.false_and]

theorem entryAligned_iff {a : Addr} : p.EntryAligned a ↔ ∀ j<p.setShift,a.getLsbD j=false := by
  rw [EntryAligned,dvd_iff_mod_eq_zero]
  constructor
  · intro h j hj
    have hbit:=testBit_mod_two_pow a.toNat p.setShift j
    rw [h,zero_testBit,decide_eq_true hj,Bool.true_and] at hbit
    rw [← testBit_toNat,← hbit]
  · intro h
    apply eq_of_testBit_eq
    intro j
    rw [testBit_mod_two_pow,zero_testBit,testBit_toNat]
    by_cases hj : j<p.setShift
    · rw [h j hj,Bool.and_false]
    · rw [decide_eq_false hj,Bool.false_and]

end BaseIndexingPolicy

namespace SetAssociative

def extractSet (p : BaseIndexingPolicy) (addr : Addr) : BitVec 32 :=
  ((addr >>> p.setShift) &&& p.setMask).setWidth 32

theorem extractSet_lt (p : BaseIndexingPolicy) (addr : Addr) : (extractSet p addr).toNat<p.numSets := by
  have hpos : 0<p.numSets := pos_of_isPowerOfTwo p.isPowerOf2
  have hlt:=p.numSets_lt
  have hle : ((addr >>> p.setShift) &&& p.setMask).toNat≤p.setMask.toNat := by
    rw [toNat_and]
    exact and_le_right
  have hmask : p.setMask.toNat=p.numSets-1 := by
    rw [BaseIndexingPolicyParams.setMask,toNat_ofNat,mod_eq_of_lt (by omega)]
  rw [extractSet,toNat_setWidth]
  exact (mod_le _ _).trans_lt (by omega)

def getPossibleEntries (p : BaseIndexingPolicy) (addr : Addr) : List p.Position :=
  (List.finRange p.assoc).map fun way => (⟨(extractSet p addr).toNat,extractSet_lt p addr⟩,way)

end SetAssociative

end AquaGem5.Cache
