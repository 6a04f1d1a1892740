import AquaGem5.Cache.Indexing

/-! # Skewed-associative indexing (indexing_policies/skewed_associative.cc) -/

namespace AquaGem5.Cache
open Address ShiftRegister BitVec Nat

structure SkewedAssociative extends BaseIndexingPolicy where
  supported : toBaseIndexingPolicy.setShift+2*(Nat.log2 toBaseIndexingPolicy.numSets-1+1)≤64
  twoSets_lt : 2<toBaseIndexingPolicy.numSets

namespace SkewedAssociative

variable (p : SkewedAssociative)

def NUM_SKEWING_FUNCTIONS : ℕ := 8

def msbShift : ℕ := Nat.log2 p.numSets-1

def hash (addr : Addr) : Addr :=
  let lsb := bit addr 0
  let msb := bit addr p.msbShift
  let xorBit := msb ^^^ lsb
  insertBit (addr >>> 1) p.msbShift xorBit

def dehash (addr : Addr) : Addr :=
  let msb := bit addr (p.msbShift-1)
  let xorBit := bit addr p.msbShift
  let lsb := msb ^^^ xorBit
  let addrNoMsb := mbits addr (p.msbShift-1) 0
  insertBit (addrNoMsb <<< 1) 0 lsb

def setBits (addr : Addr) : Addr := bits addr p.msbShift 0 (Nat.zero_le _)

def nextBits (addr : Addr) : Addr :=
  bits addr (2*(p.msbShift+1)-1) (p.msbShift+1) (by omega)

def select (way : Fin 8) (addr1 addr2 : Addr) : Addr :=
  match way with
  | 0 => p.hash addr1 ^^^ p.hash addr2 ^^^ addr2
  | 1 => p.hash addr1 ^^^ p.hash addr2 ^^^ addr1
  | 2 => p.hash addr1 ^^^ p.dehash addr2 ^^^ addr2
  | 3 => p.hash addr1 ^^^ p.dehash addr2 ^^^ addr1
  | 4 => p.dehash addr1 ^^^ p.hash addr2 ^^^ addr2
  | 5 => p.dehash addr1 ^^^ p.hash addr2 ^^^ addr1
  | 6 => p.dehash addr1 ^^^ p.dehash addr2 ^^^ addr2
  | 7 => p.dehash addr1 ^^^ p.dehash addr2 ^^^ addr1

/-- The ways from the ninth on pile hashes on the skewing function. -/
def skew (addr : Addr) (way : ℕ) : Addr :=
  p.hash^[way/NUM_SKEWING_FUNCTIONS] (p.select (Fin.ofNat 8 way) (p.setBits addr) (p.nextBits addr))

def unselect (way : Fin 8) (addr1 addr2 : Addr) : Addr :=
  match way with
  | 0 => p.dehash (addr1 ^^^ p.hash addr2 ^^^ addr2)
  | 1 => p.hash^[p.msbShift] (addr1 ^^^ p.hash addr2)
  | 2 => p.dehash (addr1 ^^^ p.dehash addr2 ^^^ addr2)
  | 3 => p.hash^[p.msbShift] (addr1 ^^^ p.dehash addr2)
  | 4 => p.hash (addr1 ^^^ p.hash addr2 ^^^ addr2)
  | 5 => p.hash^[p.msbShift+1] (addr1 ^^^ p.hash addr2)
  | 6 => p.hash (addr1 ^^^ p.dehash addr2 ^^^ addr2)
  | 7 => p.hash^[p.msbShift+1] (addr1 ^^^ p.dehash addr2)

def deskew (addr : Addr) (way : ℕ) : Addr :=
  let addr1 := p.setBits addr
  let unpiled := if NUM_SKEWING_FUNCTIONS≤way then p.dehash^[way/NUM_SKEWING_FUNCTIONS] addr1 else addr1
  p.unselect (Fin.ofNat 8 way) unpiled (p.nextBits addr)

def extractSet (addr : Addr) (way : ℕ) : BitVec 32 :=
  (p.skew (addr >>> p.setShift) way &&& p.setMask).setWidth 32

def regenerateAddr (tag : Addr) (entry : Entry) : Addr :=
  let addrSet := tag <<< (p.msbShift+1) ||| entry.set.setWidth 64
  tag <<< p.tagShift ||| ((p.deskew addrSet entry.way &&& p.setMask) <<< p.setShift)

theorem msbShift_succ : p.msbShift+1=Nat.log2 p.numSets := by
  have hlt:=p.twoSets_lt
  have hpos : 1≤log2 p.numSets := (le_log2 (by omega)).mpr (by omega)
  rw [msbShift]
  omega

theorem msbShift_pos : 0<p.msbShift := by
  have hlt:=p.twoSets_lt
  have hsucc:=p.msbShift_succ
  have heq:=p.numSets_eq
  by_contra h
  have hone : log2 p.numSets=1 := by omega
  rw [hone] at heq
  omega

theorem width_le : p.setShift+2*(p.msbShift+1)≤64 := p.supported

theorem getLsbD_hash (v : Addr) (j : ℕ) : (p.hash v).getLsbD j =
      if j=p.msbShift then (v.getLsbD p.msbShift ^^ v.getLsbD 0) else v.getLsbD (j+1) := by
  have hwidth:=p.width_le
  rw [hash,getLsbD_insertBit _ _ (by omega),getLsbD_xor,getLsbD_bit_zero,getLsbD_bit_zero,
    getLsbD_ushiftRight,add_comm 1 j]

theorem getLsbD_dehash (v : Addr) {j : ℕ} (hj : j<64) : (p.dehash v).getLsbD j =
      if j=0 then (v.getLsbD (p.msbShift-1) ^^ v.getLsbD p.msbShift)
      else (v.getLsbD (j-1)&&decide (j≤p.msbShift)) := by
  have hpos:=p.msbShift_pos
  rw [dehash,getLsbD_insertBit _ _ (by omega),getLsbD_xor,getLsbD_bit_zero,getLsbD_bit_zero]
  by_cases hzero : j=0
  · rw [if_pos hzero,if_pos hzero]
  · have hle : decide (j-1≤p.msbShift-1)=decide (j≤p.msbShift) :=
      decide_eq_decide.mpr (by omega)
    rw [if_neg hzero,if_neg hzero,getLsbD_shiftLeft,getLsbD_mbits_low,hle]
    simp [hj,hzero]

theorem hash_shifts : Shifts (p.msbShift+1) p.hash where
  narrow := by
    intro v hv j hj
    have hne : j≠p.msbShift := by omega
    rw [p.getLsbD_hash,if_neg hne]
    exact hv _ (by omega)
  shift := by
    intro v j hj
    have hne : j≠p.msbShift := by omega
    rw [p.getLsbD_hash,if_neg hne]
  feed := by
    intro v
    rw [p.getLsbD_hash,Nat.add_sub_cancel,if_pos rfl]

theorem narrow_dehash (v : Addr) : Narrow (p.msbShift+1) (p.dehash v) := by
  intro j hj
  rcases lt_or_ge j 64 with hlt | hge
  · have hzero : j≠0 := by omega
    have hle : ¬j≤p.msbShift := by omega
    rw [p.getLsbD_dehash v hlt,if_neg hzero,decide_eq_false hle,Bool.and_false]
  · exact getLsbD_of_ge _ _ hge

theorem dehash_hash {v : Addr} (hv : Narrow (p.msbShift+1) v) : p.dehash (p.hash v)=v := by
  have hwidth:=p.width_le
  have hpos:=p.msbShift_pos
  apply Narrow.ext (p.narrow_dehash _) hv
  intro j hj
  rw [p.getLsbD_dehash _ (by omega),p.getLsbD_hash,p.getLsbD_hash,p.getLsbD_hash,if_pos rfl]
  by_cases hzero : j=0
  · have hne : p.msbShift-1≠p.msbShift := by omega
    have hback : p.msbShift-1+1=p.msbShift := by omega
    rw [if_pos hzero,if_neg hne,hback,hzero,← Bool.xor_assoc,Bool.xor_self,Bool.false_xor]
  · have hne : j-1≠p.msbShift := by omega
    have hback : j-1+1=j := by omega
    have hle : j≤p.msbShift := by omega
    rw [if_neg hzero,if_neg hne,hback,decide_eq_true hle,Bool.and_true]

theorem hash_dehash {v : Addr} (hv : Narrow (p.msbShift+1) v) : p.hash (p.dehash v)=v := by
  have hwidth:=p.width_le
  have hpos:=p.msbShift_pos
  apply Narrow.ext (p.hash_shifts.narrow (p.narrow_dehash v)) hv
  intro j hj
  rw [p.getLsbD_hash,p.getLsbD_dehash v (by omega),p.getLsbD_dehash v (by omega),
    p.getLsbD_dehash v (by omega),if_pos rfl]
  by_cases hlast : j=p.msbShift
  · have hne : p.msbShift≠0 := by omega
    rw [if_pos hlast,if_neg hne,decide_eq_true (le_refl _),Bool.and_true,hlast,← Bool.xor_assoc,
      Bool.xor_self,Bool.false_xor]
  · have hle : j+1≤p.msbShift := by omega
    rw [if_neg hlast,if_neg (Nat.succ_ne_zero j),Nat.add_sub_cancel,decide_eq_true hle,Bool.and_true]

theorem dehash_hash_iterate {v : Addr} (hv : Narrow (p.msbShift+1) v) (k : ℕ) : p.dehash^[k] (p.hash^[k] v)=v := by
  induction k with
  | zero => rfl
  | succ k ih =>
    rw [Function.iterate_succ_apply,Function.iterate_succ_apply',
      p.dehash_hash (p.hash_shifts.narrow_iterate hv k),ih]

theorem narrow_setBits (a : Addr) : Narrow (p.msbShift+1) (p.setBits a) := narrow_bits a (Nat.zero_le _)

theorem narrow_nextBits (a : Addr) : Narrow (p.msbShift+1) (p.nextBits a) := by
  have hlast : p.msbShift+1≤2*(p.msbShift+1)-1 := by omega
  have hwidth : 2*(p.msbShift+1)-1-(p.msbShift+1)+1=p.msbShift+1 := by omega
  have hbits:=narrow_bits a hlast
  rwa [hwidth] at hbits

section Select

variable {v u : Addr} (hv : Narrow (p.msbShift+1) v) (hu : Narrow (p.msbShift+1) u)

include hv hu

theorem narrow_select (way : Fin 8) : Narrow (p.msbShift+1) (p.select way v u) := by
  have hhv:=p.hash_shifts.narrow hv
  have hhu:=p.hash_shifts.narrow hu
  have hdv:=p.narrow_dehash v
  have hdu:=p.narrow_dehash u
  match way with
  | 0 => exact (hhv.xor hhu).xor hu
  | 1 => exact (hhv.xor hhu).xor hv
  | 2 => exact (hhv.xor hdu).xor hu
  | 3 => exact (hhv.xor hdu).xor hv
  | 4 => exact (hdv.xor hhu).xor hu
  | 5 => exact (hdv.xor hhu).xor hv
  | 6 => exact (hdv.xor hdu).xor hu
  | 7 => exact (hdv.xor hdu).xor hv

omit hu in
theorem unselect_select (way : Fin 8) : p.unselect way (p.select way v u) u=v := by
  have hsides : ∀ x y : Addr,x ^^^ y ^^^ u ^^^ y ^^^ u=x := by
    intro x y
    rw [BitVec.xor_assoc (x ^^^ y),BitVec.xor_comm u y,← BitVec.xor_assoc,BitVec.xor_assoc x,
      BitVec.xor_self,BitVec.xor_zero,BitVec.xor_assoc,BitVec.xor_self,BitVec.xor_zero]
  have hself : ∀ x y : Addr,x ^^^ y ^^^ v ^^^ y=x ^^^ v := by
    intro x y
    rw [BitVec.xor_assoc,BitVec.xor_comm v y,← BitVec.xor_assoc,BitVec.xor_assoc x,BitVec.xor_self,
      BitVec.xor_zero]
  have hstep:=p.hash_shifts.iterate_step_xor (succ_pos _) hv
  have hback:=p.hash_shifts.iterate_back_xor (succ_pos _) hv (p.narrow_dehash v) (p.hash_dehash hv)
  rw [Nat.add_sub_cancel] at hstep
  match way with
  | 0 => simp only [select,unselect,hsides,p.dehash_hash hv]
  | 1 => simp only [select,unselect,hself,hstep]
  | 2 => simp only [select,unselect,hsides,p.dehash_hash hv]
  | 3 => simp only [select,unselect,hself,hstep]
  | 4 => simp only [select,unselect,hsides,p.hash_dehash hv]
  | 5 => simp only [select,unselect,hself,hback]
  | 6 => simp only [select,unselect,hsides,p.hash_dehash hv]
  | 7 => simp only [select,unselect,hself,hback]

end Select

theorem narrow_skew (a : Addr) (way : ℕ) : Narrow (p.msbShift+1) (p.skew a way) :=
  p.hash_shifts.narrow_iterate (p.narrow_select (p.narrow_setBits a) (p.narrow_nextBits a) _) _

theorem deskew_skew {a b : Addr} {way : ℕ} (hset : p.setBits b=p.skew a way)
    (hnext : p.nextBits b=p.nextBits a) : p.deskew b way=p.setBits a := by
  have hselect:=p.narrow_select (p.narrow_setBits a) (p.narrow_nextBits a) (Fin.ofNat 8 way)
  have hunpiled : (if NUM_SKEWING_FUNCTIONS≤way then p.dehash^[way/NUM_SKEWING_FUNCTIONS] (p.setBits b)
      else p.setBits b)=p.select (Fin.ofNat 8 way) (p.setBits a) (p.nextBits a) := by
    rw [hset,skew]
    split_ifs with hway
    · exact p.dehash_hash_iterate hselect _
    · have hzero : way/NUM_SKEWING_FUNCTIONS=0 := div_eq_of_lt (by omega)
      rw [hzero]
      rfl
  simp only [deskew]
  rw [hunpiled,hnext]
  exact p.unselect_select (p.narrow_setBits a) _

theorem tagShift_eq : p.tagShift=p.setShift+(p.msbShift+1) := by
  rw [BaseIndexingPolicyParams.tagShift,p.msbShift_succ]

theorem getLsbD_setBits (a : Addr) (j : ℕ) : (p.setBits a).getLsbD j=(a.getLsbD j&&decide (j<p.msbShift+1)) := by
  have hle : decide (j≤p.msbShift-0)=decide (j<p.msbShift+1) := decide_eq_decide.mpr (by omega)
  rw [setBits,getLsbD_bits,zero_add,hle]

theorem getLsbD_nextBits (a : Addr) (j : ℕ) :
    (p.nextBits a).getLsbD j=(a.getLsbD (p.msbShift+1+j)&&decide (j<p.msbShift+1)) := by
  have hle : decide (j≤2*(p.msbShift+1)-1-(p.msbShift+1))=decide (j<p.msbShift+1) :=
    decide_eq_decide.mpr (by omega)
  rw [nextBits,getLsbD_bits,hle]

theorem extractSet_setWidth (a : Addr) (way : ℕ) :
    (p.extractSet a way).setWidth 64=p.skew (a >>> p.setShift) way := by
  have hlog:=p.log2_numSets_lt
  have hnarrow:=p.narrow_skew (a >>> p.setShift) way
  rw [extractSet]
  apply eq_of_getLsbD_eq
  intro j hj
  have hmask:=p.and_setMask (p.msbShift_succ ▸ hnarrow)
  rw [hmask,getLsbD_setWidth,getLsbD_setWidth,decide_eq_true hj,Bool.true_and]
  rcases lt_or_ge j 32 with hlt | hge
  · rw [decide_eq_true hlt,Bool.true_and]
  · rw [hnarrow j (by rw [p.msbShift_succ]; omega),Bool.and_false]

theorem extractSet_lt (a : Addr) (way : ℕ) : (p.extractSet a way).toNat<p.numSets := by
  have hnarrow:=p.narrow_skew (a >>> p.setShift) way
  have hwidth:=p.extractSet_setWidth a way
  have hlt:=narrow_iff.mp hnarrow
  rw [p.msbShift_succ,← p.numSets_eq,← hwidth,toNat_setWidth] at hlt
  rwa [mod_eq_of_lt (by omega)] at hlt

theorem regenerate_extract {a : Addr} (ha : p.EntryAligned a) (way : ℕ) :
    p.regenerateAddr (p.extractTag a) ⟨p.extractSet a way,way⟩=a := by
  have hwidth:=p.width_le
  have hnarrow:=p.narrow_skew (a >>> p.setShift) way
  have haligned:=p.entryAligned_iff.mp ha
  have hset : p.setBits (p.extractTag a <<< (p.msbShift+1) ||| p.skew (a >>> p.setShift) way) =
      p.skew (a >>> p.setShift) way := by
    apply Narrow.ext (p.narrow_setBits _) hnarrow
    intro j hj
    rw [getLsbD_setBits,getLsbD_or,getLsbD_shiftLeft]
    simp [hj]
  have hnext : p.nextBits (p.extractTag a <<< (p.msbShift+1) ||| p.skew (a >>> p.setShift) way) =
      p.nextBits (a >>> p.setShift) := by
    apply Narrow.ext (p.narrow_nextBits _) (p.narrow_nextBits _)
    intro j hj
    have hlt : p.msbShift+1+j<64 := by omega
    have hge : ¬p.msbShift+1+j<p.msbShift+1 := by omega
    have hsum : p.setShift+(p.msbShift+1)+j=p.setShift+(p.msbShift+1+j) := by omega
    rw [getLsbD_nextBits,getLsbD_nextBits,getLsbD_or,getLsbD_shiftLeft,
      hnarrow _ (le_add_right _ _),BaseIndexingPolicy.extractTag,p.tagShift_eq]
    simp [hlt,hge,hsum]
  rw [regenerateAddr,p.extractSet_setWidth,p.deskew_skew hset hnext,
    p.and_setMask (p.msbShift_succ ▸ p.narrow_setBits _)]
  apply eq_of_getLsbD_eq
  intro j hj
  rw [BaseIndexingPolicy.extractTag,p.tagShift_eq,getLsbD_or,getLsbD_shiftLeft,
    getLsbD_shiftLeft,getLsbD_setBits,getLsbD_ushiftRight,getLsbD_ushiftRight]
  by_cases hlow : j<p.setShift
  · have htag : j<p.setShift+(p.msbShift+1) := by omega
    simp [hlow,htag,haligned j hlow]
  · by_cases hmid : j<p.setShift+(p.msbShift+1)
    · have hin : j-p.setShift<p.msbShift+1 := by omega
      have hsum : p.setShift+(j-p.setShift)=j := by omega
      simp [hj,hlow,hmid,hin,hsum]
    · have hout : ¬j-p.setShift<p.msbShift+1 := by omega
      have hsum : p.setShift+(p.msbShift+1)+(j-(p.setShift+(p.msbShift+1)))=j := by omega
      simp [hj,hmid,hout,hsum]

theorem extractSet_injective {a b : Addr} (ha : p.EntryAligned a) (hb : p.EntryAligned b)
    (htag : p.extractTag a=p.extractTag b) {way : ℕ} (hset : p.extractSet a way=p.extractSet b way) : a=b := by
  have hregen:=p.regenerate_extract ha way
  rw [htag,hset,p.regenerate_extract hb way] at hregen
  exact hregen.symm

def address (tag : Addr) (i : ℕ) : Addr := tag <<< p.tagShift ||| BitVec.ofNat 64 i <<< p.setShift

theorem narrow_ofNat {i : ℕ} (hi : i<p.numSets) : Narrow (p.msbShift+1) (BitVec.ofNat 64 i) := by
  rw [p.numSets_eq,← p.msbShift_succ] at hi
  rw [narrow_iff,toNat_ofNat]
  exact (mod_le _ _).trans_lt hi

theorem address_aligned (tag : Addr) (i : ℕ) : p.EntryAligned (p.address tag i) := by
  rw [p.entryAligned_iff]
  intro j hj
  have htag : j<p.setShift+(p.msbShift+1) := by omega
  simp [address,p.tagShift_eq,hj,htag]

theorem extractTag_address (tag : Addr) {i : ℕ} (hi : i<p.numSets) :
    p.extractTag (p.address tag i)=tag <<< p.tagShift >>> p.tagShift := by
  apply eq_of_getLsbD_eq
  intro j _
  have hge : p.msbShift+1≤p.setShift+(p.msbShift+1)+j-p.setShift := by omega
  simp only [BaseIndexingPolicy.extractTag,address,p.tagShift_eq,getLsbD_ushiftRight,getLsbD_or,
    getLsbD_shiftLeft]
  rw [p.narrow_ofNat hi _ hge,Bool.and_false,Bool.or_false]

theorem setAssociative_address (tag : Addr) {i : ℕ} (hi : i<p.numSets) :
    (SetAssociative.extractSet p.toBaseIndexingPolicy (p.address tag i)).toNat=i := by
  have hwidth:=p.width_le
  have hlt:=p.numSets_lt
  have hmask : (p.address tag i >>> p.setShift) &&& p.setMask=BitVec.ofNat 64 i := by
    apply eq_of_getLsbD_eq
    intro j _
    rw [getLsbD_and,p.getLsbD_setMask,← p.msbShift_succ,address,p.tagShift_eq,
      getLsbD_ushiftRight,getLsbD_or,getLsbD_shiftLeft,getLsbD_shiftLeft]
    by_cases hj : j<p.msbShift+1
    · have hin : p.setShift+j<64 := by omega
      simp [hj,hin]
    · rw [p.narrow_ofNat hi j (by omega),decide_eq_false hj,Bool.and_false]
  rw [SetAssociative.extractSet,hmask,toNat_setWidth,toNat_ofNat,mod_eq_of_lt (by omega),
    mod_eq_of_lt (by omega)]

theorem address_extract {a : Addr} (ha : p.EntryAligned a) :
    p.address (p.extractTag a) (SetAssociative.extractSet p.toBaseIndexingPolicy a).toNat=a := by
  have hwidth:=p.width_le
  have hlog:=p.log2_numSets_lt
  have haligned:=p.entryAligned_iff.mp ha
  have hset : ∀ j<64,(BitVec.ofNat 64 (SetAssociative.extractSet p.toBaseIndexingPolicy a).toNat).getLsbD j =
      (a.getLsbD (p.setShift+j)&&decide (j<p.msbShift+1)) := by
    intro j hj
    have hin : j<p.msbShift+1 → j<32 := by
      rw [p.msbShift_succ]
      omega
    rw [ofNat_toNat,SetAssociative.extractSet,getLsbD_setWidth,getLsbD_setWidth,
      getLsbD_and,p.getLsbD_setMask,← p.msbShift_succ,getLsbD_ushiftRight]
    by_cases hlt : j<p.msbShift+1
    · simp [hj,hlt,hin hlt]
    · simp [hlt]
  apply eq_of_getLsbD_eq
  intro j hj
  rw [address,BaseIndexingPolicy.extractTag,p.tagShift_eq,getLsbD_or,getLsbD_shiftLeft,
    getLsbD_shiftLeft,getLsbD_ushiftRight,hset _ (by omega)]
  by_cases hlow : j<p.setShift
  · have htag : j<p.setShift+(p.msbShift+1) := by omega
    simp [hlow,htag,haligned j hlow]
  · have hback : p.setShift+(j-p.setShift)=j := by omega
    by_cases hmid : j<p.setShift+(p.msbShift+1)
    · have hin : j-p.setShift<p.msbShift+1 := by omega
      simp [hj,hlow,hmid,hin,hback]
    · have hout : ¬j-p.setShift<p.msbShift+1 := by omega
      have hsum : p.setShift+(p.msbShift+1)+(j-(p.setShift+(p.msbShift+1)))=j := by omega
      simp [hj,hmid,hout,hsum]

def skewSet (tag : Addr) (way : ℕ) (i : Fin p.numSets) : Fin p.numSets :=
  ⟨(p.extractSet (p.address tag i) way).toNat,p.extractSet_lt _ _⟩

theorem skewSet_injective (tag : Addr) (way : ℕ) : Function.Injective (p.skewSet tag way) := by
  intro i k hik
  have hsame : p.extractSet (p.address tag i) way=p.extractSet (p.address tag k) way :=
    eq_of_toNat_eq (Fin.mk.inj_iff.mp hik)
  have htag : p.extractTag (p.address tag i)=p.extractTag (p.address tag k) := by
    rw [p.extractTag_address tag i.isLt,p.extractTag_address tag k.isLt]
  have haddr:=p.extractSet_injective (p.address_aligned tag i) (p.address_aligned tag k) htag hsame
  have hset:=p.setAssociative_address tag i.isLt
  rw [haddr,p.setAssociative_address tag k.isLt] at hset
  exact Fin.ext hset.symm

/-- The address is given back by its tag and entry, the sets of one tag and way are a permutation,
and addresses with one tag never share an entry of one way. -/
theorem skewed_invertible (way : ℕ) :
    (∀ a,p.EntryAligned a → p.regenerateAddr (p.extractTag a) ⟨p.extractSet a way,way⟩=a) ∧
    (∀ tag,∃ σ : Equiv.Perm (Fin p.numSets),∀ a,p.EntryAligned a → p.extractTag a=tag →
      ∀ i : Fin p.numSets,(SetAssociative.extractSet p.toBaseIndexingPolicy a).toNat=i →
        (p.extractSet a way).toNat=σ i) ∧
    (∀ a b,p.EntryAligned a → p.EntryAligned b → p.extractTag a=p.extractTag b →
      p.extractSet a way=p.extractSet b way → a=b) := by
  refine ⟨fun a ha => p.regenerate_extract ha way,?_,fun a b ha hb htag => p.extractSet_injective ha hb htag⟩
  intro tag
  have hbijective:=Finite.injective_iff_bijective.mp (p.skewSet_injective tag way)
  refine ⟨Equiv.ofBijective _ hbijective,?_⟩
  intro a ha htag i hi
  have haddr:=p.address_extract ha
  rw [htag,hi] at haddr
  have hval : (p.skewSet tag way i).val=(p.extractSet (p.address tag i) way).toNat := rfl
  rw [Equiv.ofBijective_apply,hval,haddr]

def skewedCache : SkewedAssociative where
  size := 1048576
  entrySize := 64
  assoc := 16
  isPowerOf2 := ⟨10,by decide⟩
  assoc_pos := by decide
  supported := by decide
  twoSets_lt := by decide

theorem skewed_invertible_1024 :
    skewedCache.regenerateAddr (skewedCache.extractTag 0x12345640#64)
        ⟨skewedCache.extractSet 0x12345640#64 13,13⟩=0x12345640#64 ∧
      skewedCache.extractSet 0x12345640#64 13≠skewedCache.extractSet 0x12345680#64 13 := by
  have hall:=skewed_invertible skewedCache 13
  refine ⟨hall.1 _ (by decide),fun hset => ?_⟩
  have heq:=hall.2.2 _ _ (by decide) (by decide) (by decide) hset
  revert heq
  decide

end SkewedAssociative

end AquaGem5.Cache
