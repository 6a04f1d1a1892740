import AquaGem5.Lib.Bits

/-!
# Bit fields and address ranges (bitfield.hh, addr_range.hh)

An `Addr` is a 64-bit word and an `int` used as a bit position is an integer. A shift the
language leaves undefined is a `Fault`, as are the assertions and the panics.
-/

namespace AquaGem5.Address
open Bits BitVec

abbrev Addr := BitVec 64

def maxAddr : Addr := BitVec.allOnes 64

inductive Fault where
  | assertion
  | shift
  | fatal
  | panic
  deriving DecidableEq

def mask (nbits : ℤ) : Addr := if 64≤nbits then BitVec.allOnes 64 else 1#64 <<< nbits.toNat-1#64

def insertBits (val : Addr) (first last : ℤ) (bitVal : Addr) : Except Fault Addr :=
  if 0≤first-last then
    let bmask := mask (first-last+1) <<< last.toNat
    .ok (((bitVal <<< last.toNat) &&& bmask) ||| (val &&& ~~~bmask))
  else .error .assertion

/-- `bits(val, bit)` of an 8-bit value, which is promoted to `int` before the shift. -/
def bits8 (val : BitVec 8) (bit : ℕ) : Except Fault Addr :=
  if bit<32 then .ok (((val >>> bit) &&& 1#8).setWidth 64) else .error .shift

def ctz64 (value : Addr) : ℕ := value.ctz.toNat

/-- `~(1 << lsb)`, an `int` that the conversion to `Addr` sign-extends. -/
def clearMask (lsb : ℕ) : Except Fault Addr :=
  if lsb<32 then .ok ((~~~(1#32 <<< lsb)).signExtend 64) else .error .shift

structure AddrRange where
  _start : Addr
  _end : Addr
  masks : List Addr
  intlvMatch : BitVec 8
  deriving DecidableEq

namespace AddrRange

def ofMasks (start stop : Addr) (masks : List Addr) (intlvMatch : BitVec 8) : Except Fault AddrRange :=
  if masks=[] then .ok ⟨start,stop,masks,intlvMatch⟩
  else if 64 ≤ masks.length then .error .shift
  else if 2^masks.length ≤ intlvMatch.toNat then .error .fatal
  else .ok ⟨start,stop,masks,intlvMatch⟩

/-- The two bits of stripe `i` of the legacy constructor; the positions are 8-bit numbers. -/
def legacyMask (intlvHighBit xorHighBit : BitVec 8) (i : ℕ) : Except Fault Addr :=
  let bit1 := (intlvHighBit-BitVec.ofNat 8 i).toNat
  let bit2 := (xorHighBit-BitVec.ofNat 8 i).toNat
  if 64≤bit1 then .error .shift
  else if xorHighBit=0 then .ok (1#64 <<< bit1)
  else if 64≤bit2 then .error .shift
  else .ok (1#64 <<< bit1 ||| 1#64 <<< bit2)

/-- The legacy constructor: contiguous interleaving bits, each with at most one xor partner. -/
def ofHighBits (start stop : Addr) (intlvHighBit xorHighBit intlvBits intlvMatch : BitVec 8) :
    Except Fault AddrRange := do
  if intlvBits≠0 ∧ 64 ≤ intlvBits.toNat then throw .shift
  if intlvBits≠0 ∧ 2^intlvBits.toNat ≤ intlvMatch.toNat then throw .fatal
  let distance := if intlvHighBit<xorHighBit then xorHighBit.toNat-intlvHighBit.toNat
    else intlvHighBit.toNat-xorHighBit.toNat
  if intlvBits≠0 ∧ xorHighBit≠0 ∧ (xorHighBit=intlvHighBit ∨ distance < intlvBits.toNat) then
    throw .fatal
  let masks ← (List.range intlvBits.toNat).reverse.mapM (legacyMask intlvHighBit xorHighBit)
  return ⟨start,stop,masks,intlvMatch⟩

def interleaved (r : AddrRange) : Bool := decide (0<r.masks.length)

def selLoop (a : Addr) : ℕ → List Addr → BitVec 32 → Except Fault (BitVec 32)
  | _,[],sel => .ok sel
  | i,m::ms,sel =>
    if i<32 then selLoop a (i+1) ms (sel ||| BitVec.ofNat 32 (popCount (a &&& m)%2) <<< i)
    else .error .shift

def sel (r : AddrRange) (a : Addr) : Except Fault (BitVec 32) := selLoop a 0 r.masks 0#32

def contains (r : AddrRange) (a : Addr) : Except Fault Bool :=
  if r._start≤a ∧ a<r._end then do
    let sel ← r.sel a
    return decide (sel=r.intlvMatch.setWidth 32)
  else .ok false

/-- The interleaved regions are counted as equally large. The constructor's check leaves fewer
than 64 masks. -/
def size (r : AddrRange) : Addr := (r._end-r._start) >>> r.masks.length

/-- `combined_mask` is an `int`: each or drops the upper half. -/
def combinedMask (masks : List Addr) : BitVec 32 := masks.foldl (fun c m => c ||| m.setWidth 32) 0#32

def valid (r : AddrRange) : Bool := decide (r._start≤r._end)

def granularity (r : AddrRange) : Except Fault Addr :=
  if r.interleaved then
    let lowestBit := ctz64 ((combinedMask r.masks).signExtend 64)
    if lowestBit<64 then .ok (1#64 <<< lowestBit) else .error .shift
  else .ok r.size

def mergesWith (this r : AddrRange) : Bool :=
  decide (r._start=this._start ∧ r._end=this._end ∧ r.masks=this.masks)

def intersects (this r : AddrRange) : Except Fault Bool :=
  if r._end≤this._start ∨ this._end≤r._start then .ok false
  else if !this.interleaved && !r.interleaved then .ok true
  else if r.size=1 then this.contains r._start
  else if this.mergesWith r then .ok (decide (this.intlvMatch=r.intlvMatch))
  else .error .panic

def isSubset (this r : AddrRange) : Except Fault Bool :=
  if this.interleaved then .error .panic
  else if r.interleaved then do
    if !(← r.contains this._start) then return false
    if !(← r.contains (this._end-1)) then return false
    return decide (this.size≤(← r.granularity))
  else .ok (decide (r._start≤this._start ∧ this._end≤r._end))

def lt (this r : AddrRange) : Bool :=
  if this._start≠r._start then decide (this._start<r._start)
  else decide (this.intlvMatch<r.intlvMatch)

def rangeSize (start size : Addr) : AddrRange := ⟨start,start+size,[],0⟩

def masksLsb (r : AddrRange) : List ℕ := (r.masks.map ctz64).insertionSort (·≤·)

/-- On every iteration one bit is removed, so the next one has shifted right by `i` positions. -/
def removeBit (i intlvBit : ℕ) (a : Addr) : Except Fault Addr :=
  if 0 < intlvBit then insertBits (a >>> 1) ((intlvBit : ℤ)-i-1) 0 a else .ok (a >>> 1)

def removeLoop : ℕ → List ℕ → Addr → Except Fault Addr
  | _,[],a => .ok a
  | i,intlvBit::rest,a => do
    let a' ← removeBit i intlvBit a
    removeLoop (i+1) rest a'

def removeIntlvBits (r : AddrRange) (a : Addr) : Except Fault Addr := removeLoop 0 r.masksLsb a

def getOffset (r : AddrRange) (a : Addr) : Except Fault Addr :=
  if r._start≤a ∧ a<r._end then
    if r.interleaved then do
      let offset ← r.removeIntlvBits a
      let base ← r.removeIntlvBits r._start
      return offset-base
    else .ok (a-r._start)
  else .ok maxAddr

def addBit (i intlvBit : ℕ) (a : Addr) : Except Fault Addr :=
  if 0 < intlvBit then insertBits (a <<< 1) ((intlvBit : ℤ)+i-1) 0 a else .ok (a <<< 1)

def addLoop : ℕ → List ℕ → Addr → Except Fault Addr
  | _,[],a => .ok a
  | i,intlvBit::rest,a => do
    let a' ← addBit i intlvBit a
    addLoop (i+1) rest a'

def fixBit (intlvMatch : BitVec 8) (i : ℕ) (m a : Addr) : Except Fault Addr := do
  let lsb := ctz64 m
  let intlvBit ← bits8 intlvMatch i
  let keep ← clearMask lsb
  let masked := a &&& m &&& keep
  insertBits a lsb lsb (intlvBit ^^^ BitVec.ofNat 64 (popCount masked))

def fixLoop (intlvMatch : BitVec 8) : ℕ → List Addr → Addr → Except Fault Addr
  | _,[],a => .ok a
  | i,m::ms,a => do
    let a' ← fixBit intlvMatch i m a
    fixLoop intlvMatch (i+1) ms a'

def addIntlvBits (r : AddrRange) (a : Addr) : Except Fault Addr := do
  let a' ← addLoop 0 r.masksLsb a
  fixLoop r.intlvMatch 0 r.masks a'

end AddrRange

theorem getLsbD_mask {nbits : ℤ} (h : 0≤nbits) (j : ℕ) : (mask nbits).getLsbD j=decide ((j : ℤ)<nbits ∧ j<64) := by
  unfold mask
  split_ifs with hlarge
  · rw [getLsbD_allOnes]
    exact decide_eq_decide.mpr (by omega)
  · rw [getLsbD_low (by omega)]
    exact decide_eq_decide.mpr (by omega)

theorem insertBits_low (val bitVal : Addr) {first : ℤ} (h : 0≤first) : ∃ a,insertBits val first 0 bitVal = .ok a ∧
      ∀ j,a.getLsbD j=if (j : ℤ)≤first then bitVal.getLsbD j else val.getLsbD j := by
  refine ⟨_,by rw [insertBits,if_pos (by omega)],fun j => ?_⟩
  simp only [Int.toNat_zero,shiftLeft_zero,getLsbD_or,getLsbD_and,getLsbD_not]
  rw [getLsbD_mask (by omega)]
  by_cases hj : j<64
  · by_cases hle : (j : ℤ)≤first
    · have hlt : (j : ℤ)<first+1 := by omega
      simp [hj,hle,hlt]
    · have hlt : ¬(j : ℤ)<first+1 := by omega
      simp [hj,hle,hlt]
  · have hb:=getLsbD_of_ge bitVal j (by omega)
    have hv:=getLsbD_of_ge val j (by omega)
    simp [hb,hv]

theorem insertBits_at (val bitVal : Addr) {p : ℕ} (hp : p<64) : ∃ a,insertBits val p p bitVal = .ok a ∧
      ∀ j,a.getLsbD j=if j=p then bitVal.getLsbD 0 else val.getLsbD j := by
  refine ⟨_,by rw [insertBits,if_pos (by omega)],fun j => ?_⟩
  simp only [Int.toNat_natCast,getLsbD_or,getLsbD_and,getLsbD_not,getLsbD_shiftLeft]
  rw [getLsbD_mask (by omega)]
  by_cases hj : j<64
  · rcases Nat.lt_trichotomy j p with hlt | rfl | hlt
    · have hne : j≠p := by omega
      simp [hj,hlt,hne]
    · simp [hj]
    · have hne : j≠p := by omega
      have hge : ¬j<p := by omega
      have hout : ¬((j-p : ℕ) : ℤ)<(p : ℤ)-p+1 := by omega
      simp only [hout]
      simp [hj,hge,hne]
  · have hne : j≠p := by omega
    have hv:=getLsbD_of_ge val j (by omega)
    simp [hj,hv,hne]

theorem bits8_ok (val : BitVec 8) {i : ℕ} (hi : i<32) : ∃ b,bits8 val i = .ok b ∧ b.getLsbD 0=val.getLsbD i := by
  refine ⟨_,if_pos hi,?_⟩
  have hlow : (1#8).getLsbD 0=true := rfl
  simp only [getLsbD_setWidth,getLsbD_and,getLsbD_ushiftRight,hlow,Nat.add_zero]
  simp

theorem clearMask_ok {p : ℕ} (hp : p<32) : ∃ k,clearMask p = .ok k ∧
      ∀ j<64,k.getLsbD j=decide (if p=31 then j<31 else j≠p) := by
  refine ⟨_,if_pos hp,fun j hj => ?_⟩
  have hmsb : (~~~(1#32 <<< p)).msb=decide (p≠31) := by
    rw [msb_eq_getLsbD_last]
    simp only [getLsbD_not,getLsbD_shiftLeft]
    by_cases h31 : p=31
    · simp [h31]
    · have : 31-p≠0 := by omega
      simp [h31,this]
  rw [getLsbD_signExtend,hmsb]
  by_cases hlow : j<32
  · simp only [hj,hlow,decide_true,Bool.true_and,if_true,getLsbD_not,getLsbD_shiftLeft,
      getLsbD_one]
    split_ifs with h31
    · subst h31
      by_cases h : j<31
      · simp [h]
      · have : j=31 := by omega
        simp [this]
    · rcases Nat.lt_trichotomy j p with h | h | h
      · simp [h,show j≠p by omega]
      · simp [h]
      · simp [show ¬j<p by omega,show j≠p by omega,show ¬j-p=0 by omega]
  · simp only [hj,hlow,decide_true,Bool.true_and,if_false]
    split_ifs with h31
    · simp [h31]
      omega
    · simp [h31]
      omega

end AquaGem5.Address
