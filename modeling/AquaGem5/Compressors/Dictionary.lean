import AquaGem5.Cache.Indexing
import AquaGem5.Lib.Checked
import AquaGem5.Lib.Chunks

/-!
# Lines and chunks (compressors/base.cc)

A line is its 64-bit words, and a chunk lies in the low bits of a word of its own.
-/

namespace AquaGem5.Compressors
open Address Bits List Nat
open Cache (bits getLsbD_bits)

abbrev Line := List Addr

inductive Fault where
  | assertion
  | bounds
  | badCast
  deriving DecidableEq

/-- `chunk_size_bits`, with the constructor's check on it. -/
structure ChunkSize where
  chunkSizeBits : ℕ
  dvd : chunkSizeBits∣64

/-- `replaceBits(val, first, last, bit_val)`; the assertion on the positions is an argument. -/
def replaceBits (val : Addr) (first last : ℕ) (_ : last≤first) (bitVal : Addr) : Addr :=
  let bmask := mask (first-last+1) <<< last
  ((bitVal <<< last) &&& bmask) ||| (val &&& ~~~bmask)

theorem getLsbD_replaceBits (val : Addr) {first last : ℕ} (h : last≤first) (bitVal : Addr) {p : ℕ} (hp : p<64) :
    (replaceBits val first last h bitVal).getLsbD p =
      if last≤p ∧ p≤first then bitVal.getLsbD (p-last) else val.getLsbD p := by
  have hmask : (mask (first-last+1) <<< last).getLsbD p=decide (last≤p ∧ p≤first) := by
    rw [BitVec.getLsbD_shiftLeft,getLsbD_mask (by omega),← decide_not,← Bool.decide_and,← Bool.decide_and]
    exact decide_eq_decide.mpr (by omega)
  rw [replaceBits]
  simp only [BitVec.getLsbD_or,BitVec.getLsbD_and,BitVec.getLsbD_not,hmask,BitVec.getLsbD_shiftLeft]
  by_cases hin : last≤p ∧ p≤first
  · have hge : ¬p<last := by omega
    simp [hin,hp,hge]
  · simp [hin,hp]

namespace ChunkSize

variable (k : ChunkSize)

def numChunksPer64 : ℕ := 64/k.chunkSizeBits

theorem pos : 0<k.chunkSizeBits := Nat.pos_of_dvd_of_pos k.dvd (by omega)

theorem perWord_mul : k.numChunksPer64*k.chunkSizeBits=64 := Nat.div_mul_cancel k.dvd

theorem perWord_pos : 0<k.numChunksPer64 := by
  have hmul:=k.perWord_mul
  rcases Nat.eq_zero_or_pos k.numChunksPer64 with hzero | hpos
  · rw [hzero] at hmul
    omega
  · exact hpos

theorem last_le_first (start : ℕ) : start*k.chunkSizeBits≤(start+1)*k.chunkSizeBits-1 := by
  have hpos:=k.pos
  rw [Nat.add_mul]
  omega

def toChunks (line : Line) : List Addr :=
  (List.range (line.length*64/k.chunkSizeBits)).map fun i =>
    bits (line.getD (i/k.numChunksPer64) 0) ((i%k.numChunksPer64+1)*k.chunkSizeBits-1)
      (i%k.numChunksPer64*k.chunkSizeBits) (k.last_le_first _)

def writeChunk (chunks : List Addr) (data : Line) (i : ℕ) : Line :=
  data.modify (i/k.numChunksPer64) fun val =>
    replaceBits val ((i%k.numChunksPer64+1)*k.chunkSizeBits-1) (i%k.numChunksPer64*k.chunkSizeBits)
      (k.last_le_first _) (chunks.getD i 0)

def fromChunks (words : ℕ) (chunks : List Addr) : Line :=
  (List.range chunks.length).foldl (k.writeChunk chunks) (List.replicate words 0)

theorem count (words : ℕ) : words*64/k.chunkSizeBits=words*k.numChunksPer64 := Nat.mul_div_assoc words k.dvd

theorem length_toChunks (line : Line) : (k.toChunks line).length=line.length*k.numChunksPer64 := by
  rw [toChunks,length_map,length_range,count]

theorem getLsbD_toChunks (line : Line) {i p : ℕ} (hi : i<line.length*k.numChunksPer64) (hp : p<k.chunkSizeBits) :
    ((k.toChunks line).getD i 0).getLsbD p =
      (line.getD (i/k.numChunksPer64) 0).getLsbD (i%k.numChunksPer64*k.chunkSizeBits+p) := by
  have hget : (k.toChunks line).getD i 0=bits (line.getD (i/k.numChunksPer64) 0)
      ((i%k.numChunksPer64+1)*k.chunkSizeBits-1) (i%k.numChunksPer64*k.chunkSizeBits) (k.last_le_first _) := by
    rw [toChunks,count,getD_eq_getElem?_getD,getElem?_map,getElem?_range hi]
    rfl
  have hwidth : p≤(i%k.numChunksPer64+1)*k.chunkSizeBits-1-i%k.numChunksPer64*k.chunkSizeBits := by
    rw [Nat.add_mul]
    omega
  rw [hget,getLsbD_bits]
  simp [hwidth]

theorem div_lt {p : ℕ} (hp : p<64) : p/k.chunkSizeBits<k.numChunksPer64 := by
  rw [div_lt_iff_lt_mul k.pos,k.perWord_mul]
  exact hp

theorem index_mod (q : ℕ) {p : ℕ} (hp : p<64) :
    (q*k.numChunksPer64+p/k.chunkSizeBits)%k.numChunksPer64=p/k.chunkSizeBits :=
  mul_add_mod_of_lt (k.div_lt hp)

theorem index_div (q : ℕ) {p : ℕ} (hp : p<64) : (q*k.numChunksPer64+p/k.chunkSizeBits)/k.numChunksPer64=q := by
  rw [mul_comm,mul_add_div k.perWord_pos,div_eq_of_lt (k.div_lt hp),add_zero]

theorem chunk_iff {i p q : ℕ} (hp : p<64) : q*k.numChunksPer64+p/k.chunkSizeBits=i ↔
    q=i/k.numChunksPer64 ∧ i%k.numChunksPer64*k.chunkSizeBits≤p ∧ p≤(i%k.numChunksPer64+1)*k.chunkSizeBits-1 := by
  have hpos:=k.pos
  constructor
  · rintro rfl
    have hle:=div_mul_le_self p k.chunkSizeBits
    have hgt:=Nat.lt_mul_of_div_lt (Nat.lt_add_one (p/k.chunkSizeBits)) hpos
    rw [k.index_mod q hp,k.index_div q hp]
    omega
  · rintro ⟨rfl,hle,hgt⟩
    have hrow : p/k.chunkSizeBits=i%k.numChunksPer64 := by
      apply Nat.div_eq_of_lt_le hle
      rw [Nat.add_mul] at hgt ⊢
      omega
    rw [hrow]
    exact div_add_mod' i k.numChunksPer64

structure Written (chunks : List Addr) (words i : ℕ) (data : Line) : Prop where
  length : data.length=words
  bit : ∀ q<words,∀ p<64,(data.getD q 0).getLsbD p =
    (decide (q*k.numChunksPer64+p/k.chunkSizeBits < i) &&
      (chunks.getD (q*k.numChunksPer64+p/k.chunkSizeBits) 0).getLsbD (p%k.chunkSizeBits))

variable {k} {chunks : List Addr} {words i : ℕ} {data : Line}

theorem Written.step (h : k.Written chunks words i data) : k.Written chunks words (i+1) (k.writeChunk chunks data i) where
  length := by
    rw [writeChunk,length_modify]
    exact h.length
  bit := by
    intro q hq p hp
    have hlen : q<data.length := h.length ▸ hq
    have hget : (k.writeChunk chunks data i).getD q 0 =
        if i/k.numChunksPer64=q then replaceBits (data.getD q 0) ((i%k.numChunksPer64+1)*k.chunkSizeBits-1)
          (i%k.numChunksPer64*k.chunkSizeBits) (k.last_le_first _) (chunks.getD i 0) else data.getD q 0 := by
      rw [writeChunk,getD_eq_getElem?_getD,getElem?_modify,getElem?_eq_getElem hlen,
        getD_eq_getElem _ _ hlen]
      split <;> rfl
    have hiff:=k.chunk_iff (i := i) (q := q) hp
    rw [hget]
    by_cases hi : q*k.numChunksPer64+p/k.chunkSizeBits=i
    · obtain ⟨hword,hrange⟩:=hiff.mp hi
      have hrow : i%k.numChunksPer64=p/k.chunkSizeBits := by
        rw [← hi]
        exact k.index_mod q hp
      have hoffset : p-i%k.numChunksPer64*k.chunkSizeBits=p%k.chunkSizeBits := by
        have hback:=div_add_mod' p k.chunkSizeBits
        rw [hrow]
        omega
      rw [if_pos hword.symm,getLsbD_replaceBits _ _ _ hp,if_pos hrange,hoffset,hi]
      simp
    · have hsame : decide (q*k.numChunksPer64+p/k.chunkSizeBits < i+1) =
          decide (q*k.numChunksPer64+p/k.chunkSizeBits < i) := decide_eq_decide.mpr (by omega)
      rw [hsame,← h.bit q hq p hp]
      split
      · rename_i hword
        rw [getLsbD_replaceBits _ _ _ hp,if_neg fun hrange => hi (hiff.mpr ⟨hword.symm,hrange⟩)]
      · rfl

theorem written_fromChunks (chunks : List Addr) (words : ℕ) : k.Written chunks words chunks.length (k.fromChunks words chunks) := by
  unfold fromChunks
  induction chunks.length with
  | zero =>
    exact {
      length := length_replicate
      bit := by
        intro q hq p hp
        simp [hq]}
  | succ i ih =>
    rw [range_succ,foldl_append]
    exact ih.step

theorem fromChunks_toChunks (k : ChunkSize) (line : Line) : k.fromChunks line.length (k.toChunks line)=line := by
  have hwritten:=written_fromChunks (k := k) (k.toChunks line) line.length
  apply ext_getElem hwritten.length
  intro q hq hq'
  apply BitVec.eq_of_getLsbD_eq
  intro p hp
  have hcount : q*k.numChunksPer64+p/k.chunkSizeBits<line.length*k.numChunksPer64 := by
    have hrow:=k.div_lt hp
    have hstep : (q+1)*k.numChunksPer64≤line.length*k.numChunksPer64 := mul_le_mul_right _ hq'
    rw [Nat.add_mul] at hstep
    omega
  have hbit:=hwritten.bit q hq' p hp
  rw [k.length_toChunks,decide_eq_true hcount,Bool.true_and,k.getLsbD_toChunks line hcount (mod_lt _ k.pos),
    k.index_mod q hp,k.index_div q hp,div_add_mod'] at hbit
  rw [getD_eq_getElem _ _ hq,getD_eq_getElem _ _ hq'] at hbit
  exact hbit

end ChunkSize

end AquaGem5.Compressors

/-!
## Dictionary compression (dictionary_compressor.hh, dictionary_compressor_impl.hh)

The dictionary is its valid entries. What `decompressValue` reads elsewhere is left open (`junk`):
a pattern that does not use the dictionary is given some entry all the same.
-/

namespace AquaGem5.Compressors
open Address Bits Chunks Checked

inductive Width where
  | w8
  | w16
  | w32
  | w64
  deriving DecidableEq

def Width.bytes : Width → ℕ
  | .w8 => 1
  | .w16 => 2
  | .w32 => 4
  | .w64 => 8

abbrev Width.Value (w : Width) := BitVec (8*w.bytes)

abbrev DictionaryEntry (w : Width) := Vector (BitVec 8) w.bytes

variable {w : Width}

def toDictionaryEntry (value : w.Value) : DictionaryEntry w :=
  ⟨(split 8 w.bytes value).toArray,by rw [List.size_toArray,length_split]⟩

def fromDictionaryEntry (entry : DictionaryEntry w) : w.Value := join _ entry.toList

@[simp] theorem from_toDictionaryEntry (value : w.Value) : fromDictionaryEntry (toDictionaryEntry value)=value :=
  join_split (by omega) (Nat.mul_comm ..) value

theorem to_fromDictionaryEntry (entry : DictionaryEntry w) : toDictionaryEntry (fromDictionaryEntry entry)=entry := by
  apply Vector.toList_inj.mp
  exact split_join (by omega) (Nat.mul_comm ..) entry.length_toList

@[simp] theorem toDictionaryEntry_inj {v v' : w.Value} : toDictionaryEntry v=toDictionaryEntry v' ↔ v=v' := by
  constructor
  · intro h
    rw [← from_toDictionaryEntry v,h,from_toDictionaryEntry]
  · intro h
    rw [h]

/-- The pattern templates, with their static assertions. -/
inductive Kind (w : Width) where
  | uncompressed
  | masked (mask : w.Value)
  | maskedValue (value mask : w.Value)
  | locatedMasked (mask : w.Value) (location : ℤ)
  | repeatedValue (rep : Width) (smaller : rep.bytes<w.bytes)
  | delta (deltaSizeBits : ℕ) (smaller : deltaSizeBits<8*w.bytes)

inductive Content (w : Width) where
  | data (bytes : DictionaryEntry w)
  | masked (mask bits : w.Value)
  | maskedValue (value mask bits : w.Value)
  | repeated (rep : Width) (value : rep.Value)

def isValidDelta (deltaSizeBits : ℕ) (bytes baseBytes : DictionaryEntry w) : Bool :=
  let limit : ℤ := if deltaSizeBits=0 then 0 else 2^(deltaSizeBits-1)-1
  let delta := (fromDictionaryEntry bytes-fromDictionaryEntry baseBytes).toInt
  decide (-limit≤delta ∧ delta≤limit)

namespace Kind

def matchesMasked (mask : w.Value) (bytes dictBytes : DictionaryEntry w) (matchLocation : ℤ) : Bool :=
  decide (0 ≤ matchLocation)&&fromDictionaryEntry bytes &&& mask == fromDictionaryEntry dictBytes &&& mask

def isPattern (bytes dictBytes : DictionaryEntry w) (matchLocation : ℤ) : Kind w → Bool
  | uncompressed => true
  | masked mask => matchesMasked mask bytes dictBytes matchLocation
  | maskedValue value mask => value &&& mask == fromDictionaryEntry bytes &&& mask
  | locatedMasked mask location =>
    decide (matchLocation=location)&&matchesMasked mask bytes dictBytes matchLocation
  | repeatedValue rep _ =>
    (split (8*rep.bytes) (w.bytes/rep.bytes) (fromDictionaryEntry bytes)).all fun curValue =>
      curValue == (fromDictionaryEntry bytes).setWidth (8*rep.bytes)
  | delta deltaSizeBits _ => decide (0 ≤ matchLocation)&&isValidDelta deltaSizeBits bytes dictBytes

def content (bytes : DictionaryEntry w) : Kind w → Content w
  | uncompressed => .data bytes
  | masked mask => .masked mask (fromDictionaryEntry bytes &&& ~~~mask)
  | maskedValue value mask => .maskedValue value mask (fromDictionaryEntry bytes &&& ~~~mask)
  | locatedMasked mask _ => .masked mask (fromDictionaryEntry bytes &&& ~~~mask)
  | repeatedValue rep _ => .repeated rep ((fromDictionaryEntry bytes).setWidth (8*rep.bytes))
  | delta _ _ => .data bytes

def numUnmatchedBits : Kind w → ℕ
  | uncompressed => 8*w.bytes
  | masked mask => popCount (~~~mask)
  | maskedValue _ mask => popCount (~~~mask)
  | locatedMasked mask _ => popCount (~~~mask)
  | repeatedValue rep _ => 8*rep.bytes
  | delta deltaSizeBits _ => deltaSizeBits

end Kind

def Content.decompress (dictBytes : DictionaryEntry w) : Content w → DictionaryEntry w
  | .data bytes => bytes
  | .masked mask bits => toDictionaryEntry (bits ||| fromDictionaryEntry dictBytes &&& mask)
  | .maskedValue value mask bits =>
    toDictionaryEntry (bits ||| fromDictionaryEntry (w := w) (toDictionaryEntry value) &&& mask)
  | .repeated rep value => toDictionaryEntry (join _ (List.replicate (w.bytes/rep.bytes) value))

/-- A class of patterns: the length of its code and location, and whether it allocates. -/
structure PatternClass (w : Width) where
  kind : Kind w
  metadataLength : ℕ
  allocate : Bool

def UncompressedPattern (metadataLength : ℕ) : PatternClass w := ⟨.uncompressed,metadataLength,true⟩

def DeltaPattern (deltaSizeBits : ℕ) (smaller : deltaSizeBits<8*w.bytes) (metadataLength : ℕ) : PatternClass w :=
  ⟨.delta deltaSizeBits smaller,metadataLength,false⟩

structure Pattern (w : Width) where
  length : BitVec 8
  numUnmatchedBits : BitVec 8
  matchLocation : ℤ
  allocate : Bool
  content : Content w

def Pattern.sizeBits (p : Pattern w) : ℕ := p.numUnmatchedBits.toNat+p.length.toNat

/-- `getMatchLocation`, an 8-bit number. -/
def Pattern.location (p : Pattern w) : ℕ := (BitVec.ofInt 8 p.matchLocation).toNat

def PatternClass.create (c : PatternClass w) (bytes : DictionaryEntry w) (matchLocation : ℤ) : Pattern w where
  length := BitVec.ofNat 8 c.metadataLength
  numUnmatchedBits := BitVec.ofNat 8 c.kind.numUnmatchedBits
  matchLocation := matchLocation
  allocate := c.allocate
  content := c.kind.content bytes

abbrev Dictionary (w : Width) := List (DictionaryEntry w)

inductive Replacement where
  | append
  | fifo
  deriving DecidableEq

def Replacement.next (r : Replacement) (d : Dictionary w) (data : DictionaryEntry w) : Dictionary w :=
  match r,d with
  | .fifo,[_,previous] => [previous,data]
  | _,d => d++[data]

/-- `addToDictionary`: FPCD writes two entries whatever the size. -/
def Replacement.addToDictionary (r : Replacement) (dictionarySize : ℕ) (d : Dictionary w) (data : DictionaryEntry w) :
    Except Fault (Dictionary w) :=
  match r with
  | .append => if d.length<dictionarySize then .ok (r.next d data) else .error .assertion
  | .fifo => if d.length=2 ∨ d.length<dictionarySize then .ok (r.next d data) else .error .bounds

/-- What a compressor's class defines. The factory's last pattern is an uncompressed one. -/
structure Scheme (w : Width) where
  factory : List (PatternClass w)
  lastLength : ℕ
  replacement : Replacement
  zeroBase : Bool
  finish : ℕ → ℕ → ℕ → Except Fault ℕ
  compLat : ℕ → ℕ
  decompLat : ℕ → ℕ

namespace Scheme

variable (c : Scheme w)

def getPattern (bytes dictBytes : DictionaryEntry w) (matchLocation : ℤ) : Pattern w :=
  ((c.factory.find? fun head => head.kind.isPattern bytes dictBytes matchLocation).getD
    (UncompressedPattern c.lastLength)).create bytes matchLocation

def resetDictionary (dictionarySize : ℕ) : Except Fault (Dictionary w) :=
  if c.zeroBase then c.replacement.addToDictionary dictionarySize [] (toDictionaryEntry 0) else .ok []

def search (bytes : DictionaryEntry w) (d : Dictionary w) : Pattern w :=
  d.zipIdx.foldl (fun pattern e =>
    if (c.getPattern bytes e.1 e.2).sizeBits<pattern.sizeBits then c.getPattern bytes e.1 e.2 else pattern)
    (c.getPattern bytes (toDictionaryEntry 0) (-1))

def compressValue (dictionarySize : ℕ) (d : Dictionary w) (data : w.Value) :
    Except Fault (Dictionary w × Pattern w) := do
  let bytes := toDictionaryEntry data
  let pattern := c.search bytes d
  if pattern.allocate then
    let d' ← c.replacement.addToDictionary dictionarySize d bytes
    .ok (d',pattern)
  else .ok (d,pattern)

def compressValues (dictionarySize : ℕ) : Dictionary w → List w.Value → Except Fault (Dictionary w × List (Pattern w))
  | d,[] => .ok (d,[])
  | d,value::values => do
    let r ← c.compressValue dictionarySize d value
    let rest ← compressValues dictionarySize r.1 values
    .ok (rest.1,r.2::rest.2)

def decompressValue (junk : ℕ → DictionaryEntry w) (dictionarySize : ℕ) (d : Dictionary w) (pattern : Pattern w) :
    Except Fault (Dictionary w × w.Value) := do
  let data := pattern.content.decompress (d.getD pattern.location (junk pattern.location))
  if pattern.allocate then
    let d' ← c.replacement.addToDictionary dictionarySize d data
    .ok (d',fromDictionaryEntry data)
  else .ok (d,fromDictionaryEntry data)

def decompressValues (junk : ℕ → DictionaryEntry w) (dictionarySize : ℕ) :
    Dictionary w → List (Pattern w) → Except Fault (List w.Value)
  | _,[] => .ok []
  | d,pattern::patterns => do
    let r ← c.decompressValue junk dictionarySize d pattern
    let rest ← decompressValues junk dictionarySize r.1 patterns
    .ok (r.2::rest)

end Scheme

/-!
## The dictionary compressors (cpack.hh, fpcd.hh, base_delta.hh, repeated_qwords.hh, zero.hh)

The factories are in the order in which they try their patterns.
-/

namespace CPack

abbrev W := Width.w32

def PatternZZZZ : PatternClass W := ⟨.maskedValue 0 0xFFFFFFFF,2,false⟩
def PatternMMMM : PatternClass W := ⟨.masked 0xFFFFFFFF,6,true⟩
def PatternZZZX : PatternClass W := ⟨.maskedValue 0 0xFFFFFF00,4,false⟩
def PatternMMMX : PatternClass W := ⟨.masked 0xFFFFFF00,8,true⟩
def PatternMMXX : PatternClass W := ⟨.masked 0xFFFF0000,8,true⟩

def scheme : Scheme W where
  factory := [PatternZZZZ,PatternMMMM,PatternZZZX,PatternMMMX,PatternMMXX]
  lastLength := 2
  replacement := .append
  zeroBase := false
  finish := fun _ _ size => .ok size
  compLat := fun blkSize => blkSize/8+5
  decompLat := fun blkSize => blkSize/8

end CPack

namespace FPCD

abbrev W := Width.w32

def prefixSize : ℕ := 4
def previousIndex : ℤ := 1
def penultimateIndex : ℤ := 0

def maskedValuePattern (value mask : W.Value) : PatternClass W := ⟨.maskedValue value mask,prefixSize,true⟩
def locatedPattern (mask : W.Value) (location : ℤ) : PatternClass W := ⟨.locatedMasked mask location,prefixSize,true⟩

def PatternZZZZ : PatternClass W := maskedValuePattern 0 0xFFFFFFFF
def PatternFFFF : PatternClass W := maskedValuePattern 0xFFFFFFFF 0xFFFFFFFF
def PatternMMMMPrevious : PatternClass W := locatedPattern 0xFFFFFFFF previousIndex
def PatternMMMMPenultimate : PatternClass W := locatedPattern 0xFFFFFFFF penultimateIndex
def PatternZZZX : PatternClass W := maskedValuePattern 0 0xFFFFFF00
def PatternXZZZ : PatternClass W := maskedValuePattern 0 0x00FFFFFF
def PatternRRRR : PatternClass W := ⟨.repeatedValue .w8 (by decide),prefixSize,true⟩
def PatternMMMXPrevious : PatternClass W := locatedPattern 0xFFFFFF00 previousIndex
def PatternMMMXPenultimate : PatternClass W := locatedPattern 0xFFFFFF00 penultimateIndex
def PatternZZXX : PatternClass W := maskedValuePattern 0 0xFFFF0000
def PatternZXZX : PatternClass W := maskedValuePattern 0 0xFF00FF00
def PatternFFXX : PatternClass W := maskedValuePattern 0xFFFFFFFF 0xFFFF0000
def PatternXXZZ : PatternClass W := maskedValuePattern 0 0x0000FFFF
def PatternMMXXPrevious : PatternClass W := locatedPattern 0xFFFF0000 previousIndex
def PatternMMXXPenultimate : PatternClass W := locatedPattern 0xFFFF0000 penultimateIndex

def scheme : Scheme W where
  factory := [PatternZZZZ,PatternFFFF,PatternMMMMPrevious,PatternMMMMPenultimate,PatternZZZX,PatternXZZZ,
    PatternRRRR,PatternMMMXPrevious,PatternMMMXPenultimate,PatternZZXX,PatternZXZX,PatternFFXX,PatternXXZZ,
    PatternMMXXPrevious,PatternMMXXPenultimate]
  lastLength := prefixSize
  replacement := .fifo
  zeroBase := false
  finish := fun _ _ size => .ok size
  compLat := fun blkSize => blkSize/2
  decompLat := fun _ => 4

end FPCD

namespace BaseDelta

def DEFAULT_MAX_NUM_BASES : ℕ := 2

/-- `ceil(log2(DEFAULT_MAX_NUM_BASES))`. -/
def maskBits : ℕ := 1

/-- The bases beyond the maximum make the compression fail, and those not used count as well. -/
def finish (w : Width) (blkSize numEntries size : ℕ) : Except Fault ℕ :=
  if DEFAULT_MAX_NUM_BASES<numEntries then .ok (blkSize*8)
  else .ok (size+8*w.bytes*(DEFAULT_MAX_NUM_BASES-numEntries))

def scheme (w : Width) (deltaSizeBits : ℕ) (smaller : deltaSizeBits<8*w.bytes) : Scheme w where
  factory := [DeltaPattern deltaSizeBits smaller maskBits]
  lastLength := maskBits+deltaSizeBits
  replacement := .append
  zeroBase := true
  finish := finish w
  compLat := fun blkSize => 1+blkSize/w.bytes
  decompLat := fun _ => 1

end BaseDelta

namespace RepeatedQwords

abbrev W := Width.w64

def PatternM : PatternClass W := ⟨.locatedMasked 0xFFFFFFFFFFFFFFFF 0,0,false⟩

def finish (blkSize numEntries size : ℕ) : Except Fault ℕ :=
  if numEntries=0 then .error .assertion else if 1<numEntries then .ok (blkSize*8) else .ok size

def scheme : Scheme W where
  factory := [PatternM]
  lastLength := 0
  replacement := .append
  zeroBase := false
  finish := finish
  compLat := fun _ => 1
  decompLat := fun _ => 1

end RepeatedQwords

namespace Zero

abbrev W := Width.w64

def PatternZ : PatternClass W := ⟨.maskedValue 0 0xFFFFFFFFFFFFFFFF,0,false⟩

def finish (blkSize numEntries size : ℕ) : Except Fault ℕ :=
  if 0<numEntries then .ok (blkSize*8) else .ok size

def scheme : Scheme W where
  factory := [PatternZ]
  lastLength := 0
  replacement := .append
  zeroBase := false
  finish := finish
  compLat := fun _ => 1
  decompLat := fun _ => 1

end Zero

inductive Class where
  | cpack
  | fpcd
  | baseDelta (w : Width) (deltaSizeBits : ℕ) (smaller : deltaSizeBits<8*w.bytes)
  | repeatedQwords
  | zero
  deriving DecidableEq

def Class.width : Class → Width
  | cpack => .w32
  | fpcd => .w32
  | baseDelta w _ _ => w
  | repeatedQwords => .w64
  | zero => .w64

def Class.scheme : (c : Class) → Scheme c.width
  | cpack => CPack.scheme
  | fpcd => FPCD.scheme
  | baseDelta w deltaSizeBits smaller => BaseDelta.scheme w deltaSizeBits smaller
  | repeatedQwords => RepeatedQwords.scheme
  | zero => Zero.scheme

/-- A compressor with its parameters; its chunks have the size of its dictionary's entries. -/
structure Compressor where
  cls : Class
  dictionarySize : ℕ
  sizeThreshold : ℕ
  deriving DecidableEq

theorem Width.dvd (w : Width) : 8*w.bytes∣64 := by cases w <;> decide

def Width.chunkSize (w : Width) : ChunkSize := ⟨8*w.bytes,w.dvd⟩

structure CompData where
  width : Width
  entries : List (Pattern width)
  sizeBits : ℕ

structure Compressed where
  compData : CompData
  compLat : ℕ
  decompLat : ℕ

/-- `Base::compress` on the size of a result: above the threshold the line counts as uncompressed. -/
def thresholded (blkSize sizeThreshold sizeBits : ℕ) : ℕ := if sizeThreshold*8<sizeBits then blkSize*8 else sizeBits

namespace Compressor

variable (c : Compressor)

def compressChunks (blkSize : ℕ) (chunks : List Addr) : Except Fault Compressed := do
  let d ← c.cls.scheme.resetDictionary c.dictionarySize
  let r ← c.cls.scheme.compressValues c.dictionarySize d (chunks.map fun chunk => chunk.setWidth _)
  let size ← c.cls.scheme.finish blkSize r.1.length (r.2.map Pattern.sizeBits).sum
  .ok ⟨⟨c.cls.width,r.2,size⟩,c.cls.scheme.compLat blkSize,c.cls.scheme.decompLat blkSize⟩

def compress (line : Line) : Except Fault Compressed := do
  let blkSize := line.length*8
  let r ← c.compressChunks blkSize (c.cls.width.chunkSize.toChunks line)
  .ok {r with compData := {r.compData with sizeBits := thresholded blkSize c.sizeThreshold r.compData.sizeBits} }

def concatenate (w : Width) (words : ℕ) (values : List w.Value) : Line :=
  (List.range words).map fun i => place 64 (8/w.bytes) fun j => values.getD (8/w.bytes*i+j) 0

/-- `decompress`, for a line of `words` words. A cast to another class's data is undefined when its
entries have another type. -/
def decompress (junk : (w : Width) → ℕ → DictionaryEntry w) (words : ℕ) (data : CompData) : Except Fault Line :=
  if h : data.width=c.cls.width then do
    let d ← c.cls.scheme.resetDictionary c.dictionarySize
    let values ← c.cls.scheme.decompressValues (junk c.cls.width) c.dictionarySize d (h ▸ data.entries)
    .ok (concatenate c.cls.width words values)
  else .error .badCast

end Compressor

end AquaGem5.Compressors
