import AquaGem5.Compressors.Lossless
import AquaGem5.Lib.Covering

/-!
# The bases of a line (base_delta.hh, base_delta_impl.hh)

The dictionary is zero and the values that were near no base before them. Each value takes its delta, or becomes a base
of its own.
-/

namespace AquaGem5.Compressors.BaseDelta
open Address Covering List

variable {w : Width} {deltaSizeBits : ℕ} {smaller : deltaSizeBits<8*w.bytes}

def Near (deltaSizeBits : ℕ) (base value : w.Value) : Prop :=
  -(2^(deltaSizeBits-1)-1)≤(value-base).toInt ∧ (value-base).toInt≤2^(deltaSizeBits-1)-1

instance (deltaSizeBits : ℕ) (base value : w.Value) : Decidable (Near deltaSizeBits base value) :=
  inferInstanceAs (Decidable (_ ∧ _))

def near (deltaSizeBits : ℕ) (base value : w.Value) : Bool := decide (Near deltaSizeBits base value)

theorem near_iff {base value : w.Value} : near deltaSizeBits base value=true ↔ Near deltaSizeBits base value :=
  decide_eq_true_iff

theorem near_self (deltaSizeBits : ℕ) (base : w.Value) : near deltaSizeBits base base=true := by
  have hpos : (0 : ℤ)<2^(deltaSizeBits-1) := Int.pow_pos (by decide)
  rw [near_iff,Near,BitVec.sub_self,BitVec.toInt_zero]
  omega

theorem isValidDelta_eq (base value : w.Value) :
    isValidDelta deltaSizeBits (toDictionaryEntry value) (toDictionaryEntry base)=near deltaSizeBits base value := by
  have hlimit : (if deltaSizeBits=0 then 0 else 2^(deltaSizeBits-1)-1 : ℤ)=2^(deltaSizeBits-1)-1 := by
    split
    next hzero => rw [hzero]; rfl
    next => rfl
  unfold isValidDelta near Near
  rw [from_toDictionaryEntry,from_toDictionaryEntry,hlimit]
  rfl

def deltaOf (smaller : deltaSizeBits<8*w.bytes) (value : w.Value) (location : ℕ) : Pattern w :=
  (DeltaPattern deltaSizeBits smaller maskBits).create (toDictionaryEntry value) location

def baseOf (deltaSizeBits : ℕ) (value : w.Value) : Pattern w :=
  (UncompressedPattern (maskBits+deltaSizeBits)).create (toDictionaryEntry value) (-1)

theorem Width.bits_le (w : Width) : 8*w.bytes≤64 := by cases w <;> decide

theorem sizeBits_deltaOf (value : w.Value) (location : ℕ) : (deltaOf smaller value location).sizeBits=1+deltaSizeBits := by
  have hle:=Width.bits_le w
  have hsize : (deltaOf smaller value location).sizeBits=deltaSizeBits%2^8+1 := rfl
  rw [hsize]
  omega

theorem sizeBits_uncompressed (smaller : deltaSizeBits<8*w.bytes) (bytes : DictionaryEntry w) (matchLocation : ℤ) :
    ((UncompressedPattern (maskBits+deltaSizeBits)).create bytes matchLocation).sizeBits=8*w.bytes+(1+deltaSizeBits) := by
  have hle:=Width.bits_le w
  have hsize : ((UncompressedPattern (maskBits+deltaSizeBits)).create bytes matchLocation).sizeBits =
      8*w.bytes%2^8+(1+deltaSizeBits)%2^8 := rfl
  rw [hsize]
  omega

theorem getPattern_base (value base : w.Value) (i : ℕ) :
    (scheme w deltaSizeBits smaller).getPattern (toDictionaryEntry value) (toDictionaryEntry base) i =
      if near deltaSizeBits base value then deltaOf smaller value i
      else (UncompressedPattern (maskBits+deltaSizeBits)).create (toDictionaryEntry value) i := by
  have hkind : (Kind.delta deltaSizeBits smaller).isPattern (toDictionaryEntry value) (toDictionaryEntry base) (i : ℤ) =
      near deltaSizeBits base value := by
    rw [Kind.isPattern,isValidDelta_eq,decide_eq_true (Int.natCast_nonneg i),Bool.true_and]
  rw [Scheme.getPattern,scheme,find?_cons]
  dsimp only [DeltaPattern]
  rw [hkind]
  cases near deltaSizeBits base value <;> rfl

theorem getPattern_none (smaller : deltaSizeBits<8*w.bytes) (value : w.Value) (entry : DictionaryEntry w) :
    (scheme w deltaSizeBits smaller).getPattern (toDictionaryEntry value) entry (-1)=baseOf deltaSizeBits value := rfl

theorem sizeBits_getPattern (value base : w.Value) (i : ℕ) :
    ((scheme w deltaSizeBits smaller).getPattern (toDictionaryEntry value) (toDictionaryEntry base) i).sizeBits =
      if near deltaSizeBits base value then 1+deltaSizeBits else 8*w.bytes+(1+deltaSizeBits) := by
  rw [getPattern_base]
  split
  · exact sizeBits_deltaOf value i
  · exact sizeBits_uncompressed smaller _ _

theorem search_near (smaller : deltaSizeBits<8*w.bytes) {bases : List w.Value} {value : w.Value} (h : covered (near deltaSizeBits) bases value=true) :
    ∃ i<bases.length,(scheme w deltaSizeBits smaller).search (toDictionaryEntry value) (bases.map toDictionaryEntry) =
      deltaOf smaller value i := by
  obtain ⟨base,hin,hnear⟩:=covered_iff.mp h
  obtain ⟨j,hj⟩:=mem_iff_getElem?.mp hin
  have hpos:=w.bits_pos
  have hentry : (bases.map toDictionaryEntry)[j]?=some (toDictionaryEntry base) := by
    rw [getElem?_map,hj]
    rfl
  have hle:=(scheme w deltaSizeBits smaller).search_le (toDictionaryEntry value) hentry
  rw [sizeBits_getPattern,if_pos hnear] at hle
  rcases (scheme w deltaSizeBits smaller).search_eq (toDictionaryEntry value) (bases.map toDictionaryEntry) with
    hnone | ⟨i,entry,hentry,hsome⟩
  · rw [hnone,getPattern_none,baseOf,sizeBits_uncompressed smaller] at hle
    omega
  · rw [getElem?_map] at hentry
    obtain ⟨base',hbase',rfl⟩:=Option.map_eq_some_iff.mp hentry
    obtain ⟨hi,_⟩:=List.getElem?_eq_some_iff.mp hbase'
    refine ⟨i,hi,?_⟩
    rw [hsome,sizeBits_getPattern] at hle
    rw [hsome,getPattern_base]
    split at hle
    next hclose => rw [if_pos hclose]
    next => omega

theorem search_far (smaller : deltaSizeBits<8*w.bytes) {bases : List w.Value} {value : w.Value} (h : ¬covered (near deltaSizeBits) bases value=true) :
    (scheme w deltaSizeBits smaller).search (toDictionaryEntry value) (bases.map toDictionaryEntry) =
      baseOf deltaSizeBits value := by
  rw [← getPattern_none smaller value (toDictionaryEntry 0)]
  refine Scheme.search_none _ _ _ fun i entry hentry => ?_
  rw [getElem?_map] at hentry
  obtain ⟨base,hbase,rfl⟩:=Option.map_eq_some_iff.mp hentry
  have hfar : ¬near deltaSizeBits base value=true := fun hnear =>
    h (covered_iff.mpr ⟨base,mem_of_getElem? hbase,hnear⟩)
  rw [sizeBits_getPattern,if_neg hfar,getPattern_none,baseOf,sizeBits_uncompressed smaller]

theorem next_append (d : Dictionary w) (data : DictionaryEntry w) : Replacement.append.next d data=d++[data] := by
  rw [Replacement.next]
  intro _ _ h
  cases h

theorem compresses_cover (bases : List w.Value) {values : List w.Value} {d : Dictionary w} {patterns : List (Pattern w)}
    (h : (scheme w deltaSizeBits smaller).Compresses (bases.map toDictionaryEntry) values d patterns) :
    d=(cover (near deltaSizeBits) bases values).map toDictionaryEntry ∧
      (patterns.map Pattern.sizeBits).sum+8*w.bytes*bases.length =
        values.length*(1+deltaSizeBits)+8*w.bytes*(cover (near deltaSizeBits) bases values).length := by
  induction values generalizing bases patterns with
  | nil =>
    cases h
    exact ⟨rfl,by rw [length_nil,Nat.zero_mul]; rfl⟩
  | cons value values ih =>
    cases h with
    | cons hrest =>
      rw [map_cons,sum_cons,length_cons,Nat.add_mul,Nat.one_mul]
      by_cases hcov : covered (near deltaSizeBits) bases value=true
      · obtain ⟨i,_,hsearch⟩:=search_near smaller hcov
        rw [hsearch] at hrest ⊢
        have hkeep : (scheme w deltaSizeBits smaller).replacement.after (deltaOf smaller value i) (bases.map toDictionaryEntry)
            (toDictionaryEntry value)=bases.map toDictionaryEntry := rfl
        rw [hkeep] at hrest
        obtain ⟨hd,hsum⟩:=ih _ hrest
        rw [cover_of_covered hcov,sizeBits_deltaOf]
        exact ⟨hd,by omega⟩
      · have hsearch:=search_far smaller hcov
        rw [hsearch] at hrest ⊢
        have hadd : (scheme w deltaSizeBits smaller).replacement.after (baseOf deltaSizeBits value) (bases.map toDictionaryEntry)
            (toDictionaryEntry value)=(bases++[value]).map toDictionaryEntry := by
          rw [map_append]
          exact next_append _ _
        rw [hadd] at hrest
        obtain ⟨hd,hsum⟩:=ih _ hrest
        rw [length_append,length_singleton,Nat.mul_add,Nat.mul_one] at hsum
        rw [cover_of_not_covered hcov,baseOf,sizeBits_uncompressed smaller]
        exact ⟨hd,by omega⟩

/-- One base besides zero is enough: the first value that is not near zero. -/
def OneBase (deltaSizeBits : ℕ) (values : List w.Value) : Prop :=
  ∀ b∈values.find? fun value => !near deltaSizeBits 0 value,
    ∀ value∈values,Near deltaSizeBits 0 value ∨ Near deltaSizeBits b value

instance (deltaSizeBits : ℕ) (values : List w.Value) : Decidable (OneBase deltaSizeBits values) :=
  decidable_of_iff (((values.find? fun value => !near deltaSizeBits 0 value).all fun b =>
      values.all fun value => near deltaSizeBits 0 value || near deltaSizeBits b value)=true) <| by
    simp only [Option.all_eq_true,List.all_eq_true,Bool.or_eq_true,near_iff]
    exact Iff.rfl

theorem covered_zero (value : w.Value) : covered (near deltaSizeBits) [0] value=near deltaSizeBits 0 value :=
  Bool.or_false _

theorem oneBase_iff (deltaSizeBits : ℕ) (values : List w.Value) :
    OneBase deltaSizeBits values ↔ (cover (near deltaSizeBits) [0] values).length≤2 := by
  have hone:=cover_one_iff [0] values (near_self deltaSizeBits)
  simp only [covered_zero,near_iff] at hone
  exact hone.symm

theorem size_of_room (line : Line) {dictionarySize : ℕ} (sizeThreshold : ℕ)
    (hroom : (scheme w deltaSizeBits smaller).replacement.Room dictionarySize (toValues w line).length
      (scheme w deltaSizeBits smaller).initial) :
    ∃ r,(⟨.baseDelta w deltaSizeBits smaller,dictionarySize,sizeThreshold⟩ : Compressor).compressChunks (line.length*8)
        (w.chunkSize.toChunks line) = .ok r ∧ (OneBase deltaSizeBits (toValues w line) →
        r.compData.sizeBits=(toValues w line).length*(1+deltaSizeBits)+8*w.bytes) ∧
      (¬OneBase deltaSizeBits (toValues w line) → r.compData.sizeBits=line.length*8*8) := by
  obtain ⟨d,patterns,hrun,hsteps⟩:=Scheme.compressValues_ok hroom
  obtain ⟨hd,hsum⟩:=compresses_cover [0] hsteps
  have hlength : d.length=(cover (near deltaSizeBits) [0] (toValues w line)).length := by rw [hd,length_map]
  have hmin:=length_le_cover (near deltaSizeBits) [0] (toValues w line)
  rw [length_singleton] at hsum hmin
  rw [← hlength] at hsum hmin
  have hone:=oneBase_iff deltaSizeBits (toValues w line)
  rw [← hlength] at hone
  have hreset:=Scheme.resetDictionary_ok hroom
  have hfinish : ∃ size,(scheme w deltaSizeBits smaller).finish (line.length*8) d.length
      (patterns.map Pattern.sizeBits).sum = .ok size ∧
      (OneBase deltaSizeBits (toValues w line) → size=(toValues w line).length*(1+deltaSizeBits)+8*w.bytes) ∧
      (¬OneBase deltaSizeBits (toValues w line) → size=line.length*8*8) := by
    rw [hone]
    by_cases hmany : DEFAULT_MAX_NUM_BASES<d.length
    · refine ⟨_,if_pos hmany,fun hfew => absurd hmany (Nat.not_lt.mpr hfew),fun _ => rfl⟩
    · have hfew : d.length≤2 := Nat.not_lt.mp hmany
      refine ⟨_,if_neg hmany,fun _ => ?_,fun hover => absurd hfew hover⟩
      have hbases : 8*w.bytes*d.length+8*w.bytes*(DEFAULT_MAX_NUM_BASES-d.length)=8*w.bytes*2 := by
        rw [← Nat.mul_add,DEFAULT_MAX_NUM_BASES,Nat.add_sub_cancel' hfew]
      omega
  obtain ⟨size,hsize,hlaw⟩:=hfinish
  rw [toValues] at hrun
  refine ⟨⟨⟨w,patterns,size⟩,(scheme w deltaSizeBits smaller).compLat (line.length*8),
    (scheme w deltaSizeBits smaller).decompLat (line.length*8)⟩,?_,hlaw⟩
  simp only [Compressor.compressChunks,Class.scheme,Class.width,hreset,hrun,hsize,bind,Except.bind]

theorem room (smaller : deltaSizeBits<8*w.bytes) {words : ℕ} (hT : 1<w.bytes) (hwords : 0<words) :
    (scheme w deltaSizeBits smaller).replacement.Room (words*8) (words*w.perWord) (scheme w deltaSizeBits smaller).initial := by
  have hfew : w.perWord≤4 := by
    cases w with
    | w8 => exact absurd hT (by decide)
    | w16 | w32 | w64 => decide
  have hle : words*w.perWord≤words*4 := Nat.mul_le_mul_left words hfew
  have hroom : 1+words*w.perWord≤words*8 := by omega
  exact hroom

/-- The size of a line, for a dictionary of the block's size and a type of two bytes at least. -/
theorem size_law (w : Width) (deltaSizeBits : ℕ) (smaller : deltaSizeBits<8*w.bytes) (hT : 1<w.bytes) (line : Line)
    (hline : line≠[]) (sizeThreshold : ℕ) :
    ∃ r,(⟨.baseDelta w deltaSizeBits smaller,line.length*8,sizeThreshold⟩ : Compressor).compressChunks (line.length*8)
        (w.chunkSize.toChunks line) = .ok r ∧
      (OneBase deltaSizeBits (toValues w line) →
        r.compData.sizeBits=(toValues w line).length*(1+deltaSizeBits)+8*w.bytes) ∧
      (¬OneBase deltaSizeBits (toValues w line) → r.compData.sizeBits=line.length*8*8) := by
  have hroom:=room smaller hT (List.length_pos_iff.mpr hline)
  rw [← length_toValues] at hroom
  exact size_of_room line sizeThreshold hroom

theorem size_law_pairs :
    (∃ r,(⟨.baseDelta .w64 8 (by decide),16,8⟩ : Compressor).compressChunks 16 (Width.w64.chunkSize.toChunks [0x1000,0x1005]) =
      .ok r ∧ r.compData.sizeBits=2*9+64) ∧
    ∃ r,(⟨.baseDelta .w64 8 (by decide),16,8⟩ : Compressor).compressChunks 16 (Width.w64.chunkSize.toChunks [0x1000,0x2000]) =
      .ok r ∧ r.compData.sizeBits=128 := by
  constructor
  · obtain ⟨r,hr,hone,_⟩:=size_law .w64 8 (by decide) (by decide) [0x1000,0x1005] (by decide) 8
    exact ⟨r,hr,hone (by decide +kernel)⟩
  · obtain ⟨r,hr,_,hmany⟩:=size_law .w64 8 (by decide) (by decide) [0x1000,0x2000] (by decide) 8
    exact ⟨r,hr,hmany (by decide +kernel)⟩

end AquaGem5.Compressors.BaseDelta
