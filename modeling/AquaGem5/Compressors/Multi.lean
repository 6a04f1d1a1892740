import AquaGem5.Compressors.Lossless
import Mathlib.Data.List.MinMax
import Mathlib.Data.Prod.Lex

/-!
# The multi compressor (multi.cc)

The sub-compressors compete, and the index of the best one is stored in 8 bits.
-/

namespace AquaGem5.Compressors
open Address

def alignToPowerOfTwo (val : Addr) : Addr :=
  let val := val-1
  let val := val ||| val >>> 1
  let val := val ||| val >>> 2
  let val := val ||| val >>> 4
  let val := val ||| val >>> 8
  let val := val ||| val >>> 16
  let val := val ||| val >>> 32
  val+1

structure Results where
  index : ℕ
  compData : CompData
  decompLat : ℕ
  compressionFactor : BitVec 8

namespace Results

def create (index : ℕ) (compData : CompData) (decompLat blkSize : ℕ) : Results where
  index := index
  compData := compData
  decompLat := decompLat
  compressionFactor :=
    let size := compData.sizeBits/8
    if blkSize<size then 1 else if size=0 then BitVec.ofNat 8 blkSize
      else (alignToPowerOfTwo (BitVec.ofNat 64 (blkSize/size))).setWidth 8

def less (lhs rhs : Results) : Prop :=
  if lhs.compressionFactor=rhs.compressionFactor then rhs.decompLat<lhs.decompLat
  else lhs.compressionFactor.toNat<rhs.compressionFactor.toNat

end Results

/-- The top of the priority queue; which of the best ones it is, is not said. -/
structure PriorityQueue where
  top : List Results → Option Results
  top_isSome : ∀ {results},results≠[] → (top results).isSome
  top_mem : ∀ {results best},top results=some best → best∈results
  top_best : ∀ {results best result},top results=some best → result∈results → ¬best.less result

def Results.rank (r : Results) : ℕ ×ₗ ℕᵒᵈ := toLex (r.compressionFactor.toNat,OrderDual.toDual r.decompLat)

theorem Results.less_iff {lhs rhs : Results} : lhs.less rhs ↔ lhs.rank<rhs.rank := by
  rw [less,rank,rank,Prod.Lex.toLex_lt_toLex]
  by_cases heq : lhs.compressionFactor=rhs.compressionFactor
  · simp [heq]
  · have hne : lhs.compressionFactor.toNat≠rhs.compressionFactor.toNat := fun h => heq (BitVec.eq_of_toNat_eq h)
    simp [heq,hne]

def PriorityQueue.first : PriorityQueue where
  top := List.argmax Results.rank
  top_isSome := by
    intro results hne
    rw [Option.isSome_iff_ne_none]
    exact fun hnone => hne (List.argmax_eq_none.mp hnone)
  top_mem := fun hbest => List.argmax_mem hbest
  top_best := by
    intro results best result hbest hmem hless
    exact List.not_lt_of_mem_argmax hmem hbest (Results.less_iff.mp hless)

structure Multi where
  compressors : List Compressor
  nonempty : compressors≠[]
  chunkSize : ChunkSize
  encodingInTags : Bool
  extraDecompressionLatency : ℕ
  sizeThreshold : ℕ

structure MultiCompData where
  index : BitVec 8
  compData : CompData
  sizeBits : ℕ

structure MultiCompressed where
  compData : MultiCompData
  compLat : ℕ
  decompLat : ℕ

namespace Multi

variable (m : Multi) (queue : PriorityQueue) (junk : (w : Width) → ℕ → DictionaryEntry w)

def numEncodingBits : ℕ :=
  if m.encodingInTags then 0 else (alignToPowerOfTwo (BitVec.ofNat 64 m.compressors.length)).toNat.log2

/-- The results of the sub-compressors from position `i` on, with their latencies. -/
def rank (data : Line) : ℕ → List Compressor → Except Fault (List (Results × ℕ))
  | _,[] => .ok []
  | i,c::cs => do
    let r ← c.compress data
    let compData := {r.compData with sizeBits := r.compData.sizeBits+m.numEncodingBits}
    let rest ← rank data (i+1) cs
    .ok ((Results.create i compData r.decompLat (data.length*8),r.compLat)::rest)

def compressChunks (words : ℕ) (chunks : List Addr) : Except Fault MultiCompressed := do
  let data := m.chunkSize.fromChunks words chunks
  let ranked ← m.rank data 0 m.compressors
  match queue.top (ranked.map Prod.fst) with
  | none => .error .bounds
  | some best =>
    .ok ⟨⟨BitVec.ofNat 8 best.index,best.compData,best.compData.sizeBits⟩,(ranked.map Prod.snd).foldl max 0+1,
      best.decompLat+m.extraDecompressionLatency⟩

def compress (line : Line) : Except Fault MultiCompressed := do
  let r ← m.compressChunks queue line.length (m.chunkSize.toChunks line)
  .ok {r with compData :=
    {r.compData with sizeBits := thresholded (line.length*8) m.sizeThreshold r.compData.sizeBits} }

def decompress (words : ℕ) (data : MultiCompData) : Except Fault Line :=
  match m.compressors[data.index.toNat]? with
  | some c => c.decompress junk words data.compData
  | none => .error .bounds

def roundTrip (line : Line) : Except Fault Line := do
  let r ← m.compress queue line
  m.decompress junk line.length r.compData

def best (line : Line) : Option Results :=
  match m.rank line 0 m.compressors with
  | .ok ranked => queue.top (ranked.map Prod.fst)
  | .error _ => none

def Kept (line : Line) : Prop :=
  ∀ best∈m.best queue line,256≤best.index → ∀ c∈m.compressors[best.index]?,
    ∀ c'∈m.compressors[best.index%256]?,c.cls.scheme.ReadsBack c'.cls.scheme (junk c'.cls.width) line

variable {m queue junk} {line : Line}

variable (m) in
theorem rank_ok (hline : line≠[]) : ∀ (cs : List Compressor) (i : ℕ),(∀ c∈cs,c.Fits line.length) →
    ∃ ranked,m.rank line i cs = .ok ranked ∧ ranked.length=cs.length ∧
      ∀ r∈ranked.map Prod.fst,∃ j c,r.index=i+j ∧ cs[j]?=some c ∧ c.Wrote line r.compData := by
  intro cs
  induction cs with
  | nil =>
    intro i _
    exact ⟨[],rfl,rfl,fun r hr => absurd hr List.not_mem_nil⟩
  | cons c cs ih =>
    intro i hfits
    obtain ⟨r,hr,d,patterns,sizeBits,hsteps,hdata⟩:=Compressor.compress_ok hline (hfits c List.mem_cons_self)
    obtain ⟨ranked,hranked,hlen,hwrote⟩:=ih (i+1) fun c' hc' => hfits c' (List.mem_cons_of_mem c hc')
    have hrun : m.rank line i (c::cs) = .ok ((Results.create i
        {r.compData with sizeBits := r.compData.sizeBits+m.numEncodingBits} r.decompLat (line.length*8),r.compLat) ::
          ranked) := by
      simp only [rank,hr,hranked,bind,Except.bind]
    refine ⟨_,hrun,congrArg Nat.succ hlen,?_⟩
    intro r' hr'
    rw [List.map_cons,List.mem_cons] at hr'
    cases hr' with
    | inl hfirst =>
      subst hfirst
      refine ⟨0,c,rfl,rfl,d,patterns,sizeBits+m.numEncodingBits,hsteps,?_⟩
      rw [Results.create,hdata]
    | inr hrest =>
      obtain ⟨j,c',hindex,hget,hdata'⟩:=hwrote r' hrest
      exact ⟨j+1,c',by omega,hget,hdata'⟩

variable (queue) in
theorem compress_ok (hline : line≠[]) (hfits : ∀ c∈m.compressors,c.Fits line.length) :
    ∃ r best c,m.compress queue line = .ok r ∧ m.best queue line=some best ∧ m.compressors[best.index]?=some c ∧
      r.compData.index=BitVec.ofNat 8 best.index ∧ c.Wrote line r.compData.compData := by
  obtain ⟨ranked,hranked,hlen,hwrote⟩:=m.rank_ok hline m.compressors 0 hfits
  have hnonempty : ranked.map Prod.fst≠[] := by
    rw [ne_eq,List.map_eq_nil_iff,← List.length_eq_zero_iff,hlen,List.length_eq_zero_iff]
    exact m.nonempty
  obtain ⟨best,hbest⟩:=Option.isSome_iff_exists.mp (queue.top_isSome hnonempty)
  obtain ⟨j,c,hindex,hget,hdata⟩:=hwrote best (queue.top_mem hbest)
  rw [Nat.zero_add] at hindex
  subst hindex
  have hbest' : m.best queue line=some best := by simp only [Multi.best,hranked,hbest]
  refine ⟨⟨⟨BitVec.ofNat 8 best.index,best.compData,thresholded (line.length*8) m.sizeThreshold best.compData.sizeBits⟩,
    (ranked.map Prod.snd).foldl max 0+1,best.decompLat+m.extraDecompressionLatency⟩,best,c,?_,hbest',hget,rfl,hdata⟩
  simp only [compress,compressChunks,ChunkSize.fromChunks_toChunks,hranked,hbest,bind,Except.bind]

theorem roundTrip_eq_iff (hline : line≠[]) (hfits : ∀ c∈m.compressors,c.Fits line.length) :
    m.roundTrip queue junk line = .ok line ↔ m.Kept queue junk line := by
  obtain ⟨r,best,c,hr,hbest,hget,hindex,hwrote⟩:=compress_ok queue hline hfits
  have hlow : best.index%256 < m.compressors.length :=
    Nat.lt_of_le_of_lt (Nat.mod_le _ _) (List.getElem?_eq_some_iff.mp hget).1
  have hget':=List.getElem?_eq_getElem hlow
  have hfits':=hfits _ (List.getElem_mem hlow)
  generalize m.compressors[best.index%256]=c' at hget' hfits'
  have htrip : m.roundTrip queue junk line=c'.decompress junk line.length r.compData.compData := by
    have hread : r.compData.index.toNat=best.index%256 := by rw [hindex,BitVec.toNat_ofNat]
    simp only [roundTrip,hr,bind,Except.bind,decompress,hread,hget']
  rw [htrip,Compressor.decompress_iff hfits' hwrote]
  constructor
  · intro hback best' hbest' _ c1 hc1 c2 hc2
    obtain rfl : best=best' := Option.some.inj (hbest.symm.trans hbest')
    obtain rfl : c=c1 := Option.some.inj (hget.symm.trans hc1)
    obtain rfl : c'=c2 := Option.some.inj (hget'.symm.trans hc2)
    exact hback
  · intro hkept
    by_cases hsmall : best.index<256
    · rw [Nat.mod_eq_of_lt hsmall,hget] at hget'
      obtain rfl:=Option.some.inj hget'
      exact Scheme.ReadsBack.same hfits' rfl rfl
    · exact hkept best hbest (Nat.le_of_not_lt hsmall) c hget c' hget'

theorem kept_of_length_le (h : m.compressors.length≤256) : m.Kept queue junk line := by
  intro best _ hbig c hc
  have hindex:=(List.getElem?_eq_some_iff.mp hc).1
  omega

/-- Every compressor gives a line back, and so do several of them unless the index of the best one is taken for that
of another which does not read its data back, which it is not for 256 of them. -/
theorem lossless_iff (hline : line≠[]) (junk : (w : Width) → ℕ → DictionaryEntry w) :
    (∀ c : Compressor,c.Fits line.length → c.roundTrip junk line = .ok line) ∧
      ∀ (m : Multi) (queue : PriorityQueue),(∀ c∈m.compressors,c.Fits line.length) →
        (m.roundTrip queue junk line = .ok line ↔ m.Kept queue junk line) ∧
          (m.compressors.length≤256 → m.roundTrip queue junk line = .ok line) := by
  constructor
  · intro c hfits
    exact Compressor.roundTrip_eq hline hfits
  · intro m queue hfits
    have hiff : m.roundTrip queue junk line = .ok line ↔ m.Kept queue junk line := roundTrip_eq_iff hline hfits
    exact ⟨hiff,fun hlen => hiff.mpr (kept_of_length_le hlen)⟩

def oneWord : Line := [1,0,0,0,0,0,0,0]

def pair : Multi where
  compressors := [⟨.zero,64,32⟩,⟨.cpack,64,32⟩]
  nonempty := List.cons_ne_nil _ _
  chunkSize := Width.w64.chunkSize
  encodingInTags := false
  extraDecompressionLatency := 1
  sizeThreshold := 32

theorem lossless_iff_pair :
    (Compressor.mk .fpcd 64 32).roundTrip (fun _ _ => toDictionaryEntry 0) oneWord = .ok oneWord ∧
      pair.roundTrip .first (fun _ _ => toDictionaryEntry 0) oneWord = .ok oneWord :=
  ⟨(lossless_iff (List.cons_ne_nil _ _) _).1 _ (by decide),
    ((lossless_iff (List.cons_ne_nil _ _) _).2 pair .first (by decide)).2 (by decide)⟩

def wide : Multi where
  compressors := List.replicate 256 ⟨.zero,64,32⟩++[⟨.cpack,64,32⟩]
  nonempty := List.append_ne_nil_of_right_ne_nil _ (List.cons_ne_nil _ _)
  chunkSize := Width.w64.chunkSize
  encodingInTags := false
  extraDecompressionLatency := 1
  sizeThreshold := 32

theorem wide_badCast : (∀ c∈wide.compressors,c.Fits oneWord.length) ∧
    wide.roundTrip .first (fun _ _ => toDictionaryEntry 0) oneWord = .error .badCast := by decide +kernel

end Multi

end AquaGem5.Compressors
