import AquaGem5.Cache.SectorTags
import Mathlib.Data.Fintype.Prod

/-!
# The indexing policies of the repository, for tables of sectors
-/

namespace AquaGem5.Cache
open Address BitVec

namespace SetAssociative

theorem toNat_extractSet (p : BaseIndexingPolicy) (addr : Addr) :
    (extractSet p addr).toNat=(addr >>> p.setShift).toNat%p.numSets := by
  have hpos : 0<p.numSets := Nat.pos_of_isPowerOfTwo p.isPowerOf2
  have hlt:=p.numSets_lt
  have hmask : p.setMask.toNat=2^Nat.log2 p.numSets-1 := by
    rw [← p.numSets_eq,BaseIndexingPolicyParams.setMask,toNat_ofNat,Nat.mod_eq_of_lt (by omega)]
  have hmod : (addr >>> p.setShift).toNat%p.numSets<2^32 := (Nat.mod_lt _ hpos).trans hlt
  have hand : (addr >>> p.setShift &&& p.setMask).toNat=(addr >>> p.setShift).toNat%p.numSets := by
    rw [toNat_and,hmask,Nat.and_two_pow_sub_one_eq_mod,← p.numSets_eq]
  rw [extractSet,toNat_setWidth,hand,Nat.mod_eq_of_lt hmod]

theorem shift_eq_of_tag {p : BaseIndexingPolicy} {a b : Addr} (htag : p.extractTag a=p.extractTag b)
    (hset : (extractSet p a).toNat=(extractSet p b).toNat) : a >>> p.setShift=b >>> p.setShift := by
  have hquot : ∀ c : Addr,(p.extractTag c).toNat=(c >>> p.setShift).toNat/p.numSets := by
    intro c
    rw [BaseIndexingPolicy.extractTag,BaseIndexingPolicyParams.tagShift,toNat_ushiftRight,
      Nat.shiftRight_add,Nat.shiftRight_eq_div_pow _ (Nat.log2 _),← p.numSets_eq,toNat_ushiftRight]
  have htag':=congrArg BitVec.toNat htag
  rw [toNat_extractSet,toNat_extractSet] at hset
  rw [hquot,hquot] at htag'
  apply eq_of_toNat_eq
  rw [← Nat.div_add_mod (a >>> p.setShift).toNat p.numSets,htag',hset,Nat.div_add_mod]

end SetAssociative

namespace SkewedAssociative

end SkewedAssociative

section Policies

variable {g : SectorGeometry}

theorem SectorGeometry.sectorNumber_eq {p : BaseIndexingPolicyParams}
    (hp : p.entrySize=g.blkSize*g.numBlocksPerSector) (addr : Addr) : g.sectorNumber addr=addr >>> p.setShift := by
  obtain ⟨i,hi⟩:=g.blkSize_pow
  obtain ⟨k,hk⟩:=g.blocks_pow
  rw [sectorNumber,sectorShift,BaseIndexingPolicyParams.setShift,hp,hi,hk,← Nat.pow_add,Nat.log2_two_pow,
    Nat.log2_two_pow,Nat.log2_two_pow]

theorem extractTag_congr {p : BaseIndexingPolicy} {a b : Addr} (h : a >>> p.setShift=b >>> p.setShift) :
    p.extractTag a=p.extractTag b := by
  rw [BaseIndexingPolicy.extractTag,BaseIndexingPolicy.extractTag,BaseIndexingPolicyParams.tagShift,
    shiftRight_add,h,shiftRight_add]

def setAssociative (p : BaseIndexingPolicy) (hp : p.entrySize=g.blkSize*g.numBlocksPerSector) :
    IndexingPolicy g p.Position where
  extractTag := p.extractTag
  getPossibleEntries := SetAssociative.getPossibleEntries p
  same_sector := by
    intro a b h
    rw [SectorGeometry.sectorNumber_eq hp,SectorGeometry.sectorNumber_eq hp] at h
    refine ⟨extractTag_congr h,?_⟩
    simp only [SetAssociative.getPossibleEntries,SetAssociative.extractSet,h]
  apart := by
    intro a b e ha hb htag
    simp only [SetAssociative.getPossibleEntries,List.mem_map,List.mem_finRange,true_and] at ha hb
    obtain ⟨way,rfl⟩ := ha
    obtain ⟨way',hb⟩ := hb
    have hset := congrArg (fun e => e.1.val) hb
    rw [SectorGeometry.sectorNumber_eq hp,SectorGeometry.sectorNumber_eq hp]
    exact (SetAssociative.shift_eq_of_tag htag.symm hset).symm

end Policies

/-!
## Runs of a sector tag store

The counter of valid blocks has eight bits: a sector with 256 valid blocks counts as invalid.
-/

open Checked Tally

namespace SectorTags

variable {g : SectorGeometry} {E : Type} [DecidableEq E]

inductive Call (g : SectorGeometry) (E : Type) where
  | access (addr : Addr) (isSecure : Bool)
  | fill (addr : Addr) (isSecure : Bool) (victim : E)
  | invalidate (b : SubBlk g E)

/-- What the caches respect: only absent addresses are filled, only valid blocks invalidated. -/
def Allowed (p : IndexingPolicy g E) (t : SectorTags g E) : Call g E → Prop
  | .access _ _ => True
  | .fill addr isSecure victim => t.findBlock p addr isSecure=none ∧ victim∈p.getPossibleEntries addr
  | .invalidate b => (t.blk b).isValid=true

def exec (p : IndexingPolicy g E) (t : SectorTags g E) : Call g E → Except Fault (SectorTags g E)
  | .access addr isSecure => .ok (t.accessBlock p addr isSecure).1
  | .fill addr isSecure victim => t.fill p addr isSecure victim
  | .invalidate b => t.invalidate b

/-- No fill makes the 256th valid block of a sector. -/
def HasRoom (p : IndexingPolicy g E) (t : SectorTags g E) : Call g E → Prop
  | .fill addr isSecure _ => Room p t addr isSecure
  | .access _ _ => True
  | .invalidate _ => True

/-- Runs of allowed calls, each under a condition on the state before it. -/
inductive Run (p : IndexingPolicy g E) (cond : SectorTags g E → Call g E → Prop) : SectorTags g E → Prop
  | init : Run p cond init
  | step {t t' : SectorTags g E} {c : Call g E} : Run p cond t → Allowed p t c → cond t c →
      t.exec p c = .ok t' → Run p cond t'

theorem Run.mono {p : IndexingPolicy g E} {cond cond' : SectorTags g E → Call g E → Prop} {t : SectorTags g E}
    (h : Run p cond t) (hcond : ∀ t c,cond t c → cond' t c) : Run p cond' t := by
  induction h with
  | init => exact .init
  | step _ hc hroom hrun ih => exact ih.step hc (hcond _ _ hroom) hrun

structure Sound [Fintype E] (p : IndexingPolicy g E) (t : SectorTags g E) : Prop where
  valid_iff : ∀ e,(t.sectors e).isValid=true ↔ ∃ k,(t.blk (e,k)).isValid=true
  tags : ∀ e k,(t.blk (e,k)).isValid=true → (t.blk (e,k)).tag=(t.sectors e).tag
  secures : ∀ e k,(t.blk (e,k)).isValid=true → (t.blk (e,k)).isSecure=(t.sectors e).secureBit
  holds : ∀ b,(t.blk b).isValid=true → ∃ addr,Holds p t b addr (t.blk b).isSecure
  holds_unique : ∀ b b' addr isSecure,Holds p t b addr isSecure → Holds p t b' addr isSecure → b=b'
  findBlock_iff : ∀ addr isSecure b,t.findBlock p addr isSecure=some b ↔ Holds p t b addr isSecure
  tagsInUse : t.tagsInUse=tally SectorBlk.isValid t.sectors
  returns : ∀ c,Allowed p t c → HasRoom p t c → ∃ t',t.exec p c = .ok t'

section Runs

variable [Fintype E] {p : IndexingPolicy g E} {t t' : SectorTags g E}

theorem Invariant.exec (h : Invariant p t) {c : Call g E} (hc : Allowed p t c) (hroom : HasRoom p t c) :
    ∃ t',t.exec p c = .ok t' ∧ Invariant p t' := by
  cases c with
  | access addr isSecure => exact ⟨_,rfl,h.accessBlock addr isSecure⟩
  | fill addr isSecure victim => exact h.fill hc.1 hc.2 hroom
  | invalidate b =>
    obtain ⟨t',hrun,h',_⟩:=h.invalidate hc
    exact ⟨t',hrun,h'⟩

theorem Invariant.sound (h : Invariant p t) : Sound p t where
  valid_iff := fun e => (h.coherent e).isValid_iff
  tags := fun e k => (h.coherent e).tags k
  secures := fun e k => (h.coherent e).secures k
  holds := by
    intro b hb
    obtain ⟨addr,hmem,hoffset,htag⟩:=h.placed b hb
    exact ⟨addr,hmem,hoffset,hb,((h.coherent b.1).tags b.2 hb).trans htag,rfl⟩
  holds_unique := fun _ _ _ _ hb hb' => h.holds_unique hb hb'
  findBlock_iff := fun _ _ _ => h.findBlock_iff
  tagsInUse := h.inUse
  returns := by
    intro c hc hroom
    obtain ⟨t',hrun,_⟩:=h.exec hc hroom
    exact ⟨t',hrun⟩

/-- In every run in which no fill makes the 256th valid block of a sector, the store is sound. -/
theorem run_sound (h : Run p (HasRoom p) t) : Sound p t := by
  have hinv : Invariant p t := by
    induction h with
    | init => exact init_invariant
    | step _ hc hroom hrun ih =>
      obtain ⟨t'',hrun',h'⟩:=ih.exec hc hroom
      rw [hrun'] at hrun
      cases hrun
      exact h'
  exact hinv.sound

theorem Invariant.overflow (h : Invariant p t) {addr : Addr} {isSecure : Bool} {e victim : E}
    (hallowed : Allowed p t (.fill addr isSecure victim)) (hkeeps : Keeps p t e addr isSecure)
    (hfull : (t.sectors e).numValid=255) : ∃ t',t.exec p (.fill addr isSecure victim) = .ok t' ∧ ¬Sound p t' := by
  refine ⟨_,h.fill_kept hallowed.1 hallowed.2 hkeeps,?_⟩
  intro hsound
  have hcounter : (t.sectors e).validCounter+1#8=0#8 := by
    have hself:=(h.coherent e).counter
    apply BitVec.eq_of_toNat_eq
    rw [BitVec.toNat_add,hself,hfull]
    rfl
  have hvalid:=(hsound.valid_iff e).mpr ⟨g.extractSectorOffset addr,by rw [blk_withBlock]; rfl⟩
  simp [withBlock,SectorBlk.isValid,SectorBlk.filled,hcounter] at hvalid

end Runs

def wideGeometry : SectorGeometry where
  blkSize := 4
  numBlocksPerSector := 256
  blkSize_ge := by decide
  blkSize_pow := isPowerOfTwo_four
  blocks_pow := isPowerOfTwo_twoFiftySix

def wideTable : BaseIndexingPolicy where
  size := 1024
  entrySize := 1024
  assoc := 1
  isPowerOf2 := ⟨0,by decide⟩
  assoc_pos := Nat.one_pos

def widePolicy : IndexingPolicy wideGeometry wideTable.Position := setAssociative wideTable (by decide)

def wideAddr (i : ℕ) : Addr := BitVec.ofNat 64 (4*i)

theorem wideAddr_offset : ∀ i<256,(wideGeometry.extractSectorOffset (wideAddr i)).val=i := by
  decide +kernel

theorem wideAddr_sector : ∀ i<256,wideGeometry.sectorNumber (wideAddr i)=wideGeometry.sectorNumber (wideAddr 0) := by
  decide +kernel

def wideEntry : wideTable.Position := (⟨0,by decide⟩,⟨0,by decide⟩)

theorem wideEntry_unique : ∀ e : wideTable.Position,e=wideEntry := by decide

theorem wideEntry_mem (addr : Addr) : wideEntry∈widePolicy.getPossibleEntries addr := by
  have hmem : ∀ e : wideTable.Position,e∈widePolicy.getPossibleEntries addr → wideEntry ∈
      widePolicy.getPossibleEntries addr := fun e he => wideEntry_unique e ▸ he
  exact hmem _ (List.mem_map.mpr ⟨⟨0,by decide⟩,List.mem_finRange _,rfl⟩)

structure Filled (i : ℕ) (t : SectorTags wideGeometry wideTable.Position) : Prop where
  run : Run widePolicy (HasRoom widePolicy) t
  invariant : Invariant widePolicy t
  keeps : Keeps widePolicy t wideEntry (wideAddr 0) false
  count : (t.sectors wideEntry).numValid=i
  free : ∀ k,i≤k.val → (t.blk (wideEntry,k)).isValid=false

theorem Filled.next {i : ℕ} {t t1 : SectorTags wideGeometry wideTable.Position}
    (hrun : Run widePolicy (HasRoom widePolicy) t)
    (hallowed : Allowed widePolicy t (.fill (wideAddr i) false wideEntry))
    (hroom : HasRoom widePolicy t (.fill (wideAddr i) false wideEntry))
    (hfill : t.fill widePolicy (wideAddr i) false wideEntry =
      .ok (t1.withBlock widePolicy wideEntry (wideAddr i) false))
    (h1 : Invariant widePolicy t1) (htarget : Target widePolicy t1 wideEntry (wideAddr i) false)
    (hi : i<255) (hcount : (t1.sectors wideEntry).numValid=i)
    (hfree : ∀ k,i≤k.val → (t1.blk (wideEntry,k)).isValid=false) :
    Filled (i+1) (t1.withBlock widePolicy wideEntry (wideAddr i) false) := by
  have hnext:=h1.insertBlock htarget (by omega)
  have hkeeps:=hnext.keeps_of_holds htarget.holds
  have hsame:=widePolicy.same_sector (wideAddr_sector i (by omega))
  refine ⟨.step hrun hallowed hroom hfill,hnext,?_,?_,?_⟩
  · exact ⟨hsame.2 ▸ hkeeps.1,hkeeps.2.1,hkeeps.2.2.1.trans hsame.1,hkeeps.2.2.2⟩
  · rw [numValid_withBlock htarget.2.1,hcount]
  · intro k hk
    have hne : k≠wideGeometry.extractSectorOffset (wideAddr i) := by
      intro heq
      rw [heq,wideAddr_offset i (by omega)] at hk
      omega
    rw [blk_withBlock_of_ne hne]
    exact hfree k (by omega)

theorem Filled.first : ∃ t,Filled 1 t := by
  have habsent : (init : SectorTags wideGeometry wideTable.Position).findBlock widePolicy (wideAddr 0) false=none := by
    cases hfind : (init : SectorTags wideGeometry wideTable.Position).findBlock widePolicy (wideAddr 0) false with
    | none => rfl
    | some b =>
      have hholds:=init_invariant.findBlock_iff.mp hfind
      cases hholds.2.2.1
  obtain ⟨t1,e,hfill,h1,htarget,hcase⟩:=init_invariant.fill_eq habsent (wideEntry_mem (wideAddr 0))
  obtain rfl:=wideEntry_unique e
  have hidle : (t1.sectors wideEntry).isValid=false := by
    rcases hcase with hthere | hnone
    · rw [hthere.2]
      rfl
    · exact hnone.2
  have hzero:=(h1.coherent wideEntry).isValid_eq_false.mp hidle
  have hrun:=hfill.trans (insertBlock_ok (h1.coherent wideEntry) htarget)
  exact ⟨_,Filled.next .init ⟨habsent,wideEntry_mem _⟩ (fun e he => by cases he.2.1) hrun h1 htarget
    (by decide) (tally_eq_zero.mpr hzero) fun k _ => hzero k⟩

section Next

variable {i : ℕ} {t : SectorTags wideGeometry wideTable.Position} (h : Filled i t)

include h

theorem Filled.keeps_wideAddr (hi : i<256) : Keeps widePolicy t wideEntry (wideAddr i) false := by
  have hsame:=widePolicy.same_sector (wideAddr_sector i hi)
  exact ⟨wideEntry_mem _,h.keeps.2.1,h.keeps.2.2.1.trans hsame.1.symm,h.keeps.2.2.2⟩

theorem Filled.absent (hi : i<256) : t.findBlock widePolicy (wideAddr i) false=none := by
  cases hfind : t.findBlock widePolicy (wideAddr i) false with
  | none => rfl
  | some b =>
    obtain ⟨e,k⟩:=b
    obtain rfl:=wideEntry_unique e
    obtain ⟨_,hoffset,hvalid,_⟩:=h.invariant.findBlock_iff.mp hfind
    simp only at hoffset
    rw [h.free k (by rw [hoffset,wideAddr_offset i hi])] at hvalid
    cases hvalid

theorem Filled.succ (hi : i<255) : ∃ t',Filled (i+1) t' := by
  have hkeeps:=h.keeps_wideAddr (by omega)
  have habsent:=h.absent (by omega)
  have hfree:=h.free (wideGeometry.extractSectorOffset (wideAddr i)) (by rw [wideAddr_offset i (by omega)])
  have hroom : HasRoom widePolicy t (.fill (wideAddr i) false wideEntry) := by
    intro e _
    rw [wideEntry_unique e,h.count]
    exact hi
  exact ⟨_,Filled.next h.run ⟨habsent,wideEntry_mem _⟩ hroom
    (h.invariant.fill_kept habsent (wideEntry_mem _) hkeeps) h.invariant ⟨wideEntry_mem _,hfree,.inl hkeeps⟩ hi
    h.count h.free⟩

end Next

theorem Filled.upTo (i : ℕ) (hi : i<255) : ∃ t,Filled (i+1) t := by
  induction i with
  | zero => exact Filled.first
  | succ i ih =>
    obtain ⟨t,ht⟩:=ih (by omega)
    exact ht.succ hi

/-- The 256th block of the sector makes its counter wrap to 0. -/
theorem wide_run_unsound : ∃ t,Run widePolicy (fun _ _ => True) t ∧ ¬Sound widePolicy t := by
  obtain ⟨t,ht⟩:=Filled.upTo 254 (by decide)
  have hallowed : Allowed widePolicy t (.fill (wideAddr 255) false wideEntry) :=
    ⟨ht.absent (by decide),wideEntry_mem _⟩
  obtain ⟨t',hrun,hunsound⟩:=ht.invariant.overflow hallowed (ht.keeps_wideAddr (by decide)) ht.count
  exact ⟨t',.step (ht.run.mono fun _ _ _ => trivial) hallowed trivial hrun,hunsound⟩

theorem run_sound_wide : ∃ t,Run widePolicy (HasRoom widePolicy) t ∧ (t.sectors wideEntry).numValid=255 ∧
    Sound widePolicy t := by
  obtain ⟨t,ht⟩:=Filled.upTo 254 (by decide)
  exact ⟨t,ht.run,ht.count,run_sound ht.run⟩

end SectorTags

end AquaGem5.Cache
