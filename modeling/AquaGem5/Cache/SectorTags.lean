import AquaGem5.Cache.SectorBlk
import AquaGem5.Cache.Skewed

/-!
# Tag stores of sectors (sector_tags.cc)

The indexing policy is any that tells the addresses of different sectors apart by tag and
entry; the replacement policy is any choice among the possible entries.
-/

namespace AquaGem5.Cache
open Address Checked Tally Function List

structure SectorGeometry where
  blkSize : ℕ
  numBlocksPerSector : ℕ
  blkSize_ge : 4≤blkSize
  blkSize_pow : blkSize.isPowerOfTwo
  blocks_pow : numBlocksPerSector.isPowerOfTwo

theorem isPowerOfTwo_four : Nat.isPowerOfTwo 4 := ⟨2,rfl⟩

theorem isPowerOfTwo_sixtyFour : Nat.isPowerOfTwo 64 := ⟨6,rfl⟩

theorem isPowerOfTwo_twoFiftySix : Nat.isPowerOfTwo 256 := ⟨8,rfl⟩

namespace SectorGeometry

variable (g : SectorGeometry)

def sectorShift : ℕ := Nat.log2 g.blkSize

def sectorMask : Addr := BitVec.ofNat 64 (g.numBlocksPerSector-1)

theorem offset_lt (addr : Addr) : ((addr >>> g.sectorShift) &&& g.sectorMask).toNat<g.numBlocksPerSector := by
  have hpos : 0<g.numBlocksPerSector := Nat.pos_of_isPowerOfTwo g.blocks_pow
  have hmask : g.sectorMask.toNat≤g.numBlocksPerSector-1 := by
    rw [sectorMask,BitVec.toNat_ofNat]
    exact Nat.mod_le _ _
  have hand : ((addr >>> g.sectorShift) &&& g.sectorMask).toNat≤g.sectorMask.toNat := by
    rw [BitVec.toNat_and]
    exact Nat.and_le_right
  omega

def extractSectorOffset (addr : Addr) : Fin g.numBlocksPerSector :=
  ⟨((addr >>> g.sectorShift) &&& g.sectorMask).toNat,g.offset_lt addr⟩

def sectorNumber (addr : Addr) : Addr := addr >>> (g.sectorShift+Nat.log2 g.numBlocksPerSector)

end SectorGeometry

/-- An indexing policy whose entries are sectors of the geometry. -/
structure IndexingPolicy (g : SectorGeometry) (E : Type) where
  extractTag : Addr → Addr
  getPossibleEntries : Addr → List E
  same_sector : ∀ {a b},g.sectorNumber a=g.sectorNumber b →
    extractTag a=extractTag b ∧ getPossibleEntries a=getPossibleEntries b
  apart : ∀ {a b e},e∈getPossibleEntries a → e∈getPossibleEntries b → extractTag a=extractTag b →
    g.sectorNumber a=g.sectorNumber b

abbrev SubBlk (g : SectorGeometry) (E : Type) : Type := E × Fin g.numBlocksPerSector

structure SectorTags (g : SectorGeometry) (E : Type) where
  sectors : E → SectorBlk g.numBlocksPerSector
  tagsInUse : ℤ

namespace SectorTags

variable {g : SectorGeometry} {E : Type} [DecidableEq E] (p : IndexingPolicy g E) (t : SectorTags g E)

section

omit [DecidableEq E]

def init : SectorTags g E := ⟨fun _ => SectorBlk.init,0⟩

def blk (b : SubBlk g E) : CacheBlk := (t.sectors b.1).blks b.2

end

def setSector (e : E) (s : SectorBlk g.numBlocksPerSector) : SectorTags g E :=
  {t with sectors := Function.update t.sectors e s}

def invalidate (b : SubBlk g E) : Except Fault (SectorTags g E) :=
  if (t.blk b).isValid then
    let s := (t.sectors b.1).invalidate b.2
    let t := t.setSector b.1 s
    .ok (if s.isValid then t else {t with tagsInUse := t.tagsInUse-1})
  else .error .assertion

omit [DecidableEq E] in
def findBlock (addr : Addr) (isSecure : Bool) : Option (SubBlk g E) :=
  let tag := p.extractTag addr
  let offset := g.extractSectorOffset addr
  let found := (p.getPossibleEntries addr).find? fun e =>
    decide ((t.sectors e).tag=tag ∧ (t.blk (e,offset)).isValid ∧ (t.blk (e,offset)).isSecure=isSecure)
  found.map fun e => (e,offset)

/-- The replacement data is not modelled: every choice of a victim is considered. -/
def accessBlock (addr : Addr) (isSecure : Bool) : SectorTags g E × Option (SubBlk g E) :=
  match t.findBlock p addr isSecure with
  | none => (t,none)
  | some b =>
    let touched := {t.blk b with refCount := (t.blk b).refCount+1}
    (t.setSector b.1 ((t.sectors b.1).setBlk b.2 touched),some b)

section

omit [DecidableEq E]

def validBlks (e : E) : List (SubBlk g E) :=
  ((List.finRange g.numBlocksPerSector).filter fun k => (t.blk (e,k)).isValid).map fun k => (e,k)

def findSector (addr : Addr) (isSecure : Bool) : Option E :=
  (p.getPossibleEntries addr).find? fun e =>
    decide (p.extractTag addr=(t.sectors e).tag ∧ (t.sectors e).isValid ∧ isSecure=(t.sectors e).secureBit)

/-- `victim` is what `replacementPolicy->getVictim` returns. -/
def findVictim (addr : Addr) (isSecure : Bool) (victim : E) :
    Except Fault (SubBlk g E × List (SubBlk g E)) :=
  let tag := p.extractTag addr
  let victimSector := (t.findSector p addr isSecure).getD victim
  let victim := (victimSector,g.extractSectorOffset addr)
  if tag=(t.sectors victimSector).tag ∧ isSecure=(t.sectors victimSector).secureBit then
    if (t.blk victim).isValid then .error .assertion else .ok (victim,[])
  else .ok (victim,t.validBlks victimSector)

end

def insertBlock (addr : Addr) (isSecure : Bool) (b : SubBlk g E) : Except Fault (SectorTags g E) :=
  let t := if (t.sectors b.1).isValid then t else {t with tagsInUse := t.tagsInUse+1}
  if (t.blk b).isValid then .error .assertion
  else do
    let s ← (t.sectors b.1).insert b.2 (p.extractTag addr) isSecure
    return t.setSector b.1 s

def fill (addr : Addr) (isSecure : Bool) (victim : E) : Except Fault (SectorTags g E) := do
  let (b,evictBlks) ← t.findVictim p addr isSecure victim
  let t ← evictBlks.foldlM invalidate t
  t.insertBlock p addr isSecure b

variable {p t}

def Holds (p : IndexingPolicy g E) (t : SectorTags g E) (b : SubBlk g E) (addr : Addr) (isSecure : Bool) : Prop :=
  b.1∈p.getPossibleEntries addr ∧ b.2=g.extractSectorOffset addr ∧ (t.blk b).isValid=true ∧
    (t.blk b).tag=p.extractTag addr ∧ (t.blk b).isSecure=isSecure

def Keeps (p : IndexingPolicy g E) (t : SectorTags g E) (e : E) (addr : Addr) (isSecure : Bool) : Prop :=
  e∈p.getPossibleEntries addr ∧ (t.sectors e).isValid=true ∧ (t.sectors e).tag=p.extractTag addr ∧
    (t.sectors e).secureBit=isSecure

structure Invariant [Fintype E] (p : IndexingPolicy g E) (t : SectorTags g E) : Prop where
  coherent : ∀ e,(t.sectors e).Coherent
  placed : ∀ b,(t.blk b).isValid=true → ∃ addr,b.1∈p.getPossibleEntries addr ∧
    b.2=g.extractSectorOffset addr ∧ (t.sectors b.1).tag=p.extractTag addr
  unique : ∀ {addr isSecure e e'},Keeps p t e addr isSecure → Keeps p t e' addr isSecure → e=e'
  inUse : t.tagsInUse=tally SectorBlk.isValid t.sectors

section Steps

omit [DecidableEq E] in
theorem init_invariant [Fintype E] : Invariant p (init : SectorTags g E) where
  coherent := fun _ => SectorBlk.Coherent.init
  placed := fun b h => by cases h
  unique := fun h => by cases h.2.1
  inUse := by
    have hzero : tally SectorBlk.isValid (init : SectorTags g E).sectors=0 := tally_eq_zero.mpr fun _ => rfl
    rw [hzero]
    rfl

variable {e e' : E} {s : SectorBlk g.numBlocksPerSector} {addr : Addr} {isSecure : Bool}

@[simp] theorem sectors_setSector : (t.setSector e s).sectors=update t.sectors e s := rfl

theorem keeps_of_ne {n : ℤ} (hne : e'≠e) :
    Keeps p {t.setSector e s with tagsInUse := n} e' addr isSecure ↔ Keeps p t e' addr isSecure := by
  simp only [Keeps,sectors_setSector,update_of_ne hne]

variable [Fintype E]

theorem Invariant.setSector (h : Invariant p t) {n : ℤ} (hs : s.Coherent)
    (hplaced : ∀ k,(s.blks k).isValid=true → ∃ addr,e∈p.getPossibleEntries addr ∧
      k=g.extractSectorOffset addr ∧ s.tag=p.extractTag addr)
    (halone : ∀ addr,s.isValid=true → e∈p.getPossibleEntries addr → s.tag=p.extractTag addr →
      ∀ e',Keeps p t e' addr s.secureBit → e'=e)
    (hcount : n=tally SectorBlk.isValid (update t.sectors e s)) :
    Invariant p {t.setSector e s with tagsInUse := n} where
  coherent := by
    intro e'
    by_cases he : e'=e
    · simpa [he] using hs
    · simpa [he] using h.coherent e'
  placed := by
    intro b hb
    obtain ⟨e',k⟩:=b
    by_cases he : e'=e
    · subst he
      simp only [blk,sectors_setSector,update_self] at hb ⊢
      exact hplaced k hb
    · simp only [blk,sectors_setSector,update_of_ne he] at hb ⊢
      exact h.placed (e',k) hb
  unique := by
    have hself : ∀ {addr isSecure e'},Keeps p {t.setSector e s with tagsInUse := n} e addr isSecure →
        Keeps p {t.setSector e s with tagsInUse := n} e' addr isSecure → e'=e := by
      intro addr isSecure e' he he'
      by_contra hne
      obtain ⟨hmem,hvalid,htag,hsecure⟩:=he
      simp only [sectors_setSector,update_self] at hvalid htag hsecure
      rw [keeps_of_ne hne,← hsecure] at he'
      exact hne (halone addr hvalid hmem htag e' he')
    intro addr isSecure e1 e2 h1 h2
    by_cases he1 : e1=e
    · subst he1
      exact (hself h1 h2).symm
    · by_cases he2 : e2=e
      · subst he2
        exact hself h2 h1
      · rw [keeps_of_ne he1] at h1
        rw [keeps_of_ne he2] at h2
        exact h.unique h1 h2
  inUse := hcount

variable {b : SubBlk g E}

section

omit [DecidableEq E]

theorem Invariant.keeps_of_holds (h : Invariant p t) (hb : Holds p t b addr isSecure) :
    Keeps p t b.1 addr isSecure := by
  obtain ⟨hmem,_,hvalid,htag,hsecure⟩:=hb
  have hc:=h.coherent b.1
  refine ⟨hmem,hc.isValid_iff.mpr ⟨b.2,hvalid⟩,?_,?_⟩
  · rw [← hc.tags b.2 hvalid]
    exact htag
  · rw [← hc.secures b.2 hvalid]
    exact hsecure

theorem Invariant.holds_unique (h : Invariant p t) {b b' : SubBlk g E} (hb : Holds p t b addr isSecure)
    (hb' : Holds p t b' addr isSecure) : b=b' :=
  Prod.ext (h.unique (h.keeps_of_holds hb) (h.keeps_of_holds hb')) (hb.2.1.trans hb'.2.1.symm)

theorem Invariant.findBlock_iff (h : Invariant p t) :
    t.findBlock p addr isSecure=some b ↔ Holds p t b addr isSecure := by
  have hsound : ∀ {b},t.findBlock p addr isSecure=some b → Holds p t b addr isSecure := by
    intro b hfind
    simp only [findBlock,Option.map_eq_some_iff] at hfind
    obtain ⟨e,he,rfl⟩:=hfind
    have hprop:=find?_some he
    simp only [decide_eq_true_eq] at hprop
    obtain ⟨htag,hvalid,hsecure⟩:=hprop
    exact ⟨mem_of_find?_eq_some he,rfl,hvalid,((h.coherent e).tags _ hvalid).trans htag,hsecure⟩
  constructor
  · exact hsound
  · intro hb
    cases hfind : t.findBlock p addr isSecure with
    | some b' => rw [h.holds_unique (hsound hfind) hb]
    | none =>
      obtain ⟨hmem,hoffset,hvalid,htag,hsecure⟩:=hb
      obtain ⟨e,k⟩:=b
      simp only at hmem hoffset
      subst hoffset
      simp only [findBlock,Option.map_eq_none_iff,find?_eq_none] at hfind
      have hno:=hfind e hmem
      simp only [decide_eq_true_eq] at hno
      exact (hno ⟨((h.coherent e).tags _ hvalid).symm.trans htag,hvalid,hsecure⟩).elim

end

section

omit [DecidableEq E] [Fintype E]

theorem findSector_some (hfind : t.findSector p addr isSecure=some e) : Keeps p t e addr isSecure := by
  have hprop:=find?_some hfind
  simp only [decide_eq_true_eq] at hprop
  exact ⟨mem_of_find?_eq_some hfind,hprop.2.1,hprop.1.symm,hprop.2.2.symm⟩

theorem findSector_none (hfind : t.findSector p addr isSecure=none) (e : E) : ¬Keeps p t e addr isSecure := by
  intro h
  have hno:=find?_eq_none.mp hfind e h.1
  simp only [decide_eq_true_eq] at hno
  exact hno ⟨h.2.2.1.symm,h.2.1,h.2.2.2.symm⟩

end

theorem Invariant.accessBlock (h : Invariant p t) (addr : Addr) (isSecure : Bool) :
    Invariant p (t.accessBlock p addr isSecure).1 := by
  unfold SectorTags.accessBlock
  cases hfind : t.findBlock p addr isSecure with
  | none => exact h
  | some b =>
    have hs : ((t.sectors b.1).setBlk b.2 {t.blk b with refCount := (t.blk b).refCount+1}).Coherent :=
      (h.coherent b.1).setBlk rfl rfl
    have hkeep : ∀ k,((((t.sectors b.1).setBlk b.2
        {t.blk b with refCount := (t.blk b).refCount+1}).blks k).isValid=true) →
        (t.blk (b.1,k)).isValid=true := by
      intro k hk
      by_cases hkb : k=b.2
      · subst hkb
        simpa [SectorBlk.setBlk,CacheBlk.isValid] using hk
      · simpa [blk,SectorBlk.setBlk,hkb] using hk
    refine h.setSector hs (fun k hk => h.placed (b.1,k) (hkeep k hk)) ?_ ?_
    · intro addr' hvalid hmem htag e' he'
      exact h.unique he' ⟨hmem,hvalid,htag,rfl⟩
    · rw [tally_same (by rfl)]
      exact h.inUse

theorem Invariant.invalidate (h : Invariant p t) (hb : (t.blk b).isValid=true) :
    ∃ t',t.invalidate b = .ok t' ∧ Invariant p t' ∧
      t'.sectors=update t.sectors b.1 ((t.sectors b.1).invalidate b.2) := by
  have hc:=h.coherent b.1
  have hs:=hc.invalidate hb
  have hwas : (t.sectors b.1).isValid=true := hc.isValid_iff.mpr ⟨b.2,hb⟩
  have hkeep : ∀ k,(((t.sectors b.1).invalidate b.2).blks k).isValid=true → (t.blk (b.1,k)).isValid=true := by
    intro k hk
    by_cases hkb : k=b.2
    · subst hkb
      exact hb
    · simpa [blk,SectorBlk.invalidate,SectorBlk.setBlk,hkb] using hk
  have halone : ∀ addr,((t.sectors b.1).invalidate b.2).isValid=true → b.1∈p.getPossibleEntries addr →
      ((t.sectors b.1).invalidate b.2).tag=p.extractTag addr →
      ∀ e',Keeps p t e' addr ((t.sectors b.1).invalidate b.2).secureBit → e'=b.1 := by
    intro addr hvalid hmem htag e' he'
    have hsecure : ((t.sectors b.1).invalidate b.2).secureBit=(t.sectors b.1).secureBit := by
      have hne : (t.sectors b.1).validCounter-1≠0 := by
        intro hzero
        have hcounter : ((t.sectors b.1).invalidate b.2).validCounter=0 := hzero
        simp [SectorBlk.isValid,hcounter] at hvalid
      simp only [SectorBlk.invalidate]
      rw [if_neg hne]
    rw [hsecure] at he'
    exact h.unique he' ⟨hmem,hwas,htag,rfl⟩
  simp only [SectorTags.invalidate,hb,if_true]
  cases hvalid : ((t.sectors b.1).invalidate b.2).isValid with
  | true =>
    refine ⟨_,rfl,h.setSector hs (fun k hk => h.placed (b.1,k) (hkeep k hk)) halone ?_,rfl⟩
    rw [tally_same (hvalid.trans hwas.symm)]
    exact h.inUse
  | false =>
    refine ⟨_,rfl,h.setSector hs (fun k hk => h.placed (b.1,k) (hkeep k hk)) halone ?_,rfl⟩
    have hloss:=tally_loss hwas hvalid
    have huse:=h.inUse
    simp only [SectorTags.setSector]
    omega

theorem Invariant.evict (l : List (SubBlk g E)) (h : Invariant p t) (hnodup : l.Nodup)
    (hl : ∀ b∈l,b.1=e ∧ (t.blk b).isValid=true) : ∃ t',l.foldlM SectorTags.invalidate t = .ok t' ∧ Invariant p t' ∧
      (∀ e',e'≠e → t'.sectors e'=t.sectors e') ∧
      (∀ k,(t'.blk (e,k)).isValid=true → (t.blk (e,k)).isValid=true ∧ (e,k)∉l) := by
  induction l generalizing t with
  | nil => exact ⟨t,rfl,h,fun _ _ => rfl,fun k hk => ⟨hk,not_mem_nil⟩⟩
  | cons b l ih =>
    obtain ⟨hbe,hb⟩:=hl b mem_cons_self
    obtain ⟨hnot,hnodup⟩:=nodup_cons.mp hnodup
    obtain ⟨t1,hrun1,h1,hsectors⟩:=h.invalidate hb
    have hblk : ∀ k,k≠b.2 → t1.blk (e,k)=t.blk (e,k) := by
      intro k hk
      simp [blk,hsectors,← hbe,SectorBlk.invalidate,SectorBlk.setBlk,hk]
    have hgone : (t1.blk b).isValid=false := by
      simp [blk,hsectors,SectorBlk.invalidate,SectorBlk.setBlk]
    have hl1 : ∀ b'∈l,b'.1=e ∧ (t1.blk b').isValid=true := by
      intro b' hb'
      obtain ⟨hbe',hvalid⟩:=hl b' (mem_cons_of_mem _ hb')
      obtain ⟨e',k⟩:=b'
      simp only at hbe'
      subst hbe'
      have hk : k≠b.2 := by
        intro hk
        exact hnot ((Prod.ext hbe.symm hk : (e',k)=b) ▸ hb')
      rw [hblk k hk]
      exact ⟨rfl,hvalid⟩
    obtain ⟨t',hrun,h',hother,hkeep⟩:=ih h1 hnodup hl1
    refine ⟨t',?_,h',?_,?_⟩
    · rw [foldlM_cons,hrun1]
      exact hrun
    · intro e' he'
      rw [hother e' he',hsectors,update_of_ne (hbe ▸ he')]
    · intro k hk
      obtain ⟨hvalid,hnotin⟩:=hkeep k hk
      have hkb : k≠b.2 := by
        intro hkb
        rw [(Prod.ext hbe.symm hkb : (e,k)=b),hgone] at hvalid
        cases hvalid
      rw [hblk k hkb] at hvalid
      refine ⟨hvalid,?_⟩
      rw [mem_cons,not_or]
      exact ⟨fun heq => hkb (congrArg Prod.snd heq),hnotin⟩

section

omit [DecidableEq E] [Fintype E]

theorem mem_validBlks : b∈t.validBlks e ↔ b.1=e ∧ (t.blk b).isValid=true := by
  obtain ⟨e',k⟩:=b
  simp only [validBlks,mem_map,mem_filter,mem_finRange,true_and,Prod.mk.injEq]
  constructor
  · intro h
    obtain ⟨k',hvalid,rfl,rfl⟩:=h
    exact ⟨rfl,hvalid⟩
  · intro h
    obtain ⟨rfl,hvalid⟩:=h
    exact ⟨k,hvalid,rfl,rfl⟩

theorem validBlks_nodup : (t.validBlks e).Nodup :=
  ((nodup_finRange _).filter _).map fun _ _ h => congrArg Prod.snd h

end

variable {victim : E}

omit [DecidableEq E] in
theorem Invariant.findVictim (h : Invariant p t) (habsent : t.findBlock p addr isSecure=none)
    (hvictim : victim∈p.getPossibleEntries addr) :
    ∃ e l,t.findVictim p addr isSecure victim = .ok ((e,g.extractSectorOffset addr),l) ∧ e∈p.getPossibleEntries addr ∧
      ((Keeps p t e addr isSecure ∧ l=[] ∧ (t.blk (e,g.extractSectorOffset addr)).isValid=false) ∨
        ((∀ e',¬Keeps p t e' addr isSecure) ∧ l=t.validBlks e)) := by
  unfold SectorTags.findVictim
  cases hfind : t.findSector p addr isSecure with
  | some e =>
    have hkeeps:=findSector_some hfind
    have ⟨hmem,hvalid,htag,hsecure⟩:=hkeeps
    have hfree : (t.blk (e,g.extractSectorOffset addr)).isValid=false := by
      by_contra hblk
      rw [Bool.not_eq_false] at hblk
      have hholds : Holds p t (e,g.extractSectorOffset addr) addr isSecure :=
        ⟨hmem,rfl,hblk,((h.coherent e).tags _ hblk).trans htag,((h.coherent e).secures _ hblk).trans hsecure⟩
      rw [h.findBlock_iff.mpr hholds] at habsent
      cases habsent
    refine ⟨e,[],?_,hmem,.inl ⟨hkeeps,rfl,hfree⟩⟩
    simp [htag,hsecure,hfree]
  | none =>
    have hnone:=findSector_none hfind
    refine ⟨victim,t.validBlks victim,?_,hvictim,.inr ⟨hnone,rfl⟩⟩
    simp only [Option.getD_none]
    split_ifs with hstale hblk
    · exact (hnone victim ⟨hvictim,(h.coherent victim).isValid_iff.mpr ⟨_,hblk⟩,hstale.1.symm,hstale.2.symm⟩).elim
    · -- the stale tag of an invalid sector: there is nothing to evict
      have hempty : t.validBlks victim=[] := by
        rw [eq_nil_iff_forall_not_mem]
        intro b hb
        obtain ⟨rfl,hvalid⟩:=mem_validBlks.mp hb
        exact hnone b.1 ⟨hvictim,(h.coherent b.1).isValid_iff.mpr ⟨b.2,hvalid⟩,hstale.1.symm,hstale.2.symm⟩
      rw [hempty]
    · rfl

def Target (p : IndexingPolicy g E) (t : SectorTags g E) (e : E) (addr : Addr) (isSecure : Bool) : Prop :=
  e∈p.getPossibleEntries addr ∧ (t.blk (e,g.extractSectorOffset addr)).isValid=false ∧
    (Keeps p t e addr isSecure ∨
      ((t.sectors e).isValid=false ∧ ∀ e',e'≠e → ¬Keeps p t e' addr isSecure))

omit [DecidableEq E] [Fintype E] in
theorem Target.fits (h : Target p t e addr isSecure) (hvalid : (t.sectors e).isValid=true) :
    (t.sectors e).tag=p.extractTag addr ∧ (t.sectors e).secureBit=isSecure := by
  rcases h.2.2 with hkeeps | hidle
  · exact hkeeps.2.2
  · rw [hidle.1] at hvalid
    cases hvalid

section

omit [Fintype E]

def withBlock (p : IndexingPolicy g E) (t : SectorTags g E) (e : E) (addr : Addr) (isSecure : Bool) :
    SectorTags g E :=
  {t.setSector e ((t.sectors e).filled (g.extractSectorOffset addr) (p.extractTag addr) isSecure) with
    tagsInUse := if (t.sectors e).isValid then t.tagsInUse else t.tagsInUse+1}

theorem blk_withBlock : (t.withBlock p e addr isSecure).blk (e,g.extractSectorOffset addr) =
    CacheBlk.inserted (p.extractTag addr) isSecure := by
  simp [blk,withBlock,SectorBlk.filled]

theorem blk_withBlock_of_ne {k : Fin g.numBlocksPerSector} (hk : k≠g.extractSectorOffset addr) :
    (t.withBlock p e addr isSecure).blk (e,k)=t.blk (e,k) := by
  simp [blk,withBlock,SectorBlk.filled,hk]

theorem numValid_withBlock (hfree : (t.blk (e,g.extractSectorOffset addr)).isValid=false) :
    ((t.withBlock p e addr isSecure).sectors e).numValid=(t.sectors e).numValid+1 := by
  have hself : (t.withBlock p e addr isSecure).sectors e =
      (t.sectors e).filled (g.extractSectorOffset addr) (p.extractTag addr) isSecure := by
    simp [withBlock]
  rw [hself]
  exact tally_gain hfree rfl

theorem Target.holds (h : Target p t e addr isSecure) :
    Holds p (t.withBlock p e addr isSecure) (e,g.extractSectorOffset addr) addr isSecure := by
  rw [Holds,blk_withBlock]
  exact ⟨h.1,rfl,rfl,rfl,rfl⟩

theorem insertBlock_ok (hc : (t.sectors e).Coherent) (h : Target p t e addr isSecure) :
    t.insertBlock p addr isSecure (e,g.extractSectorOffset addr) = .ok (t.withBlock p e addr isSecure) := by
  have hinsert:=SectorBlk.insert_ok h.fits (hc.cleared _ h.2.1)
  simp only [SectorTags.insertBlock]
  cases hwas : (t.sectors e).isValid with
  | true =>
    simp only [if_true,h.2.1,hinsert,withBlock,hwas]
    rfl
  | false =>
    have hfree : (SectorTags.blk {t with tagsInUse := t.tagsInUse+1}
        (e,g.extractSectorOffset addr)).isValid=false := h.2.1
    simp only [Bool.false_eq_true,if_false,hfree,hinsert,withBlock,hwas]
    rfl

end

theorem Invariant.insertBlock (h : Invariant p t) (ht : Target p t e addr isSecure)
    (hroom : (t.sectors e).numValid<255) : Invariant p (t.withBlock p e addr isSecure) := by
  have hc:=h.coherent e
  have ⟨hmem,hfree,hsector⟩:=ht
  have hs:=hc.filled ht.fits hfree hroom
  have hvalid : ((t.sectors e).filled (g.extractSectorOffset addr) (p.extractTag addr) isSecure).isValid=true :=
    hs.isValid_iff.mpr ⟨g.extractSectorOffset addr,by simp [SectorBlk.filled]⟩
  have hsecure : ((t.sectors e).filled (g.extractSectorOffset addr) (p.extractTag addr) isSecure).secureBit =
      isSecure := by
    rw [← hs.secures (g.extractSectorOffset addr) (by simp [SectorBlk.filled])]
    simp [SectorBlk.filled,CacheBlk.inserted,CacheBlk.isSecure]
  refine h.setSector hs ?_ ?_ ?_
  · intro k hk
    by_cases hkb : k=g.extractSectorOffset addr
    · exact ⟨addr,hmem,hkb,rfl⟩
    · have hwas : (t.blk (e,k)).isValid=true := by
        simpa [blk,SectorBlk.filled,hkb] using hk
      obtain ⟨addr',hmem',hoffset,htag⟩:=h.placed (e,k) hwas
      refine ⟨addr',hmem',hoffset,?_⟩
      exact (ht.fits (hc.isValid_iff.mpr ⟨k,hwas⟩)).1.symm.trans htag
  · intro addr' _ hmem' htag e' he'
    rw [hsecure] at he'
    have hpossible:=(p.same_sector (p.apart hmem hmem' htag)).2
    have hkeeps : Keeps p t e' addr isSecure :=
      ⟨hpossible ▸ he'.1,he'.2.1,he'.2.2.1.trans (Eq.symm htag),he'.2.2.2⟩
    rcases hsector with hthere | hidle
    · exact h.unique hkeeps hthere
    · by_contra hne
      exact hidle.2 e' hne hkeeps
  · cases hwas : (t.sectors e).isValid with
    | true =>
      rw [tally_same (hvalid.trans hwas.symm),if_pos rfl]
      exact h.inUse
    | false =>
      rw [tally_gain hwas hvalid,Nat.cast_succ,← h.inUse]
      rfl

theorem Invariant.fill_eq (h : Invariant p t) (habsent : t.findBlock p addr isSecure=none)
    (hvictim : victim∈p.getPossibleEntries addr) :
    ∃ t1 e,t.fill p addr isSecure victim=t1.insertBlock p addr isSecure (e,g.extractSectorOffset addr) ∧
      Invariant p t1 ∧ Target p t1 e addr isSecure ∧ ((Keeps p t e addr isSecure ∧ t1=t) ∨
        ((∀ e',¬Keeps p t e' addr isSecure) ∧ (t1.sectors e).isValid=false)) := by
  obtain ⟨e,l,hfind,hmem,hcase⟩:=h.findVictim habsent hvictim
  rcases hcase with hthere | hevict
  · obtain ⟨hkeeps,rfl,hfree⟩:=hthere
    refine ⟨t,e,?_,h,⟨hmem,hfree,.inl hkeeps⟩,.inl ⟨hkeeps,rfl⟩⟩
    simp only [SectorTags.fill,hfind,bind,Except.bind,foldlM_nil,pure,Except.pure]
  · obtain ⟨hnone,rfl⟩:=hevict
    obtain ⟨t1,hrun,h1,hother,hgone⟩:=h.evict (t.validBlks e) validBlks_nodup fun b hb => mem_validBlks.mp hb
    have hfree : ∀ k,(t1.blk (e,k)).isValid=false := by
      intro k
      by_contra hk
      rw [Bool.not_eq_false] at hk
      obtain ⟨hvalid,hnot⟩:=hgone k hk
      exact hnot (mem_validBlks.mpr ⟨rfl,hvalid⟩)
    have halone : ∀ e',e'≠e → ¬Keeps p t1 e' addr isSecure := by
      intro e' hne hkeeps
      simp only [Keeps,hother e' hne] at hkeeps
      exact hnone e' hkeeps
    have hidle:=(h1.coherent e).isValid_eq_false.mpr hfree
    refine ⟨t1,e,?_,h1,⟨hmem,hfree _,.inr ⟨hidle,halone⟩⟩,.inr ⟨hnone,hidle⟩⟩
    simp only [SectorTags.fill,hfind,bind,Except.bind,hrun]

/-- There is room for one more block in the sector of the address. -/
def Room (p : IndexingPolicy g E) (t : SectorTags g E) (addr : Addr) (isSecure : Bool) : Prop :=
  ∀ e,Keeps p t e addr isSecure → (t.sectors e).numValid<255

theorem Invariant.fill (h : Invariant p t) (habsent : t.findBlock p addr isSecure=none)
    (hvictim : victim∈p.getPossibleEntries addr) (hroom : Room p t addr isSecure) :
    ∃ t',t.fill p addr isSecure victim = .ok t' ∧ Invariant p t' := by
  obtain ⟨t1,e,hfill,h1,htarget,hcase⟩:=h.fill_eq habsent hvictim
  have hfew : (t1.sectors e).numValid<255 := by
    rcases hcase with hthere | hidle
    · rw [hthere.2]
      exact hroom e hthere.1
    · have hzero : (t1.sectors e).numValid=0 :=
        tally_eq_zero.mpr ((h1.coherent e).isValid_eq_false.mp hidle.2)
      omega
  exact ⟨_,hfill.trans (insertBlock_ok (h1.coherent e) htarget),h1.insertBlock htarget hfew⟩

theorem Invariant.fill_kept (h : Invariant p t) (habsent : t.findBlock p addr isSecure=none)
    (hvictim : victim∈p.getPossibleEntries addr) (hkeeps : Keeps p t e addr isSecure) :
    t.fill p addr isSecure victim = .ok (t.withBlock p e addr isSecure) := by
  obtain ⟨t1,e',hfill,_,htarget,hcase⟩:=h.fill_eq habsent hvictim
  rcases hcase with hthere | hnone
  · obtain ⟨hkeeps',rfl⟩:=hthere
    obtain rfl:=h.unique hkeeps hkeeps'
    exact hfill.trans (insertBlock_ok (h.coherent e) htarget)
  · exact (hnone.1 e hkeeps).elim

end Steps

end SectorTags

end AquaGem5.Cache
