import AquaGem5.Cache.SectorRuns
import Mathlib.Algebra.Order.BigOperators.Group.Finset

/-!
# Compressed tag stores (compressed_tags.cc, super_blk.cc, base.cc)

A superblock shares its data entry between the compressed blocks of a sector. The compressed
size of every block, the victims and the outstanding misses are arbitrary.
-/

namespace AquaGem5.Cache
open Address Checked Tally List

/-- What `handleEvictions` reads of a matching MSHR. -/
structure MshrView where
  needsWritable : Bool
  isCleaning : Bool

structure CompressedTags (g : SectorGeometry) (E : Type) extends SectorTags g E where
  sizeBits : E → Fin g.numBlocksPerSector → ℕ

namespace CompressedTags

variable {g : SectorGeometry} {E : Type} [DecidableEq E] (p : IndexingPolicy g E) (t : CompressedTags g E)

omit [DecidableEq E]

def init : CompressedTags g E := ⟨SectorTags.init,fun _ _ => 0⟩

/-- `SuperBlk::isCompressed`: the first valid block decides. -/
def isCompressed (e : E) (ignoredBlk : Option (Fin g.numBlocksPerSector)) : Bool :=
  match (List.finRange g.numBlocksPerSector).find? fun k => (t.blk (e,k)).isValid&&decide (some k≠ignoredBlk) with
  | some k => (t.blk (e,k)).status.compressed
  | none => true

end CompressedTags

namespace SectorGeometry

/-- The bits of the data entry that each co-allocated block may take. -/
def share (g : SectorGeometry) : ℕ := g.blkSize*8/g.numBlocksPerSector

def canCoAllocate (g : SectorGeometry) (compressedSize : ℕ) : Bool := decide (compressedSize≤g.share)

end SectorGeometry

namespace CompressedTags

variable {g : SectorGeometry} {E : Type} [DecidableEq E] (p : IndexingPolicy g E) (t : CompressedTags g E)

omit [DecidableEq E] in
def findVictim (addr : Addr) (isSecure : Bool) (compressedSize : ℕ) (victim : E) :
    Except Fault (SubBlk g E × List (SubBlk g E)) :=
  let tag := p.extractTag addr
  let offset := g.extractSectorOffset addr
  let found := (p.getPossibleEntries addr).find? fun e =>
    decide (tag=(t.sectors e).tag ∧ (t.sectors e).isValid ∧ isSecure=(t.sectors e).secureBit ∧
      ¬(t.blk (e,offset)).isValid ∧ t.isCompressed e none ∧ g.canCoAllocate compressedSize)
  match found with
  | some e => if (t.blk (e,offset)).isValid then .error .assertion else .ok ((e,offset),[])
  | none => .ok ((victim,offset),t.validBlks victim)

def setCompressed (b : SubBlk g E) (c : Bool) : CompressedTags g E :=
  let blk := t.blk b
  let s := (t.sectors b.1).setBlk b.2 {blk with status := {blk.status with compressed := c} }
  {t with toSectorTags := t.toSectorTags.setSector b.1 s}

def setSizeBits (b : SubBlk g E) (size : ℕ) : CompressedTags g E :=
  {t with sizeBits := Function.update t.sizeBits b.1 (Function.update (t.sizeBits b.1) b.2 size)}

def insertBlock (addr : Addr) (isSecure : Bool) (b : SubBlk g E) : Except Fault (CompressedTags g E) := do
  let isCoAllocatable := t.isCompressed b.1 none&&g.canCoAllocate (t.sizeBits b.1 b.2)
  let tags ← t.toSectorTags.insertBlock p addr isSecure b
  return {t with toSectorTags := tags}.setCompressed b isCoAllocatable

def invalidate (b : SubBlk g E) : Except Fault (CompressedTags g E) := do
  let tags ← t.toSectorTags.invalidate b
  return {t with toSectorTags := tags}

omit [DecidableEq E] in
/-- The first loop of `handleEvictions`: whether a valid block has an outstanding miss. -/
def blocked (findMatch : SubBlk g E → Option MshrView) : List (SubBlk g E) → Except Fault Bool
  | [] => .ok false
  | b::l =>
    if (t.blk b).isValid then
      match findMatch b with
      | some mshr =>
        if (¬(t.blk b).isWritable ∧ mshr.needsWritable) ∨ mshr.isCleaning then .ok true else .error .assertion
      | none => blocked findMatch l
    else blocked findMatch l

/-- Whether the blocks were evicted; the writebacks are not modelled. -/
def handleEvictions (evictBlks : List (SubBlk g E)) (findMatch : SubBlk g E → Option MshrView) :
    Except Fault (Bool × CompressedTags g E) := do
  let refused ← t.blocked findMatch evictBlks
  if refused then return (false,t)
  let t ← evictBlks.foldlM (fun t b => if (t.blk b).isValid then t.invalidate b else pure t) t
  return (true,t)

def allocateBlock (addr : Addr) (isSecure : Bool) (size : ℕ) (victim : E)
    (findMatch : SubBlk g E → Option MshrView) : Except Fault (CompressedTags g E × Option (SubBlk g E)) := do
  let (b,evictBlks) ← t.findVictim p addr isSecure size victim
  let (evicted,t) ← t.handleEvictions evictBlks findMatch
  if ¬evicted then return (t,none)
  let t ← (t.setSizeBits b size).insertBlock p addr isSecure b
  return (t,some b)

/-- `BaseCache::updateCompressionData`, for a block of the tags whose new data take `size` bits. -/
def updateCompressionData (b : SubBlk g E) (size : ℕ) (findMatch : SubBlk g E → Option MshrView) :
    Except Fault (CompressedTags g E × Bool) := do
  let isCoAllocatable := t.isCompressed b.1 (some b.2)&&g.canCoAllocate size
  let wasCompressed := (t.blk b).status.compressed
  let (updated,t) ←
    if wasCompressed && !isCoAllocatable then
      t.handleEvictions ((t.validBlks b.1).filter fun b' => decide (b'≠b)) findMatch
    else pure (true,t)
  if ¬updated then return (t,false)
  return ((t.setCompressed b isCoAllocatable).setSizeBits b size,true)

variable {p t} {t' : CompressedTags g E} {b : SubBlk g E} {e : E}

theorem insert_post {n : ℕ} (s : SectorBlk n) (k : Fin n) (tag : Addr) (isSecure : Bool) :
    Post (s.insert k tag isSecure) (fun s' => s'=s.filled k tag isSecure) := by
  by_cases hpanic : s.isValid=true ∧ (s.tag≠tag ∨ s.secureBit≠isSecure)
  · rw [SectorBlk.insert,if_pos hpanic]
    trivial
  · by_cases hclear : (s.blks k).status=Status.zero
    · have hfits : s.isValid=true → s.tag=tag ∧ s.secureBit=isSecure := by
        intro hvalid
        rw [not_and,not_or,not_not,not_not] at hpanic
        exact hpanic hvalid
      rw [SectorBlk.insert_ok hfits hclear]
      rfl
    · rw [SectorBlk.insert,if_neg hpanic,if_pos hclear]
      trivial

structure Removed (l : List (SubBlk g E)) (t t' : CompressedTags g E) : Prop where
  sizes : t'.sizeBits=t.sizeBits
  kept : ∀ b,(t'.blk b).isValid=true → t'.blk b=t.blk b ∧ b∉l

omit [DecidableEq E] in
theorem Removed.refl (t : CompressedTags g E) : Removed [] t t :=
  ⟨rfl,fun _ _ => ⟨rfl,not_mem_nil⟩⟩

theorem invalidate_post (t : CompressedTags g E) (b : SubBlk g E) :
    Post (t.invalidate b) (Removed [b] t) := by
  unfold invalidate SectorTags.invalidate
  by_cases hb : (t.blk b).isValid=true
  · simp only [hb,if_true,bind,Except.bind,pure,Except.pure,post_ok]
    refine ⟨rfl,?_⟩
    intro b' hb'
    by_cases heq : b'=b
    · subst heq
      split_ifs at hb' <;>
        simp [SectorTags.blk,SectorTags.setSector,SectorBlk.invalidate,SectorBlk.setBlk] at hb'
    · refine ⟨?_,by rwa [mem_singleton]⟩
      obtain ⟨e,k⟩:=b
      obtain ⟨e',k'⟩:=b'
      by_cases he : e'=e
      · subst he
        have hk : k'≠k := fun hk => heq (congrArg _ hk)
        split_ifs <;> simp [SectorTags.blk,SectorTags.setSector,SectorBlk.invalidate,SectorBlk.setBlk,hk]
      · split_ifs <;> simp [SectorTags.blk,SectorTags.setSector,he]
  · simp [hb,bind,Except.bind]

theorem evict_post (l : List (SubBlk g E)) (t : CompressedTags g E) :
    Post (l.foldlM (fun t b => if (t.blk b).isValid then t.invalidate b else pure t) t) (Removed l t) := by
  induction l generalizing t with
  | nil => exact Removed.refl t
  | cons b l ih =>
    rw [foldlM_cons]
    have hstep : Post (if (t.blk b).isValid then t.invalidate b else pure t) (Removed [b] t) := by
      cases hb : (t.blk b).isValid with
      | true => exact invalidate_post t b
      | false =>
        refine ⟨rfl,fun b' hb' => ⟨rfl,?_⟩⟩
        rw [mem_singleton]
        intro heq
        rw [heq,hb] at hb'
        cases hb'
    refine hstep.bind fun t1 h1 => (ih t1).imp fun t' h' => ?_
    refine ⟨h'.sizes.trans h1.sizes,fun b' hb' => ?_⟩
    obtain ⟨heq,hnot⟩:=h'.kept b' hb'
    obtain ⟨heq1,hnot1⟩:=h1.kept b' (heq ▸ hb')
    rw [mem_singleton] at hnot1
    exact ⟨heq.trans heq1,fun hmem => (mem_cons.mp hmem).elim hnot1 hnot⟩

theorem handleEvictions_post (t : CompressedTags g E) (l : List (SubBlk g E))
    (findMatch : SubBlk g E → Option MshrView) : Post (t.handleEvictions l findMatch)
      (fun r => (r.1=false ∧ r.2=t) ∨ (r.1=true ∧ Removed l t r.2)) := by
  unfold handleEvictions
  refine (post_true _).bind fun refused _ => ?_
  cases refused with
  | true => exact .inl ⟨rfl,rfl⟩
  | false => exact (evict_post l t).bind fun t' h' => .inr ⟨rfl,h'⟩

omit [DecidableEq E] in
structure Packed (t : CompressedTags g E) : Prop where
  fits : ∀ e k,(t.blk (e,k)).isValid=true → (t.blk (e,k)).status.compressed=true → t.sizeBits e k≤g.share
  together : ∀ e k k',(t.blk (e,k)).isValid=true → (t.blk (e,k')).isValid=true → k≠k' →
    (t.blk (e,k)).status.compressed=true

namespace Packed

omit [DecidableEq E]

theorem init : Packed (init : CompressedTags g E) where
  fits := fun _ _ h => by cases h
  together := fun _ _ _ h => by cases h

theorem removed (h : Packed t) {l : List (SubBlk g E)} (hr : Removed l t t') : Packed t' where
  fits := by
    intro e k hk hc
    have heq:=(hr.kept _ hk).1
    rw [hr.sizes]
    rw [heq] at hk hc
    exact h.fits e k hk hc
  together := by
    intro e k k' hk hk' hne
    have heq:=(hr.kept _ hk).1
    have heq':=(hr.kept _ hk').1
    rw [heq] at hk ⊢
    rw [heq'] at hk'
    exact h.together e k k' hk hk' hne

theorem of_isCompressed (h : Packed t) {ignored : Option (Fin g.numBlocksPerSector)}
    (hc : t.isCompressed e ignored=true) {k : Fin g.numBlocksPerSector} (hk : (t.blk (e,k)).isValid=true)
    (hignored : some k≠ignored) : (t.blk (e,k)).status.compressed=true := by
  unfold isCompressed at hc
  cases hfind : (finRange g.numBlocksPerSector).find? fun k => (t.blk (e,k)).isValid &&
      decide (some k≠ignored) with
  | none =>
    have hno:=find?_eq_none.mp hfind k (mem_finRange k)
    simp [hk,hignored] at hno
  | some first =>
    have hfirst:=find?_some hfind
    rw [Bool.and_eq_true] at hfirst
    rw [hfind] at hc
    by_cases heq : k=first
    · rw [heq]
      exact hc
    · exact h.together e k first hk hfirst.1 heq

theorem update (h : Packed t) (hother : ∀ b',b'≠b → t'.blk b'=t.blk b' ∧ t'.sizeBits b'.1 b'.2=t.sizeBits b'.1 b'.2)
    (hfits : (t'.blk b).status.compressed=true → t'.sizeBits b.1 b.2≤g.share)
    (hothers : ∀ k,k≠b.2 → (t.blk (b.1,k)).isValid=true →
      (t.blk (b.1,k)).status.compressed=true ∧ (t'.blk b).status.compressed=true) : Packed t' where
  fits := by
    intro e k hk hc
    by_cases hb : (e,k)=b
    · subst hb
      exact hfits hc
    · obtain ⟨hblk,hsize⟩:=hother (e,k) hb
      rw [hblk] at hk hc
      have hle:=h.fits e k hk hc
      simp only at hsize
      omega
  together := by
    intro e k k' hk hk' hne
    by_cases hb : (e,k)=b
    · subst hb
      have hb' : (e,k')≠(e,k) := fun heq => hne (congrArg Prod.snd heq).symm
      rw [(hother _ hb').1] at hk'
      exact (hothers k' (fun heq => hne heq.symm) hk').2
    · rw [(hother _ hb).1] at hk ⊢
      by_cases hb' : (e,k')=b
      · subst hb'
        exact (hothers k hne hk).1
      · rw [(hother _ hb').1] at hk'
        exact h.together e k k' hk hk' hne

end Packed

theorem setCompressed_blk (b : SubBlk g E) (c : Bool) : ((t.setCompressed b c).blk b).status.compressed=c ∧
      ∀ b',b'≠b → (t.setCompressed b c).blk b'=t.blk b' := by
  obtain ⟨e,k⟩:=b
  refine ⟨by simp [setCompressed,SectorTags.blk,SectorTags.setSector,SectorBlk.setBlk],?_⟩
  intro b' hb'
  obtain ⟨e',k'⟩:=b'
  by_cases he : e'=e
  · subst he
    have hk : k'≠k := fun hk => hb' (congrArg _ hk)
    simp [setCompressed,SectorTags.blk,SectorTags.setSector,SectorBlk.setBlk,hk]
  · simp [setCompressed,SectorTags.blk,SectorTags.setSector,he]

theorem setSizeBits_size (b : SubBlk g E) (size : ℕ) : (t.setSizeBits b size).sizeBits b.1 b.2=size ∧
      ∀ b',b'≠b → (t.setSizeBits b size).sizeBits b'.1 b'.2=t.sizeBits b'.1 b'.2 := by
  obtain ⟨e,k⟩:=b
  refine ⟨by simp [setSizeBits],?_⟩
  intro b' hb'
  obtain ⟨e',k'⟩:=b'
  by_cases he : e'=e
  · subst he
    have hk : k'≠k := fun hk => hb' (congrArg _ hk)
    simp [setSizeBits,hk]
  · simp [setSizeBits,he]

theorem insertTags_post (t : SectorTags g E) (addr : Addr) (isSecure : Bool) (b : SubBlk g E) :
    Post (t.insertBlock p addr isSecure b) (fun t' => ∀ b',b'≠b → t'.blk b'=t.blk b') := by
  unfold SectorTags.insertBlock
  refine (post_ite _ _ _ _ _).mpr ⟨fun _ => trivial,fun _ => ?_⟩
  refine (insert_post _ _ _ _).bind fun s hs => ?_
  simp only [post_pure]
  intro b' hb'
  obtain ⟨e,k⟩:=b
  obtain ⟨e',k'⟩:=b'
  by_cases he : e'=e
  · subst he
    have hk : k'≠k := fun hk => hb' (congrArg _ hk)
    subst hs
    split_ifs <;> simp [SectorTags.blk,SectorTags.setSector,SectorBlk.filled,hk]
  · split_ifs <;> simp [SectorTags.blk,SectorTags.setSector,he]

omit [DecidableEq E] in
theorem isCompressed_of_all (h : ∀ k,(t.blk (e,k)).isValid=true → (t.blk (e,k)).status.compressed=true) :
    t.isCompressed e none=true := by
  unfold isCompressed
  cases hfind : (finRange g.numBlocksPerSector).find? fun k => (t.blk (e,k)).isValid &&
      decide (some k≠(none : Option (Fin g.numBlocksPerSector))) with
  | none => rfl
  | some first =>
    have hfirst:=find?_some hfind
    rw [Bool.and_eq_true] at hfirst
    exact h first hfirst.1

theorem Packed.insert_post (h : Packed t) {addr : Addr} {isSecure : Bool} {size : ℕ}
    (hjoins : ∀ k,(t.blk (b.1,k)).isValid=true → (t.blk (b.1,k)).status.compressed=true ∧ size≤g.share) :
    Post ((t.setSizeBits b size).insertBlock p addr isSecure b) Packed := by
  unfold insertBlock
  refine (insertTags_post _ addr isSecure b).bind fun tags htags => ?_
  obtain ⟨hsize,hsizes⟩:=setSizeBits_size (t := t) b size
  obtain ⟨hself,hblks⟩:=setCompressed_blk (t := {t.setSizeBits b size with toSectorTags := tags}) b
    ((t.setSizeBits b size).isCompressed b.1 none&&g.canCoAllocate ((t.setSizeBits b size).sizeBits b.1 b.2))
  refine h.update (fun b' hb' => ⟨(hblks b' hb').trans (htags b' hb'),hsizes b' hb'⟩) ?_ ?_
  · intro hc
    rw [hself,Bool.and_eq_true] at hc
    exact of_decide_eq_true hc.2
  · intro k _ hk
    refine ⟨(hjoins k hk).1,?_⟩
    rw [hself,Bool.and_eq_true]
    refine ⟨isCompressed_of_all (t := t) fun k' hk' => (hjoins k' hk').1,?_⟩
    rw [hsize]
    exact decide_eq_true (hjoins k hk).2

theorem Packed.allocate_post (h : Packed t) (addr : Addr) (isSecure : Bool) (size : ℕ) (victim : E)
    (findMatch : SubBlk g E → Option MshrView) :
    Post (t.allocateBlock p addr isSecure size victim findMatch) (fun r => Packed r.1) := by
  have hvictim : Post (t.findVictim p addr isSecure size victim) (fun r => ∀ k,(t.blk (r.1.1,k)).isValid=true →
      ((t.blk (r.1.1,k)).status.compressed=true ∧ size≤g.share) ∨ (r.1.1,k)∈r.2) := by
    unfold findVictim
    cases hfind : (p.getPossibleEntries addr).find? fun e =>
        decide (p.extractTag addr=(t.sectors e).tag ∧ (t.sectors e).isValid ∧ isSecure=(t.sectors e).secureBit ∧
          ¬(t.blk (e,g.extractSectorOffset addr)).isValid ∧ t.isCompressed e none ∧ g.canCoAllocate size) with
    | some e =>
      have hprop:=find?_some hfind
      simp only [decide_eq_true_eq] at hprop
      obtain ⟨_,_,_,_,hcompressed,hsize⟩:=hprop
      simp only [hfind]
      refine (post_ite _ _ _ _ _).mpr ⟨fun _ => trivial,fun _ k hk => .inl ?_⟩
      exact ⟨h.of_isCompressed hcompressed hk (by simp),of_decide_eq_true hsize⟩
    | none =>
      simp only [hfind,post_ok]
      intro k hk
      exact .inr (SectorTags.mem_validBlks.mpr ⟨rfl,hk⟩)
  unfold allocateBlock
  refine hvictim.bind fun r hr => ?_
  obtain ⟨b,evictBlks⟩:=r
  refine (handleEvictions_post t evictBlks findMatch).bind fun r' hr' => ?_
  obtain ⟨evicted,t1⟩:=r'
  rcases hr' with hrefused | hevicted
  · obtain ⟨rfl,rfl⟩:=hrefused
    exact h
  · obtain ⟨rfl,hremoved⟩:=hevicted
    refine ((h.removed hremoved).insert_post (b := b) ?_).bind fun t' h' => h'
    intro k hk
    obtain ⟨heq,hnot⟩:=hremoved.kept _ hk
    rw [heq] at hk ⊢
    exact (hr k hk).resolve_right hnot

theorem Packed.update_post (h : Packed t) (hb : (t.blk b).isValid=true) (size : ℕ)
    (findMatch : SubBlk g E → Option MshrView) :
    Post (t.updateCompressionData b size findMatch) (fun r => Packed r.1) := by
  -- the block itself, once the others allow what it becomes
  have hset : ∀ {t1 : CompressedTags g E} {c : Bool},Packed t1 → (c=true → size≤g.share) →
      (∀ k,k≠b.2 → (t1.blk (b.1,k)).isValid=true → (t1.blk (b.1,k)).status.compressed=true ∧ c=true) →
      Packed ((t1.setCompressed b c).setSizeBits b size) := by
    intro t1 c h1 hfits hothers
    obtain ⟨hself,hblks⟩:=setCompressed_blk (t := t1) b c
    obtain ⟨hsize,hsizes⟩:=setSizeBits_size (t := t1.setCompressed b c) b size
    refine h1.update (fun b' hb' => ⟨hblks b' hb',hsizes b' hb'⟩) ?_ ?_
    · intro hc
      rw [hsize]
      exact hfits (hself.symm.trans hc)
    · intro k hk hvalid
      obtain ⟨hcompressed,hc⟩:=hothers k hk hvalid
      exact ⟨hcompressed,hself.trans hc⟩
  unfold updateCompressionData
  cases hco : (t.isCompressed b.1 (some b.2)&&g.canCoAllocate size) with
  | true =>
    rw [Bool.and_eq_true] at hco
    simp only [Bool.not_true,Bool.and_false,Bool.false_eq_true,if_false,pure,Except.pure,bind,Except.bind,
      not_true_eq_false,post_ok]
    refine hset h (fun _ => of_decide_eq_true hco.2) fun k hk hvalid => ⟨?_,rfl⟩
    exact h.of_isCompressed hco.1 hvalid fun heq => hk (Option.some.inj heq)
  | false =>
    cases hwas : (t.blk b).status.compressed with
    | false =>
      -- an uncompressed block is alone
      simp only [Bool.false_and,Bool.false_eq_true,if_false,pure,Except.pure,bind,Except.bind,
        not_true_eq_false,post_ok]
      refine hset h (fun hc => by cases hc) fun k hk hvalid => ?_
      have hcompressed:=h.together b.1 b.2 k hb hvalid fun heq => hk heq.symm
      rw [show (b.1,b.2)=b from rfl,hwas] at hcompressed
      cases hcompressed
    | true =>
      simp only [Bool.not_false,Bool.and_self,if_true]
      refine (handleEvictions_post t _ findMatch).bind fun r hr => ?_
      obtain ⟨evicted,t1⟩:=r
      rcases hr with hrefused | hevicted
      · obtain ⟨rfl,rfl⟩:=hrefused
        exact h
      · obtain ⟨rfl,hremoved⟩:=hevicted
        refine hset (h.removed hremoved) (fun hc => by cases hc) fun k hk hvalid => ?_
        obtain ⟨heq,hnot⟩:=hremoved.kept _ hvalid
        rw [heq] at hvalid
        have hmem : (b.1,k)∈(t.validBlks b.1).filter fun b' => decide (b'≠b) := by
          rw [mem_filter,decide_eq_true_eq]
          exact ⟨SectorTags.mem_validBlks.mpr ⟨rfl,hvalid⟩,fun heq => hk (congrArg Prod.snd heq)⟩
        exact (hnot hmem).elim

inductive Call (g : SectorGeometry) (E : Type) where
  | allocate (addr : Addr) (isSecure : Bool) (size : ℕ) (victim : E) (findMatch : SubBlk g E → Option MshrView)
  | update (b : SubBlk g E) (size : ℕ) (findMatch : SubBlk g E → Option MshrView)
  | invalidate (b : SubBlk g E)

def Allowed (t : CompressedTags g E) : Call g E → Prop
  | .allocate _ _ _ _ _ => True
  | .update b _ _ => (t.blk b).isValid=true
  | .invalidate _ => True

/-- The state after a call, also when it gave up because of a refused eviction. -/
def exec (p : IndexingPolicy g E) (t : CompressedTags g E) : Call g E → Except Fault (CompressedTags g E)
  | .allocate addr isSecure size victim findMatch => do
    let r ← t.allocateBlock p addr isSecure size victim findMatch
    return r.1
  | .update b size findMatch => do
    let r ← t.updateCompressionData b size findMatch
    return r.1
  | .invalidate b => t.invalidate b

inductive Run (p : IndexingPolicy g E) : CompressedTags g E → Prop
  | init : Run p init
  | step {t t' : CompressedTags g E} {c : Call g E} : Run p t → Allowed t c → t.exec p c = .ok t' → Run p t'

theorem Packed.exec_post (h : Packed t) {c : Call g E} (hc : Allowed t c) :
    Post (t.exec p c) Packed := by
  cases c with
  | allocate addr isSecure size victim findMatch =>
    exact (h.allocate_post addr isSecure size victim findMatch).bind fun _ h' => h'
  | update b size findMatch => exact (h.update_post hc size findMatch).bind fun _ h' => h'
  | invalidate b => exact (invalidate_post t b).imp fun _ hr => h.removed hr

theorem Run.packed (h : Run p t) : Packed t := by
  induction h with
  | init => exact Packed.init
  | step _ hc hrun ih => exact (ih.exec_post hc).of_ok hrun

def validOffsets (t : CompressedTags g E) (e : E) : Finset (Fin g.numBlocksPerSector) :=
  Finset.univ.filter fun k => (t.blk (e,k)).isValid=true

/-- In every superblock one block is valid, or the valid blocks are compressed and fit their share, so
that several never take more than the data entry. -/
theorem run_capacity (h : Run p t) (e : E) :
    ((∃! k,(t.blk (e,k)).isValid=true) ∨
      ∀ k,(t.blk (e,k)).isValid=true → (t.blk (e,k)).status.compressed=true ∧
        t.sizeBits e k≤g.blkSize*8/g.numBlocksPerSector) ∧
    (1<(t.validOffsets e).card → ∑ k∈t.validOffsets e,t.sizeBits e k≤g.blkSize*8) := by
  have hp:=h.packed
  have hall : (∃ k k',(t.blk (e,k)).isValid=true ∧ (t.blk (e,k')).isValid=true ∧ k≠k') →
      ∀ k,(t.blk (e,k)).isValid=true → (t.blk (e,k)).status.compressed=true ∧
        t.sizeBits e k≤g.blkSize*8/g.numBlocksPerSector := by
    intro htwo k hk
    obtain ⟨k1,k2,hk1,hk2,hne⟩:=htwo
    have hcompressed : (t.blk (e,k)).status.compressed=true := by
      by_cases heq : k=k1
      · exact hp.together e k k2 hk hk2 (heq ▸ hne)
      · exact hp.together e k k1 hk hk1 heq
    exact ⟨hcompressed,hp.fits e k hk hcompressed⟩
  constructor
  · by_cases htwo : ∃ k k',(t.blk (e,k)).isValid=true ∧ (t.blk (e,k')).isValid=true ∧ k≠k'
    · exact .inr (hall htwo)
    · by_cases hone : ∃ k,(t.blk (e,k)).isValid=true
      · obtain ⟨k,hk⟩:=hone
        refine .inl ⟨k,hk,fun k' hk' => ?_⟩
        by_contra hne
        exact htwo ⟨k',k,hk',hk,hne⟩
      · exact .inr fun k hk => (hone ⟨k,hk⟩).elim
  · intro hcard
    obtain ⟨k1,hk1,k2,hk2,hne⟩:=Finset.one_lt_card.mp hcard
    have hfits:=hall ⟨k1,k2,(Finset.mem_filter.mp hk1).2,(Finset.mem_filter.mp hk2).2,hne⟩
    have hle : (t.validOffsets e).card≤g.numBlocksPerSector := by
      have hcard:=Finset.card_le_univ (t.validOffsets e)
      rwa [Fintype.card_fin] at hcard
    calc ∑ k∈t.validOffsets e,t.sizeBits e k
        ≤ ∑ _k∈t.validOffsets e,g.blkSize*8/g.numBlocksPerSector :=
          Finset.sum_le_sum fun k hk => (hfits k (Finset.mem_filter.mp hk).2).2
      _=(t.validOffsets e).card*(g.blkSize*8/g.numBlocksPerSector) :=
          Finset.sum_const_nat fun _ _ => rfl
      _≤g.numBlocksPerSector*(g.blkSize*8/g.numBlocksPerSector) := Nat.mul_le_mul_right _ hle
      _≤g.blkSize*8 := Nat.mul_div_le _ _

def quadGeometry : SectorGeometry where
  blkSize := 64
  numBlocksPerSector := 4
  blkSize_ge := by decide
  blkSize_pow := isPowerOfTwo_sixtyFour
  blocks_pow := isPowerOfTwo_four

def quadTable : BaseIndexingPolicy where
  size := 256
  entrySize := 256
  assoc := 1
  isPowerOf2 := ⟨0,by decide⟩
  assoc_pos := Nat.one_pos

def quadPolicy : IndexingPolicy quadGeometry quadTable.Position := setAssociative quadTable (by decide)

def quadEntry : quadTable.Position := (⟨0,by decide⟩,⟨0,by decide⟩)

theorem run_capacity_two : ∃ t,Run quadPolicy t ∧ 1<(t.validOffsets quadEntry).card ∧
    ∑ k∈t.validOffsets quadEntry,t.sizeBits quadEntry k≤512 := by
  have hfirst : ∃ t,init.exec quadPolicy (.allocate 0 false 100 quadEntry fun _ => none) = .ok t ∧
      ∃ t',t.exec quadPolicy (.allocate 64 false 120 quadEntry fun _ => none) = .ok t' ∧
        1<(t'.validOffsets quadEntry).card := ⟨_,rfl,_,rfl,by decide +kernel⟩
  obtain ⟨t,hrun,t',hrun',hcard⟩:=hfirst
  have hreach : Run quadPolicy t' := by
    refine .step (.step .init ?_ hrun) ?_ hrun'
    · trivial
    · trivial
  exact ⟨t',hreach,hcard,(run_capacity hreach quadEntry).2 hcard⟩

end CompressedTags

end AquaGem5.Cache
