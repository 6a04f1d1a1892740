import AquaGem5.Lib.Directory
import AquaGem5.Quarantine.FunctionalCache

/-!
# The functional cache as a directory of rows

`tags` is the directory of the valid blocks. Lookups and replacement state do not change it;
`Invalidate` empties a way, and `Fill` puts the row in a way of its set.
-/

namespace AquaGem5.Quarantine.FunctionalCache
open Checked Directory

def tags (c : FunctionalCache) (set way : ℕ) : Option ℕ :=
  if way<c.mWays ∧ (c.block set way).valid=true then some (c.block set way).tag else none

def home (c : FunctionalCache) (addr : ℕ) : ℕ := (addr >>> c.mBlkOffset)%c.mSets

def shape (c : FunctionalCache) : ℕ × ℕ × ℕ × ℕ :=
  (c.mBlkOffset,c.mSets,c.mWays,c.partialLookupFactor)

structure Kept (c c' : FunctionalCache) : Prop where
  shape : c'.shape=c.shape
  tags : c'.tags=c.tags

variable {c c' c'' : FunctionalCache} {set way addr r : ℕ}

theorem Kept.refl (c : FunctionalCache) : Kept c c := ⟨rfl,rfl⟩

theorem Kept.trans (h : Kept c c') (h' : Kept c' c'') : Kept c c'' :=
  ⟨h'.shape.trans h.shape,h'.tags.trans h.tags⟩

theorem kept_count (c : FunctionalCache) (lookups hits fills invalidations evictions : UInt64) :
    Kept c {c with
      sLookups := lookups, sHits := hits, sFills := fills
      sInvalidations := invalidations, sEvictions := evictions} := ⟨rfl,rfl⟩

theorem home_of_shape (h : c'.shape=c.shape) : c'.home=c.home := by
  simp only [shape,Prod.mk.injEq] at h
  funext addr
  simp only [home,h.1,h.2.1]

theorem ways_of_shape (h : c'.shape=c.shape) : c'.mWays=c.mWays := by
  simp only [shape,Prod.mk.injEq] at h
  exact h.2.2.1

theorem tags_eq_some : c.tags set way=some r ↔
    way<c.mWays ∧ (c.block set way).valid=true ∧ (c.block set way).tag=r := by
  unfold tags
  split
  · rename_i h
    simp [h.1,h.2]
  · rename_i h
    simp only [reduceCtorEq,false_iff]
    exact fun hr => h ⟨hr.1,hr.2.1⟩

theorem block_setBlock (c : FunctionalCache) (set way : ℕ) (b : FuncCacheBlock) (set' way' : ℕ) :
    (c.setBlock set way b).block set' way'=if set'=set ∧ way'=way then b else c.block set' way' := by
  unfold setBlock block
  by_cases hs : set'=set
  · subst hs
    by_cases hw : way'=way <;> simp [Cells.get_set,hw]
  · simp [hs]

variable {b : FuncCacheBlock}

theorem kept_setBlock (hv : b.valid=(c.block set way).valid)
    (ht : b.tag=(c.block set way).tag) : Kept c (c.setBlock set way b) := by
  refine ⟨rfl,?_⟩
  funext set' way'
  unfold tags
  rw [block_setBlock]
  by_cases h : set'=set ∧ way'=way
  · rw [if_pos h,hv,ht,h.1,h.2]
    rfl
  · rw [if_neg h]
    rfl

theorem tags_setBlock_valid (hv : b.valid=true) (hway : way<c.mWays) :
    (c.setBlock set way b).tags=put c.tags set way b.tag := by
  funext set' way'
  unfold tags put
  rw [block_setBlock]
  by_cases h : set'=set ∧ way'=way
  · rw [if_pos h,if_pos h,if_pos]
    exact ⟨h.2 ▸ hway,hv⟩
  · rw [if_neg h,if_neg h]
    rfl

theorem tags_setBlock_invalid (hv : b.valid=false) : (c.setBlock set way b).tags=clear c.tags set way := by
  funext set' way'
  unfold tags clear
  rw [block_setBlock]
  by_cases h : set'=set ∧ way'=way
  · rw [if_pos h,if_pos h,if_neg]
    simp [hv]
  · rw [if_neg h,if_neg h]
    rfl

variable {p : FuncCacheBlock → Bool}

theorem firstWay_lt (h : c.firstWay set p<c.mWays) : p (c.block set (c.firstWay set p))=true := by
  unfold firstWay at h ⊢
  cases hf : (List.range c.mWays).find? fun way => p (c.block set way) with
  | none =>
    rw [hf] at h
    exact (Nat.lt_irrefl _ h).elim
  | some way => exact List.find?_some (p := fun way => p (c.block set way)) hf

theorem firstWay_ge (h : ¬c.firstWay set p<c.mWays) (way : ℕ) (hway : way<c.mWays) : ¬p (c.block set way)=true := by
  unfold firstWay at h
  cases hf : (List.range c.mWays).find? fun way => p (c.block set way) with
  | none => exact List.find?_eq_none.mp hf way (List.mem_range.mpr hway)
  | some w =>
    rw [hf] at h
    exact (h (List.mem_range.mp (List.mem_of_find?_eq_some hf))).elim

theorem setOf_post (c : FunctionalCache) (addr : ℕ) :
    Post (c.setOf addr) (fun set => set=c.home addr) := by
  unfold setOf
  rw [post_umod]
  exact ⟨fun _ => trivial,fun _ => rfl⟩

def Looks (c : FunctionalCache) (addr : ℕ) (p : ℕ → Prop) (way : ℕ) : Prop :=
  (way<c.mWays → ∃ r, p r ∧ c.tags (c.home addr) way=some r) ∧
    (¬way<c.mWays → ∀ w r, c.tags (c.home addr) w=some r → ¬p r)

theorem firstWay_looks (c : FunctionalCache) (addr : ℕ) {q : ℕ → Prop}
    (hp : ∀ b, p b=true ↔ b.valid=true ∧ q b.tag) : Looks c addr q (c.firstWay (c.home addr) p) := by
  constructor
  · intro h
    obtain ⟨hv,hq⟩:=(hp _).mp (firstWay_lt h)
    exact ⟨_,hq,tags_eq_some.mpr ⟨h,hv,rfl⟩⟩
  · intro h w r hr hq
    obtain ⟨hw,hv,rfl⟩:=tags_eq_some.mp hr
    exact firstWay_ge h w hw ((hp _).mpr ⟨hv,hq⟩)

theorem hasTag_iff (addr : ℕ) (b : FuncCacheBlock) : hasTag addr b=true ↔ b.valid=true ∧ b.tag=addr := by
  simp [hasTag]

theorem lookup_post (c : FunctionalCache) (addr : ℕ) (update : Bool) :
    Post (c.lookup addr update) (fun p => Kept c p.1 ∧ Looks c addr (fun r => r=addr) p.2) := by
  unfold lookup
  refine (setOf_post c addr).bind ?_
  rintro set rfl
  have hlooks:=firstWay_looks c addr (q := fun r => r=addr) (hasTag_iff addr)
  dsimp only
  split
  · split
    · exact ⟨(kept_count c _ _ _ _ _).trans (kept_setBlock rfl rfl),hlooks⟩
    · exact ⟨kept_count c _ _ _ _ _,hlooks⟩
  · exact ⟨.refl c,hlooks⟩

theorem partialLookup_post (c : FunctionalCache) (addr : ℕ) : Post (c.partialLookup addr) (fun p => Kept c p.1 ∧
      Looks c addr (fun r => r/c.partialLookupFactor=addr/c.partialLookupFactor) p.2) := by
  unfold partialLookup
  refine (setOf_post c addr).bind ?_
  rintro set rfl
  rw [post_bind,post_udiv]
  refine ⟨fun _ => trivial,fun _ => ?_⟩
  have hlooks:=firstWay_looks c addr
    (p := fun b => b.valid&&b.tag/c.partialLookupFactor == addr/c.partialLookupFactor)
    (q := fun r => r/c.partialLookupFactor=addr/c.partialLookupFactor) (by intro b; simp)
  dsimp only
  split
  · exact ⟨kept_setBlock rfl rfl,hlooks⟩
  · exact ⟨.refl c,hlooks⟩

theorem kept_ageSet (c : FunctionalCache) (set : ℕ) : Kept c (c.ageSet set) := by
  refine ⟨rfl,?_⟩
  funext set' way'
  have hblock : ((c.ageSet set).block set' way').valid=(c.block set' way').valid ∧
      ((c.ageSet set).block set' way').tag=(c.block set' way').tag := by
    unfold ageSet block
    by_cases hs : set'=set
    · subst hs
      simp only [Function.update_self]
      split <;> exact ⟨rfl,rfl⟩
    · simp only [Function.update_of_ne hs]
      exact ⟨trivial,trivial⟩
  unfold tags
  rw [hblock.1,hblock.2]
  rfl

theorem searchVictim_kept (set fuel : ℕ) (c : FunctionalCache) : Kept c (searchVictim set fuel c).1 := by
  induction fuel generalizing c with
  | zero => exact .refl c
  | succ fuel ih =>
    rw [searchVictim]
    split
    · exact .refl c
    · exact (kept_ageSet c set).trans (ih _)

theorem findVictim_post (c : FunctionalCache) (addr : ℕ) :
    Post (c.findVictim addr) (fun p => Kept c p.1 ∧ p.2<c.mWays) := by
  unfold findVictim
  refine (setOf_post c addr).bind ?_
  rintro set rfl
  have hkept : Kept c (if c.firstWay (c.home addr) (fun b => !b.valid)=c.mWays then
      searchVictim (c.home addr) 4 {c with sEvictions := c.sEvictions+1}
      else (c,c.firstWay (c.home addr) fun b => !b.valid)).1 := by
    split
    · exact (kept_count c _ _ _ _ _).trans (searchVictim_kept (c.home addr) 4 _)
    · exact .refl c
  rw [post_bind,partly_check]
  refine fun h => ⟨hkept,?_⟩
  rw [ways_of_shape hkept.shape] at h
  exact h

theorem invalidate_post (c : FunctionalCache) (addr way : ℕ) :
    Post (c.invalidate addr way) (fun c' => c'.shape=c.shape ∧
      c'.tags=clear c.tags (c.home addr) way) := by
  unfold invalidate
  refine (setOf_post c addr).bind ?_
  rintro set rfl
  rw [post_bind,Cells.post_read]
  refine ⟨fun _ => ?_,fun _ => trivial⟩
  rw [post_ite]
  constructor
  · intro hv
    refine ⟨rfl,?_⟩
    funext set' way'
    unfold clear
    split
    · rename_i h
      rw [h.1,h.2,tags,if_neg]
      simp [block,hv]
    · rfl
  · intro _
    have htags : (c.setBlock (c.home addr) way ⟨0,false,false,false,0⟩).tags =
        clear c.tags (c.home addr) way :=
      tags_setBlock_invalid rfl
    exact ⟨rfl,htags⟩

theorem fill_post (c : FunctionalCache) (addr : ℕ) (hway : way<c.mWays) :
    Post (c.fill addr way) (fun c' => c'.shape=c.shape ∧
      c'.tags=put c.tags (c.home addr) way addr) := by
  unfold fill
  refine (setOf_post c addr).bind ?_
  rintro set rfl
  simp only [post_bind,Cells.post_read,post_check,post_pure]
  refine ⟨fun _ => ⟨fun _ => ⟨rfl,?_⟩,fun _ => trivial⟩,fun _ => trivial⟩
  exact tags_setBlock_valid (b := ⟨addr,true,false,true,1⟩) rfl hway

theorem setDirtyBit_post (c : FunctionalCache) (addr way : ℕ) :
    Post (c.setDirtyBit addr way) (Kept c) := by
  unfold setDirtyBit validBlock
  rw [post_bind]
  refine (setOf_post c addr).bind ?_
  rintro set rfl
  simp only [post_bind,Cells.post_read,post_check,post_pure]
  refine ⟨fun _ => ⟨fun _ => kept_setBlock rfl rfl,fun _ => trivial⟩,fun _ => trivial⟩

end AquaGem5.Quarantine.FunctionalCache
