import AquaGem5.Quarantine.CacheDirectory
import Mathlib.Data.Finset.Max

/-!
# The victim of a set (Functional_Cache::Find_Victim)

The ageing loop runs four times at most.
-/

namespace AquaGem5.Quarantine.FunctionalCache
open Checked Function

def lowered (c : FunctionalCache) (set m : ℕ) : FunctionalCache :=
  {c with mCache := Function.update c.mCache set ⟨(c.mCache set).size,fun way =>
      if way<c.mWays then {c.block set way with rrip := (c.block set way).rrip-m}
      else c.block set way⟩}

def Lowest (ways : ℕ) (p : ℕ → Prop) (way : ℕ) : Prop := way<ways ∧ p way ∧ ∀ w<way,¬p w

def Least (c : FunctionalCache) (set way : ℕ) : Prop :=
  ∀ w<c.mWays,(c.block set way).rrip≤(c.block set w).rrip

structure Selects (c : FunctionalCache) (set : ℕ) (c' : FunctionalCache) (way : ℕ) : Prop where
  way_lt : way<c.mWays
  invalid : (∃ w<c.mWays,(c.block set w).valid=false) →
    Lowest c.mWays (fun w => (c.block set w).valid=false) way ∧ c'=c
  full : (∀ w<c.mWays,(c.block set w).valid=true) →
    Lowest c.mWays (c.Least set) way ∧
      c'={c with sEvictions := c.sEvictions+1}.lowered set (c.block set way).rrip

def Small (c : FunctionalCache) : Prop := ∀ set way,(c.block set way).rrip≤3

variable {c c' : FunctionalCache} {set m : ℕ}

theorem block_lowered (c : FunctionalCache) (set m set' way : ℕ) :
    (c.lowered set m).block set' way=if set'=set ∧ way<c.mWays then
      {c.block set way with rrip := (c.block set way).rrip-m} else c.block set' way := by
  unfold lowered block
  by_cases hs : set'=set
  · subst hs
    simp only [update_self,true_and]
  · simp only [update_of_ne hs,hs,false_and,if_false]

theorem lowered_zero (c : FunctionalCache) (set : ℕ) : c.lowered set 0=c := by
  have hcells : (⟨(c.mCache set).size,fun way =>
      if way<c.mWays then {c.block set way with rrip := (c.block set way).rrip-0}
      else c.block set way⟩ : Cells FuncCacheBlock)=c.mCache set := by
    simp only [Nat.sub_zero,ite_self]
    rfl
  unfold lowered
  rw [hcells,update_eq_self]

theorem ageSet_eq (h : ∀ w<c.mWays,0<(c.block set w).rrip)
    (h32 : ∀ w<c.mWays,(c.block set w).rrip<2^32) : c.ageSet set=c.lowered set 1 := by
  have hcells : (fun way => if way<c.mWays then
        {c.block set way with rrip := dec32 (c.block set way).rrip} else c.block set way) =
      fun way => if way<c.mWays then
        {c.block set way with rrip := (c.block set way).rrip-1} else c.block set way := by
    funext way
    by_cases hw : way<c.mWays
    · rw [if_pos hw,if_pos hw,dec32_of_pos (h way hw) (h32 way hw)]
    · rw [if_neg hw,if_neg hw]
  rw [ageSet,hcells,lowered]

theorem lowered_lowered (c : FunctionalCache) (set m n : ℕ) :
    (c.lowered set m).lowered set n=c.lowered set (m+n) := by
  have hsize : ((c.lowered set m).mCache set).size=(c.mCache set).size := by
    simp only [lowered,update_self]
  have hcells : (fun way => if way<c.mWays then
        {(c.lowered set m).block set way with
          rrip := ((c.lowered set m).block set way).rrip-n}
        else (c.lowered set m).block set way)=fun way => if way<c.mWays then
        {c.block set way with rrip := (c.block set way).rrip-(m+n)}
        else c.block set way := by
    funext way
    rw [block_lowered]
    by_cases hw : way<c.mWays
    · simp only [hw,and_self,if_true,Nat.sub_sub]
    · simp only [hw,and_false,if_false]
  rw [lowered,hsize,show (c.lowered set m).mWays=c.mWays from rfl,hcells]
  simp only [lowered,update_idem]

theorem firstWay_congr {p q : FuncCacheBlock → Bool} (hways : c'.mWays=c.mWays)
    (h : ∀ w<c.mWays,p (c'.block set w)=q (c.block set w)) : c'.firstWay set p=c.firstWay set q := by
  have hfind : ∀ l : List ℕ,(∀ w∈l,w<c.mWays) →
      (l.find? fun w => p (c'.block set w))=l.find? fun w => q (c.block set w) := by
    intro l hl
    induction l with
    | nil => rfl
    | cons w l ih =>
      have hw:=hl w (List.mem_cons_self ..)
      rw [List.find?_cons,List.find?_cons,h w hw,ih fun v hv => hl v (List.mem_cons_of_mem _ hv)]
  unfold firstWay
  rw [hways,hfind _ fun w hw => List.mem_range.mp hw]

theorem searchVictim_eq (set : ℕ) {fuel : ℕ} (hfuel : m<fuel) (hmem : ∃ w<c.mWays,(c.block set w).rrip=m)
    (hmin : ∀ w<c.mWays,m≤(c.block set w).rrip) (h32 : ∀ w<c.mWays,(c.block set w).rrip<2^32) :
    searchVictim set fuel c=(c.lowered set m,c.firstWay set fun b => b.rrip == m) := by
  induction m generalizing fuel c with
  | zero =>
    obtain ⟨fuel,rfl⟩ : ∃ k, fuel=k+1 := ⟨fuel-1,by omega⟩
    obtain ⟨w,hw,hzero⟩:=hmem
    have hfound : c.firstWay set (fun b => b.rrip == 0)<c.mWays := by
      by_contra hnone
      exact firstWay_ge hnone w hw (by simp [hzero])
    rw [searchVictim,if_pos hfound,lowered_zero]
  | succ m ih =>
    obtain ⟨fuel,rfl⟩ : ∃ k, fuel=k+1 := ⟨fuel-1,by omega⟩
    have hpos : ∀ w<c.mWays,0<(c.block set w).rrip := fun w hw => by
      have := hmin w hw
      omega
    have hnone : ¬c.firstWay set (fun b => b.rrip == 0)<c.mWays := by
      intro h
      have hz:=firstWay_lt h
      have hp:=hpos _ h
      simp only [beq_iff_eq] at hz
      omega
    have hblock : ∀ w<c.mWays,((c.lowered set 1).block set w).rrip =
        (c.block set w).rrip-1 := fun w hw => by
      rw [block_lowered,if_pos ⟨rfl,hw⟩]
    have hrest:=ih (c := c.lowered set 1) (show m<fuel by omega)
      (by
        obtain ⟨w,hw,hm⟩:=hmem
        exact ⟨w,hw,by rw [hblock w hw]; omega⟩)
      (fun w hw => by
        have := hmin w hw
        rw [hblock w hw]
        omega)
      (fun w hw => by
        have := h32 w hw
        rw [hblock w hw]
        omega)
    have hway : (c.lowered set 1).firstWay set (fun b => b.rrip == m) =
        c.firstWay set fun b => b.rrip == m+1 := by
      refine firstWay_congr rfl fun w hw => ?_
      have := hpos w hw
      rw [hblock w hw]
      grind
    rw [searchVictim,if_neg hnone,ageSet_eq hpos h32,hrest,hway,lowered_lowered,Nat.add_comm 1 m]

theorem firstWay_lowest (c : FunctionalCache) (set : ℕ) {p : FuncCacheBlock → Bool}
    (h : ∃ w<c.mWays,p (c.block set w)=true) :
    Lowest c.mWays (fun w => p (c.block set w)=true) (c.firstWay set p) := by
  obtain ⟨w,hw,hp⟩:=h
  have hfound : c.firstWay set p<c.mWays := by
    by_contra hnone
    exact firstWay_ge hnone w hw hp
  refine ⟨hfound,firstWay_lt hfound,fun v hv hpv => ?_⟩
  unfold firstWay at hv
  cases hf : (List.range c.mWays).find? fun way => p (c.block set way) with
  | none => exact List.find?_eq_none.mp hf w (List.mem_range.mpr hw) hp
  | some u =>
    rw [hf] at hv
    have hbefore:=(List.find?_range_eq_some.mp hf).2.2 v hv
    rw [hpv] at hbefore
    cases hbefore

theorem firstWay_lt_or (c : FunctionalCache) (set : ℕ) (p : FuncCacheBlock → Bool) :
    c.firstWay set p<c.mWays ∨ c.firstWay set p=c.mWays := by
  unfold firstWay
  cases hf : (List.range c.mWays).find? fun way => p (c.block set way) with
  | none => exact Or.inr rfl
  | some u => exact Or.inl (List.mem_range.mp (List.mem_of_find?_eq_some hf))

theorem selects_invalid (h : ∃ w<c.mWays,(c.block set w).valid=false) :
    Selects c set c (c.firstWay set fun b => !b.valid) := by
  have hlow:=firstWay_lowest c set (p := fun b => !b.valid) (by simpa using h)
  simp only [Bool.not_eq_true'] at hlow
  refine ⟨hlow.1,fun _ => ⟨hlow,rfl⟩,fun hfull => ?_⟩
  obtain ⟨w,hw,hv⟩:=h
  rw [hfull w hw] at hv
  cases hv

theorem Selects.ways_eq {way : ℕ} (h : Selects c set c' way) : c'.mWays=c.mWays := by
  by_cases hinv : ∃ w<c.mWays,(c.block set w).valid=false
  · rw [(h.invalid hinv).2]
  · have hfull : ∀ w<c.mWays,(c.block set w).valid=true := fun w hw => by
      simpa using fun hv => hinv ⟨w,hw,hv⟩
    rw [(h.full hfull).2]
    rfl

theorem selects_full (hsmall : c.Small) (hways : 0<c.mWays)
    (h : ∀ w<c.mWays,(c.block set w).valid=true) :
    Selects c set (searchVictim set 4 {c with sEvictions := c.sEvictions+1}).1
      (searchVictim set 4 {c with sEvictions := c.sEvictions+1}).2 := by
  obtain ⟨v,hv,hleast⟩:=Finset.exists_min_image (Finset.range c.mWays)
    (fun w => (c.block set w).rrip) ⟨0,Finset.mem_range.mpr hways⟩
  have hmin : ∀ w<c.mWays,(c.block set v).rrip≤(c.block set w).rrip :=
    fun w hw => hleast w (Finset.mem_range.mpr hw)
  have hv:=Finset.mem_range.mp hv
  have hfour : (c.block set v).rrip<4 := Nat.lt_succ_of_le (hsmall set v)
  have hsearch:=searchVictim_eq (c := {c with sEvictions := c.sEvictions+1}) set hfour
    ⟨v,hv,rfl⟩ hmin fun w _ => lt_of_le_of_lt (hsmall set w) (by decide)
  have hfirst:=firstWay_lowest c set
    (p := fun b => b.rrip == (c.block set v).rrip) ⟨v,hv,by simp⟩
  simp only [beq_iff_eq] at hfirst
  obtain ⟨hlt,heq,hbefore⟩:=hfirst
  rw [hsearch]
  refine ⟨hlt,?_,fun _ => ⟨⟨hlt,?_,?_⟩,?_⟩⟩
  · rintro ⟨w,hw,hinv⟩
    rw [h w hw] at hinv
    cases hinv
  · intro w hw
    exact (Nat.le_of_eq heq).trans (hmin w hw)
  · intro w hw hleast
    refine hbefore w hw (Nat.le_antisymm (hleast v hv) (hmin w (Nat.lt_trans hw hlt)))
  · exact congrArg (lowered _ set) heq.symm

theorem findVictim_selects (hsmall : c.Small) (hways : 0<c.mWays) (addr : ℕ) :
    Post (c.findVictim addr) (fun r : FunctionalCache × ℕ => Selects c (c.home addr) r.1 r.2)
      fun e => e = .divByZero ∧ c.mSets=0 := by
  unfold findVictim setOf
  rw [post_bind,post_umod]
  refine ⟨fun h => ⟨rfl,h⟩,fun _ => ?_⟩
  rw [show (addr >>> c.mBlkOffset)%c.mSets=c.home addr from rfl]
  generalize c.home addr=set
  have hselects : Selects c set
      (if c.firstWay set (fun b => !b.valid)=c.mWays then
        searchVictim set 4 {c with sEvictions := c.sEvictions+1}
        else (c,c.firstWay set fun b => !b.valid)).1
      (if c.firstWay set (fun b => !b.valid)=c.mWays then
        searchVictim set 4 {c with sEvictions := c.sEvictions+1}
        else (c,c.firstWay set fun b => !b.valid)).2 := by
    by_cases hinv : ∃ w<c.mWays,(c.block set w).valid=false
    · have hselects:=selects_invalid hinv
      rw [if_neg (Nat.ne_of_lt hselects.way_lt)]
      exact hselects
    · have hfull : ∀ w<c.mWays,(c.block set w).valid=true := fun w hw => by
        simpa using fun hv => hinv ⟨w,hw,hv⟩
      rw [if_pos]
      · exact selects_full hsmall hways hfull
      · rcases firstWay_lt_or c set fun b => !b.valid with h | h
        · have := firstWay_lt h
          simp only [hfull _ h,Bool.not_true,Bool.false_eq_true] at this
        · exact h
  rw [post_bind,post_check]
  refine ⟨fun _ => hselects,fun h => (h ?_).elim⟩
  rw [hselects.ways_eq]
  exact hselects.way_lt

inductive Call where
  | lookup (addr : ℕ) (update : Bool)
  | partialLookup (addr : ℕ)
  | fill (addr blkWay : ℕ)
  | invalidate (addr blkWay : ℕ)
  | setDirtyBit (addr blkWay : ℕ)
  | findVictim (addr : ℕ)
  deriving DecidableEq

def perform (c : FunctionalCache) : Call → Except Fault FunctionalCache
  | .lookup addr update => do
    let r ← c.lookup addr update
    pure r.1
  | .partialLookup addr => do
    let r ← c.partialLookup addr
    pure r.1
  | .fill addr blkWay => c.fill addr blkWay
  | .invalidate addr blkWay => c.invalidate addr blkWay
  | .setDirtyBit addr blkWay => c.setDirtyBit addr blkWay
  | .findVictim addr => do
    let r ← c.findVictim addr
    pure r.1

def run (c : FunctionalCache) (calls : List Call) : Except Fault FunctionalCache :=
  calls.foldlM perform c

def Settled (shape : ℕ × ℕ × ℕ × ℕ) (c : FunctionalCache) : Prop := c.Small ∧ c.shape=shape

variable {shape0 : ℕ × ℕ × ℕ × ℕ} {addr blkWay : ℕ}

theorem small_setBlock (h : c.Small) {b : FuncCacheBlock} (hb : b.rrip≤3) (set way : ℕ) :
    (c.setBlock set way b).Small := by
  intro set' way'
  rw [block_setBlock]
  by_cases hat : set'=set ∧ way'=way
  · rw [if_pos hat]
    exact hb
  · rw [if_neg hat]
    exact h set' way'

theorem small_lowered (h : c.Small) (set m : ℕ) : (c.lowered set m).Small := by
  intro set' way
  rw [block_lowered]
  by_cases hat : set'=set ∧ way<c.mWays
  · rw [if_pos hat]
    exact (Nat.sub_le _ _).trans (h set way)
  · rw [if_neg hat]
    exact h set' way

theorem Selects.small {way : ℕ} (h : Selects c set c' way) (hsmall : c.Small) : c'.Small ∧ c'.shape=c.shape := by
  by_cases hinv : ∃ w<c.mWays,(c.block set w).valid=false
  · rw [(h.invalid hinv).2]
    exact ⟨hsmall,rfl⟩
  · have hfull : ∀ w<c.mWays,(c.block set w).valid=true := fun w hw => by
      simpa using fun hv => hinv ⟨w,hw,hv⟩
    rw [(h.full hfull).2]
    have hcounted : {c with sEvictions := c.sEvictions+1}.Small := hsmall
    exact ⟨small_lowered hcounted _ _,rfl⟩

theorem lookup_settled (h : c.Settled shape0) (addr : ℕ) (update : Bool) :
    Post (c.lookup addr update) (fun r => r.1.Settled shape0) fun e => e ≠ .noVictim := by
  unfold lookup setOf
  rw [post_bind,post_umod]
  refine ⟨fun _ => by simp [Undefined.divByZero],fun _ => ?_⟩
  dsimp only
  split
  · split
    · have hcounted : {c with sLookups := c.sLookups+1, sHits := c.sHits+1}.Small := h.1
      exact ⟨small_setBlock hcounted (Nat.le_refl 3) _ _,h.2⟩
    · exact h
  · exact h

theorem partialLookup_settled (h : c.Settled shape0) (addr : ℕ) :
    Post (c.partialLookup addr) (fun r => r.1.Settled shape0) fun e => e ≠ .noVictim := by
  unfold partialLookup setOf
  rw [post_bind,post_umod]
  refine ⟨fun _ => by simp [Undefined.divByZero],fun _ => ?_⟩
  rw [post_bind,post_udiv]
  refine ⟨fun _ => by simp [Undefined.divByZero],fun _ => ?_⟩
  dsimp only
  split
  · exact ⟨small_setBlock h.1 (Nat.le_refl 3) _ _,h.2⟩
  · exact h

theorem fill_settled (h : c.Settled shape0) (addr blkWay : ℕ) :
    Post (c.fill addr blkWay) (Settled shape0) fun e => e ≠ .noVictim := by
  unfold fill setOf
  simp only [post_bind,post_umod,Cells.post_read,post_check,post_pure]
  refine ⟨fun _ => by simp [Undefined.divByZero],fun _ => ⟨fun _ => ⟨fun _ => ?_,?_⟩,?_⟩⟩
  · exact ⟨small_setBlock h.1 (b := ⟨addr,true,false,true,1⟩) (by simp) _ _,h.2⟩
  · simp
  · simp [Undefined.outOfBounds]

theorem invalidate_settled (h : c.Settled shape0) (addr blkWay : ℕ) :
    Post (c.invalidate addr blkWay) (Settled shape0) fun e => e ≠ .noVictim := by
  unfold invalidate setOf
  simp only [post_bind,post_umod,Cells.post_read,post_ite,post_pure]
  refine ⟨fun _ => by simp [Undefined.divByZero],fun _ => ⟨fun _ => ⟨fun _ => h,fun _ => ?_⟩,?_⟩⟩
  · exact ⟨small_setBlock h.1 (b := ⟨0,false,false,false,0⟩) (by simp) _ _,h.2⟩
  · simp [Undefined.outOfBounds]

theorem setDirtyBit_settled (h : c.Settled shape0) (addr blkWay : ℕ) :
    Post (c.setDirtyBit addr blkWay) (Settled shape0) fun e => e ≠ .noVictim := by
  unfold setDirtyBit validBlock setOf
  simp only [post_bind,post_umod,Cells.post_read,post_check,post_pure]
  refine ⟨fun _ => by simp [Undefined.divByZero],fun _ => ⟨fun _ => ⟨fun _ => ?_,?_⟩,?_⟩⟩
  · have hb : ({c.block (addr >>> c.mBlkOffset%c.mSets) blkWay with dirty := true} :
        FuncCacheBlock).rrip≤3 := h.1 _ blkWay
    exact ⟨small_setBlock h.1 hb _ _,h.2⟩
  · simp
  · simp [Undefined.outOfBounds]

theorem perform_settled (h : c.Settled shape0) (hways : 0<shape0.2.2.1) (call : Call) :
    Post (c.perform call) (Settled shape0) fun e => e ≠ .noVictim := by
  cases call with
  | lookup addr update => exact (lookup_settled h addr update).bind fun r hr => hr
  | partialLookup addr => exact (partialLookup_settled h addr).bind fun r hr => hr
  | fill addr blkWay => exact fill_settled h addr blkWay
  | invalidate addr blkWay => exact invalidate_settled h addr blkWay
  | setDirtyBit addr blkWay => exact setDirtyBit_settled h addr blkWay
  | findVictim addr =>
    have hw : 0<c.mWays := by
      have hc : c.mWays=shape0.2.2.1 := by rw [← h.2]; rfl
      rw [hc]
      exact hways
    refine ((findVictim_selects h.1 hw addr).mono (fun _ hr => hr) fun e he => ?_).bind
      fun r hr => ?_
    · rw [he.1]
      decide
    · exact ⟨(hr.small h.1).1,(hr.small h.1).2.trans h.2⟩

theorem run_settled (hways : 0<shape0.2.2.1) (calls : List Call) (h : c.Settled shape0) :
    Post (c.run calls) (Settled shape0) fun e => e ≠ .noVictim := by
  induction calls generalizing c with
  | nil => exact h
  | cons call calls ih => exact (perform_settled h hways call).bind fun c' hc' => ih hc'

/-- Every victim of every run. A cache without sets divides by zero in `Find_Victim`. -/
theorem victim_selection (sets ways factor : ℕ) (hways : 0<ways) (calls : List Call) :
    Post ((construct sets ways factor).run calls)
      (fun c => c.mWays=ways ∧ (∀ set way,(c.block set way).rrip≤3) ∧ ∀ addr,
        Post (c.findVictim addr)
          (fun r : FunctionalCache × ℕ => Selects c (c.home addr) r.1 r.2 ∧
            ∀ set way,(r.1.block set way).rrip≤3)
          fun e => e = .divByZero ∧ sets=0)
      fun e => e ≠ .noVictim := by
  have hconstruct : (construct sets ways factor).Settled (5,sets,ways,factor) :=
    ⟨fun set way => Nat.zero_le 3,rfl⟩
  refine (run_settled hways calls hconstruct).mono (fun c hc => ?_) fun e he => he
  have hw : c.mWays=ways := congrArg (fun s => s.2.2.1) hc.2
  have hs : c.mSets=sets := congrArg (fun s => s.2.1) hc.2
  refine ⟨hw,hc.1,fun addr => ?_⟩
  refine (findVictim_selects hc.1 (hw ▸ hways) addr).mono (fun r hr => ?_) fun e he => ?_
  · exact ⟨hr,(hr.small hc.1).1⟩
  · exact ⟨he.1,hs ▸ he.2⟩

theorem victim_selection_twoRows :
    ∃ c, (construct 1 2 16).run [.fill 3 0,.fill 4 1,.lookup 3 true] = .ok c ∧
      (c.block 0 0).rrip=3 ∧ (c.block 0 1).rrip=1 ∧
      Post (c.findVictim 5) (fun r : FunctionalCache × ℕ => Selects c 0 r.1 r.2)
        fun e => e = .divByZero ∧ 1=0 := by
  have hrun : ∃ c, (construct 1 2 16).run [.fill 3 0,.fill 4 1,.lookup 3 true] = .ok c ∧
      (c.block 0 0).rrip=3 ∧ (c.block 0 1).rrip=1 ∧ c.home 5=0 := ⟨_,rfl,rfl,rfl,rfl⟩
  obtain ⟨c,hok,hfirst,hsecond,hhome⟩:=hrun
  have hall:=(victim_selection 1 2 16 (by decide) _).of_ok hok
  refine ⟨c,hok,hfirst,hsecond,(hall.2.2 5).imp fun r hr => ?_⟩
  rw [← hhome]
  exact hr.1

end AquaGem5.Quarantine.FunctionalCache
