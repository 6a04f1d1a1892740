import AquaGem5.Cache.FalruMoves

/-!
# Runs of a fully associative LRU list
-/

namespace AquaGem5.Cache
open Address Checked Links Bits List Nat
namespace FalruList

variable {p : FalruParams}

structure WalkAt (p : FalruParams) (k currSize trackedCacheSize : ℕ) (inCachesMask : BitVec 32) (j : ℕ) : Prop where
  currSize : currSize=k*p.blkSize
  tracked : trackedCacheSize=p.minTrackedSize <<< j
  mask : ∀ i,inCachesMask.getLsbD i=decide (i<p.numTrackedCaches ∧ k<p.trackedBlks i)
  passed : ∀ i<j,p.trackedBlks i≤k
  next : k<p.trackedBlks j
  le : j≤p.numTrackedCaches

namespace WalkAt

variable {k currSize trackedCacheSize j : ℕ} {inCachesMask : BitVec 32}

theorem start (p : FalruParams) : WalkAt p 0 0 p.minTrackedSize p.inAllCachesMask 0 where
  currSize := by rw [Nat.zero_mul]
  tracked := by rw [Nat.shiftLeft_zero]
  mask := by
    intro i
    have hpos:=p.trackedBlks_pos i
    rw [p.getLsbD_inAllCachesMask]
    exact decide_eq_decide.mpr (by omega)
  passed := fun i hi => by omega
  next := p.trackedBlks_pos 0
  le := zero_le _

variable (h : WalkAt p k currSize trackedCacheSize inCachesMask j)

include h

theorem size_iff : currSize+p.blkSize=trackedCacheSize ↔ k+1=p.trackedBlks j := by
  have hsum : currSize+p.blkSize=(k+1)*p.blkSize := by rw [h.currSize,add_mul,one_mul]
  rw [hsum,h.tracked,← p.trackedBlks_mul]
  constructor
  · exact eq_of_mul_eq_mul_right p.blkSize_pos
  · intro heq
    rw [heq]

theorem lt_numTrackedCaches (hk : k+1<p.numBlocks) (hsize : k+1=p.trackedBlks j) : j<p.numTrackedCaches := by
  rcases lt_or_eq_of_le h.le with hlt | heq
  · exact hlt
  · rw [heq,p.trackedBlks_last] at hsize
    omega

theorem boundary (hk : k+1<p.numBlocks) (hsize : k+1=p.trackedBlks j) :
    WalkAt p (k+1) (currSize+p.blkSize) (trackedCacheSize <<< 1) (inCachesMask &&& ~~~(1#32 <<< j)) (j+1) where
  currSize := by rw [h.currSize,add_mul,one_mul]
  tracked := by rw [h.tracked,shiftLeft_add]
  mask := by
    intro i
    have hj:=h.lt_numTrackedCaches hk hsize
    have h32:=p.numTrackedCaches_lt
    rw [getLsbD_clear (by omega),h.mask,← Bool.decide_and]
    refine decide_eq_decide.mpr ?_
    by_cases hij : j=i
    · subst hij
      omega
    · have hne : p.trackedBlks i≠k+1 := fun heq => hij (p.trackedBlks_inj (hsize.symm.trans heq.symm))
      omega
  passed := by
    intro i hi
    rcases Nat.lt_succ_iff_lt_or_eq.mp hi with hlt | rfl
    · have hle:=h.passed i hlt
      omega
    · omega
  next := by
    rw [hsize]
    exact p.trackedBlks_lt (lt_succ_self j)
  le := h.lt_numTrackedCaches hk hsize

theorem inside (hsize : k+1≠p.trackedBlks j) :
    WalkAt p (k+1) (currSize+p.blkSize) trackedCacheSize inCachesMask j where
  currSize := by rw [h.currSize,add_mul,one_mul]
  tracked := h.tracked
  mask := by
    intro i
    have hnext:=h.next
    rw [h.mask]
    refine decide_eq_decide.mpr ?_
    have hne : p.trackedBlks i≠k+1 := by
      rcases lt_trichotomy i j with hlt | rfl | hlt
      · have hle:=h.passed i hlt
        omega
      · exact hsize.symm
      · have hlt':=p.trackedBlks_lt hlt
        omega
    omega
  passed := by
    intro i hi
    have hle:=h.passed i hi
    omega
  next := by
    have hnext:=h.next
    omega
  le := h.le

end WalkAt

variable {s : FalruList p} {xs : List p.Blk}

theorem Tracks.checkLoop (h : Tracks true s xs) (fuel : ℕ) :
    ∀ {k currSize trackedCacheSize inCachesMask j},k+fuel=p.numBlocks →
      WalkAt p k currSize trackedCacheSize inCachesMask j →
      s.checkLoop fuel xs[k]? currSize trackedCacheSize inCachesMask j = .ok () := by
  have hlen:=h.length
  induction fuel with
  | zero =>
    intro k currSize trackedCacheSize inCachesMask j hk _
    rw [getElem?_eq_none_iff.mpr (by omega)]
    rfl
  | succ fuel ih =>
    intro k currSize trackedCacheSize inCachesMask j hk hw
    obtain ⟨b,hb⟩:=h.get (i := k) (by omega)
    have hmask : s.inCachesMask b=inCachesMask := by
      apply BitVec.eq_of_getLsbD_eq
      intro i _
      rw [h.mask k b hb,hw.mask]
    have hnext : s.next b=xs[k+1]? := h.linked.next_eq hb
    rw [hb,FalruList.checkLoop,if_neg (not_not_intro hmask)]
    simp only [hnext]
    by_cases hlast : k+1=p.numBlocks
    · have htail:=(h.tail_position hb).mpr hlast
      have hnot : ¬(currSize+p.blkSize=trackedCacheSize ∧ b≠s.tail) := fun hc => hc.2 htail
      rw [if_neg hnot,getElem?_eq_none_iff.mpr (by omega)]
      cases fuel <;> rfl
    · have htail : b≠s.tail := (h.tail_position hb).not.mpr hlast
      by_cases hsize : k+1=p.trackedBlks j
      · have hj:=hw.lt_numTrackedCaches (by omega) hsize
        have hboundary : s.boundaries j=some b := by
          have hidx : p.trackedBlks j-1=k := by omega
          rw [h.boundary j hj,if_neg (by simp),hidx,hb]
        rw [if_pos ⟨hw.size_iff.mpr hsize,htail⟩,if_neg (not_not_intro hboundary)]
        exact ih (by omega) (hw.boundary (by omega) hsize)
      · rw [if_neg fun hc => hsize (hw.size_iff.mp hc.1)]
        exact ih (by omega) (hw.inside hsize)

theorem Tracks.check (h : Tracks true s xs) : s.check = .ok () := by
  have hhead:=h.head
  rw [head?_eq_getElem?] at hhead
  rw [FalruList.check,← hhead]
  exact h.checkLoop p.numBlocks (zero_add _) (WalkAt.start p)

structure Tracked (s : FalruList p) (xs : List p.Blk) (k : ℕ) (s' : FalruList p) : Prop where
  next : s'.next=s.next
  prev : s'.prev=s.prev
  head : s'.head=s.head
  tail : s'.tail=s.tail
  boundary : ∀ i<p.numTrackedCaches,p.trackedBlks i≤k → s'.boundaries i=xs[p.trackedBlks i-1]?
  mask : ∀ j<k,∀ b,xs[j]?=some b → ∀ i,(s'.inCachesMask b).getLsbD i =
    decide (i<p.numTrackedCaches ∧ j<p.trackedBlks i)

theorem linkBlks_get (i : ℕ) (b : p.Blk) : (List.finRange p.numBlocks)[i]?=some b ↔ b.val=i := by
  rw [getElem?_eq_some_iff]
  constructor
  · intro h
    obtain ⟨hlt,rfl⟩:=h
    simp
  · intro h
    subst h
    exact ⟨by simp,by simp⟩

theorem linkBlks_none {i : ℕ} (hi : ¬i<p.numBlocks) : (List.finRange p.numBlocks)[i]?=none := by
  rw [getElem?_eq_none_iff,length_finRange]
  omega

theorem linkBlks_linked : Linked p.linkBlks.next p.linkBlks.prev (List.finRange p.numBlocks) where
  nodup := List.nodup_finRange _
  next_eq := by
    intro i b hi
    rw [linkBlks_get] at hi
    subst hi
    simp only [FalruParams.linkBlks]
    split_ifs with hlt
    · exact ((linkBlks_get _ _).mpr rfl).symm
    · exact (linkBlks_none hlt).symm
  prev_eq := by
    intro i b hi
    rw [linkBlks_get] at hi
    subst hi
    simp only [FalruParams.linkBlks,before]
    split_ifs with hzero
    · rfl
    · exact ((linkBlks_get _ _).mpr rfl).symm

theorem linkBlks_tail {i : ℕ} {b : p.Blk} (hb : (List.finRange p.numBlocks)[i]?=some b) :
    b=p.linkBlks.tail ↔ i+1=p.numBlocks := by
  have htwo:=p.two_le_numBlocks
  rw [linkBlks_get] at hb
  subst hb
  rw [Fin.ext_iff]
  simp only [FalruParams.linkBlks]
  omega

theorem Tracked.initLoop (fuel : ℕ) :
    ∀ {k currSize trackedCacheSize inCachesMask j} {s' : FalruList p},k+fuel=p.numBlocks →
      WalkAt p k currSize trackedCacheSize inCachesMask j → Tracked p.linkBlks (List.finRange p.numBlocks) k s' →
      ∃ s'',initLoop fuel s' (List.finRange p.numBlocks)[k]? currSize trackedCacheSize inCachesMask j = .ok s'' ∧
        Tracked p.linkBlks (List.finRange p.numBlocks) p.numBlocks s'' := by
  induction fuel with
  | zero =>
    intro k currSize trackedCacheSize inCachesMask j s' hk _ hs
    rw [linkBlks_none (by omega)]
    have heq : k=p.numBlocks := by omega
    exact ⟨s',rfl,heq ▸ hs⟩
  | succ fuel ih =>
    intro k currSize trackedCacheSize inCachesMask j s' hk hw hs
    obtain ⟨b,hb⟩ : ∃ b : p.Blk,(finRange p.numBlocks)[k]?=some b :=
      ⟨⟨k,by omega⟩,(linkBlks_get _ _).mpr rfl⟩
    have hnext : (s'.setMask b inCachesMask).next b=(finRange p.numBlocks)[k+1]? := by
      rw [← linkBlks_linked.next_eq hb,← hs.next]
      rfl
    have htail : (s'.setMask b inCachesMask).tail=p.linkBlks.tail := hs.tail
    have hmask : ∀ i<k+1,∀ c,(finRange p.numBlocks)[i]?=some c → ∀ l,
        ((s'.setMask b inCachesMask).inCachesMask c).getLsbD l =
          decide (l<p.numTrackedCaches ∧ i<p.trackedBlks l) := by
      intro i hi c hc l
      by_cases hik : i=k
      · subst hik
        obtain rfl : b=c := Option.some.inj (hb.symm.trans hc)
        simp only [setMask,Function.update_self]
        exact hw.mask l
      · have hcb : c≠b := position_ne (nodup_finRange _) hc hb hik
        simp only [setMask,Function.update_of_ne hcb]
        exact hs.mask i (by omega) c hc l
    rw [hb,FalruList.initLoop]
    simp only [hnext,htail]
    by_cases hcross : currSize+p.blkSize=trackedCacheSize ∧ b≠p.linkBlks.tail
    · have hsize:=hw.size_iff.mp hcross.1
      have hlast:=(linkBlks_tail hb).not.mp hcross.2
      have hj:=hw.lt_numTrackedCaches (by omega) hsize
      rw [if_pos hcross,if_pos hj]
      refine ih (by omega) (hw.boundary (by omega) hsize) ⟨hs.next,hs.prev,hs.head,hs.tail,?_,hmask⟩
      intro i hi hle
      by_cases hij : i=j
      · subst hij
        have hidx : p.trackedBlks i-1=k := by omega
        rw [hidx,hb]
        exact Function.update_self ..
      · have hne : p.trackedBlks i≠k+1 := fun heq => hij (p.trackedBlks_inj (heq.trans hsize))
        exact (Function.update_of_ne hij ..).trans (hs.boundary i hi (by omega))
    · rw [if_neg hcross]
      by_cases hlast : k+1=p.numBlocks
      · rw [linkBlks_none (by omega)]
        refine ⟨s'.setMask b inCachesMask,by cases fuel <;> rfl,hs.next,hs.prev,hs.head,hs.tail,?_,?_⟩
        · intro i hi hle
          have hless:=p.trackedBlks_lt_numBlocks hi
          exact hs.boundary i hi (by omega)
        · intro i hi
          exact hmask i (by omega)
      · have htail':=(linkBlks_tail hb).not.mpr hlast
        have hsize : k+1≠p.trackedBlks j := fun heq => hcross ⟨hw.size_iff.mpr heq,htail'⟩
        refine ih (by omega) (hw.inside hsize) ⟨hs.next,hs.prev,hs.head,hs.tail,?_,hmask⟩
        intro i hi hle
        have hne : p.trackedBlks i≠k+1 := by
          intro heq
          rcases lt_trichotomy i j with hlt | rfl | hlt
          · have hpassed:=hw.passed i hlt
            omega
          · exact hsize heq.symm
          · have hlt':=p.trackedBlks_lt hlt
            have hnext:=hw.next
            omega
        exact hs.boundary i hi (by omega)

theorem tagsInit_ok : ∃ s,p.tagsInit = .ok s ∧ Tracks true s (List.finRange p.numBlocks) := by
  have hhead : (finRange p.numBlocks)[0]?=some p.linkBlks.head := (linkBlks_get _ _).mpr rfl
  have hend : (finRange p.numBlocks).getLast?=some p.linkBlks.tail := by
    rw [getLast?_eq_getElem?,length_finRange]
    exact (linkBlks_get _ _).mpr rfl
  unfold FalruParams.tagsInit
  by_cases hnone : p.numTrackedCaches=0
  · rw [if_neg (not_not_intro hnone)]
    refine ⟨p.linkBlks,?_,linkBlks_linked,mem_finRange,?_,hend,?_,?_⟩
    · unfold FalruList.initLoop
      rfl
    · rw [head?_eq_getElem?,hhead]
    · intro i hi
      omega
    · intro j b _ i
      have hfalse : ¬(i<p.numTrackedCaches ∧ j<p.trackedBlks i) := by omega
      rw [decide_eq_false hfalse]
      exact BitVec.getLsbD_zero
  · have hstart : Tracked p.linkBlks (finRange p.numBlocks) 0 p.linkBlks := by
      refine ⟨rfl,rfl,rfl,rfl,fun i _ hle => ?_,fun j hj => by omega⟩
      have hpos:=p.trackedBlks_pos i
      omega
    obtain ⟨s,hrun,hs⟩:=Tracked.initLoop p.numBlocks (zero_add _) (WalkAt.start p) hstart
    rw [hhead] at hrun
    rw [if_pos hnone]
    refine ⟨s,hrun,?_,mem_finRange,?_,?_,?_,?_⟩
    · rw [hs.next,hs.prev]
      exact linkBlks_linked
    · rw [head?_eq_getElem?,hhead,hs.head]
    · rw [hend,hs.tail]
    · intro i hi
      have hless:=p.trackedBlks_lt_numBlocks hi
      rw [if_neg (by simp)]
      exact hs.boundary i hi (by omega)
    · intro j b hj
      have hlt : j<p.numBlocks := by
        by_contra hge
        rw [linkBlks_none hge] at hj
        cases hj
      exact hs.mask j hlt b hj

inductive Move (p : FalruParams) where
  | toHead (blk : p.Blk)
  | toTail (blk : p.Blk)

def exec (s : FalruList p) : Move p → Except Fault (FalruList p)
  | .toHead blk => s.moveToHead blk
  | .toTail blk => s.moveToTail blk

inductive Run (p : FalruParams) (cond : FalruList p → Move p → Prop) : FalruList p → Prop
  | init {s : FalruList p} : p.tagsInit = .ok s → Run p cond s
  | step {s s' : FalruList p} {c : Move p} : Run p cond s → cond s c → s.exec c = .ok s' → Run p cond s'

/-- No block passes the boundary of a cache of one block. -/
def Safe (s : FalruList p) : Move p → Prop
  | .toHead blk => p.blkSize<p.minTrackedSize ∨ blk=s.head
  | .toTail _ => True

structure Sound (s : FalruList p) (xs : List p.Blk) : Prop where
  linked : Linked s.next s.prev xs
  all : ∀ b,b∈xs
  head : xs.head?=some s.head
  tail : xs.getLast?=some s.tail
  boundary : ∀ i<p.numTrackedCaches,∃ b,s.boundaries i=some b ∧
    xs[(p.minTrackedSize <<< i)/p.blkSize-1]?=some b
  mask : ∀ j b,xs[j]?=some b → ∀ i<p.numTrackedCaches,(s.inCachesMask b).getLsbD i =
    decide (j<(p.minTrackedSize <<< i)/p.blkSize)
  check : s.check = .ok ()

theorem Tracks.sound (h : Tracks true s xs) : Sound s xs where
  linked := h.linked
  all := h.all
  head := h.head
  tail := h.tail
  boundary := by
    intro i hi
    have hless:=p.trackedBlks_lt_numBlocks hi
    obtain ⟨b,hb⟩:=h.get (i := p.trackedBlks i-1) (by omega)
    exact ⟨b,by rw [h.boundary i hi,if_neg (by simp),hb],hb⟩
  mask := by
    intro j b hj i hi
    rw [h.mask j b hj i]
    exact decide_eq_decide.mpr (and_iff_right hi)
  check := h.check

theorem Tracks.exec (h : Tracks true s xs) {c : Move p} (hc : Safe s c) :
    ∃ s' ys,s.exec c = .ok s' ∧ Tracks true s' ys := by
  cases c with
  | toHead blk =>
    obtain ⟨q,hq,_⟩:=h.position blk
    by_cases hhead : blk=s.head
    · exact ⟨s,xs,if_neg (not_not_intro hhead),h⟩
    · have hpos : 0<q := Nat.pos_of_ne_zero ((h.head_position hq).not.mp hhead)
      obtain ⟨s',hrun,h'⟩:=h.moveToHead hq hpos
      exact ⟨s',_,hrun,h'.repair (hc.resolve_right hhead)⟩
  | toTail blk =>
    obtain ⟨q,hq,hlt⟩:=h.position blk
    by_cases htail : blk=s.tail
    · exact ⟨s,xs,if_neg (not_not_intro htail),h⟩
    · have hlast:=(h.tail_position hq).not.mp htail
      obtain ⟨s',hrun,h'⟩:=h.moveToTail hq (by omega)
      exact ⟨s',_,hrun,h'⟩

theorem Run.tracks (h : Run p Safe s) : ∃ xs,Tracks true s xs := by
  induction h with
  | init hs =>
    obtain ⟨s',hrun,h'⟩:=tagsInit_ok (p := p)
    rw [hrun] at hs
    cases hs
    exact ⟨_,h'⟩
  | step _ hc hrun ih =>
    obtain ⟨xs,h⟩:=ih
    obtain ⟨s',ys,hrun',h'⟩:=h.exec hc
    rw [hrun'] at hrun
    cases hrun
    exact ⟨ys,h'⟩

/-- The tracking is set up, and every safe move returns and keeps list, boundaries and masks in step. -/
theorem moves_sound (p : FalruParams) : (∃ s,p.tagsInit = .ok s) ∧
    ∀ s,Run p Safe s → (∃ xs,Sound s xs) ∧ ∀ c,Safe s c → ∃ s',s.exec c = .ok s' := by
  constructor
  · obtain ⟨s,hrun,_⟩:=tagsInit_ok (p := p)
    exact ⟨s,hrun⟩
  · intro s hs
    obtain ⟨xs,h⟩:=hs.tracks
    refine ⟨⟨xs,h.sound⟩,fun c hc => ?_⟩
    obtain ⟨s',_,hrun,_⟩:=h.exec hc
    exact ⟨s',hrun⟩

def fourBlocks : FalruParams where
  size := 256
  blkSize := 64
  minTrackedSize := 128
  size_lt := by decide
  size_pow := ⟨8,by decide⟩
  blkSize_pow := ⟨6,by decide⟩
  twoBlks := by decide
  oneBlk := by decide
  fraction := ⟨1,by decide⟩

theorem moves_sound_fourBlocks : ∃ s,Run fourBlocks Safe s ∧ s.head=⟨3,by decide⟩ ∧ ∃ xs,Sound s xs := by
  have hrun : ∃ s s',fourBlocks.tagsInit = .ok s ∧ s.exec (.toHead ⟨3,by decide⟩) = .ok s' ∧
      s'.head=⟨3,by decide⟩ := ⟨_,_,rfl,rfl,rfl⟩
  obtain ⟨s,s',hinit,hexec,hhead⟩:=hrun
  have hreach : Run fourBlocks Safe s' := by
    refine .step (.init hinit) ?_ hexec
    exact .inl (by decide)
  exact ⟨s',hreach,hhead,((moves_sound fourBlocks).2 s' hreach).1⟩

theorem Tracks.stuck (h : Tracks false s xs) (hone : p.minTrackedSize=p.blkSize)
    {blk : p.Blk} (hne : blk≠s.head) : s.moveToHead blk = .error .null := by
  obtain ⟨hblk,hK⟩:=p.oneBlock hone
  obtain ⟨q,hq,_⟩:=h.position blk
  have hpos : q≠0 := (h.head_position hq).not.mp hne
  have hnone : s.boundaries 0=none := by rw [h.boundary 0 hK,if_pos ⟨hblk,rfl⟩]
  have hbit : 1#32 <<< 0 &&& (p.inAllCachesMask ^^^ s.inCachesMask blk)≠0 := by
    refine (bit_and_ne_zero (by omega)).mpr ?_
    rw [BitVec.getLsbD_xor,p.getLsbD_inAllCachesMask,h.mask q blk hq,decide_eq_true hK,hblk]
    simp [hpos]
  obtain ⟨k,hk⟩ : ∃ k,p.numTrackedCaches=k+1 := ⟨p.numTrackedCaches-1,by omega⟩
  have hfirst : shrinkCache blk (p.inAllCachesMask ^^^ s.inCachesMask blk) s 0 = .error .null := by
    unfold shrinkCache
    simp only [hnone]
    exact if_pos hbit
  have hloop : s.moveBlockToHead blk = .error .null := by
    rw [moveBlockToHead,hk,range_succ_eq_map,foldlM_cons,hfirst]
    rfl
  rw [FalruList.moveToHead,if_pos hne,hloop]
  rfl

def twoBlocks : FalruParams where
  size := 128
  blkSize := 64
  minTrackedSize := 64
  size_lt := by decide
  size_pow := ⟨7,by decide⟩
  blkSize_pow := ⟨6,by decide⟩
  twoBlks := by decide
  oneBlk := by decide
  fraction := ⟨1,by decide⟩

theorem twoBlocks_unsound : ∃ s s',Run twoBlocks (fun _ _ => True) s ∧
    s.exec (.toHead ⟨1,by decide⟩) = .ok s' ∧ s'.boundaries 0=none ∧ s'.check = .error .panic ∧
    ¬∃ ys,Sound s' ys := by
  have hrun : ∃ s s',twoBlocks.tagsInit = .ok s ∧ s.exec (.toHead ⟨1,by decide⟩) = .ok s' ∧
      s'.boundaries 0=none ∧ s'.check = .error .panic := ⟨_,_,rfl,rfl,rfl,rfl⟩
  obtain ⟨s,s',hinit,hexec,hnone,hcheck⟩:=hrun
  refine ⟨s,s',.init hinit,hexec,hnone,hcheck,fun hsound => ?_⟩
  obtain ⟨ys,hys⟩:=hsound
  rw [hys.check] at hcheck
  cases hcheck

end FalruList

end AquaGem5.Cache
