import AquaGem5.Cache.Falru

/-!
# Moving a block to either end of the list

The boundaries and the masks are those of the positions in the list.
-/

namespace AquaGem5.Cache
open Address Checked Links Bits Function List
namespace FalruList

variable {p : FalruParams}

structure Tracks (intact : Bool) (s : FalruList p) (xs : List p.Blk) : Prop where
  linked : Linked s.next s.prev xs
  all : ∀ b,b∈xs
  head : xs.head?=some s.head
  tail : xs.getLast?=some s.tail
  boundary : ∀ i<p.numTrackedCaches,s.boundaries i =
    if p.trackedBlks i=1 ∧ intact=false then none else xs[p.trackedBlks i-1]?
  mask : ∀ j b,xs[j]?=some b → ∀ i,(s.inCachesMask b).getLsbD i =
    decide (i<p.numTrackedCaches ∧ j<p.trackedBlks i)

section Positions

variable {intact : Bool} {s : FalruList p} {xs : List p.Blk} (h : Tracks intact s xs)

include h

theorem Tracks.length : xs.length=p.numBlocks := by
  have hcard:=toFinset_card_of_nodup h.linked.nodup
  have huniv : xs.toFinset=Finset.univ := by
    ext b
    simp [h.all b]
  rw [← hcard,huniv,Finset.card_univ,Fintype.card_fin]

theorem Tracks.get {i : ℕ} (hi : i<p.numBlocks) : ∃ b,xs[i]?=some b := by
  have hlen:=h.length
  exact ⟨_,getElem?_eq_getElem (by omega)⟩

theorem Tracks.position (b : p.Blk) : ∃ q,xs[q]?=some b ∧ q<p.numBlocks := by
  obtain ⟨q,hq⟩:=position_of_mem (h.all b)
  obtain ⟨hlt,_⟩:=List.getElem?_eq_some_iff.mp hq
  exact ⟨q,hq,h.length ▸ hlt⟩

theorem Tracks.head_position {q : ℕ} {b : p.Blk} (hq : xs[q]?=some b) : b=s.head ↔ q=0 := by
  have hhead:=h.head
  rw [head?_eq_getElem?] at hhead
  constructor
  · intro hb
    exact position_unique h.linked.nodup hq (hb ▸ hhead)
  · intro hzero
    rw [hzero,hhead] at hq
    exact (Option.some.inj hq).symm

theorem Tracks.tail_position {q : ℕ} {b : p.Blk} (hq : xs[q]?=some b) : b=s.tail ↔ q+1=p.numBlocks := by
  have htail:=h.tail
  have hlen:=h.length
  have htwo:=p.two_le_numBlocks
  rw [getLast?_eq_getElem?] at htail
  constructor
  · intro hb
    have heq:=position_unique h.linked.nodup hq (hb ▸ htail)
    omega
  · intro hlast
    have hidx : xs.length-1=q := by omega
    rw [hidx,hq] at htail
    exact Option.some.inj htail

end Positions

theorem Tracks.repair {s : FalruList p} {xs : List p.Blk} (h : Tracks false s xs)
    (hmany : p.blkSize<p.minTrackedSize) : Tracks true s xs where
  linked := h.linked
  all := h.all
  head := h.head
  tail := h.tail
  boundary := by
    intro i hi
    have hone : p.trackedBlks i≠1 := by
      intro hone
      have hmul:=p.trackedBlks_mul i
      rw [hone,Nat.one_mul,Nat.shiftLeft_eq] at hmul
      have hle : p.minTrackedSize≤p.minTrackedSize*2^i := Nat.le_mul_of_pos_right _ (Nat.two_pow_pos i)
      omega
    have hneither : ∀ c : Bool,¬(p.trackedBlks i=1 ∧ c=false) := fun _ hc => hone hc.1
    rw [h.boundary i hi,if_neg (hneither _),if_neg (hneither _)]
  mask := h.mask

theorem boundaries_set {f g goal : ℕ → Option p.Blk} {k : ℕ} {v : Option p.Blk} (hdone : ∀ i<k,f i=goal i)
    (hrest : ∀ i,k ≤ i → f i=g i) (hv : v=goal k) :
    (∀ i<k+1,update f k v i=goal i) ∧ ∀ i,k+1 ≤ i → update f k v i=g i := by
  constructor
  · intro i hi
    by_cases hik : i=k
    · rw [hik,update_self,hv]
    · rw [update_of_ne hik]
      exact hdone i (by omega)
  · intro i hi
    rw [update_of_ne (by omega)]
    exact hrest i (by omega)

theorem boundaries_keep {f g goal : ℕ → Option p.Blk} {k : ℕ} (hdone : ∀ i<k,f i=goal i)
    (hrest : ∀ i,k ≤ i → f i=g i) (hk : f k=goal k) : (∀ i<k+1,f i=goal i) ∧ ∀ i,k+1 ≤ i → f i=g i := by
  have hset:=boundaries_set hdone hrest hk
  rwa [update_eq_self] at hset

structure Shrunk (s : FalruList p) (xs : List p.Blk) (q k : ℕ) (s' : FalruList p) : Prop where
  next : s'.next=s.next
  prev : s'.prev=s.prev
  head : s'.head=s.head
  tail : s'.tail=s.tail
  done : ∀ i<k,s'.boundaries i =
    if p.trackedBlks i≤q+1 then before xs (p.trackedBlks i-1) else xs[p.trackedBlks i-1]?
  rest : ∀ i,k ≤ i → s'.boundaries i=s.boundaries i
  mask : ∀ j b,xs[j]?=some b → ∀ i,(s'.inCachesMask b).getLsbD i =
    decide (i<p.numTrackedCaches ∧ j<p.trackedBlks i ∧ ¬(i<k ∧ p.trackedBlks i≤q ∧ j+1=p.trackedBlks i))

theorem Tracks.mem_eraseIdx {top : Bool} {s : FalruList p} {xs : List p.Blk} {blk b : p.Blk} {q : ℕ}
    (h : Tracks top s xs) (hq : xs[q]?=some blk) (hb : b≠blk) : b∈xs.eraseIdx q := by
  obtain ⟨j,hj⟩:=position_of_mem (h.all b)
  have hjq : j≠q := fun hjq => hb (Option.some.inj (hj.symm.trans (hjq ▸ hq)))
  exact mem_eraseIdx_iff_getElem?.mpr ⟨j,hjq,hj⟩

section ToHead

variable {s : FalruList p} {xs : List p.Blk} {blk : p.Blk} {q : ℕ} (h : Tracks true s xs)
  (hq : xs[q]?=some blk)

include h hq

theorem Shrunk.step {k : ℕ} {s' : FalruList p} (hs : Shrunk s xs q k s') (hk : k<p.numTrackedCaches) :
    ∃ s'',shrinkCache blk (p.inAllCachesMask ^^^ s.inCachesMask blk) s' k = .ok s'' ∧ Shrunk s xs q (k+1) s'' := by
  have h32:=p.numTrackedCaches_lt
  have hpos:=p.trackedBlks_pos k
  have hlt:=p.trackedBlks_lt_numBlocks hk
  obtain ⟨c,hc⟩:=h.get (i := p.trackedBlks k-1) (by omega)
  have hboundary : s'.boundaries k=some c := by
    rw [hs.rest k (Nat.le_refl k),h.boundary k hk,if_neg (by simp),hc]
  have hbit : 1#32 <<< k &&& (p.inAllCachesMask ^^^ s.inCachesMask blk)≠0 ↔ p.trackedBlks k≤q := by
    refine (bit_and_ne_zero (by omega)).trans ?_
    rw [BitVec.getLsbD_xor,p.getLsbD_inAllCachesMask,h.mask q blk hq]
    by_cases hle : q<p.trackedBlks k
    · simp [hk,hle]
    · simp [hk,hle,Nat.not_lt.mp hle]
  unfold shrinkCache
  by_cases hout : p.trackedBlks k≤q
  · have hprev : s'.prev c=before xs (p.trackedBlks k-1) := by rw [hs.prev,h.linked.prev_eq hc]
    simp only [hboundary,hprev]
    rw [if_pos (hbit.mpr hout)]
    obtain ⟨hdone,hrest⟩:=boundaries_set hs.done hs.rest (v := before xs (p.trackedBlks k-1)) (by rw [if_pos (by omega)])
    refine ⟨_,rfl,hs.next,hs.prev,hs.head,hs.tail,hdone,hrest,?_⟩
    · intro j b hj i
      have hold:=hs.mask j b hj i
      by_cases hbc : b=c
      · subst hbc
        have hjk:=position_unique h.linked.nodup hj hc
        simp only [setBoundary,setMask,update_self]
        rw [getLsbD_clear (by omega),hold,← Bool.decide_and]
        refine decide_eq_decide.mpr ?_
        by_cases hik : i=k
        · subst hik
          omega
        · omega
      · have hjk : j≠p.trackedBlks k-1 := fun hjk => hbc (Option.some.inj (hj.symm.trans (hjk ▸ hc)))
        simp only [setBoundary,setMask,update_of_ne hbc]
        rw [hold]
        refine decide_eq_decide.mpr ?_
        by_cases hik : i=k
        · subst hik
          omega
        · omega
  · have hnobit:=hbit.not.mpr hout
    have hmask : ∀ j b,xs[j]?=some b → ∀ i,(s'.inCachesMask b).getLsbD i=decide (i<p.numTrackedCaches ∧
        j<p.trackedBlks i ∧ ¬(i<k+1 ∧ p.trackedBlks i≤q ∧ j+1=p.trackedBlks i)) := by
      intro j b hj i
      rw [hs.mask j b hj i]
      refine decide_eq_decide.mpr ?_
      by_cases hik : i=k
      · subst hik
        omega
      · omega
    simp only [hboundary,Option.some.injEq]
    rw [if_neg hnobit]
    by_cases hself : c=blk
    · subst hself
      have hqk:=position_unique h.linked.nodup hq hc
      have hprev : s'.prev c=before xs q := by rw [hs.prev,h.linked.prev_eq hq]
      rw [if_pos rfl,hprev]
      obtain ⟨hdone,hrest⟩:=boundaries_set hs.done hs.rest (v := before xs q) (by rw [if_pos (by omega),← hqk])
      exact ⟨_,rfl,hs.next,hs.prev,hs.head,hs.tail,hdone,hrest,hmask⟩
    · have hqk : q≠p.trackedBlks k-1 := fun hqk => hself (Option.some.inj (hc.symm.trans (hqk ▸ hq)))
      rw [if_neg hself]
      obtain ⟨hdone,hrest⟩:=boundaries_keep hs.done hs.rest (by rw [if_neg (by omega),hboundary,hc])
      exact ⟨s',rfl,hs.next,hs.prev,hs.head,hs.tail,hdone,hrest,hmask⟩

theorem moveBlockToHead_ok : ∃ s',s.moveBlockToHead blk = .ok s' ∧ s'.next=s.next ∧ s'.prev=s.prev ∧
    s'.head=s.head ∧ s'.tail=s.tail ∧ (∀ i<p.numTrackedCaches,s'.boundaries i =
      if p.trackedBlks i≤q+1 then before xs (p.trackedBlks i-1) else xs[p.trackedBlks i-1]?) ∧
    s'.inCachesMask blk=p.inAllCachesMask ∧ (∀ j b,xs[j]?=some b → b≠blk → ∀ i,(s'.inCachesMask b).getLsbD i =
      decide (i<p.numTrackedCaches ∧ j<p.trackedBlks i ∧ ¬(p.trackedBlks i≤q ∧ j+1=p.trackedBlks i))) := by
  have hstart : Shrunk s xs q 0 s := by
    refine ⟨rfl,rfl,rfl,rfl,fun i hi => by omega,fun _ _ => rfl,fun j b hj i => ?_⟩
    rw [h.mask j b hj i]
    exact decide_eq_decide.mpr (by omega)
  obtain ⟨s',hrun,hs⟩:=foldlM_range (n := p.numTrackedCaches) hstart fun k hk s' hs => hs.step h hq hk
  refine ⟨s'.setMask blk p.inAllCachesMask,?_,hs.next,hs.prev,hs.head,hs.tail,hs.done,update_self ..,?_⟩
  · rw [moveBlockToHead,hrun]
    rfl
  · intro j b hj hb i
    simp only [setMask,update_of_ne hb]
    rw [hs.mask j b hj i]
    exact decide_eq_decide.mpr (by omega)

theorem leaveForHead_ok {s1 : FalruList p} (hnext : s1.next=s.next) (hprev : s1.prev=s.prev)
    (hhead : s1.head=s.head) (htail : s1.tail=s.tail) (hq0 : 0<q) : ∃ s2,s1.leaveForHead blk = .ok s2 ∧
      s2.next=unlinkNext s.next s.prev blk ∧ s2.prev=unlinkPrev s.next s.prev blk ∧ s2.head=s.head ∧
      (xs.eraseIdx q).getLast?=some s2.tail ∧ s2.inCachesMask=s1.inCachesMask ∧ s2.boundaries=s1.boundaries := by
  have hn:=h.length
  unfold leaveForHead
  have htwo:=p.two_le_numBlocks
  have hlt : q<xs.length := (List.getElem?_eq_some_iff.mp hq).1
  have hlen : (xs.eraseIdx q).length=xs.length-1 := length_eraseIdx_of_lt hlt
  obtain ⟨a,ha⟩:=h.get (i := q-1) (by omega)
  have hprevBlk : s.prev blk=some a := by rw [h.linked.prev_eq hq,before,if_neg (by omega),ha]
  by_cases hlast : blk=s.tail
  · have hend:=(h.tail_position hq).mp hlast
    have hnextBlk : s.next blk=none := by
      rw [h.linked.next_eq hq,List.getElem?_eq_none_iff]
      omega
    rw [htail,hnext,hprev,if_pos hlast,if_neg (not_not_intro hnextBlk),hprevBlk]
    refine ⟨_,rfl,?_,?_,hhead,?_,rfl,rfl⟩
    · simp only [unlinkNext,hprevBlk,hnextBlk]
    · simp only [unlinkPrev,hnextBlk]
    · rw [getLast?_eq_getElem?,getElem?_eraseIdx,hlen,if_pos (by omega)]
      have hidx : xs.length-1-1=q-1 := by omega
      rw [hidx,ha]
  · have hend:=(h.tail_position hq).not.mp hlast
    obtain ⟨c,hc⟩:=h.get (i := q+1) (by omega)
    have hnextBlk : s.next blk=some c := by rw [h.linked.next_eq hq,hc]
    rw [htail,if_neg hlast,unlinkInner,hprev,hnext,hprevBlk,hnextBlk]
    refine ⟨_,rfl,?_,?_,hhead,?_,rfl,rfl⟩
    · simp only [unlinkNext,hprevBlk,hnextBlk]
    · simp only [unlinkPrev,hprevBlk,hnextBlk]
    · have htail':=h.tail
      rw [getLast?_eq_getElem?] at htail' ⊢
      have hidx : xs.length-1-1+1=xs.length-1 := by omega
      rw [getElem?_eraseIdx,hlen,if_neg (by omega),hidx,htail',htail]

theorem Tracks.moveToHead (hq0 : 0<q) : ∃ s',s.moveToHead blk = .ok s' ∧ Tracks false s' (blk::xs.eraseIdx q) := by
  have hne : blk≠s.head := (h.head_position hq).not.mpr (by omega)
  obtain ⟨s1,hrun1,hnext1,hprev1,hhead1,htail1,hboundary,hself,hmask⟩:=moveBlockToHead_ok h hq
  obtain ⟨s2,hrun2,hnext2,hprev2,hhead2,htail2,hmask2,hboundary2⟩ :=
    leaveForHead_ok h hq hnext1 hprev1 hhead1 htail1 hq0
  have hnot:=not_mem_eraseIdx h.linked.nodup hq
  have hfront : (xs.eraseIdx q).head?=some s.head := by
    have hhead:=h.head
    rw [head?_eq_getElem?] at hhead ⊢
    rw [getElem?_eraseIdx,if_pos hq0,hhead]
  have hlinked:=(h.linked.unlink hq).pushFront hnot hfront
  refine ⟨{s2 with
    next := update s2.next blk (some s2.head)
    prev := update (update s2.prev blk none) s2.head (some blk)
    head := blk},?_,?_⟩
  · rw [FalruList.moveToHead,if_pos hne,hrun1]
    simp only [bind,Except.bind,hrun2]
    rfl
  · refine ⟨?_,?_,rfl,?_,?_,?_⟩
    · simp only [hnext2,hprev2,hhead2]
      exact hlinked
    · intro b
      rw [mem_cons]
      exact or_iff_not_imp_left.mpr (h.mem_eraseIdx hq)
    · rw [getLast?_cons,htail2]
      rfl
    · intro i hi
      have hpos:=p.trackedBlks_pos i
      simp only [hboundary2]
      rw [hboundary i hi,eq_comm]
      by_cases hone : p.trackedBlks i=1
      · have hle : p.trackedBlks i≤q+1 := by omega
        rw [if_pos ⟨hone,trivial⟩,if_pos hle,hone]
        rfl
      · have hidx : p.trackedBlks i-1=p.trackedBlks i-2+1 := by omega
        rw [if_neg (fun hc => hone hc.1),hidx,getElem?_cons_succ,getElem?_eraseIdx]
        by_cases hle : p.trackedBlks i≤q+1
        · rw [if_pos hle,if_pos (by omega),before,if_neg (by omega),Nat.add_sub_cancel]
        · rw [if_neg hle,if_neg (by omega)]
    · intro j b hj i
      simp only [hmask2]
      cases j with
      | zero =>
        obtain rfl : blk=b := by simpa using hj
        have hpos:=p.trackedBlks_pos i
        rw [hself,p.getLsbD_inAllCachesMask]
        exact decide_eq_decide.mpr (by omega)
      | succ j =>
        rw [getElem?_cons_succ] at hj
        have hb : b≠blk := fun hb => hnot (hb ▸ mem_of_getElem? hj)
        rw [getElem?_eraseIdx] at hj
        split_ifs at hj with hjq
        · rw [hmask j b hj hb i]
          exact decide_eq_decide.mpr (by omega)
        · rw [hmask (j+1) b hj hb i]
          exact decide_eq_decide.mpr (by omega)

end ToHead

structure Grown (s : FalruList p) (xs : List p.Blk) (q k : ℕ) (s' : FalruList p) : Prop where
  next : s'.next=s.next
  prev : s'.prev=s.prev
  head : s'.head=s.head
  tail : s'.tail=s.tail
  done : ∀ i<k,s'.boundaries i =
    if q<p.trackedBlks i then xs[p.trackedBlks i]? else xs[p.trackedBlks i-1]?
  rest : ∀ i,k ≤ i → s'.boundaries i=s.boundaries i
  mask : ∀ j b,xs[j]?=some b → ∀ i,(s'.inCachesMask b).getLsbD i =
    decide (i<p.numTrackedCaches ∧ (j<p.trackedBlks i ∨ (i<k ∧ q<p.trackedBlks i ∧ j=p.trackedBlks i)))

section ToTail

variable {s : FalruList p} {xs : List p.Blk} {blk : p.Blk} {q : ℕ} (h : Tracks true s xs)
  (hq : xs[q]?=some blk)

include h hq

theorem Grown.step {k : ℕ} {s' : FalruList p} (hs : Grown s xs q k s') (hk : k<p.numTrackedCaches) :
    ∃ s'',growCache blk (s.inCachesMask blk) s' k = .ok s'' ∧ Grown s xs q (k+1) s'' := by
  have h32:=p.numTrackedCaches_lt
  have hpos:=p.trackedBlks_pos k
  have hlt:=p.trackedBlks_lt_numBlocks hk
  obtain ⟨c,hc⟩:=h.get (i := p.trackedBlks k-1) (by omega)
  obtain ⟨d,hd⟩:=h.get (i := p.trackedBlks k) hlt
  have hboundary : s'.boundaries k=some c := by
    rw [hs.rest k (Nat.le_refl k),h.boundary k hk,if_neg (by simp),hc]
  have hbit : 1#32 <<< k &&& s.inCachesMask blk≠0 ↔ q<p.trackedBlks k := by
    refine (bit_and_ne_zero (by omega)).trans ?_
    rw [h.mask q blk hq,decide_eq_true_iff]
    exact and_iff_right hk
  unfold growCache
  by_cases hin : q<p.trackedBlks k
  · have hback : p.trackedBlks k-1+1=p.trackedBlks k := by omega
    have hnext : s'.next c=some d := by rw [hs.next,h.linked.next_eq hc,hback,hd]
    have hdb : ¬some d=some blk := fun hdb =>
      position_ne h.linked.nodup hd hq (by omega) (Option.some.inj hdb)
    simp only [hboundary,hnext]
    rw [if_pos (hbit.mpr hin)]
    simp only [hdb,if_false]
    obtain ⟨hdone,hrest⟩:=boundaries_set hs.done hs.rest (v := some d) (by rw [if_pos hin,hd])
    refine ⟨_,rfl,hs.next,hs.prev,hs.head,hs.tail,hdone,hrest,?_⟩
    · intro j b hj i
      have hold:=hs.mask j b hj i
      by_cases hbd : b=d
      · subst hbd
        have hjk:=position_unique h.linked.nodup hj hd
        simp only [setBoundary,setMask,update_self]
        rw [getLsbD_set (by omega),hold,← Bool.decide_or]
        refine decide_eq_decide.mpr ?_
        by_cases hik : i=k
        · subst hik
          omega
        · omega
      · have hjk : j≠p.trackedBlks k := fun hjk => hbd (Option.some.inj (hj.symm.trans (hjk ▸ hd)))
        simp only [setBoundary,setMask,update_of_ne hbd]
        rw [hold]
        refine decide_eq_decide.mpr ?_
        by_cases hik : i=k
        · subst hik
          omega
        · omega
  · rw [if_neg (hbit.not.mpr hin)]
    obtain ⟨hdone,hrest⟩:=boundaries_keep hs.done hs.rest (by rw [if_neg hin,hboundary,hc])
    refine ⟨s',rfl,hs.next,hs.prev,hs.head,hs.tail,hdone,hrest,?_⟩
    · intro j b hj i
      rw [hs.mask j b hj i]
      refine decide_eq_decide.mpr ?_
      by_cases hik : i=k
      · subst hik
        omega
      · omega

theorem moveBlockToTail_ok : ∃ s',s.moveBlockToTail blk = .ok s' ∧ s'.next=s.next ∧ s'.prev=s.prev ∧
    s'.head=s.head ∧ s'.tail=s.tail ∧ (∀ i<p.numTrackedCaches,s'.boundaries i =
      if q<p.trackedBlks i then xs[p.trackedBlks i]? else xs[p.trackedBlks i-1]?) ∧ s'.inCachesMask blk=0 ∧
    (∀ j b,xs[j]?=some b → b≠blk → ∀ i,(s'.inCachesMask b).getLsbD i =
      decide (i<p.numTrackedCaches ∧ (j<p.trackedBlks i ∨ (q<p.trackedBlks i ∧ j=p.trackedBlks i)))) := by
  have hstart : Grown s xs q 0 s := by
    refine ⟨rfl,rfl,rfl,rfl,fun i hi => by omega,fun _ _ => rfl,fun j b hj i => ?_⟩
    rw [h.mask j b hj i]
    exact decide_eq_decide.mpr (by omega)
  obtain ⟨s',hrun,hs⟩:=foldlM_range (n := p.numTrackedCaches) hstart fun k hk s' hs => hs.step h hq hk
  refine ⟨s'.setMask blk 0,?_,hs.next,hs.prev,hs.head,hs.tail,hs.done,update_self ..,?_⟩
  · rw [moveBlockToTail,hrun]
    rfl
  · intro j b hj hb i
    simp only [setMask,update_of_ne hb]
    rw [hs.mask j b hj i]
    exact decide_eq_decide.mpr (by omega)

theorem leaveForTail_ok {s1 : FalruList p} (hnext : s1.next=s.next) (hprev : s1.prev=s.prev)
    (hhead : s1.head=s.head) (htail : s1.tail=s.tail) (hqn : q+1<p.numBlocks) : ∃ s2,s1.leaveForTail blk = .ok s2 ∧
      s2.next=unlinkNext s.next s.prev blk ∧ s2.prev=unlinkPrev s.next s.prev blk ∧ s2.tail=s.tail ∧
      (xs.eraseIdx q).head?=some s2.head ∧ s2.inCachesMask=s1.inCachesMask ∧ s2.boundaries=s1.boundaries := by
  have hn:=h.length
  unfold leaveForTail
  obtain ⟨c,hc⟩:=h.get hqn
  have hnextBlk : s.next blk=some c := by rw [h.linked.next_eq hq,hc]
  by_cases hfirst : blk=s.head
  · have hzero:=(h.head_position hq).mp hfirst
    have hprevBlk : s.prev blk=none := by rw [h.linked.prev_eq hq,before,if_pos hzero]
    rw [hhead,hnext,hprev,if_pos hfirst,if_neg (not_not_intro hprevBlk),hnextBlk]
    refine ⟨_,rfl,?_,?_,htail,?_,rfl,rfl⟩
    · simp only [unlinkNext,hprevBlk]
    · simp only [unlinkPrev,hnextBlk,hprevBlk]
    · rw [head?_eq_getElem?,getElem?_eraseIdx,if_neg (by omega),← hc,hzero]
  · have hpos:=(h.head_position hq).not.mp hfirst
    obtain ⟨a,ha⟩:=h.get (i := q-1) (by omega)
    have hprevBlk : s.prev blk=some a := by rw [h.linked.prev_eq hq,before,if_neg hpos,ha]
    rw [hhead,if_neg hfirst,unlinkInner,hprev,hnext,hprevBlk,hnextBlk]
    refine ⟨_,rfl,?_,?_,htail,?_,rfl,rfl⟩
    · simp only [unlinkNext,hprevBlk,hnextBlk]
    · simp only [unlinkPrev,hprevBlk,hnextBlk]
    · have hhead':=h.head
      rw [head?_eq_getElem?] at hhead' ⊢
      rw [getElem?_eraseIdx,if_pos (by omega),hhead',hhead]

theorem Tracks.moveToTail (hqn : q+1<p.numBlocks) :
    ∃ s',s.moveToTail blk = .ok s' ∧ Tracks true s' (xs.eraseIdx q++[blk]) := by
  have hlen:=h.length
  have hlt : q<xs.length := (List.getElem?_eq_some_iff.mp hq).1
  have herase : (xs.eraseIdx q).length=xs.length-1 := length_eraseIdx_of_lt hlt
  have hne : blk≠s.tail := (h.tail_position hq).not.mpr (by omega)
  obtain ⟨s1,hrun1,hnext1,hprev1,hhead1,htail1,hboundary,hself,hmask⟩:=moveBlockToTail_ok h hq
  obtain ⟨s2,hrun2,hnext2,hprev2,htail2,hhead2,hmask2,hboundary2⟩ :=
    leaveForTail_ok h hq hnext1 hprev1 hhead1 htail1 hqn
  have hnot:=not_mem_eraseIdx h.linked.nodup hq
  have hlast : (xs.eraseIdx q).getLast?=some s.tail := by
    have htail:=h.tail
    rw [getLast?_eq_getElem?] at htail ⊢
    have hidx : xs.length-1-1+1=xs.length-1 := by omega
    rw [getElem?_eraseIdx,herase,if_neg (by omega),hidx,htail]
  have hlinked:=(h.linked.unlink hq).pushBack hnot hlast
  refine ⟨{s2 with
    prev := update s2.prev blk (some s2.tail)
    next := update (update s2.next blk none) s2.tail (some blk)
    tail := blk},?_,?_⟩
  · rw [FalruList.moveToTail,if_pos hne,hrun1]
    simp only [bind,Except.bind,hrun2]
    rfl
  · refine ⟨?_,?_,?_,?_,?_,?_⟩
    · simp only [hnext2,hprev2,htail2]
      exact hlinked
    · intro b
      rw [mem_append,mem_singleton]
      exact or_iff_not_imp_right.mpr (h.mem_eraseIdx hq)
    · rw [head?_append,hhead2]
      rfl
    · rw [getLast?_append]
      rfl
    · intro i hi
      have hpos:=p.trackedBlks_pos i
      have hless:=p.trackedBlks_lt_numBlocks hi
      have hwithin : p.trackedBlks i-1<xs.length-1 := by omega
      simp only [hboundary2]
      have hintact : ¬(p.trackedBlks i=1 ∧ true=false) := fun hc => (by cases hc.2)
      rw [hboundary i hi,if_neg hintact,getElem?_append,herase,if_pos hwithin,getElem?_eraseIdx]
      have hback : p.trackedBlks i-1+1=p.trackedBlks i := by omega
      by_cases hin : q<p.trackedBlks i
      · rw [if_pos hin,if_neg (by omega),hback]
      · rw [if_neg hin,if_pos (by omega)]
    · intro j b hj i
      simp only [hmask2]
      rw [getElem?_append,herase] at hj
      split_ifs at hj with hjlt
      · have hb : b≠blk := fun hb => hnot (hb ▸ mem_of_getElem? hj)
        rw [getElem?_eraseIdx] at hj
        split_ifs at hj with hjq
        · rw [hmask j b hj hb i]
          exact decide_eq_decide.mpr (by omega)
        · rw [hmask (j+1) b hj hb i]
          exact decide_eq_decide.mpr (by omega)
      · have hj0 : j-(xs.length-1)=0 := by
          obtain ⟨hbound,_⟩:=List.getElem?_eq_some_iff.mp hj
          rw [length_singleton] at hbound
          omega
        rw [hj0] at hj
        obtain rfl : blk=b := by simpa using hj
        have hzero : (0 : BitVec 32).getLsbD i=false := BitVec.getLsbD_zero
        rw [hself,hzero,eq_comm]
        refine decide_eq_false fun hc => ?_
        have hless:=p.trackedBlks_lt_numBlocks hc.1
        omega

end ToTail

end FalruList

end AquaGem5.Cache
