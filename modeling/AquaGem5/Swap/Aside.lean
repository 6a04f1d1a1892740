import AquaGem5.Swap.Involution

/-!
# What an operation on a bank leaves alone

The tables of the other banks, the detector, which a swap only looks up, and the decision to mitigate.
-/

namespace AquaGem5.Swap.RandomizedRowSwap
open Checked Detector Mitigation

variable {s s' : RandomizedRowSwap} {b : Bank}

theorem tables_setTable (s : RandomizedRowSwap) (b : Bank) (t : Rit) : (s.setTable b t).tables b=t :=
  Function.update_self ..

structure Aside (b : Bank) (s s' : RandomizedRowSwap) : Prop where
  shape : SameShape s s'
  others : ∀ b', b'≠b → s'.tables b'=s.tables b'
  detector : s'.detector=s.detector
  mitigate : s'.decision.mitigate=s.decision.mitigate

theorem Aside.trans {t : RandomizedRowSwap} (h : Aside b s t) (h' : Aside b t s') : Aside b s s' :=
  ⟨h.shape.trans h'.shape,fun b' hb' => (h'.others b' hb').trans (h.others b' hb'),
    h'.detector.trans h.detector,h'.mitigate.trans h.mitigate⟩

theorem aside_setTable (b : Bank) (s : RandomizedRowSwap) (t : Rit) : Aside b s (s.setTable b t) :=
  ⟨rfl,fun _ hb' => Function.update_of_ne hb' ..,rfl,rfl⟩

theorem Searched.aside (h : Searched s s') (b : Bank) : Aside b s s' := by
  obtain ⟨_,_,rfl⟩:=h
  exact ⟨rfl,fun _ _ => rfl,rfl,rfl⟩

section Frame

variable {R : RandomizedRowSwap → RandomizedRowSwap → Prop} (htrans : ∀ s t u,R s t → R t u → R s u)
  (hsearched : ∀ s t,Searched s t → R s t)
  (hdecision : ∀ s d,d.mitigate=s.decision.mitigate → R s {s with decision := d})
  (htable : ∀ s t,R s (s.setTable b t))

include htrans hdecision htable

theorem unswapExcess_frame (u : RandomizedRowSwap) (h : R s u) : Post (u.unswapExcess b) (R s) := by
  unfold unswapExcess
  rw [post_ite]
  refine ⟨fun _ => (post_true _).bind fun r _ => ?_,fun _ => h⟩
  refine (recordSwaps_post u r.2.1 r.2.2).partly.bind fun w hw => ?_
  obtain ⟨d,hd,rfl⟩:=hw
  exact htrans _ _ _ h (htrans _ _ _ (hdecision u d hd) (htable _ r.1))

include hsearched

theorem reswapTuple_frame (h : R s s') (id X Y : ℕ) : Post (s'.reswapTuple b id X Y) (R s) := by
  unfold reswapTuple
  refine (post_true _).bind fun r _ => ?_
  refine (generateRandomRowAddr_post (s'.setTable b r.1) r.2 b).partly.bind fun g hg => ?_
  refine (recordSwaps_post g.1 r.2 g.2).partly.bind fun w hw => (post_true _).bind fun t _ => ?_
  obtain ⟨d,hd,rfl⟩:=hw
  have hdrawn:=htrans _ _ _ h (htrans _ _ _ (htable s' r.1) (hsearched _ _ hg.1))
  exact htrans _ _ _ hdrawn (htrans _ _ _ (hdecision g.1 d hd) (htable _ t))

theorem insertTuple_frame (s : RandomizedRowSwap) (X : ℕ) : Post (s.insertTuple X b) (R s) := by
  rw [insertTuple]
  refine (post_true _).bind fun _ _ => ?_
  refine (recordSwap_post s.decision X).partly.bind fun d hd => ?_
  refine (generateRandomRowAddr_post {s with decision := d} X b).partly.bind fun g hg => ?_
  refine (recordSwap_post g.1.decision g.2).partly.bind fun d' hd' => ?_
  have hdrawn : R s {g.1 with decision := d'} :=
    htrans _ _ _ (hdecision s d hd) (htrans _ _ _ (hsearched _ _ hg.1) (hdecision g.1 d' hd'))
  generalize {g.1 with decision := d'}=t at hdrawn
  unfold insertDrawn
  refine (post_true _).bind fun index _ => (post_true _).bind fun id _ => ?_
  refine Post.bind (R := R s) ?_ fun u hu => ?_
  · rw [post_ite]
    refine ⟨fun _ => reswapTuple_frame htrans hsearched hdecision htable hdrawn _ _ _,fun _ => ?_⟩
    unfold installTuple
    exact (post_true _).bind fun t' _ => htrans _ _ _ hdrawn (htable t t')
  · refine Post.bind (unswapExcess_frame htrans hdecision htable u hu) fun w hw => ?_
    exact (post_true _).bind fun _ _ => htrans _ _ _ hw (hsearched _ _ ⟨_,_,rfl⟩)

end Frame

theorem insertTuple_aside (s : RandomizedRowSwap) (X : ℕ) (b : Bank) :
    Post (s.insertTuple X b) (Aside b s) :=
  insertTuple_frame (fun _ _ _ h h' => h.trans h') (fun _ _ h => h.aside b)
    (fun _ _ hd => ⟨rfl,fun _ _ => rfl,rfl,hd⟩) (aside_setTable b) s X

def unlocked (s : RandomizedRowSwap) (b : Bank) : Rit :=
  if s.hasBank b then (s.tables b).unlock s.numTuples else s.tables b

theorem reset_tables (s : RandomizedRowSwap) : Post s.reset (fun s' => SameShape s s' ∧
    s'.tables=s.unlocked ∧ s'.detector=s.detector.reset ∧ s'.decision=s.decision) fun e => e = .outOfBounds ∨ e = .intOverflow := by
  unfold reset
  exact ((sweepRows_post _ _ _ _ _ _).mono (fun _ h => h) fun _ he => he.imp And.left And.left).bind
    fun swept _ => ⟨rfl,rfl,rfl,rfl⟩

/-- The state in which an access has asked the detector. -/
structure Prepared (s : RandomizedRowSwap) (currTick : UInt64) (row : ℕ) (b : Bank)
    (m : RandomizedRowSwap) : Prop where
  shape : SameShape s m
  tables : m.tables=if windowOver currTick s.lastReset=true then s.unlocked else s.tables
  detected : (if windowOver currTick s.lastReset=true then s.detector.reset else s.detector).access
    row b false = .ok (m.detector,m.decision.mitigate)

theorem access_prepared {currTick : UInt64} {row : ℕ} {Q : RandomizedRowSwap → Prop} {E : Fault → Prop}
    (hfault : ∀ e, e ≠ .noUnlockedTuple → e ≠ .noRandomRow → E e)
    (hquiet : ∀ m, Prepared s currTick row b m → m.decision.mitigate=false → Q m)
    (hinsert : ∀ m, Prepared s currTick row b m → m.decision.mitigate=true →
      Post (m.insertTuple row b) (fun u => ∀ delay,
        Q {u with decision := {u.decision with delay := delay} }) E) :
    Post (s.access currTick row b) Q E := by
  unfold access
  refine Post.bind (R := fun t => SameShape s t ∧
    t.tables=(if windowOver currTick s.lastReset=true then s.unlocked else s.tables) ∧
    t.detector=if windowOver currTick s.lastReset=true then s.detector.reset else s.detector) ?_
    fun t ht => ?_
  · rw [post_ite]
    refine ⟨fun hover => ?_,fun hstay => ?_⟩
    · refine (reset_tables _).mono (fun t ht => ?_) fun e he => hfault e
        (by rcases he with rfl | rfl <;> exact nofun) (by rcases he with rfl | rfl <;> exact nofun)
      have hover' : windowOver currTick s.lastReset=true := hover
      rw [if_pos hover',if_pos hover']
      exact ⟨ht.1,ht.2.1,ht.2.2.1⟩
    · have hstay' : ¬windowOver currTick s.lastReset=true := hstay
      rw [if_neg hstay',if_neg hstay']
      exact ⟨rfl,rfl,rfl⟩
  · obtain ⟨hshape,htables,hdetector⟩:=ht
    simp only [post_bind,Cells.post_read]
    refine ⟨fun _ => ?_,fun _ => hfault _ (fun h => by cases h) fun h => by cases h⟩
    rw [post_within,hdetector]
    cases hdetect : (if windowOver currTick s.lastReset=true then s.detector.reset
        else s.detector).access row b false with
    | error e => exact hfault _ (fun h => by cases h) fun h => by cases h
    | ok r =>
      rw [post_ok,post_ite]
      refine ⟨fun hmit => ?_,fun hmit => ?_⟩
      · refine Post.bind (hinsert _ ⟨hshape,htables,?_⟩ hmit) fun u hu => hu _
        exact hdetect
      · refine hquiet _ ⟨hshape,htables,?_⟩ (by simpa using hmit)
        exact hdetect

/-! ## What the row swap counts -/

structure Uncounted (s s' : RandomizedRowSwap) : Prop where
  shape : SameShape s s'
  counts : s'.numAccessesToRow=s.numAccessesToRow

theorem Uncounted.trans {u : RandomizedRowSwap} (h : Uncounted s s') (h' : Uncounted s' u) : Uncounted s u :=
  ⟨h.shape.trans h'.shape,h'.counts.trans h.counts⟩

theorem Searched.uncounted (h : Searched s s') : Uncounted s s' := by
  obtain ⟨_,_,rfl⟩:=h
  exact ⟨rfl,rfl⟩

theorem insertTuple_uncounted (s : RandomizedRowSwap) (X : ℕ) (b : Bank) :
    Post (s.insertTuple X b) (Uncounted s) :=
  insertTuple_frame (fun _ _ _ h h' => h.trans h') (fun _ _ h => h.uncounted) (fun _ _ _ => ⟨rfl,rfl⟩)
    (fun _ _ => ⟨rfl,rfl⟩) s X

def numDRAMRows (s : RandomizedRowSwap) : ℕ := s.numRows*s.numBanks*s.numRanks*s.numChannels%2^32

theorem SameShape.numDRAMRows (h : SameShape s s') : s'.numDRAMRows=s.numDRAMRows :=
  congrArg (fun c : Shape => c.numRows*c.numBanks*c.numRanks*c.numChannels%2^32) h

structure Regular (s : RandomizedRowSwap) : Prop where
  size : s.numAccessesToRow.size=s.numDRAMRows
  outside : ∀ i, s.numDRAMRows ≤ i → s.numAccessesToRow.get i=0

/-- The loop of `reset` ends before its counter overflows. -/
theorem reset_returns_iff (h : s.Regular) : (∃ s',s.reset = .ok s') ↔ s.numDRAMRows<2^31 := by
  have hsweep:=sweepRows_post Fault.intOverflow (RowStats.count · s.threshold) s.numDRAMRows 0 s.stats.rows s.numAccessesToRow
  rw [Nat.zero_add,h.size] at hsweep
  exact Post.returns_iff ((hsweep.mono (fun _ hr => hr.2 (by decide)) fun _ he => by omega).bind fun _ hlt => hlt)

structure Counted (s s' : RandomizedRowSwap) (currTick : UInt64) (row : ℕ) (b : Bank) : Prop where
  shape : SameShape s s'
  regular : s'.Regular
  inBounds : b.bankID+s.numBanks*row<s.numDRAMRows
  counts : ∀ i,s'.numAccessesToRow.get i =
    let before := if windowOver currTick s.lastReset=true then 0 else s.numAccessesToRow.get i
    if i=b.bankID+s.numBanks*row then inc32 before else before

theorem access_counted (h : s.Regular) (currTick : UInt64) (row : ℕ) (b : Bank) :
    Post (s.access currTick row b) (fun s' => Counted s s' currTick row b) := by
  unfold access
  refine Post.bind (R := fun t => SameShape s t ∧ t.Regular ∧ ∀ i,t.numAccessesToRow.get i =
    if windowOver currTick s.lastReset=true then 0 else s.numAccessesToRow.get i) ?_ fun t ht => ?_
  · rw [post_ite]
    refine ⟨fun hover => ?_,fun hstay => ?_⟩
    · unfold reset
      refine Post.bind (sweepRows_post _ _ _ 0 _ _).partly fun r hswept => ?_
      have hr:=hswept.1
      have hall : ∀ i,r.2.get i=0 := fun i => by
        by_cases hin : i<s.numDRAMRows
        · exact hr.swept i (Nat.zero_le i) (by rw [Nat.zero_add]; exact hin)
        · exact hr.kept i (h.outside i (Nat.le_of_not_lt hin))
      have hover' : windowOver currTick s.lastReset=true := hover
      refine ⟨rfl,⟨hr.size.trans h.size,fun i _ => hall i⟩,fun i => ?_⟩
      rw [if_pos hover']
      exact hall i
    · have hstay' : ¬windowOver currTick s.lastReset=true := hstay
      refine ⟨rfl,⟨h.size,h.outside⟩,fun i => ?_⟩
      rw [if_neg hstay']
  obtain ⟨hshape,hregular,hcounts⟩:=ht
  have hbanks : t.numBanks=s.numBanks := congrArg Shape.numBanks hshape
  have hrows:=hshape.numDRAMRows
  simp only [post_bind,Cells.post_read]
  refine ⟨fun hin => ?_,fun _ => trivial⟩
  have hset : ∀ u : RandomizedRowSwap,SameShape s u →
      u.numAccessesToRow=t.numAccessesToRow.set (b.bankID+t.numBanks*row)
        (inc32 (t.numAccessesToRow.get (b.bankID+t.numBanks*row))) → Counted s u currTick row b := by
    intro u hu heq
    have hrowsu:=hu.numDRAMRows
    refine ⟨hu,⟨?_,fun i hi => ?_⟩,?_,fun i => ?_⟩
    · rw [heq,Cells.size_set,hregular.size,hrowsu,hrows]
    · rw [hregular.size] at hin
      rw [hrowsu,← hrows] at hi
      rw [heq,Cells.get_set_ne _ _ (by omega)]
      exact hregular.outside i hi
    · rwa [hregular.size,hrows,hbanks] at hin
    · rw [heq,Cells.get_set,hbanks]
      simp only [hcounts]
      split
      next hi => rw [hi]
      next => rfl
  rw [post_within]
  refine (post_true _).imp fun r _ => ?_
  rw [post_ite]
  refine ⟨fun _ => ?_,fun _ => hset _ hshape rfl⟩
  refine (insertTuple_uncounted _ row b).bind fun u hu => ?_
  exact hset _ (hshape.trans hu.shape) hu.counts

end AquaGem5.Swap.RandomizedRowSwap
