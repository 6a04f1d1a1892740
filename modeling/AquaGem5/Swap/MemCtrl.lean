import AquaGem5.Detector.Flags
import AquaGem5.Swap.Window

/-!
# The row swap `MemCtrl` builds (mem_ctrl.cc)

The `rh_mitigation == "RRS"` branch of the constructor sizes the table for two tuples per
detection of a window with at most 1360000 accesses to a bank.
-/

namespace AquaGem5.Swap
open Checked Detector Mitigation Rit

structure MemCtrlParams where
  rhActualThreshold : ℕ
  rowsPerBank : ℕ
  banksPerRank : ℕ
  ranksPerChannel : ℕ
  rhRrsSwapDelay : UInt64
  rhRitAccDelay : UInt64

/-- The bank and rank counts are cut to the `uint8_t` of the constructors; `trackers` is the
memory of the detector. -/
def buildRRS (p : MemCtrlParams) (trackers : Bank → Tracker) (randSeq : ℕ → ℕ) (stats : Stats) :
    Except Fault RandomizedRowSwap := do
  let rhThreshold := p.rhActualThreshold/6
  let rhMgEntries ← udiv 1360000 rhThreshold
  let rhRrsTuples := 2*rhMgEntries
  let numBanks := p.banksPerRank%256
  let numRanks := p.ranksPerChannel%256
  RandomizedRowSwap.construct rhRrsTuples p.rowsPerBank rhThreshold numBanks numRanks 1
    (.construct rhMgEntries rhThreshold p.rowsPerBank numBanks numRanks 1 trackers)
    p.rhRrsSwapDelay p.rhRitAccDelay randSeq stats

namespace RandomizedRowSwap

variable {s s' s0 m : RandomizedRowSwap} {b : Bank} {w : Window} {a : Action} {T n : ℕ}

def AccessOnly (a : Action) : Prop := a.isAccess=true

structure Configured (T n : ℕ) (b : Bank) (d : MisraGries) : Prop where
  positive : 0<T
  threshold : d.threshold=T
  numEntries : d.numEntries=n
  bank : d.hasBank b
  arrays : d.Sized b

def Tallied (T n : ℕ) (b : Bank) (w : Window) (d : MisraGries) : Prop :=
  w.begun=true → w.accesses≤1360000 → (d.trackers b).Tallied n d.numRows T w.accesses w.insertions

theorem access_detector (currTick : UInt64) (row : ℕ) (b' : Bank) : Post (s.access currTick row b')
    (fun s' => ∃ m, Prepared s currTick row b' m ∧ s'.detector=m.detector ∧
      s'.decision.mitigate=m.decision.mitigate) := by
  refine access_prepared (fun _ _ _ => trivial) (fun m hm _ => ⟨m,hm,rfl,rfl⟩) fun m hm _ => ?_
  exact (insertTuple_aside m row b').imp fun u hu _ => ⟨m,hm,hu.detector,hu.mitigate⟩

def asked (s : RandomizedRowSwap) (a : Action) : MisraGries :=
  if a.renews s=true then s.detector.reset else s.detector

theorem asked_configured (h : Configured T n b s.detector) (a : Action) : Configured T n b (s.asked a) := by
  unfold asked
  split
  next => exact ⟨h.positive,h.threshold,h.numEntries,h.bank,MisraGries.reset_sized h.arrays⟩
  next => exact h

theorem asked_tallied (h : Configured T n b s.detector) (ht : Tallied T n b w s.detector) (a : Action) :
    Tallied T n b (w.renewed b s a) (s.asked a) := by
  unfold asked Window.renewed
  split
  next =>
    intro _ _
    rw [MisraGries.reset_tracker h.bank,h.numEntries]
    exact Tracker.reset_tallied (h.arrays.1.trans h.numEntries) h.arrays.2 T
  next => exact ht

def Window.detected (w : Window) (b b' : Bank) (mitigate : Bool) : Window :=
  {w with
    accesses := w.accesses+if b'=b then 1 else 0
    insertions := w.insertions+if b'=b ∧ mitigate=true then 1 else 0}

theorem detected_tallied {d d' : MisraGries} {row : ℕ} {b' : Bank} {mitigate : Bool}
    (h : Configured T n b d) (ht : Tallied T n b w d) (haccess : d.access row b' false = .ok (d',mitigate)) :
    Configured T n b d' ∧ Tallied T n b (w.detected b b' mitigate) d' := by
  obtain ⟨_,hframe,_⟩:=MisraGries.access_ok haccess
  refine ⟨⟨h.positive,hframe.threshold.trans h.threshold,hframe.numEntries.trans h.numEntries,
    (hframe.hasBank b).mpr h.bank,MisraGries.access_sized h.arrays haccess⟩,fun hbegun hload => ?_⟩
  have hload' : w.accesses+(if b'=b then 1 else 0)≤1360000 := hload
  have htallied:=ht hbegun (by omega)
  rw [← h.numEntries,← h.threshold] at htallied
  have hnext:=MisraGries.access_tallied h.arrays (h.threshold.symm ▸ h.positive) htallied (by omega) haccess
  rw [h.numEntries,h.threshold] at hnext
  rw [hframe.numRows]
  exact hnext

theorem prepared_tallied {currTick : UInt64} {row : ℕ} {b' : Bank} (h : Configured T n b s.detector)
    (ht : Tallied T n b w s.detector) (hm : Prepared s currTick row b' m) :
    Configured T n b m.detector ∧ Tallied T n b
      ((w.renewed b s (.access currTick row b')).detected b b' m.decision.mitigate) m.detector :=
  detected_tallied (asked_configured h (.access currTick row b'))
    (asked_tallied h ht (.access currTick row b')) hm.detected

theorem run_tallied (h0 : Configured T n b s0.detector) (h : Run AccessOnly s0 b w s) :
    Configured T n b s.detector ∧ Tallied T n b w s.detector := by
  induction h with
  | start => exact ⟨h0,fun hbegun => by cases hbegun⟩
  | step w s s' a _ hallowed hperform ih =>
    cases a with
    | access currTick row b' =>
      obtain ⟨m,hm,hdetector,hmitigate⟩:=(access_detector currTick row b').of_ok hperform
      have hnext : w.next b s (.access currTick row b') s' =
          (w.renewed b s (.access currTick row b')).detected b b' m.decision.mitigate := by
        unfold Window.next Window.detected Action.insertions
        rw [inserted_access,hmitigate]
        split
        next => rfl
        next => rfl
      rw [hdetector,hnext]
      exact prepared_tallied ih.1 ih.2 hm
    | insertTuple row b' | reset | resetDecision | getRemappedAddr row b' f => cases hallowed

theorem budget_left {currTick : UInt64} {row : ℕ} (h0 : Configured T n b s0.detector)
    (h : Run AccessOnly s0 b w s) (hm : Prepared s currTick row b m) (hmit : m.decision.mitigate=true)
    (hbegun : (w.renewed b s (.access currTick row b)).begun=true)
    (hload : (w.renewed b s (.access currTick row b)).accesses<1360000) :
    (w.renewed b s (.access currTick row b)).insertions<1360000/T := by
  obtain ⟨hconfig,htallied⟩:=run_tallied h0 h
  obtain ⟨_,hdetected⟩:=prepared_tallied hconfig htallied hm
  have hload' : ((w.renewed b s (.access currTick row b)).detected b b m.decision.mitigate).accesses ≤
      1360000 := by
    simp only [Window.detected,if_true]
    omega
  have hflags:=(hdetected hbegun hload').flags_le hconfig.positive
  have hmono:=hflags.trans (Nat.div_le_div_right hload')
  simp only [Window.detected,hmit,and_self,if_true] at hmono
  omega

variable {randSeq : ℕ → ℕ}

theorem construct_fresh {demandTuples numRows threshold numBanks numRanks numChannels : ℕ}
    {detector : MisraGries} {swapDelay sramRitAccDelay : UInt64} {stats : Stats}
    (h : construct demandTuples numRows threshold numBanks numRanks numChannels detector swapDelay
      sramRitAccDelay randSeq stats = .ok s0) : s0.maxValidTuples=demandTuples ∧
      s0.detector=detector ∧ s0.numBanks=numBanks ∧ s0.numRanks=numRanks ∧
      s0.numChannels=numChannels ∧ Guard s0.numTuples 0 (s0.tables b) := by
  obtain ⟨n,_,hs⟩:=bind_ok h
  cases hs
  exact ⟨rfl,rfl,rfl,rfl,rfl,calloc_guard n numRows⟩

/-- Every run of a table constructed for `demandTuples` tuples keeps every bank defended. -/
def Defends (demandTuples : ℕ) : Prop :=
  ∀ numRows threshold numBanks numRanks numChannels detector swapDelay sramRitAccDelay randSeq stats
    s0 b w s, construct demandTuples numRows threshold numBanks numRanks numChannels detector swapDelay
      sramRitAccDelay randSeq stats = .ok s0 → s0.hasBank b → Run (fun _ => True) s0 b w s → Defended b w s

theorem defends_of_ne {demandTuples : ℕ} (hne : demandTuples≠2) : Defends demandTuples := by
  intro numRows threshold numBanks numRanks numChannels detector swapDelay sramRitAccDelay randSeq stats
    s0 b w s hconstruct hb hrun
  obtain ⟨hmax,_,_,_,_,hguard⟩:=construct_fresh (b := b) hconstruct
  refine run_defended hb (fun hpos => ?_) hguard hrun
  rw [hmax] at hpos
  exact construct_sane (by omega) hconstruct

/-- Two tuples are allocated for a demand of two, and the table of the first window keeps both. -/
theorem not_defends_two : ¬Defends 2 := by
  intro h
  have hrun : Post (do
      let s0 ← construct 2 8 2 1 1 1 (.construct 2 2 8 1 1 1 fun _ => .zeroed) 0 0 id
        ⟨0,0,0,0,0,0,0,0,⟨0,.calloc 4 0⟩⟩
      let s1 ← s0.perform (.insertTuple 0 ⟨0,0,0⟩)
      let s2 ← s1.perform .reset
      let s3 ← s2.perform .resetDecision
      let s4 ← s3.perform (.insertTuple 2 ⟨0,0,0⟩)
      let s5 ← s4.perform .reset
      pure (s0,s5)) (fun p => p.1.hasBank ⟨0,0,0⟩ ∧ p.2.maxValidTuples=2 ∧ p.2.numTuples=2 ∧
        ∀ i<2, ((p.2.tables ⟨0,0,0⟩).tuples.get i).valid=true) fun _ => False := by
    decide +kernel
  obtain ⟨p,hp,hb,hmax,hn,hfull⟩:=hrun.returns
  obtain ⟨s0,h0,hp⟩:=bind_ok hp
  obtain ⟨s1,h1,hp⟩:=bind_ok hp
  obtain ⟨s2,h2,hp⟩:=bind_ok hp
  obtain ⟨s3,h3,hp⟩:=bind_ok hp
  obtain ⟨s4,h4,hp⟩:=bind_ok hp
  obtain ⟨s5,h5,hp⟩:=bind_ok hp
  cases hp
  have hreach : Run (fun _ => True) s0 ⟨0,0,0⟩ _ s5 :=
    .step _ s4 s5 .reset (.step _ s3 s4 (.insertTuple 2 ⟨0,0,0⟩) (.step _ s2 s3 .resetDecision
      (.step _ s1 s2 .reset (.step _ s0 s1 (.insertTuple 0 ⟨0,0,0⟩) .start trivial h1) trivial h2)
      trivial h3) trivial h4) trivial h5
  have hdefended:=h _ _ _ _ _ _ _ _ _ _ s0 ⟨0,0,0⟩ _ s5 h0 hb hreach
  obtain ⟨i,hi,hfree⟩:=hdefended.free .resetDecision (by rw [hmax]; exact Nat.one_pos)
  have hvalid : ((s5.tables ⟨0,0,0⟩).tuples.get i).valid=false := hfree
  rw [hfull i (by rw [← hn]; exact hi)] at hvalid
  cases hvalid

theorem buildRRS_configured {p : MemCtrlParams} {trackers : Bank → Tracker} {stats : Stats}
    (hbuild : buildRRS p trackers randSeq stats = .ok s0) (hb : s0.hasBank b) :
    Configured (p.rhActualThreshold/6) (1360000/(p.rhActualThreshold/6)) b s0.detector ∧
      s0.maxValidTuples=2*(1360000/(p.rhActualThreshold/6)) := by
  obtain ⟨n,hdiv,hconstruct⟩:=bind_ok hbuild
  have hentries : n=1360000/(p.rhActualThreshold/6) ∧ 0<p.rhActualThreshold/6 := by
    unfold udiv at hdiv
    split at hdiv
    next => cases hdiv
    next hpos =>
      cases hdiv
      exact ⟨rfl,Nat.pos_of_ne_zero hpos⟩
  obtain ⟨hmax,hdetector,hbanks,hranks,hchannels,_⟩:=construct_fresh (b := b) hconstruct
  unfold hasBank at hb
  rw [hbanks,hranks,hchannels] at hb
  rw [hdetector,hmax,← hentries.1]
  exact ⟨⟨hentries.2,rfl,rfl,hb,rfl,rfl⟩,rfl⟩

theorem insertions_bounded {p : MemCtrlParams} {trackers : Bank → Tracker} {stats : Stats}
    (hbuild : buildRRS p trackers randSeq stats = .ok s0) (hb : s0.hasBank b)
    (hrun : Run AccessOnly s0 b w s) (hbegun : w.begun=true) (hload : w.accesses≤1360000) :
    w.insertions ≤ s0.detector.numEntries := by
  obtain ⟨hconfig,_⟩:=buildRRS_configured hbuild hb
  have hflags:=((run_tallied hconfig hrun).2 hbegun hload).flags_le hconfig.positive
  rw [hconfig.numEntries]
  exact hflags.trans (Nat.div_le_div_right hload)

/-- A table with room for its demand of at least three tuples is safe through every window of
half as many insertions, and `MemCtrl` builds one no window of accesses can overrun. -/
theorem capacity (demandTuples : ℕ) : (Defends demandTuples ↔ demandTuples≠2) ∧
    ∀ p trackers randSeq stats s0 b w s, buildRRS p trackers randSeq stats = .ok s0 → s0.hasBank b →
      Run AccessOnly s0 b w s →
      (w.begun=true → w.accesses≤1360000 → w.insertions ≤ s.maxValidTuples/2) ∧
      ∀ currTick row m, Prepared s currTick row b m → m.decision.mitigate=true →
        (w.renewed b s (.access currTick row b)).begun=true →
        (w.renewed b s (.access currTick row b)).accesses<1360000 →
        (w.renewed b s (.access currTick row b)).insertions<s.maxValidTuples/2 := by
  refine ⟨⟨fun h heq => ?_,defends_of_ne⟩,?_⟩
  · subst heq
    exact not_defends_two h
  intro p trackers randSeq stats s0 b w s hbuild hb hrun
  obtain ⟨hconfig,hmax⟩:=buildRRS_configured hbuild hb
  have hhalf : s.maxValidTuples/2=s0.detector.numEntries := by
    rw [(run_shape hrun).maxValidTuples,hmax,hconfig.numEntries]
    omega
  rw [hhalf]
  refine ⟨insertions_bounded hbuild hb hrun,fun currTick row m hm hmit hbegun hload => ?_⟩
  rw [hconfig.numEntries]
  exact budget_left hconfig hrun hm hmit hbegun hload

/-- At a threshold of one the first access of a window is mitigated. -/
theorem capacity_first : ∃ s0 m,buildRRS ⟨6,4,1,1,0,0⟩ (fun _ => .zeroed) id ⟨0,0,0,0,0,0,0,0,⟨0,.calloc 4 0⟩⟩ = .ok s0 ∧
    Prepared s0 64000000000 0 ⟨0,0,0⟩ m ∧ m.decision.mitigate=true ∧ 0<s0.maxValidTuples/2 := by
  have hrun : Post (buildRRS ⟨6,4,1,1,0,0⟩ (fun _ => .zeroed) id ⟨0,0,0,0,0,0,0,0,⟨0,.calloc 4 0⟩⟩) (fun s0 =>
      s0.hasBank ⟨0,0,0⟩ ∧ windowOver 64000000000 s0.lastReset=true ∧
        Post (s0.detector.reset.access 0 ⟨0,0,0⟩ false) (fun r => r.2=true) fun _ => False) fun _ => False := by
    decide +kernel
  obtain ⟨s0,hbuild,hb,hover,hasked⟩:=hrun.returns
  obtain ⟨r,hasked,hflag⟩:=hasked.returns
  have hprep : Prepared s0 64000000000 0 ⟨0,0,0⟩ {s0 with
      tables := s0.unlocked, detector := r.1, decision := {s0.decision with mitigate := r.2} } := by
    refine ⟨rfl,(if_pos hover).symm,?_⟩
    rw [if_pos hover]
    exact hasked
  have hroom:=((capacity 4).2 _ _ _ _ s0 _ _ s0 hbuild hb .start).2 64000000000 0 _ hprep hflag
  rw [show Window.renewed _ _ s0 (.access _ 0 _)=⟨true,0,0,s0.unlocked ⟨0,0,0⟩⟩ from if_pos hover] at hroom
  exact ⟨s0,_,hbuild,hprep,hflag,hroom rfl (Nat.zero_lt_succ _)⟩

end RandomizedRowSwap

end AquaGem5.Swap
