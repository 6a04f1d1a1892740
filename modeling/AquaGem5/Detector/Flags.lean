import AquaGem5.Detector.Detection

/-!
# How far a row is above its last flag

The rest of a row's estimate modulo the threshold rises at each access that does not flag the row.
-/

namespace AquaGem5.Detector.MisraGries
open Checked

def rest (d : MisraGries) (b : Bank) (r : ℕ) : ℕ := (d.trackers b).summary.estimate r%d.threshold

structure Loaded (load : Bank → ℕ) (d : MisraGries) : Prop where
  sound : d.Sound
  counted : ∀ b, d.hasBank b → Summary.Counted (Finset.range d.numEntries) (load b) (d.trackers b).summary

variable {d : MisraGries} {load : Bank → ℕ} {b : Bank} {r : ℕ}

theorem rest_lt (hT : 0<d.threshold) (b : Bank) (r : ℕ) : d.rest b r<d.threshold :=
  Nat.mod_lt _ hT

theorem reset_loaded (hd : d.Allocated) : Loaded (fun _ => 0) d.reset := by
  refine ⟨reset_sound hd,fun b hb => ?_⟩
  have hb' : d.hasBank b := hb
  rw [reset_tracker hb']
  exact Tracker.reset_counted (hd b hb').2

theorem reset_rest (hd : d.Allocated) (hb : d.hasBank b) (r : ℕ) : d.reset.rest b r=0 := by
  have hcounted:=Tracker.reset_counted (n := d.numEntries) (t := d.trackers b) (hd b hb).2
  rw [← reset_tracker hb] at hcounted
  unfold rest
  rw [hcounted.estimate_zero r,Nat.zero_mod]

structure Rested (b : Bank) (r : ℕ) (load : Bank → ℕ) (d d' : MisraGries) (flagged : Bool) : Prop where
  frame : Frame b d d'
  loaded : Loaded (Function.update load b (load b+1)) d'
  rises : ∀ b' r', ¬(b'=b ∧ r'=r) → d.rest b' r'≤d'.rest b' r'
  quiet : flagged=false → d.rest b r<d'.rest b r

theorem access_rested (hd : Loaded load d) (hT : 0<d.threshold) (hr : r<d.numRows)
    (hb : d.hasBank b) (hN : load b+1<d.threshold*(d.numEntries+1)) (hN' : load b+1<2^32) :
    Post (d.access r b false) (fun p => Rested b r load d p.1 p.2) fun _ => False := by
  refine (access_post hd.sound hT hr hb).imp ?_
  rintro ⟨d',flagged⟩ ⟨hf,ht⟩
  have hcounted:=hd.counted b hb
  have hstep:=ht.step (Tracker.fits_of_counted hcounted hN')
  have hcounted':=Summary.step_counted hcounted hstep
  have hspill:=hcounted'.spill_lt (by rw [Finset.card_range]; exact hN)
  refine ⟨hf,⟨hf.sound hd.sound ht.sound,?_⟩,?_,?_⟩
  · intro b' hb'
    rw [hf.numEntries]
    by_cases h : b'=b
    · subst h
      rw [Function.update_self]
      exact hcounted'
    · rw [Function.update_of_ne h,hf.others b' h]
      exact hd.counted b' ((hf.hasBank b').mp hb')
  · intro b' r' hne
    unfold rest
    rw [hf.threshold]
    by_cases h : b'=b
    · subst h
      exact Summary.step_rest_ne hcounted hstep (fun hr' => hne ⟨rfl,hr'⟩) hspill
    · rw [hf.others b' h]
  · intro hquiet
    unfold rest
    rw [hf.threshold]
    apply Summary.step_rest_self hT hstep
    intro hdvd
    have hmark:=ht.flagged.mpr
    rw [Tracker.tracked,Option.isSome_iff_ne_none,Summary.marked_iff hstep hspill] at hmark
    rw [hmark hdvd] at hquiet
    cases hquiet

end AquaGem5.Detector.MisraGries

/-!
## How many flags a tracker raises

A flag is a counter reaching a multiple of the threshold, so that `N` accesses raise at most `N / threshold` flags.
-/

namespace AquaGem5.Detector

namespace Tracker
open Checked

variable {n rows T N k r : ℕ} {t : Tracker}

structure Tallied (n rows T N k : ℕ) (t : Tracker) : Prop where
  sound : t.Sound n rows
  counted : Summary.Counted (Finset.range n) N t.summary
  tally : k≤t.summary.thresholds (Finset.range n) T

theorem Tallied.flags_le (h : t.Tallied n rows T N k) (hT : 0<T) : k≤N/T :=
  h.tally.trans (h.counted.thresholds_le hT)

theorem access_tallied (h : t.Tallied n rows T N k) (hT : 0<T) (hr : r<rows) (hN : N+1<2^32)
    (u : UInt64) : Post (t.access n T u r false)
      (fun p => p.1.Tallied n rows T (N+1) (k+if p.2.2=true then 1 else 0)) fun _ => False := by
  refine (access_post h.sound hT hr u).imp fun p hp => ?_
  have hstep:=hp.step (fits_of_counted h.counted hN)
  obtain ⟨hrises,hmark⟩:=Summary.step_thresholds (T := T) h.counted hstep
  refine ⟨hp.sound,Summary.step_counted h.counted hstep,?_⟩
  have htally:=h.tally
  split
  next hflag =>
    obtain ⟨htracked,hdvd⟩:=hp.flagged.mp hflag
    obtain ⟨i,hi⟩:=Option.isSome_iff_exists.mp htracked
    rw [Summary.estimate_some hi] at hdvd
    exact (Nat.add_le_add_right htally 1).trans (hmark i hi hdvd)
  next => exact htally.trans hrises

theorem reset_tallied (hentries : t.entries.size=n) (hindex : t.rowHasEntry.size=rows) (T : ℕ) :
    (t.reset n rows).Tallied n rows T 0 0 :=
  ⟨reset_sound hentries hindex,reset_counted hindex,Nat.zero_le _⟩

def SameSizes (t t' : Tracker) : Prop :=
  t'.entries.size=t.entries.size ∧ t'.rowHasEntry.size=t.rowHasEntry.size

theorem flag_sizes (T : ℕ) (t : Tracker) (u : UInt64) (r count : ℕ) :
    Post (flag T t u r count) (fun p => SameSizes t p.1) := by
  unfold flag
  rw [post_bind]
  refine (post_true (umod count T)).imp fun rest _ => ?_
  rw [post_ite]
  refine ⟨fun _ => ?_,fun _ => ⟨rfl,rfl⟩⟩
  unfold recordAggressor
  dsimp only
  split
  next => exact ⟨rfl,rfl⟩
  next => exact ⟨rfl,rfl⟩

theorem write_size {α : Type} (c : Cells α) (i : ℕ) (a : α) :
    Post (c.write i a : Except Fault (Cells α)) (fun c' => c'.size=c.size) := by
  rw [Cells.post_write]
  exact ⟨fun _ => rfl,fun _ => trivial⟩

theorem access_sizes (n T : ℕ) (t : Tracker) (u : UInt64) (r : ℕ) (isFuncLookup : Bool) :
    Post (t.access n T u r isFuncLookup) (fun p => SameSizes t p.1) := by
  unfold access
  generalize ht' : (if isFuncLookup=true then t else {t with sNumAccess := t.sNumAccess+1})=t'
  have hsame : SameSizes t t' := by
    rw [← ht']
    split
    next => exact ⟨rfl,rfl⟩
    next => exact ⟨rfl,rfl⟩
  have hlift : ∀ p : Tracker × UInt64 × Bool, SameSizes t' p.1 → SameSizes t p.1 := fun p hp =>
    ⟨hp.1.trans hsame.1,hp.2.trans hsame.2⟩
  refine (post_true _).bind fun index _ => ?_
  rw [post_ite]
  refine ⟨fun _ => ?_,fun _ => ?_⟩
  · unfold hit
    refine (post_true _).bind fun e _ => (post_true _).bind fun _ _ => ?_
    rw [post_ite]
    refine ⟨fun _ => hsame,fun _ => ?_⟩
    exact (flag_sizes T _ u r _).imp fun p hp => hlift p hp
  · rw [post_ite]
    refine ⟨fun _ => hsame,fun _ => (post_true _).bind fun found _ => ?_⟩
    cases found with
    | none => exact hsame
    | some ii =>
      unfold install
      refine (post_true _).bind fun e _ => ?_
      refine Post.bind (R := fun index => index.size=t'.rowHasEntry.size) ?_ fun index hindex => ?_
      · rw [post_ite]
        exact ⟨fun _ => write_size t'.rowHasEntry e.addr 0,fun _ => rfl⟩
      · refine (write_size index r (ii+1)).bind fun index' hindex' => ?_
        refine (flag_sizes T _ u r _).imp fun p hp => hlift p ⟨hp.1,?_⟩
        exact hp.2.trans (hindex'.trans hindex)

end Tracker

namespace MisraGries
open Checked

variable {d d' : MisraGries} {b : Bank} {row : ℕ} {isFuncLookup flagged : Bool}

def Sized (b : Bank) (d : MisraGries) : Prop :=
  (d.trackers b).entries.size=d.numEntries ∧ (d.trackers b).rowHasEntry.size=d.numRows

theorem access_ok (h : d.access row b isFuncLookup = .ok (d',flagged)) : d.hasBank b ∧ Frame b d d' ∧
    ∃ u, (d.trackers b).access d.numEntries d.threshold d.sNumUniqRows row isFuncLookup =
      .ok (d'.trackers b,u,flagged) := by
  obtain ⟨_,hcheck,h⟩:=bind_ok h
  obtain ⟨r,haccess,h⟩:=bind_ok h
  cases h
  unfold check at hcheck
  split at hcheck
  next hb =>
    refine ⟨hb,frame_update d b _ _,r.2.1,?_⟩
    have hself : Function.update d.trackers b r.1 b=r.1 := Function.update_self ..
    rw [haccess]
    show Except.ok r=Except.ok (Function.update d.trackers b r.1 b,r.2.1,r.2.2)
    rw [hself]
  next => cases hcheck

theorem access_sized {b' : Bank} (hs : d.Sized b) (h : d.access row b' isFuncLookup = .ok (d',flagged)) :
    d'.Sized b := by
  obtain ⟨_,hframe,u,htracker⟩:=access_ok h
  unfold Sized
  rw [hframe.numEntries,hframe.numRows]
  by_cases hb : b=b'
  · subst hb
    obtain ⟨hentries,hindex⟩:=(Tracker.access_sizes d.numEntries d.threshold (d.trackers b)
      d.sNumUniqRows row isFuncLookup).of_ok htracker
    exact ⟨hentries.trans hs.1,hindex.trans hs.2⟩
  · rw [hframe.others b hb]
    exact hs

theorem row_lt_of_access (h : d.access row b isFuncLookup = .ok (d',flagged)) :
    row<(d.trackers b).rowHasEntry.size := by
  obtain ⟨_,_,u,htracker⟩:=access_ok h
  have hpost : Post ((d.trackers b).access d.numEntries d.threshold d.sNumUniqRows row isFuncLookup)
      (fun _ => row<(d.trackers b).rowHasEntry.size) := by
    have hindex : ∀ t : Tracker, t.rowHasEntry=(d.trackers b).rowHasEntry →
        Post (t.rowHasEntry.read row : Except Fault ℕ)
          (fun _ => row<(d.trackers b).rowHasEntry.size) := by
      intro t ht
      rw [ht,Cells.post_read]
      exact ⟨fun hin => hin,fun _ => trivial⟩
    unfold Tracker.access
    refine (hindex _ ?_).bind fun index hin => (post_true _).imp fun _ _ => hin
    split
    next => rfl
    next => rfl
  exact hpost.of_ok htracker

theorem access_tallied {b' : Bank} {N k : ℕ} (hs : d.Sized b) (hT : 0<d.threshold)
    (h : (d.trackers b).Tallied d.numEntries d.numRows d.threshold N k) (hN : N+1<2^32)
    (haccess : d.access row b' false = .ok (d',flagged)) :
    (d'.trackers b).Tallied d.numEntries d.numRows d.threshold (N+if b'=b then 1 else 0)
      (k+if b'=b ∧ flagged=true then 1 else 0) := by
  obtain ⟨_,hframe,u,htracker⟩:=access_ok haccess
  by_cases hb : b'=b
  · subst hb
    have hrow:=row_lt_of_access haccess
    rw [hs.2] at hrow
    simp only [if_true,true_and]
    exact (Tracker.access_tallied h hT hrow hN _).of_ok htracker
  · simp only [hb,false_and,if_false,Nat.add_zero]
    rw [hframe.others b (Ne.symm hb)]
    exact h

theorem reset_sized (hs : d.Sized b) : d.reset.Sized b := by
  unfold Sized reset
  dsimp only
  split
  next => exact hs
  next => exact hs

def raised (b : Bank) (calls : List Call) (outs : List Bool) : ℕ :=
  (history b calls outs).countP fun p => p.2

theorem run_raised (hd : d.Allocated) (hT : 0<d.threshold) {calls : List Call}
    (hcalls : ∀ c∈calls,c.row<d.numRows ∧ d.hasBank c.bank) : ∃ d' outs,d.reset.run calls = .ok (d',outs) ∧
      ∀ b,d.hasBank b → accesses b calls<2^32 → raised b calls outs =
          ∑ i∈Finset.range d.numEntries,((d'.trackers b).entries.get i).count/d.threshold ∧
        raised b calls outs≤accesses b calls/d.threshold := by
  obtain ⟨⟨d',outs⟩,hrun,h⟩:=(run_tracked hd hT calls hcalls).returns
  refine ⟨d',outs,hrun,fun b hb hN => ?_⟩
  have hsum:=h.history b hb hN
  have hraised : raised b calls outs =
      (d'.trackers b).summary.thresholds (Finset.range d.numEntries) d.threshold :=
    Summary.run_thresholds hsum
  refine ⟨hraised,?_⟩
  rw [hraised,← history_length b calls outs h.length]
  exact (Summary.run_counted hsum).thresholds_le hT

end MisraGries

end AquaGem5.Detector
