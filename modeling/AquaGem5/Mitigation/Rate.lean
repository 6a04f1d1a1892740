import AquaGem5.Quarantine.Tracking
import AquaGem5.Swap.MemCtrl

/-!
# How many rows a window quarantines

An access of the quarantine that `MemCtrl` builds moves a row exactly when the detector flags it.
-/

namespace AquaGem5.Quarantine.RowQuarantine
open Checked Detector Mitigation Windows

def mitigations (w : List Event) (b : Bank) : ℕ := w.countP fun e => e.bank=b ∧ e.mitigate=true

structure Tallied (T k : ℕ) (b : Bank) (begun : Bool) (w : List Event) (s : RowQuarantine) : Prop where
  addresses : s.randRowID.size≤2^32
  positive : 0<T
  threshold : s.detector.threshold=T
  numEntries : s.detector.numEntries=k
  bank : s.detector.hasBank b
  arrays : s.detector.Sized b
  tally : begun=true → loads w b≤1360000 → (s.detector.trackers b).Tallied k
    s.detector.numRows T (loads w b) (mitigations w b)

variable {rows n T k : ℕ} {s s' m : RowQuarantine} {b : Bank} {begun : Bool} {w log : List Event}
  {currTick : UInt64} {addr : ℕ}

theorem loads_snoc (w : List Event) (e : Event) (b : Bank) :
    loads (w++[e]) b=loads w b+if e.bank=b then 1 else 0 := by
  simp [loads,List.countP_append,List.countP_singleton]

theorem mitigations_snoc (w : List Event) (e : Event) (b : Bank) :
    mitigations (w++[e]) b=mitigations w b+if e.bank=b ∧ e.mitigate=true then 1 else 0 := by
  simp [mitigations,List.countP_append,List.countP_singleton]

theorem Tallied.refreshed (h : Tallied T k b begun w s) (hu : Refreshed s currTick s') :
    Tallied T k b (begun || windowOver currTick s.lastReset)
      (if windowOver currTick s.lastReset=true then [] else w) s' := by
  rcases hu with ⟨hover,acc,d,st,rfl⟩ | ⟨hover,d,st,rfl⟩
  · rw [hover,if_pos rfl]
    refine ⟨h.addresses,h.positive,h.threshold,h.numEntries,h.bank,MisraGries.reset_sized h.arrays,
      fun _ _ => ?_⟩
    have hreset:=MisraGries.reset_tracker h.bank
    rw [h.numEntries] at hreset
    dsimp only
    rw [hreset]
    exact Tracker.reset_tallied (h.arrays.1.trans h.numEntries) h.arrays.2 T
  · rw [hover,Bool.or_false]
    exact ⟨h.addresses,h.positive,h.threshold,h.numEntries,h.bank,h.arrays,h.tally⟩

theorem push_eq (w : List Event) (e : Event) : push Event.reset w e=(if e.reset=true then [] else w)++[e] := by
  unfold push
  split <;> rfl

theorem access_tallied (hs : s.Mapped rows n) (h : Tallied T k b begun w s)
    (haccess : s.access currTick addr = .ok s') :
    Tallied T k b (begun || (s.event currTick addr s').reset) (push Event.reset w (s.event currTick addr s')) s' := by
  obtain ⟨m,hdetect,hst⟩:=access_still hs haccess
  obtain ⟨hrange,u,v,acc,det,flag,hu,_,hv,hdet,rfl⟩:=(detect_frame s currTick addr).of_ok hdetect
  have hrefreshed:=h.refreshed hu
  have hrand : u.randRowID=s.randRowID := by
    rcases hu with ⟨_,_,_,_,rfl⟩ | ⟨_,_,_,rfl⟩ <;> rfl
  obtain ⟨f,c,d,st,_,_,_,rfl⟩:=hv
  have hmit : s'.decision.mitigate=flag := hst.mitigate
  have hbank : detectorBank (s.randRowID.get (addr/8192%2^32))=(s.event currTick addr s').bank := by
    rw [Nat.mod_eq_of_lt (hrange.trans_le h.addresses)]
    rfl
  rw [hbank] at hdet
  have hframe:=(MisraGries.access_ok hdet).2.1
  have hdetector : s'.detector=det := hst.detector
  rw [push_eq]
  constructor
  · rw [hst.randRowID]
    exact hrand ▸ h.addresses
  · exact h.positive
  · rw [hdetector,hframe.threshold]
    exact hrefreshed.threshold
  · rw [hdetector,hframe.numEntries]
    exact hrefreshed.numEntries
  · rw [hdetector]
    exact (hframe.hasBank b).mpr hrefreshed.bank
  · rw [hdetector]
    exact MisraGries.access_sized hrefreshed.arrays hdet
  · intro hbegun hload
    rw [loads_snoc] at hload
    have htally:=hrefreshed.tally hbegun (Nat.le_trans (Nat.le_add_right _ _) hload)
    have hone : loads (if windowOver currTick s.lastReset=true then [] else w) b≤1360000 :=
      Nat.le_trans (Nat.le_add_right _ _) hload
    rw [← hrefreshed.numEntries,← hrefreshed.threshold] at htally
    have hnext:=MisraGries.access_tallied hrefreshed.arrays
      (hrefreshed.threshold.symm ▸ h.positive) htally (by omega) hdet
    rw [hdetector,loads_snoc,mitigations_snoc,hframe.numRows]
    rw [hrefreshed.numEntries,hrefreshed.threshold,← hmit] at hnext
    exact hnext

theorem accessAll_tallied {as : List (UInt64 × ℕ)} (hs : s.Mapped rows n) (h : Tallied T k b begun w s)
    (hrun : s.accessAll as = .ok (s',log)) :
    Tallied T k b (begun || log.any Event.reset) (log.foldl (push Event.reset) w) s' := by
  induction as generalizing s w begun log with
  | nil =>
    cases hrun
    rw [List.any_nil,Bool.or_false]
    exact h
  | cons a as ih =>
    obtain ⟨s1,rest,haccess,hrest,rfl⟩:=accessAll_cons hrun
    rw [List.any_cons,← Bool.or_assoc]
    exact ih (access_kept hs haccess).mapped (access_tallied hs h haccess) hrest

theorem buildRQ_tallied (p : MemCtrlParams) (draws : ℕ → ℕ) (trackers : Bank → Tracker)
    (memory : RowQuarantine) : Post (buildRQ p draws trackers memory)
      (fun s => s.Mapped (builtRows p) p.rhRqQrSize ∧ ∀ b,s.detector.hasBank b →
        Tallied (p.rhActualThreshold/2) (1360000/(p.rhActualThreshold/2)) b false [] s) := by
  refine (buildRQ_post p draws trackers memory).imp ?_
  rintro s ⟨hT,_,_,_,_,_,_,_,_,_,_,rfl⟩
  have hmapped:=construct_mapped p.rhRqQrSize p.rowsPerBank (p.rhActualThreshold/2)
    (p.banksPerRank%256) (p.ranksPerChannel%256) 1 draws memory
  refine ⟨hmapped,fun b hb => ⟨?_,Nat.pos_of_ne_zero hT,rfl,rfl,hb,⟨rfl,rfl⟩,fun h => by cases h⟩⟩
  exact (shuffle_size draws _ _ 0 _).trans_le (Nat.mod_lt _ (by decide)).le

theorem mitigations_bounded {p : MemCtrlParams} {draws : ℕ → ℕ} {trackers : Bank → Tracker}
    {memory : RowQuarantine} {accesses : List (UInt64 × ℕ)} (hbuild : buildRQ p draws trackers memory = .ok s)
    (hb : s.detector.hasBank b) (hrun : s.accessAll accesses = .ok (s',log))
    (hbegun : ∃ e∈log,e.reset=true) (hload : loads (currentWindow log) b≤1360000) :
    mitigations (currentWindow log) b ≤ s.detector.numEntries := by
  obtain ⟨hmapped,htallied⟩:=(buildRQ_tallied p draws trackers memory).of_ok hbuild
  have hend:=accessAll_tallied hmapped (htallied b hb) hrun
  have hany : log.any Event.reset=true := List.any_eq_true.mpr hbegun
  have hflags:=(hend.tally hany hload).flags_le hend.positive
  rw [(htallied b hb).numEntries]
  exact hflags.trans (Nat.div_le_div_right hload)

end AquaGem5.Quarantine.RowQuarantine

/-!
## How often a bank is mitigated

Counters outlive the rows they were raised by, so flags are counted by counter: each multiple of
the threshold that a counter reaches is one flag, whichever row has the entry at the time.
-/

namespace AquaGem5.Mitigation
open Checked Detector MisraGries

/-- From a reset on, the calls to a bank that return true are the multiples of the threshold its
counters have reached, so with the sizing of `MemCtrl` a window inserts tuples, or quarantines
rows, at most once for each entry of the bank's tracker. -/
theorem mitigation_rate :
    (∀ d : MisraGries,d.Allocated → 0<d.threshold → ∀ calls : List Call,
      (∀ c∈calls,c.row<d.numRows ∧ d.hasBank c.bank) →
      ∃ d' outs,d.reset.run calls = .ok (d',outs) ∧
        ∀ b,d.hasBank b → accesses b calls<2^32 →
          raised b calls outs =
            ∑ i∈Finset.range d.numEntries,((d'.trackers b).entries.get i).count/d.threshold ∧
          raised b calls outs≤accesses b calls/d.threshold) ∧
    (∀ p trackers randSeq stats s0 b w s,Swap.buildRRS p trackers randSeq stats = .ok s0 →
      s0.hasBank b → Swap.RandomizedRowSwap.Run Swap.RandomizedRowSwap.AccessOnly s0 b w s →
      w.begun=true → w.accesses≤1360000 → w.insertions ≤ s0.detector.numEntries) ∧
    ∀ p draws trackers memory s b as s' log,Quarantine.buildRQ p draws trackers memory = .ok s →
      s.detector.hasBank b → s.accessAll as = .ok (s',log) → (∃ e∈log,e.reset=true) →
      Quarantine.RowQuarantine.loads (Quarantine.RowQuarantine.currentWindow log) b≤1360000 →
      Quarantine.RowQuarantine.mitigations (Quarantine.RowQuarantine.currentWindow log) b ≤
        s.detector.numEntries := by
  refine ⟨?_,?_,?_⟩
  · intro d hd hT calls hcalls
    exact run_raised hd hT hcalls
  · intro p trackers randSeq stats s0 b w s hbuild hb hrun hbegun hload
    exact Swap.RandomizedRowSwap.insertions_bounded hbuild hb hrun hbegun hload
  · intro p draws trackers memory s b as s' log hbuild hb hrun hbegun hload
    exact Quarantine.RowQuarantine.mitigations_bounded hbuild hb hrun hbegun hload

theorem mitigation_rate_of_takeover : ∃ d' outs,(construct 1 2 4 1 1 1 fun _ => .zeroed).reset.run
      [⟨1,⟨0,0,0⟩,false⟩,⟨2,⟨0,0,0⟩,false⟩,⟨3,⟨0,0,0⟩,false⟩] = .ok (d',outs) ∧
    raised ⟨0,0,0⟩ [⟨1,⟨0,0,0⟩,false⟩,⟨2,⟨0,0,0⟩,false⟩,⟨3,⟨0,0,0⟩,false⟩] outs =
      ((d'.trackers ⟨0,0,0⟩).entries.get 0).count/2 := by
  obtain ⟨d',outs,hrun,h⟩:=mitigation_rate.1 (construct 1 2 4 1 1 1 fun _ => .zeroed)
    (construct_allocated 1 2 4 1 1 1 _) (by decide)
    [⟨1,⟨0,0,0⟩,false⟩,⟨2,⟨0,0,0⟩,false⟩,⟨3,⟨0,0,0⟩,false⟩] (by decide)
  have hraised:=(h ⟨0,0,0⟩ (by decide) (by decide)).1
  exact ⟨d',outs,hrun,hraised.trans (Finset.sum_range_one _)⟩

end AquaGem5.Mitigation
