import AquaGem5.Detector.Tracker

/-!
# Runs of the detector from a reset

A run is a list of `access` calls over all banks, functional lookups included.
-/

namespace AquaGem5.Detector
open Checked List

structure Call where
  row : ℕ
  bank : Bank
  isFuncLookup : Bool
  deriving DecidableEq

namespace MisraGries

def run : MisraGries → List Call → Except Fault (MisraGries × List Bool)
  | d,[] => pure (d,[])
  | d,c::cs => do
    let r ← d.access c.row c.bank c.isFuncLookup
    let rest ← run r.1 cs
    pure (rest.1,r.2::rest.2)

def history (b : Bank) (calls : List Call) (outs : List Bool) : List (ℕ × Bool) :=
  ((calls.zip outs).filter fun p => p.1.bank=b ∧ p.1.isFuncLookup=false).map
    fun p => (p.1.row,p.2)

def accesses (b : Bank) (calls : List Call) : ℕ :=
  calls.countP fun c => c.bank=b ∧ c.isFuncLookup=false

def flags (b : Bank) (r : ℕ) (calls : List Call) (outs : List Bool) : List Bool :=
  Summary.marks r (history b calls outs)

def Allocated (d : MisraGries) : Prop :=
  ∀ b, d.hasBank b → (d.trackers b).entries.size=d.numEntries ∧
    (d.trackers b).rowHasEntry.size=d.numRows

def Sound (d : MisraGries) : Prop :=
  ∀ b, d.hasBank b → (d.trackers b).Sound d.numEntries d.numRows

theorem construct_allocated (numEntries threshold numRows numBanks numRanks numChannels : ℕ)
    (memory : Bank → Tracker) :
    (construct numEntries threshold numRows numBanks numRanks numChannels memory).Allocated :=
  fun _ _ => ⟨rfl,rfl⟩

variable {d : MisraGries} {b : Bank}

theorem reset_tracker (hb : d.hasBank b) :
    d.reset.trackers b=(d.trackers b).reset d.numEntries d.numRows := if_pos hb

theorem reset_sound (hd : d.Allocated) : d.reset.Sound := by
  intro b hb
  have hb' : d.hasBank b := hb
  rw [reset_tracker hb']
  exact Tracker.reset_sound (hd b hb').1 (hd b hb').2

theorem Sound.allocated (hd : d.Sound) : d.Allocated :=
  fun b hb => ⟨(hd b hb).entries_size,(hd b hb).index_size⟩

structure Frame (b : Bank) (d d' : MisraGries) : Prop where
  threshold : d'.threshold=d.threshold
  numEntries : d'.numEntries=d.numEntries
  numRows : d'.numRows=d.numRows
  hasBank : ∀ b', d'.hasBank b' ↔ d.hasBank b'
  others : ∀ b', b'≠b → d'.trackers b'=d.trackers b'

theorem frame_update (d : MisraGries) (b : Bank) (t : Tracker) (u : UInt64) :
    Frame b d {d with trackers := Function.update d.trackers b t, sNumUniqRows := u} :=
  ⟨rfl,rfl,rfl,fun _ => Iff.rfl,fun _ h => Function.update_of_ne h ..⟩

theorem access_wraps (hd : d.Sound) {r : ℕ} (hr : r<d.numRows) (hb : d.hasBank b) :
    Post (d.access r b false) (fun p => Frame b d p.1 ∧
      Tracker.Wrapped d.numEntries d.numRows d.threshold r (d.trackers b) (p.1.trackers b) p.2)
      fun _ => d.threshold=0 := by
  simp only [access,post_bind,post_check,hb,not_true_eq_false,false_implies,and_true,true_implies]
  refine (Tracker.access_wraps (hd b hb) hr _).imp ?_
  intro p hp
  refine ⟨frame_update d b _ _,?_⟩
  simpa only [Function.update_self] using hp

theorem access_post (hd : d.Sound) (hT : 0<d.threshold) {r : ℕ} (hr : r<d.numRows) (hb : d.hasBank b) :
    Post (d.access r b false) (fun p => Frame b d p.1 ∧
      Tracker.Touched d.numEntries d.numRows d.threshold r (d.trackers b) (p.1.trackers b) p.2) fun _ => False :=
  (access_wraps hd hr hb).mono (fun _ hp => ⟨hp.1,hp.2.touched⟩) fun _ h => by omega

theorem access_functional (hd : d.Sound) {r : ℕ} (hr : r<d.numRows)
    (hb : d.hasBank b) : d.access r b true = .ok (d,(d.trackers b).tracked r) := by
  simp only [access,check,if_pos hb,Tracker.access_functional (hd b hb) hr,bind,Except.bind,pure,
    Except.pure,Function.update_eq_self]

theorem Frame.sound {d d' : MisraGries} (hf : Frame b d d') (hd : d.Sound)
    (ht : (d'.trackers b).Sound d.numEntries d.numRows) : d'.Sound := by
  intro b' hb'
  rw [hf.numEntries,hf.numRows]
  by_cases h : b'=b
  · exact h ▸ ht
  · rw [hf.others b' h]
    exact hd b' ((hf.hasBank b').mp hb')

theorem run_append (d : MisraGries) (calls : List Call) (c : Call) :
    d.run (calls++[c])=(do
      let p ← d.run calls
      let r ← p.1.access c.row c.bank c.isFuncLookup
      pure (r.1,p.2++[r.2])) := by
  induction calls generalizing d with
  | nil =>
    simp only [nil_append,run,pure_bind]
  | cons a calls ih =>
    simp only [cons_append,run,bind_assoc,pure_bind,ih]

theorem history_append (b : Bank) (calls : List Call) (outs : List Bool) (c : Call) (o : Bool)
    (h : outs.length=calls.length) : history b (calls++[c]) (outs++[o]) =
      history b calls outs++if c.bank=b ∧ c.isFuncLookup=false then [(c.row,o)] else [] := by
  rw [history,zip_append h.symm,filter_append,map_append]
  congr 1
  by_cases hc : c.bank=b ∧ c.isFuncLookup=false <;> simp [hc]

variable {calls : List Call} {outs : List Bool}

theorem history_own {c : Call} (hc : c.isFuncLookup=false) (o : Bool) (h : outs.length=calls.length) :
    history c.bank (calls++[c]) (outs++[o])=history c.bank calls outs++[(c.row,o)] := by
  rw [history_append c.bank calls outs c o h,if_pos ⟨rfl,hc⟩]

theorem history_other {c : Call} (hc : ¬(c.bank=b ∧ c.isFuncLookup=false)) (o : Bool) (h : outs.length=calls.length) :
    history b (calls++[c]) (outs++[o])=history b calls outs := by
  rw [history_append b calls outs c o h,if_neg hc,append_nil]

theorem accesses_own {c : Call} (hc : c.isFuncLookup=false) (calls : List Call) :
    accesses c.bank (calls++[c])=accesses c.bank calls+1 := by
  simp [accesses,countP_append,hc]

theorem accesses_le (b : Bank) (calls : List Call) (c : Call) : accesses b calls≤accesses b (calls++[c]) := by
  simp only [accesses,countP_append]
  omega

theorem history_cons (b : Bank) (calls : List Call) (outs : List Bool) (c : Call) (o : Bool) :
    history b (c::calls) (o::outs) =
      (if c.bank=b ∧ c.isFuncLookup=false then [(c.row,o)] else [])++history b calls outs := by
  rw [history,zip_cons_cons,filter_cons]
  by_cases hc : c.bank=b ∧ c.isFuncLookup=false
  · simp only [hc,and_self,decide_true,if_true,map_cons]
    rfl
  · simp only [hc,decide_false,Bool.false_eq_true,if_false,nil_append]
    rfl

theorem history_length (b : Bank) (calls : List Call) (outs : List Bool)
    (h : outs.length=calls.length) : (history b calls outs).length=accesses b calls := by
  induction calls generalizing outs with
  | nil => rfl
  | cons c calls ih =>
    cases outs with
    | nil => simp at h
    | cons o outs =>
      have hrec:=ih outs (by simpa using h)
      rw [history_cons,length_append,hrec,accesses,accesses,countP_cons]
      by_cases hc : c.bank=b ∧ c.isFuncLookup=false
      · simp only [hc,and_self,if_true,decide_true,length_singleton]
        omega
      · simp only [hc,if_false,decide_false,Bool.false_eq_true,length_nil,Nat.zero_add,Nat.add_zero]

theorem flags_length (b : Bank) (r : ℕ) (calls : List Call) (outs : List Bool)
    (h : outs.length=calls.length) : (flags b r calls outs).length =
      calls.countP fun c => c.bank=b ∧ c.isFuncLookup=false ∧ c.row=r := by
  induction calls generalizing outs with
  | nil => rfl
  | cons c calls ih =>
    cases outs with
    | nil => simp at h
    | cons o outs =>
      have hrec:=ih outs (by simpa using h)
      simp only [flags,Summary.marks,length_map] at hrec ⊢
      rw [history_cons,filter_append,length_append,hrec,countP_cons]
      by_cases hc : c.bank=b ∧ c.isFuncLookup=false
      · by_cases hr : c.row=r
        · simp [hc,hr,Nat.add_comm]
        · simp [hc,hr]
      · have hc' : ¬(c.bank=b ∧ c.isFuncLookup=false ∧ c.row=r) := fun h => hc ⟨h.1,h.2.1⟩
        simp [hc,hc']

/-- What holds after the calls: the dimensions are the ones of the start, and `J` of each bank with fewer than
`limit` accesses. -/
structure Tracked (J : Bank → List (ℕ × Bool) → Summary ℕ ℕ → Prop) (limit : ℕ) (d : MisraGries) (calls : List Call)
    (outs : List Bool) (d' : MisraGries) : Prop where
  length : outs.length=calls.length
  threshold : d'.threshold=d.threshold
  numEntries : d'.numEntries=d.numEntries
  numRows : d'.numRows=d.numRows
  hasBank : ∀ b, d'.hasBank b ↔ d.hasBank b
  sound : d'.Sound
  history : ∀ b, d.hasBank b → accesses b calls<limit → J b (history b calls outs) (d'.trackers b).summary

section

variable {J : Bank → List (ℕ × Bool) → Summary ℕ ℕ → Prop} {limit : ℕ}
  (hJ : ∀ b past r t t' o,J b past t.summary → past.length+1<limit →
    Tracker.Wrapped d.numEntries d.numRows d.threshold r t t' o → J b (past++[(r,o)]) t'.summary)

include hJ

theorem tracked_step {d1 : MisraGries} {c : Call} (h : Tracked J limit d calls outs d1) (hT : 0<d.threshold)
    (hr : c.row<d.numRows) (hb : d.hasBank c.bank) :
    Post (d1.access c.row c.bank c.isFuncLookup)
      (fun p => Tracked J limit d (calls++[c]) (outs++[p.2]) p.1) fun _ => False := by
  have hb1:=(h.hasBank c.bank).mpr hb
  cases hfl : c.isFuncLookup with
  | true =>
    rw [access_functional h.sound (by rw [h.numRows]; exact hr) hb1]
    refine ⟨by simp [h.length],h.threshold,h.numEntries,h.numRows,h.hasBank,h.sound,?_⟩
    intro b hb hlt
    rw [history_other (by simp [hfl]) _ h.length]
    exact h.history b hb ((accesses_le b calls c).trans_lt hlt)
  | false =>
    refine (access_wraps h.sound (by rw [h.numRows]; exact hr) hb1).mono ?_ fun _ h0 => by
      rw [h.threshold] at h0
      omega
    rintro ⟨d2,o⟩ ⟨hf,ht⟩
    dsimp only at hf ht
    rw [h.numEntries,h.numRows,h.threshold] at ht
    refine ⟨by simp [h.length],hf.threshold.trans h.threshold,hf.numEntries.trans h.numEntries,
      hf.numRows.trans h.numRows,fun b => (hf.hasBank b).trans (h.hasBank b),?_,?_⟩
    · exact hf.sound h.sound (by rw [h.numEntries,h.numRows]; exact ht.sound)
    · intro b hb hlt
      have hpast:=h.history b hb ((accesses_le b calls c).trans_lt hlt)
      by_cases hcb : c.bank=b
      · subst hcb
        rw [accesses_own hfl,← history_length c.bank calls outs h.length] at hlt
        rw [history_own hfl o h.length]
        exact hJ _ _ _ _ _ _ hpast hlt ht
      · rw [history_other (fun hc => hcb hc.1) o h.length,hf.others b (Ne.symm hcb)]
        exact hpast

theorem run_keeps (hd : d.Sound) (hT : 0<d.threshold) (hstart : ∀ b,d.hasBank b → J b [] (d.trackers b).summary)
    (calls : List Call) (hcalls : ∀ c∈calls, c.row<d.numRows ∧ d.hasBank c.bank) :
    Post (d.run calls) (fun p => Tracked J limit d calls p.2 p.1) fun _ => False := by
  induction calls using reverseRecOn with
  | nil => exact ⟨rfl,rfl,rfl,rfl,fun _ => Iff.rfl,hd,fun b hb _ => hstart b hb⟩
  | append_singleton calls c ih =>
    rw [run_append]
    refine (ih fun c' hc' => hcalls c' (mem_append_left _ hc')).bind ?_
    rintro ⟨d1,outs⟩ h
    obtain ⟨hr,hb⟩:=hcalls c (by simp)
    exact (tracked_step hJ h hT hr hb).bind fun r hr => hr

end

theorem run_tracked (hd : d.Allocated) (hT : 0<d.threshold) (calls : List Call)
    (hcalls : ∀ c∈calls, c.row<d.numRows ∧ d.hasBank c.bank) :
    Post (d.reset.run calls) (fun p => Tracked (fun _ => Summary.Run (Finset.range d.numEntries) d.threshold) (2^32)
      d.reset calls p.2 p.1) fun _ => False := by
  refine run_keeps (fun b past r t t' o hrun hlt hw => ?_) (reset_sound hd) hT (fun b hb => ?_) calls hcalls
  · have hcount:=Summary.run_counted hrun
    have ht:=hw.touched
    refine .snoc _ _ _ _ _ hrun (ht.step (Tracker.fits_of_counted hcount (by omega))) ?_
    rw [ht.flagged,Tracker.tracked,Option.isSome_iff_ne_none]
    rfl
  · have hb' : d.hasBank b := hb
    rw [reset_tracker hb']
    exact .nil _ (Tracker.reset_counted (hd b hb').2)

/-- Representation invariant: after any calls from a reset, on every bank, the index array and
the entry table agree, every count is at least the spill counter, a free entry means that both
are still zero, and the counts and the spill counter sum to the counted calls. The run returns,
so no assert of `access` fires. -/
theorem run_representation (d : MisraGries) (hd : d.Allocated) (hT : 0<d.threshold)
    (calls : List Call) (hcalls : ∀ c∈calls, c.row<d.numRows ∧ d.hasBank c.bank)
    (hN : ∀ b, accesses b calls<2^32) :
    ∃ d' outs, d.reset.run calls = .ok (d',outs) ∧ ∀ b, d.hasBank b →
      (∀ r<d.numRows, ∀ i<d.numEntries, (d'.trackers b).rowHasEntry.get r=i+1 ↔
        ((d'.trackers b).entries.get i).valid=true ∧ ((d'.trackers b).entries.get i).addr=r) ∧
      (∀ i<d.numEntries, ∀ j<d.numEntries, ((d'.trackers b).entries.get i).valid=true →
        ((d'.trackers b).entries.get j).valid=true →
        ((d'.trackers b).entries.get i).addr=((d'.trackers b).entries.get j).addr → i=j) ∧
      (∀ i<d.numEntries, (d'.trackers b).spillCounter≤((d'.trackers b).entries.get i).count) ∧
      (∀ i<d.numEntries, ((d'.trackers b).entries.get i).valid=false →
        (d'.trackers b).spillCounter=0 ∧ ((d'.trackers b).entries.get i).count=0) ∧
      ∑ i∈Finset.range d.numEntries, ((d'.trackers b).entries.get i).count +
        (d'.trackers b).spillCounter=accesses b calls := by
  obtain ⟨⟨d',outs⟩,hrun,h⟩:=(run_tracked hd hT calls hcalls).returns
  refine ⟨d',outs,hrun,fun b hb => ?_⟩
  have hs : (d'.trackers b).Sound d.numEntries d.numRows := by
    have hs:=h.sound b ((h.hasBank b).mpr hb)
    rwa [h.numEntries,h.numRows] at hs
  have hc:=Summary.run_counted (h.history b hb (hN b))
  rw [history_length b calls outs h.length] at hc
  refine ⟨hs.index,?_,fun i hi => hc.floor i (Finset.mem_range.mpr hi),
    fun i hi hv => (hs.free i hi hv).symm,hc.total⟩
  intro i hi j hj hvi hvj haddr
  have hri:=(hs.index _ (hs.addr_lt i hi hvi) i hi).mpr ⟨hvi,rfl⟩
  have hrj:=(hs.index _ (hs.addr_lt i hi hvi) j hj).mpr ⟨hvj,haddr.symm⟩
  omega

theorem run_representation_of_spill :
    ∃ d' outs, (construct 2 3 4 1 1 1 fun _ => .zeroed).reset.run
        [⟨1,⟨0,0,0⟩,false⟩,⟨2,⟨0,0,0⟩,false⟩,⟨1,⟨0,0,0⟩,true⟩,⟨3,⟨0,0,0⟩,false⟩] = .ok (d',outs) ∧
      ∑ i∈Finset.range 2, ((d'.trackers ⟨0,0,0⟩).entries.get i).count +
        (d'.trackers ⟨0,0,0⟩).spillCounter=3 := by
  obtain ⟨d',outs,hrun,h⟩:=run_representation (construct 2 3 4 1 1 1 fun _ => .zeroed)
    (construct_allocated 2 3 4 1 1 1 _) (by decide)
    [⟨1,⟨0,0,0⟩,false⟩,⟨2,⟨0,0,0⟩,false⟩,⟨1,⟨0,0,0⟩,true⟩,⟨3,⟨0,0,0⟩,false⟩] (by decide)
    fun b => List.countP_le_length.trans_lt (by decide)
  obtain ⟨_,_,_,_,hsum⟩:=h ⟨0,0,0⟩ (by decide)
  exact ⟨d',outs,hrun,hsum⟩

/-- Detection: with fewer than `threshold * (numEntries + 1)` counted calls on a bank since the
reset, the calls for each of its rows return true at least once in every `threshold` of them. -/
theorem run_detects (d : MisraGries) (hd : d.Allocated) (hT : 0<d.threshold) (calls : List Call)
    (hcalls : ∀ c∈calls, c.row<d.numRows ∧ d.hasBank c.bank) (b : Bank) (hb : d.hasBank b)
    (hN : (accesses b calls<d.threshold*(d.numEntries+1) ∧ accesses b calls<2^32) ∨
      (d.numEntries=1360000/d.threshold ∧ accesses b calls≤1360000)) :
    ∃ d' outs, d.reset.run calls = .ok (d',outs) ∧ ∀ r,
      (flags b r calls outs).length =
        (calls.countP fun c => c.bank=b ∧ c.isFuncLookup=false ∧ c.row=r) ∧
      (flags b r calls outs).length/d.threshold≤(flags b r calls outs).count true ∧
      (d.threshold≤(flags b r calls outs).length →
        ∃ j<d.threshold, (flags b r calls outs)[j]?=some true) ∧
      (∀ i j, i<j → (flags b r calls outs)[i]?=some true → (flags b r calls outs)[j]?=some true →
        (∀ k, i<k → k<j → (flags b r calls outs)[k]?=some false) → j=i+d.threshold) := by
  obtain ⟨⟨d',outs⟩,hrun,h⟩:=(run_tracked hd hT calls hcalls).returns
  have hbound : accesses b calls<d.threshold*(d.numEntries+1) ∧ accesses b calls<2^32 := by
    rcases hN with hN | ⟨hn,hN⟩
    · exact hN
    · have hdiv:=Nat.lt_mul_div_succ 1360000 hT
      rw [hn]
      omega
  have hsum:=h.history b hb hbound.2
  have hlen:=history_length b calls outs h.length
  refine ⟨d',outs,hrun,fun r => ?_⟩
  obtain ⟨_,hper⟩:=Summary.run_periodic hsum (by rw [Finset.card_range,hlen]; exact hbound.1) r
  exact ⟨flags_length b r calls outs h.length,periodic_count_ge hper,periodic_first hT hper,
    fun i j hij hi hj hk => periodic_gap hT hper hij hi hj hk⟩

theorem run_detects_third :
    ∃ d' outs, (construct 2 3 4 1 1 1 fun _ => .zeroed).reset.run
        [⟨1,⟨0,0,0⟩,false⟩,⟨1,⟨0,0,0⟩,false⟩,⟨2,⟨0,0,0⟩,false⟩,⟨1,⟨0,0,0⟩,false⟩] = .ok (d',outs) ∧
      ∃ j<3, (flags ⟨0,0,0⟩ 1 [⟨1,⟨0,0,0⟩,false⟩,⟨1,⟨0,0,0⟩,false⟩,⟨2,⟨0,0,0⟩,false⟩,
        ⟨1,⟨0,0,0⟩,false⟩] outs)[j]?=some true := by
  obtain ⟨d',outs,hrun,h⟩:=run_detects (construct 2 3 4 1 1 1 fun _ => .zeroed)
    (construct_allocated 2 3 4 1 1 1 _) (by decide)
    [⟨1,⟨0,0,0⟩,false⟩,⟨1,⟨0,0,0⟩,false⟩,⟨2,⟨0,0,0⟩,false⟩,⟨1,⟨0,0,0⟩,false⟩] (by decide)
    ⟨0,0,0⟩ (by decide) (.inl (by decide))
  obtain ⟨hlen,_,hfirst,_⟩:=h 1
  exact ⟨d',outs,hrun,hfirst (by rw [hlen]; decide)⟩

/-- A tracked row's count is its number of accesses or too high by the spill counter at most, and a row with more
than its share of the accesses is tracked. -/
theorem run_finds_heavy (d : MisraGries) (hd : d.Allocated) (hT : 0<d.threshold) (calls : List Call)
    (hcalls : ∀ c∈calls, c.row<d.numRows ∧ d.hasBank c.bank) (b : Bank) (hb : d.hasBank b)
    (hN : accesses b calls<2^32) :
    ∃ d' outs, d.reset.run calls = .ok (d',outs) ∧
      (d'.trackers b).spillCounter*(d.numEntries+1)≤accesses b calls ∧ ∀ r<d.numRows,∀ n,
      n=(calls.countP fun c => c.bank=b ∧ c.isFuncLookup=false ∧ c.row=r) →
        (∀ i, (d'.trackers b).rowHasEntry.get r=i+1 → n≤((d'.trackers b).entries.get i).count ∧
          ((d'.trackers b).entries.get i).count≤n+(d'.trackers b).spillCounter) ∧
        (accesses b calls<n*(d.numEntries+1) → ∃ i<d.numEntries, (d'.trackers b).rowHasEntry.get r=i+1) := by
  obtain ⟨⟨d',outs⟩,hrun,h⟩:=(run_tracked hd hT calls hcalls).returns
  have hs : (d'.trackers b).Sound d.numEntries d.numRows := by
    have hs:=h.sound b ((h.hasBank b).mpr hb)
    rwa [h.numEntries,h.numRows] at hs
  have hsum:=h.history b hb hN
  have hcount:=Summary.run_counted hsum
  have hspill : (d'.trackers b).spillCounter*(d.numEntries+1)≤accesses b calls := by
    by_contra hno
    refine lt_irrefl (d'.trackers b).spillCounter (hcount.spill_lt ?_)
    rw [Finset.card_range,history_length b calls outs h.length]
    exact Nat.lt_of_not_le hno
  refine ⟨d',outs,hrun,hspill,fun r hr n hn => ?_⟩
  have haccurate:=Summary.run_accurate hsum r
  have hlen : (Summary.marks r (history b calls outs)).length=n := (flags_length b r calls outs h.length).trans hn.symm
  rw [hlen] at haccurate
  refine ⟨fun i hi => ?_,fun hheavy => ?_⟩
  · rwa [Summary.estimate_some ((Tracker.slot_eq_some hs hr).mpr hi)] at haccurate
  · by_contra hno
    have hnone : (d'.trackers b).rowHasEntry.get r=0 := by
      by_contra hsome
      exact hno ⟨_,(hs.entry hr hsome).1,by omega⟩
    rw [Summary.estimate_none ((Tracker.slot_eq_none hs hr).mpr hnone)] at haccurate
    have hle : n*(d.numEntries+1)≤(d'.trackers b).spillCounter*(d.numEntries+1) := Nat.mul_le_mul_right _ haccurate.1
    omega

theorem run_finds_heavy_first :
    ∃ d' outs, (construct 1 3 4 1 1 1 fun _ => .zeroed).reset.run
        [⟨1,⟨0,0,0⟩,false⟩,⟨2,⟨0,0,0⟩,false⟩,⟨1,⟨0,0,0⟩,false⟩] = .ok (d',outs) ∧
      ∃ i<1, (d'.trackers ⟨0,0,0⟩).rowHasEntry.get 1=i+1 := by
  obtain ⟨d',outs,hrun,-,h⟩:=run_finds_heavy (construct 1 3 4 1 1 1 fun _ => .zeroed)
    (construct_allocated 1 3 4 1 1 1 _) (by decide) [⟨1,⟨0,0,0⟩,false⟩,⟨2,⟨0,0,0⟩,false⟩,⟨1,⟨0,0,0⟩,false⟩]
    (by decide) ⟨0,0,0⟩ (by decide) (by decide)
  exact ⟨d',outs,hrun,(h 1 (by decide) 2 (by decide)).2 (by decide)⟩

end MisraGries

end AquaGem5.Detector
