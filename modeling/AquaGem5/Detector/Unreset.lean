import AquaGem5.Detector.Detection

/-!
# A detector before its first reset

The constructor leaves every `spill_counter` as the allocation held it. Where that is not zero, the first counted
access stops at the assert of the search.
-/

namespace AquaGem5.Detector
open Checked Finset

namespace Tracker

variable {n rows T r : ℕ} {t : Tracker}

structure Blank (n rows : ℕ) (t : Tracker) : Prop where
  pos : 0<n
  entries_size : t.entries.size=n
  index_size : t.rowHasEntry.size=rows
  entry : ∀ i<n, t.entries.get i=⟨false,0,0⟩
  index : ∀ r<rows, t.rowHasEntry.get r=0
  spill : t.spillCounter≠0

theorem Blank.access_stops (h : t.Blank n rows) (T : ℕ) (u : UInt64) (r : ℕ) :
    Post (t.access n T u r false) (fun _ => False) := by
  obtain ⟨m,rfl⟩:=Nat.exists_eq_succ_of_ne_zero h.pos.ne'
  have hentry:=h.entry 0 h.pos
  have hscan : Post (({t with sNumAccess := t.sNumAccess+1} : Tracker).scan (m+1) 0)
      (fun _ => False) := by
    simp only [scan,post_bind,Cells.post_read]
    refine ⟨fun _ => ?_,fun _ => trivial⟩
    rw [hentry,post_ite]
    refine ⟨fun hc => h.spill hc.symm,fun _ => ?_⟩
    simp only [post_bind,partly_check]
    exact fun hv => Bool.noConfusion hv
  simp only [access,Bool.false_eq_true,if_false,post_bind,Cells.post_read,h.index_size]
  refine ⟨fun hr => ?_,fun _ => trivial⟩
  rw [h.index r hr,if_neg (by decide),post_bind]
  exact hscan.imp fun _ hf => hf.elim

theorem Blank.access_functional (h : t.Blank n rows) (hr : r<rows) (T : ℕ) (u : UInt64) :
    t.access n T u r true = .ok (t,u,false) := by
  simp only [access,if_true,Cells.read_of_lt t.rowHasEntry (h.index_size.symm ▸ hr),h.index r hr,bind,
    Except.bind]
  rfl

def Settled (n rows : ℕ) (t : Tracker) : Prop := t.Sound n rows ∨ t.Blank n rows

theorem Settled.index_size (h : t.Settled n rows) : t.rowHasEntry.size=rows := by
  rcases h with h | h
  · exact h.index_size
  · exact h.index_size

theorem Settled.entries_size (h : t.Settled n rows) : t.entries.size=n := by
  rcases h with h | h
  · exact h.entries_size
  · exact h.entries_size

theorem Settled.lookup (h : t.Settled n rows) (hr : r<rows) (T : ℕ) (u : UInt64) :
    t.access n T u r true = .ok (t,u,decide (t.rowHasEntry.get r≠0)) := by
  rcases h with h | h
  · have htracked : t.tracked r=decide (t.rowHasEntry.get r≠0) := by
      have hiff:=slot_eq_none h hr
      rw [tracked,Bool.eq_iff_iff,decide_eq_true_eq,Option.isSome_iff_ne_none]
      exact not_congr hiff
    rw [Tracker.access_functional h hr,htracked]
  · rw [h.access_functional hr,h.index r hr]
    rfl

theorem Settled.access (h : t.Settled n rows) (hr : r<rows) (T : ℕ) (u : UInt64) (isFuncLookup : Bool) :
    Post (t.access n T u r isFuncLookup) (fun p => p.1.Settled n rows) := by
  cases isFuncLookup with
  | true =>
    rw [h.lookup hr]
    exact h
  | false =>
    rcases h with h | h
    · exact (access_wraps h hr u).forget fun p hp => .inl hp.sound
    · exact (h.access_stops T u r).forget fun _ hf => hf.elim

theorem Settled.tracked_le (h : t.Settled n rows) :
    ((Finset.range rows).filter fun r => t.rowHasEntry.get r≠0).card≤n := by
  rcases h with h | h
  · have hinj : Set.InjOn (fun r => t.rowHasEntry.get r-1)
        ((range rows).filter fun r => t.rowHasEntry.get r≠0) := by
      intro r hr q hq heq
      obtain ⟨hr,hr0⟩:=mem_filter.mp (mem_coe.mp hr)
      obtain ⟨hq,hq0⟩:=mem_filter.mp (mem_coe.mp hq)
      have haddr:=(h.entry (mem_range.mp hr) hr0).2.2
      have haddr':=(h.entry (mem_range.mp hq) hq0).2.2
      dsimp only at heq
      rw [heq] at haddr
      exact haddr.symm.trans haddr'
    have hcard:=card_le_card_of_injOn (t := range n) _ (fun r hr => ?_) hinj
    · rwa [card_range] at hcard
    · obtain ⟨hr,hr0⟩:=mem_filter.mp hr
      exact mem_coe.mpr (mem_range.mpr (h.entry (mem_range.mp hr) hr0).1)
  · have hnone : ((range rows).filter fun r => t.rowHasEntry.get r≠0) = ∅ :=
      filter_eq_empty_iff.mpr fun r hr hne => hne (h.index r (mem_range.mp hr))
    rw [hnone]
    exact Nat.zero_le n

def constructed (n rows : ℕ) (memory : Tracker) : Tracker :=
  {memory with entries := .calloc n ⟨false,0,0⟩, rowHasEntry := .calloc rows 0, uniqRows := []}

variable {memory : Tracker}

theorem constructed_sound (h : n=0 ∨ memory.spillCounter=0) : (constructed n rows memory).Sound n rows := by
  refine ⟨rfl,rfl,fun r _ i _ => ?_,fun _ _ => Nat.zero_le _,?_,fun i hi _ => ⟨rfl,?_⟩⟩
  · simp [constructed]
  · intro i _ hv
    cases hv
  · rcases h with rfl | h
    · exact absurd hi (Nat.not_lt_zero i)
    · exact h

theorem constructed_blank (hn : n≠0) (h : memory.spillCounter≠0) : (constructed n rows memory).Blank n rows :=
  ⟨Nat.pos_of_ne_zero hn,rfl,rfl,fun _ _ => rfl,fun _ _ => rfl,h⟩

theorem constructed_slot (n rows : ℕ) (memory : Tracker) (r : ℕ) :
    (constructed n rows memory).summary.slot r=none := by
  simp [summary,constructed]

theorem constructed_watched (h : memory.spillCounter=0) (hT : 0<T) :
    Summary.Watched (2^32) T (Finset.range n) [] (constructed n rows memory).summary := by
  have hspill : (constructed n rows memory).summary.spill=0 := h
  refine ⟨⟨fun x i hx => ?_,fun x y i hx => ?_,fun i _ => Nat.two_pow_pos 32,?_,?_⟩,fun r => .inr ?_⟩
  · rw [constructed_slot] at hx
    cases hx
  · rw [constructed_slot] at hx
    cases hx
  · rw [hspill]
    exact Nat.two_pow_pos 32
  · have hzero : ∀ i∈range n,
        Summary.weight (2^32) 0 ((constructed n rows memory).summary.count i)=0 := fun _ _ => rfl
    rw [hspill,sum_eq_zero hzero]
    exact Nat.le_refl 0
  · rw [Summary.Unmarked,Summary.estimate_none (constructed_slot n rows memory r),hspill]
    exact ⟨Nat.le_refl _,hT⟩

theorem watched_snoc {past : List (ℕ × Bool)} {o : Bool} (h : Summary.Watched (2^32) T (range n) past t.summary)
    (hlt : past.length+1<T*(n+1)) (hmax : T<2^32) (ht : Wrapped n rows T r t t' o) :
    Summary.Watched (2^32) T (range n) (past++[(r,o)]) t'.summary := by
  refine Summary.watched_snoc h ht.step ?_ hmax ?_
  · rw [ht.flagged,tracked,Option.isSome_iff_ne_none]
  · rw [card_range]
    omega

end Tracker

namespace MisraGries

variable {d : MisraGries} {b : Bank} {r : ℕ}

def Settled (d : MisraGries) : Prop :=
  ∀ b, d.hasBank b → (d.trackers b).Settled d.numEntries d.numRows

theorem construct_settled (numEntries threshold numRows numBanks numRanks numChannels : ℕ) (memory : Bank → Tracker) :
    (construct numEntries threshold numRows numBanks numRanks numChannels memory).Settled := by
  intro b _
  by_cases h : numEntries=0 ∨ (memory b).spillCounter=0
  · exact .inl (Tracker.constructed_sound h)
  · rw [not_or] at h
    exact .inr (Tracker.constructed_blank h.1 h.2)

theorem Settled.reset (hd : d.Settled) : d.reset.Settled := fun b hb =>
  .inl (reset_sound (fun b hb => ⟨(hd b hb).entries_size,(hd b hb).index_size⟩) b hb)

theorem Settled.lookup (hd : d.Settled) (hr : r<d.numRows) (hb : d.hasBank b) :
    d.access r b true = .ok (d,decide ((d.trackers b).rowHasEntry.get r≠0)) := by
  simp only [MisraGries.access,check,if_pos hb,(hd b hb).lookup hr,bind,Except.bind,pure,Except.pure,
    Function.update_eq_self]

theorem Settled.access (hd : d.Settled) (hr : r<d.numRows) (isFuncLookup : Bool) :
    Post (d.access r b isFuncLookup) (fun p => p.1.Settled ∧ Frame b d p.1) := by
  simp only [MisraGries.access,post_bind,partly_check]
  intro hb
  refine ((hd b hb).access hr d.threshold d.sNumUniqRows isFuncLookup).imp fun p hp => ?_
  have hframe:=frame_update d b p.1 p.2.1
  refine ⟨fun b' hb' => ?_,hframe⟩
  by_cases h : b'=b
  · subst h
    show (Function.update d.trackers b' p.1 b').Settled _ _
    rw [Function.update_self]
    exact hp
  · rw [hframe.others b' h]
    exact hd b' hb'

/-- Calls in range return, and with fewer than `threshold * (numEntries + 1)` counted calls to a
bank a row with `threshold` of them was flagged at one of its first `threshold`. -/
def Usable (d : MisraGries) : Prop :=
  ∀ calls : List Call, (∀ c∈calls, c.row<d.numRows ∧ d.hasBank c.bank) →
    ∃ d' outs, d.run calls = .ok (d',outs) ∧
      ∀ b, d.hasBank b → accesses b calls<d.threshold*(d.numEntries+1) → ∀ r,
        d.threshold≤(calls.countP fun c => c.bank=b ∧ c.isFuncLookup=false ∧ c.row=r) →
          ∃ j<d.threshold, (flags b r calls outs)[j]?=some true

theorem construct_stops {n T rows banks ranks channels : ℕ} {memory : Bank → Tracker} (hn : n≠0)
    (hspill : (memory b).spillCounter≠0) (r : ℕ) :
    Post ((construct n T rows banks ranks channels memory).run [⟨r,b,false⟩]) (fun _ => False) := by
  have hblank : ((construct n T rows banks ranks channels memory).trackers b).Blank n rows :=
    Tracker.constructed_blank hn hspill
  simp only [run,access,post_bind,partly_check]
  intro _
  exact (hblank.access_stops _ _ r).imp fun _ hf => hf.elim

theorem accesses_row (b : Bank) (r : ℕ) (calls : List Call) :
    (calls.countP fun c => c.bank=b ∧ c.isFuncLookup=false ∧ c.row=r)≤accesses b calls := by
  refine List.countP_mono_left fun c _ hc => ?_
  simp only [decide_eq_true_eq] at hc ⊢
  exact ⟨hc.1,hc.2.1⟩

/-- The constructed detector is usable exactly if it has no entries, no rows, or every bank's
allocation happened to hold a zero spill counter. -/
theorem construct_usable_iff (numEntries threshold numRows numBanks numRanks numChannels : ℕ)
    (memory : Bank → Tracker) (hT : 0<threshold) (hmax : threshold<2^32) :
    (construct numEntries threshold numRows numBanks numRanks numChannels memory).Usable ↔
      numEntries=0 ∨ numRows=0 ∨
        ∀ b : Bank, b.channelID<numChannels ∧ b.rankID<numRanks ∧ b.bankID<numBanks →
          (memory b).spillCounter=0 := by
  constructor
  · intro h
    by_contra hnot
    simp only [not_or,not_forall] at hnot
    obtain ⟨hn,hrows,b,hb,hspill⟩:=hnot
    obtain ⟨d',outs,hrun,_⟩:=h [⟨0,b,false⟩] fun c hc => by
      obtain rfl:=List.mem_singleton.mp hc
      exact ⟨Nat.pos_of_ne_zero hrows,hb⟩
    exact (construct_stops hn hspill 0).of_ok hrun
  · intro h calls hcalls
    by_cases hcall : calls=[]
    · subst hcall
      refine ⟨_,[],rfl,fun b _ _ r hr => ?_⟩
      exact absurd hT (Nat.not_lt.mpr hr)
    · obtain ⟨c,hc⟩:=List.exists_mem_of_ne_nil calls hcall
      have hstart : numEntries=0 ∨ ∀ b : Bank,
          b.channelID<numChannels ∧ b.rankID<numRanks ∧ b.bankID<numBanks →
            (memory b).spillCounter=0 := by
        rcases h with h | h | h
        · exact .inl h
        · have hrow : c.row<numRows := (hcalls c hc).1
          exact absurd hrow (by omega)
        · exact .inr h
      have hsound : (construct numEntries threshold numRows numBanks numRanks numChannels
          memory).Sound := fun b hb => Tracker.constructed_sound (hstart.imp_right fun h => h b hb)
      obtain ⟨⟨d',outs⟩,hrun,hun⟩:=(run_keeps (J := fun b past t =>
        (memory b).spillCounter=0 → Summary.Watched (2^32) threshold (range numEntries) past t)
        (fun _ _ _ _ _ _ h (hlt : _<threshold*(numEntries+1)) ht hspill =>
          Tracker.watched_snoc (h hspill) hlt hmax ht) hsound hT
        (fun _ _ hspill => Tracker.constructed_watched hspill hT) calls hcalls).returns
      refine ⟨d',outs,hrun,fun b hb hN r hr => ?_⟩
      rw [← flags_length b r calls outs hun.length] at hr
      rcases hstart with rfl | hspill
      · have hle:=accesses_row b r calls
        rw [← flags_length b r calls outs hun.length] at hle
        change accesses b calls<threshold*(0+1) at hN
        change threshold≤_ at hr
        omega
      · rcases (hun.history b hb hN (hspill b hb)).keys r with hmark | hunmarked
        · exact hmark
        · exact absurd (hunmarked.1.trans_lt hunmarked.2) (Nat.not_lt.mpr hr)

theorem construct_usable_iff_zeroed : (construct 2 3 4 1 1 1 fun _ => .zeroed).Usable :=
  (construct_usable_iff 2 3 4 1 1 1 (fun _ => .zeroed) (by decide) (by decide)).mpr
    (.inr (.inr fun _ _ => rfl))

/-- One entry and an allocation that held a one: the first access stops. -/
theorem construct_unusable :
    ¬(construct 1 1360000 2 1 1 1 fun _ => {Tracker.zeroed with spillCounter := 1}).Usable := by
  intro h
  obtain ⟨d',outs,hrun,_⟩:=h [⟨0,⟨0,0,0⟩,false⟩] (by decide)
  cases hrun

end MisraGries

end AquaGem5.Detector
