import AquaGem5.Detector.MisraGries
import AquaGem5.Lib.Wrapping

/-!
# The representation invariant of a tracker

`Sound` ties the index array to the entry table and holds whatever the counters do;
`summary` forgets the representation, and every counted access is a step of the summary.
-/

namespace AquaGem5.Detector.Tracker
open Checked Finset

structure Sound (numEntries numRows : ℕ) (t : Tracker) : Prop where
  entries_size : t.entries.size=numEntries
  index_size : t.rowHasEntry.size=numRows
  index : ∀ r<numRows, ∀ i<numEntries, t.rowHasEntry.get r=i+1 ↔
    (t.entries.get i).valid=true ∧ (t.entries.get i).addr=r
  index_le : ∀ r<numRows, t.rowHasEntry.get r≤numEntries
  addr_lt : ∀ i<numEntries, (t.entries.get i).valid=true → (t.entries.get i).addr<numRows
  free : ∀ i<numEntries, (t.entries.get i).valid=false →
    (t.entries.get i).count=0 ∧ t.spillCounter=0

def summary (t : Tracker) : Summary ℕ ℕ where
  slot r := if r<t.rowHasEntry.size ∧ t.rowHasEntry.get r≠0 then some (t.rowHasEntry.get r-1)
    else none
  count i := (t.entries.get i).count
  spill := t.spillCounter

def tracked (t : Tracker) (r : ℕ) : Bool := (t.summary.slot r).isSome

def Fits (numEntries : ℕ) (t : Tracker) : Prop :=
  t.spillCounter+1<2^32 ∧ ∀ i<numEntries, (t.entries.get i).count+1<2^32

variable {t : Tracker} {n rows : ℕ}

theorem Sound.entry (hs : t.Sound n rows) {r : ℕ} (hr : r<rows) (h : t.rowHasEntry.get r≠0) :
    t.rowHasEntry.get r-1<n ∧ (t.entries.get (t.rowHasEntry.get r-1)).valid=true ∧
      (t.entries.get (t.rowHasEntry.get r-1)).addr=r := by
  have hle:=hs.index_le r hr
  have hlt : t.rowHasEntry.get r-1<n := by omega
  exact ⟨hlt,(hs.index r hr _ hlt).mp (by omega)⟩

variable {r i : ℕ}

theorem slot_eq_some (hs : t.Sound n rows) (hr : r<rows) : t.summary.slot r=some i ↔ t.rowHasEntry.get r=i+1 := by
  simp only [summary,hs.index_size,hr,true_and]
  split
  · rename_i h
    simp only [Option.some.injEq]
    omega
  · rename_i h
    simp only [reduceCtorEq,false_iff]
    omega

theorem slot_eq_none (hs : t.Sound n rows) {r : ℕ} (hr : r<rows) : t.summary.slot r=none ↔ t.rowHasEntry.get r=0 := by
  simp [summary,hs.index_size,hr]

def SameTable (t t' : Tracker) : Prop :=
  t'.entries=t.entries ∧ t'.rowHasEntry=t.rowHasEntry ∧ t'.spillCounter=t.spillCounter

theorem SameTable.sound {t t' : Tracker} (h : SameTable t t') (hs : t.Sound n rows) : t'.Sound n rows := by
  obtain ⟨he,hi,hp⟩:=h
  exact ⟨he ▸ hs.entries_size,hi ▸ hs.index_size,by rw [he,hi]; exact hs.index,
    by rw [hi]; exact hs.index_le,by rw [he]; exact hs.addr_lt,by rw [he,hp]; exact hs.free⟩

theorem SameTable.summary {t t' : Tracker} (h : SameTable t t') : t'.summary=t.summary := by
  obtain ⟨he,hi,hp⟩:=h
  simp only [Tracker.summary,he,hi,hp]

theorem flag_post (T : ℕ) (t : Tracker) (u : UInt64) (r count : ℕ) :
    Post (flag T t u r count) (fun p => SameTable t p.1 ∧ (p.2.2=true ↔ T∣count)) fun _ => T=0 := by
  simp only [flag,post_bind,post_umod]
  refine ⟨fun h => h,fun _ => ?_⟩
  rw [post_ite]
  constructor
  · intro h
    refine ⟨?_,iff_of_true rfl (Nat.dvd_of_mod_eq_zero h)⟩
    unfold recordAggressor
    dsimp only
    split <;> exact ⟨rfl,rfl,rfl⟩
  · intro h
    exact ⟨⟨rfl,rfl,rfl⟩,iff_of_false Bool.false_ne_true fun hd => h (Nat.mod_eq_zero_of_dvd hd)⟩

theorem count_set (t : Tracker) (i : ℕ) (e : TrackerEntry) : (fun j => ((t.entries.set i e).get j).count) =
      Function.update (fun j => (t.entries.get j).count) i e.count := by
  funext j
  rw [Cells.get_set]
  by_cases h : j=i
  · subst h
    simp
  · simp [h]

def counted (t : Tracker) (i : ℕ) : Tracker :=
  let e := t.entries.get i
  {t with entries := t.entries.set i {e with count := inc32 e.count} }

def installed (t : Tracker) (r i : ℕ) : Tracker :=
  let e := t.entries.get i
  let index := if e.valid=true then t.rowHasEntry.set e.addr 0 else t.rowHasEntry
  {t with entries := t.entries.set i ⟨true,r,inc32 e.count⟩, rowHasEntry := index.set r (i+1)}

def spilled (t : Tracker) : Tracker := {t with spillCounter := inc32 t.spillCounter}

theorem counted_sound (hs : t.Sound n rows) {i : ℕ}
    (hv : (t.entries.get i).valid=true) : (t.counted i).Sound n rows := by
  have hfields : ∀ j, ((t.counted i).entries.get j).valid=(t.entries.get j).valid ∧
      ((t.counted i).entries.get j).addr=(t.entries.get j).addr := by
    intro j
    simp only [counted,Cells.get_set]
    by_cases h : j=i
    · subst h
      simp
    · simp [h]
  refine ⟨hs.entries_size,hs.index_size,?_,hs.index_le,?_,?_⟩
  · intro r hr j hj
    rw [(hfields j).1,(hfields j).2]
    exact hs.index r hr j hj
  · intro j hj hj'
    rw [(hfields j).1] at hj'
    rw [(hfields j).2]
    exact hs.addr_lt j hj hj'
  · intro j hj hj'
    rw [(hfields j).1] at hj'
    have hne : j≠i := by
      rintro rfl
      rw [hv] at hj'
      cases hj'
    simpa only [counted,Cells.get_set_ne _ _ hne] using hs.free j hj hj'

theorem spilled_sound (hs : t.Sound n rows)
    (hfull : ∀ j<n, (t.entries.get j).valid=true) : t.spilled.Sound n rows := by
  refine ⟨hs.entries_size,hs.index_size,hs.index,hs.index_le,hs.addr_lt,?_⟩
  intro j hj hj'
  have hv:=hfull j hj
  change (t.entries.get j).valid=false at hj'
  rw [hv] at hj'
  cases hj'

theorem installed_index (hs : t.Sound n rows) {r i q : ℕ} (hi : i<n)
    (hq : q<rows) : (t.installed r i).rowHasEntry.get q =
      if q=r then i+1 else if t.rowHasEntry.get q=i+1 then 0 else t.rowHasEntry.get q := by
  simp only [installed,Cells.get_set]
  by_cases hqr : q=r
  · simp [hqr]
  · simp only [hqr,if_false]
    have hiff:=hs.index q hq i hi
    by_cases hv : (t.entries.get i).valid=true
    · simp only [hv,true_and] at hiff
      simp only [hv,if_true,Cells.get_set,hiff,eq_comm (a := q)]
    · simp only [hv,false_and,iff_false,Bool.false_eq_true] at hiff
      simp only [hv,Bool.false_eq_true,if_false,hiff]

theorem installed_sound (hs : t.Sound n rows) (hr : r<rows)
    (hi : i<n) (hnone : t.rowHasEntry.get r=0) : (t.installed r i).Sound n rows := by
  have hsize : (t.installed r i).rowHasEntry.size=t.rowHasEntry.size := by
    simp only [installed,Cells.size_set]
    split <;> rfl
  have hget : ∀ j, (t.installed r i).entries.get j =
      if j=i then ⟨true,r,inc32 (t.entries.get i).count⟩ else t.entries.get j := fun j => rfl
  refine ⟨hs.entries_size,hsize.trans hs.index_size,?_,?_,?_,?_⟩
  · intro q hq j hj
    rw [installed_index hs hi hq,hget]
    have hiff:=hs.index q hq j hj
    by_cases hqr : q=r
    · subst hqr
      by_cases hji : j=i
      · simp [hji]
      · rw [hnone] at hiff
        simp only [if_true,hji,if_false,← hiff]
        omega
    · by_cases hji : j=i
      · subst hji
        simp only [hqr,if_false,if_true,true_and,Ne.symm hqr,iff_false]
        split
        · omega
        · assumption
      · simp only [hqr,hji,if_false]
        split
        · rename_i hqi
          rw [hqi] at hiff
          rw [← hiff]
          omega
        · exact hiff
  · intro q hq
    rw [installed_index hs hi hq]
    have hle:=hs.index_le q hq
    split
    · omega
    · split <;> omega
  · intro j hj hv
    rw [hget] at hv ⊢
    by_cases hji : j=i
    · simpa only [hji,if_true] using hr
    · simp only [hji,if_false] at hv ⊢
      exact hs.addr_lt j hj hv
  · intro j hj hv
    rw [hget] at hv ⊢
    by_cases hji : j=i
    · simp [hji] at hv
    · simp only [hji,if_false] at hv ⊢
      exact hs.free j hj hv

theorem counted_step (hs : t.Sound n rows) (hr : r<rows) (hi : i<n) (hslot : t.rowHasEntry.get r=i+1) :
    Summary.WrapStep (2^32) (Finset.range n) r t.summary (t.counted i).summary := by
  have heq : (t.counted i).summary={t.summary with
      count := Function.update t.summary.count i ((t.summary.count i+1)%2^32)} := by
    simp only [summary,counted,count_set]
    rfl
  rw [heq]
  exact .hit _ i (mem_range.mpr hi) ((slot_eq_some hs hr).mpr hslot)

theorem installed_step (hs : t.Sound n rows) (hr : r<rows)
    (hi : i<n) (hnone : t.rowHasEntry.get r=0) (hc : (t.entries.get i).count=t.spillCounter) :
    Summary.WrapStep (2^32) (Finset.range n) r t.summary (t.installed r i).summary := by
  have hsize : (t.installed r i).rowHasEntry.size=rows :=
    (installed_sound hs hr hi hnone).index_size
  have hslot : (t.installed r i).summary.slot=Summary.takeOver t.summary.slot r i := by
    funext q
    by_cases hq : q<rows
    · have hsome:=slot_eq_some (i := i) hs hq
      simp only [Summary.takeOver,summary,hsize,hs.index_size,hq,true_and] at hsome ⊢
      rw [installed_index hs hi hq]
      by_cases hqr : q=r
      · simp [hqr]
      · simp only [hqr,if_false,hsome]
        split <;> simp
    · have hqr : q≠r := fun h => hq (h ▸ hr)
      simp [Summary.takeOver,summary,hsize,hs.index_size,hq,hqr]
  have heq : (t.installed r i).summary=⟨Summary.takeOver t.summary.slot r i,
      Function.update t.summary.count i ((t.summary.spill+1)%2^32),t.summary.spill⟩ := by
    rw [← hslot]
    simp only [summary,installed,count_set]
    rw [hc]
    rfl
  rw [heq]
  exact .install _ i (mem_range.mpr hi) ((slot_eq_none hs hr).mpr hnone) hc

theorem spilled_step (hs : t.Sound n rows) {r : ℕ} (hr : r<rows)
    (hnone : t.rowHasEntry.get r=0) (hc : ∀ j<n, (t.entries.get j).count≠t.spillCounter) :
    Summary.WrapStep (2^32) (Finset.range n) r t.summary t.spilled.summary := by
  have heq : t.spilled.summary={t.summary with spill := (t.summary.spill+1)%2^32} := rfl
  rw [heq]
  exact .spill _ ((slot_eq_none hs hr).mpr hnone) fun j hj => hc j (mem_range.mp hj)

theorem scan_post (hs : t.Sound n rows) (fuel ii : ℕ) (hn : ii+fuel≤n) :
    Post (t.scan fuel ii) (fun o => match o with
      | some i => i<n ∧ (t.entries.get i).count=t.spillCounter
      | none => ∀ j, ii≤j → j < ii+fuel →
          (t.entries.get j).count≠t.spillCounter ∧ (t.entries.get j).valid=true) fun _ => False := by
  induction fuel generalizing ii with
  | zero =>
    intro j h1 h2
    omega
  | succ fuel ih =>
    simp only [scan,post_bind,Cells.post_read,hs.entries_size]
    refine ⟨fun _ => ?_,fun h => by omega⟩
    rw [post_ite]
    constructor
    · intro hc
      exact ⟨by omega,hc⟩
    · intro hc
      have hv : (t.entries.get ii).valid=true := by
        by_contra hv
        have hfree:=hs.free ii (by omega) (by simpa using hv)
        omega
      simp only [post_bind,post_check]
      refine ⟨fun _ => ?_,fun h => h hv⟩
      refine (ih (ii+1) (by omega)).imp ?_
      intro o ho
      cases o with
      | some i => exact ho
      | none =>
        intro j h1 h2
        by_cases hj : j=ii
        · subst hj
          exact ⟨hc,hv⟩
        · exact ho j (by omega) (by omega)

structure Touched (n rows T r : ℕ) (t t' : Tracker) (b : Bool) : Prop where
  sound : t'.Sound n rows
  step : t.Fits n → Summary.Step (Finset.range n) r t.summary t'.summary
  flagged : b=true ↔ t'.tracked r=true ∧ T∣t'.summary.estimate r

structure Wrapped (n rows T r : ℕ) (t t' : Tracker) (b : Bool) : Prop where
  sound : t'.Sound n rows
  step : Summary.WrapStep (2^32) (Finset.range n) r t.summary t'.summary
  flagged : b=true ↔ t'.tracked r=true ∧ T∣t'.summary.estimate r

theorem Wrapped.touched {n rows T r : ℕ} {t t' : Tracker} {b : Bool} (h : Wrapped n rows T r t t' b) :
    Touched n rows T r t t' b :=
  ⟨h.sound,fun hf => h.step.step hf.1 fun i hi => hf.2 i (mem_range.mp hi),h.flagged⟩

theorem SameTable.wrapped {n rows T r : ℕ} {t m u : Tracker} {b : Bool} (h : SameTable m u)
    (ht : Wrapped n rows T r t m b) : Wrapped n rows T r t u b :=
  ⟨h.sound ht.sound,by rw [h.summary]; exact ht.step,by
    simpa only [tracked,h.summary] using ht.flagged⟩

theorem estimate_of_slot (hs : t.Sound n rows) (hr : r<rows) (h : t.rowHasEntry.get r=i+1) :
    t.tracked r=true ∧ t.summary.estimate r=(t.entries.get i).count := by
  have hslot:=(slot_eq_some hs hr).mpr h
  exact ⟨by simp [tracked,hslot],Summary.estimate_some hslot⟩

theorem hit_post {n rows T r : ℕ} (hs : t.Sound n rows) (hr : r<rows) (u : UInt64) (h : t.rowHasEntry.get r≠0) :
    Post (t.hit T u r (t.rowHasEntry.get r-1) false) (fun p => Wrapped n rows T r t p.1 p.2.2) fun _ => T=0 := by
  obtain ⟨hlt,hv,ha⟩:=hs.entry hr h
  have hs' : (t.counted (t.rowHasEntry.get r-1)).Sound n rows := counted_sound hs hv
  have hindex : (t.counted (t.rowHasEntry.get r-1)).rowHasEntry.get r =
      t.rowHasEntry.get r-1+1 := by
    change t.rowHasEntry.get r=_
    omega
  simp only [hit,post_bind,Cells.post_read,hs.entries_size,post_check,hlt,not_true_eq_false,
    false_implies,and_true,true_implies,Bool.false_eq_true,if_false]
  refine ⟨fun _ => ?_,fun hne => (hne ⟨hv,ha⟩).elim⟩
  refine (flag_post T _ u r _).imp ?_
  rintro ⟨t',u',b⟩ ⟨hsame,hb⟩
  refine SameTable.wrapped (m := t.counted (t.rowHasEntry.get r-1)) hsame
    ⟨hs',counted_step hs hr hlt (by omega),?_⟩
  obtain ⟨htr,he⟩:=estimate_of_slot hs' hr hindex
  rw [hb,htr,he]
  simp [counted]

theorem install_post {n rows T r i : ℕ} (hs : t.Sound n rows)
    (hr : r<rows) (u : UInt64) (hnone : t.rowHasEntry.get r=0) (hi : i<n)
    (hc : (t.entries.get i).count=t.spillCounter) :
    Post (t.install T u r i) (fun p => Wrapped n rows T r t p.1 p.2.2) fun _ => T=0 := by
  have hs':=installed_sound hs hr hi hnone
  have hfinal : ∀ index, index=(t.installed r i).rowHasEntry →
      Post (flag T {t with
          entries := t.entries.set i {valid := true, addr := r, count := inc32 (t.entries.get i).count},
          rowHasEntry := index, sNumInstall := t.sNumInstall+1} u r (inc32 (t.entries.get i).count))
        (fun p => Wrapped n rows T r t p.1 p.2.2) fun _ => T=0 := by
    rintro index rfl
    refine (flag_post T _ u r _).imp ?_
    rintro ⟨t',u',b⟩ ⟨hsame,hb⟩
    refine SameTable.wrapped (m := t.installed r i) hsame
      ⟨hs',installed_step hs hr hi hnone hc,?_⟩
    have hindex : (t.installed r i).rowHasEntry.get r=i+1 := by
      rw [installed_index hs hi hr,if_pos rfl]
    obtain ⟨htr,he⟩:=estimate_of_slot hs' hr hindex
    rw [hb,htr,he]
    simp [installed]
  simp only [install,post_bind,Cells.post_read,hs.entries_size,hi,not_true_eq_false,false_implies,
    and_true,true_implies]
  rw [post_ite]
  constructor
  · intro hv
    simp only [Cells.post_write,Cells.size_set,hs.index_size,hr,not_true_eq_false,false_implies,
      and_true,true_implies]
    refine ⟨fun _ => hfinal _ (by simp [installed,hv]),fun h => (h (hs.addr_lt i hi hv)).elim⟩
  · intro hv
    simp only [post_pure,Cells.post_write,hs.index_size,hr,not_true_eq_false,false_implies,
      and_true,true_implies]
    exact hfinal _ (by simp [installed,hv])

theorem access_wraps {n rows T r : ℕ} (hs : t.Sound n rows) (hr : r<rows) (u : UInt64) :
    Post (t.access n T u r false) (fun p => Wrapped n rows T r t p.1 p.2.2) fun _ => T=0 := by
  have hs1 : ({t with sNumAccess := t.sNumAccess+1} : Tracker).Sound n rows :=
    ⟨hs.entries_size,hs.index_size,hs.index,hs.index_le,hs.addr_lt,hs.free⟩
  simp only [access,Bool.false_eq_true,if_false,post_bind,Cells.post_read,hs.index_size,hr,
    not_true_eq_false,false_implies,and_true,true_implies,post_ite]
  constructor
  · intro h
    exact (hit_post hs1 hr u h).imp fun p hp => ⟨hp.sound,hp.step,hp.flagged⟩
  · intro h
    have hnone : t.rowHasEntry.get r=0 := by simpa using h
    refine (scan_post hs1 n 0 (by omega)).mono ?_ fun _ h => h.elim
    intro o ho
    cases o with
    | some i =>
      exact (install_post hs1 hr u hnone ho.1 ho.2).imp
        fun p hp => ⟨hp.sound,hp.step,hp.flagged⟩
    | none =>
      have hs':=spilled_sound hs fun j hj => (ho j (Nat.zero_le j) (by omega)).2
      refine ⟨⟨hs'.entries_size,hs'.index_size,hs'.index,hs'.index_le,hs'.addr_lt,hs'.free⟩,
        spilled_step hs hr hnone fun j hj => (ho j (Nat.zero_le j) (by omega)).1,?_⟩
      have hslot : t.spilled.summary.slot r=none := (slot_eq_none hs' hr).mpr hnone
      refine iff_of_false Bool.false_ne_true fun h => ?_
      have htr : t.spilled.tracked r=true := h.1
      simp [tracked,hslot] at htr

theorem access_post {n rows T r : ℕ} (hs : t.Sound n rows) (hT : 0<T) (hr : r<rows) (u : UInt64) :
    Post (t.access n T u r false) (fun p => Touched n rows T r t p.1 p.2.2) fun _ => False :=
  (access_wraps hs hr u).mono (fun _ hp => hp.touched) fun _ h => by omega

theorem access_functional {n rows T r : ℕ} (hs : t.Sound n rows) (hr : r<rows)
    (u : UInt64) : t.access n T u r true = .ok (t,u,t.tracked r) := by
  simp only [access,if_true,Cells.read_of_lt t.rowHasEntry (hs.index_size.symm ▸ hr)]
  by_cases h : t.rowHasEntry.get r=0
  · have hslot:=(slot_eq_none hs hr).mpr h
    simp [h,tracked,hslot,bind,Except.bind,pure,Except.pure]
  · obtain ⟨hlt,hv,ha⟩:=hs.entry hr h
    have hslot : t.summary.slot r=some (t.rowHasEntry.get r-1) :=
      (slot_eq_some hs hr).mpr (by omega)
    simp [h,tracked,hslot,hit,check,Cells.read_of_lt t.entries (hs.entries_size.symm ▸ hlt),hv,ha,bind,
      Except.bind,pure,Except.pure]

theorem fits_of_counted {n N : ℕ} (hc : Summary.Counted (Finset.range n) N t.summary) (hN : N+1<2^32) : t.Fits n := by
  have ht:=hc.total
  refine ⟨?_,?_⟩
  · change t.summary.spill+1<2^32
    omega
  · intro i hi
    have hle:=single_le_sum (f := t.summary.count) (fun _ _ => Nat.zero_le _)
      (mem_range.mpr hi)
    change t.summary.count i+1<2^32
    omega

theorem reset_sound (he : t.entries.size=n) (hi : t.rowHasEntry.size=rows) : (t.reset n rows).Sound n rows := by
  have hget : ∀ i<n, (t.reset n rows).entries.get i=⟨false,0,0⟩ :=
    fun i hi => Cells.get_fill_of_lt _ _ hi
  have hrow : ∀ r<rows, (t.reset n rows).rowHasEntry.get r=0 :=
    fun r hr => Cells.get_fill_of_lt _ _ hr
  refine ⟨he,hi,?_,?_,?_,?_⟩
  · intro r hr i hi
    rw [hrow r hr,hget i hi]
    simp
  · intro r hr
    rw [hrow r hr]
    exact Nat.zero_le n
  · intro i hi hv
    rw [hget i hi] at hv
    cases hv
  · intro i hi _
    rw [hget i hi]
    exact ⟨rfl,rfl⟩

theorem reset_counted (hi : t.rowHasEntry.size=rows) :
    Summary.Counted (Finset.range n) 0 (t.reset n rows).summary := by
  have hslot : ∀ r, (t.reset n rows).summary.slot r=none := by
    intro r
    simp only [summary,reset,Cells.size_fill,hi,ite_eq_right_iff,reduceCtorEq,imp_false,not_and,not_not]
    exact fun hr => Cells.get_fill_of_lt _ _ hr
  refine ⟨?_,?_,?_,?_⟩
  · intro x i h
    rw [hslot] at h
    cases h
  · intro x y i h
    rw [hslot] at h
    cases h
  · intro i _
    exact Nat.zero_le _
  · refine (Nat.add_zero _).trans (sum_eq_zero fun i hi => ?_)
    simp only [summary,reset]
    rw [Cells.get_fill_of_lt _ _ (mem_range.mp hi)]

end AquaGem5.Detector.Tracker
