import AquaGem5.Mitigation.Divisor
import AquaGem5.Swap.MemCtrl

/-!
# What a per-row counter counts

`BlockHammer` and `Randomized_Row_Swap` allocate a counter for every row of every rank, but index them by bank and row
alone.
-/

namespace AquaGem5.Mitigation
open Checked Windows Throttle
open Detector (Bank MisraGries Tracker)
open Swap (RandomizedRowSwap buildRRS)

structure Geometry where
  numBanks : ℕ
  numRanks : ℕ
  rowsPerBank : ℕ
  banks_lt : numBanks<2^8
  ranks_lt : numRanks<2^8
  rows_lt : rowsPerBank<2^32

namespace Geometry

def numDRAMRows (g : Geometry) : ℕ := g.rowsPerBank*g.numBanks*g.numRanks*1%2^32

/-- No row, or one rank whose counters have an `int` for each of them. -/
def Fits (g : Geometry) : Prop :=
  g.rowsPerBank*g.numBanks*g.numRanks=0 ∨ g.numRanks=1 ∧ g.rowsPerBank*g.numBanks<2^31

def Has (g : Geometry) (a : Access) : Prop :=
  a.bank.channelID=0 ∧ a.bank.rankID<g.numRanks ∧ a.bank.bankID<g.numBanks ∧
    a.rowID<g.rowsPerBank

end Geometry

def corner (rank : ℕ) : Access := ⟨0,0,⟨0,rank,0⟩⟩

def SameRow (a x : Access) : Prop := x.bank=a.bank ∧ x.rowID=a.rowID

instance (a x : Access) : Decidable (SameRow a x) := inferInstanceAs (Decidable (_ ∧ _))

def own (a : Access) (w : List Access) : ℕ := w.countP fun x => SameRow a x

theorem own_singleton {a x : Access} (h : own a [x]%2^32=1) : SameRow a x := by
  unfold own at h
  rw [List.countP_singleton] at h
  by_contra hno
  rw [decide_eq_false hno] at h
  exact absurd h (by decide)

inductive Windowed {σ φ : Type} (access : σ → Access → Except φ σ) (lastReset : σ → UInt64) (s0 : σ) :
    List Access → σ → Prop
  | start : Windowed access lastReset s0 [] s0
  | step (w : List Access) (s s' : σ) (a : Access) : Windowed access lastReset s0 w s →
      access s a = .ok s' → Windowed access lastReset s0
        (push (fun x => windowOver x.currTick (lastReset s)) w a) s'

section
variable {σ φ : Type} {access : σ → Access → Except φ σ} {lastReset : σ → UInt64} {s0 s s' : σ}
  {w : List Access}

/-- One access counts in the entry its index names, after the reset it may begin with. -/
structure CountsStep (access : σ → Access → Except φ σ) (lastReset : σ → UInt64) (entry : σ → ℕ → ℕ)
    (index : Access → ℕ) (inv : σ → Prop) : Prop where
  kept : ∀ {s s' a},inv s → access s a = .ok s' → inv s'
  counts : ∀ {s s' a},inv s → access s a = .ok s' → ∀ i,entry s' i =
    ((if windowOver a.currTick (lastReset s)=true then 0 else entry s i) +
      if index a=i then 1 else 0)%2^32

theorem windowed_counts {entry : σ → ℕ → ℕ} {index : Access → ℕ} {inv : σ → Prop}
    (hstep : CountsStep access lastReset entry index inv) (h0 : inv s0) (hzero : ∀ i,entry s0 i=0)
    (h : Windowed access lastReset s0 w s) : inv s ∧ ∀ i,entry s i=(w.countP fun x => index x=i)%2^32 := by
  induction h with
  | start => exact ⟨h0,hzero⟩
  | step w s s' a _ haccess ih =>
    obtain ⟨hs,hcounts⟩:=ih
    refine ⟨hstep.kept hs haccess,fun i => ?_⟩
    rw [hstep.counts hs haccess i,hcounts i,push_countP]
    simp only [decide_eq_true_eq]
    split
    next => rfl
    next => rw [Nat.mod_add_mod]

theorem windowed_corner (hreset : lastReset s0=0) (haccess : access s0 (corner 0) = .ok s') :
    Windowed access lastReset s0 [corner 0] s' := by
  have hrun : Windowed access lastReset s0 _ s' := .step [] s0 s' (corner 0) .start haccess
  rw [hreset] at hrun
  exact hrun

end

theorem flat_inj {n bank bank' row row' : ℕ} (hb : bank<n) (hb' : bank'<n)
    (h : bank+n*row=bank'+n*row') : bank=bank' ∧ row=row' := by
  have hmod:=congrArg (·%n) h
  have hdiv:=congrArg (·/n) h
  simp only [Nat.add_mul_mod_self_left,Nat.mod_eq_of_lt hb,Nat.mod_eq_of_lt hb'] at hmod
  simp only [Nat.add_mul_div_left _ _ (Nat.zero_lt_of_lt hb),Nat.div_eq_of_lt hb,Nat.div_eq_of_lt hb',
    Nat.zero_add] at hdiv
  exact ⟨hmod,hdiv⟩

theorem flat_lt {n rows bank row : ℕ} (hb : bank<n) (hr : row<rows) : bank+n*row<n*rows := by
  have hle : n*(row+1)≤n*rows := Nat.mul_le_mul_left n hr
  rw [Nat.mul_succ] at hle
  omega

namespace Geometry

variable {g : Geometry} {a x : Access}

def swapIndex (g : Geometry) (a : Access) : ℕ := a.bank.bankID+g.numBanks*a.rowID

def hammerIndex (g : Geometry) (a : Access) : ℕ := g.swapIndex a%2^32

theorem sameRow_of_index (hone : g.numRanks≤1) (ha : g.Has a) (hx : g.Has x)
    (h : g.swapIndex x=g.swapIndex a) : SameRow a x := by
  obtain ⟨t,row,⟨c,rank,bank⟩⟩:=a
  obtain ⟨t',row',⟨c',rank',bank'⟩⟩:=x
  obtain ⟨hc,hrank,hbank,_⟩:=ha
  obtain ⟨hc',hrank',hbank',_⟩:=hx
  dsimp only at hc hrank hbank hc' hrank' hbank'
  obtain ⟨rfl,rfl⟩:=flat_inj hbank' hbank h
  obtain rfl : rank=rank' := by omega
  obtain rfl : c=c' := hc.trans hc'.symm
  exact ⟨rfl,rfl⟩

theorem own_of_inj {index : Access → ℕ} {w : List Access}
    (hinj : ∀ a x,g.Has a → g.Has x → index x=index a → SameRow a x)
    (hsame : ∀ a x,SameRow a x → index x=index a) (hw : ∀ x∈w,g.Has x) (ha : g.Has a) :
    (w.countP fun x => index x=index a)=own a w := by
  refine List.countP_congr fun x hx => ?_
  simp only [decide_eq_true_eq]
  exact ⟨hinj a x ha (hw x hx),hsame a x⟩

theorem swapIndex_congr (h : SameRow a x) : g.swapIndex x=g.swapIndex a := by
  unfold swapIndex
  rw [h.1,h.2]

theorem hammerIndex_inj (hone : g.numRanks=1) (hfit : g.rowsPerBank*g.numBanks<2^31) (ha : g.Has a)
    (hx : g.Has x) (h : g.hammerIndex x=g.hammerIndex a) : SameRow a x := by
  have hlt : ∀ {y},g.Has y → g.swapIndex y<2^32 := fun hy =>
    (flat_lt hy.2.2.1 hy.2.2.2).trans (by rw [Nat.mul_comm]; omega)
  unfold hammerIndex at h
  rw [Nat.mod_eq_of_lt (hlt hx),Nat.mod_eq_of_lt (hlt ha)] at h
  exact sameRow_of_index hone.le ha hx h

theorem swapIndex_corner (g : Geometry) (rank : ℕ) : g.swapIndex (corner rank)=0 :=
  (Nat.zero_add _).trans (Nat.mul_zero _)

theorem corner_has (h : g.rowsPerBank*g.numBanks*g.numRanks≠0) {rank : ℕ} (hrank : rank<g.numRanks) :
    g.Has (corner rank) := by
  have hrows:=left_ne_zero_of_mul h
  exact ⟨rfl,hrank,Nat.pos_of_ne_zero (right_ne_zero_of_mul hrows),Nat.pos_of_ne_zero (left_ne_zero_of_mul hrows)⟩

theorem not_has (h : g.rowsPerBank*g.numBanks*g.numRanks=0) : ¬g.Has a := by
  rintro ⟨_,hrank,hbank,hrow⟩
  exact absurd h (Nat.mul_pos (Nat.mul_pos (Nat.zero_lt_of_lt hrow) (Nat.zero_lt_of_lt hbank)) (Nat.zero_lt_of_lt hrank)).ne'

theorem numDRAMRows_of_fits (h : g.Fits) : g.numDRAMRows=g.rowsPerBank*g.numBanks*g.numRanks ∧ g.numDRAMRows<2^31 := by
  unfold numDRAMRows
  rcases h with hnone | ⟨hone,hfit⟩
  · rw [hnone]
    decide
  · rw [hone,Nat.mul_one,Nat.mul_one,Nat.mod_eq_of_lt (hfit.trans (by decide))]
    exact ⟨rfl,hfit⟩

theorem swapIndex_lt (h : g.Fits) (ha : g.Has a) : g.swapIndex a<g.numDRAMRows := by
  rw [(numDRAMRows_of_fits h).1]
  rcases h with hnone | ⟨hone,_⟩
  · exact (not_has hnone ha).elim
  · rw [hone,Nat.mul_one,Nat.mul_comm]
    exact flat_lt ha.2.2.1 ha.2.2.2

/-- With more rows than the array has counters, one row's index is the array's length. -/
theorem fits_of_inBounds (hone : g.numRanks=1) (hloop : g.numDRAMRows<2^31)
    (hin : ∀ a,g.Has a → g.swapIndex a≠g.numDRAMRows) : g.Fits := by
  refine .inr ⟨hone,?_⟩
  by_contra hbig
  have hlt : g.numDRAMRows<g.rowsPerBank*g.numBanks := by omega
  have hbanks : 0<g.numBanks := Nat.pos_of_ne_zero fun hzero => by rw [hzero,Nat.mul_zero] at hlt; omega
  exact hin ⟨0,g.numDRAMRows/g.numBanks,⟨0,0,g.numDRAMRows%g.numBanks⟩⟩
    ⟨rfl,by rw [hone]; exact Nat.one_pos,Nat.mod_lt _ hbanks,Nat.div_lt_of_lt_mul (by rwa [Nat.mul_comm])⟩ (Nat.mod_add_div _ _)

end Geometry

/-- The entry of an access's row counts the accesses to that row, and they alone decide the answer. -/
structure HammerIsolated (g : Geometry) : Prop where
  /-- The counters are within their array, and a reset gets through them. -/
  sound : ∀ threshold blThreshold memory byZero w s,
    Windowed (BlockHammer.access byZero) (·.lastReset) (.construct threshold g.rowsPerBank blThreshold
      g.numBanks g.numRanks 1 memory) w s → (∀ x∈w,g.Has x) →
    (∀ a,g.Has a → s.dramRowID a<s.numAccessesToRow.size) ∧ ∃ s',s.reset = .ok s'
  counts : ∀ threshold blThreshold memory byZero w s,
    Windowed (BlockHammer.access byZero) (·.lastReset) (.construct threshold g.rowsPerBank blThreshold
      g.numBanks g.numRanks 1 memory) w s → (∀ x∈w,g.Has x) → ∀ a,g.Has a →
    (s.numAccessesToRow.get (s.dramRowID a)).toNat=own a w%2^32
  throttles : ∀ threshold blThreshold memory byZero w s a s',
    Windowed (BlockHammer.access byZero) (·.lastReset) (.construct threshold g.rowsPerBank blThreshold
      g.numBanks g.numRanks 1 memory) w s → s.access byZero a = .ok s' →
    (∀ x∈push (fun x => windowOver x.currTick s.lastReset) w a,g.Has x) →
    s'.mcDelay byZero a.currTick
      (.ofNat (own a (push (fun x => windowOver x.currTick s.lastReset) w a))) = .ok s'.decision.mcDelay

theorem hammer_countsStep (g : Geometry) (byZero : UInt64 → Except Throttle.Fault UInt64) :
    CountsStep (BlockHammer.access byZero) (·.lastReset) (fun s i => (s.numAccessesToRow.get i).toNat)
      g.hammerIndex fun s => s.Regular ∧ s.numBanks=g.numBanks ∧ s.numDRAMRows=g.numDRAMRows := by
  refine ⟨fun {s s' a} hinv haccess => ?_,fun {s s' a} hinv haccess i => ?_⟩
  · have hran:=BlockHammer.access_ran hinv.1 haccess
    exact ⟨hran.regular,hran.same.numBanks.trans hinv.2.1,hran.same.numDRAMRows.trans hinv.2.2⟩
  · obtain ⟨s1,ho,hc⟩:=(BlockHammer.access_post byZero s a).of_ok haccess
    have hindex : s.dramRowID a=g.hammerIndex a := by
      unfold BlockHammer.dramRowID
      rw [hinv.2.1]
      rfl
    have hfound : ∀ j,s1.numAccessesToRow.get j =
        if windowOver a.currTick s.lastReset=true then 0 else s.numAccessesToRow.get j := by
      intro j
      split
      next hover =>
        obtain ⟨_,hswept,hzero⟩:=ho.begins hover
        by_cases hin : j<s.numDRAMRows
        · exact hswept j hin
        · exact hzero j (hinv.1.outside j (Nat.le_of_not_lt hin))
      next hstay => rw [(ho.stays (Bool.eq_false_iff.mpr hstay)).2]
    have hbefore : (s1.numAccessesToRow.get i).toNat =
        if windowOver a.currTick s.lastReset=true then 0 else (s.numAccessesToRow.get i).toNat := by
      rw [hfound i]
      split <;> rfl
    have hlt:=(s1.numAccessesToRow.get i).toNat_lt
    rw [hc.counts,hindex,← hbefore]
    by_cases hi : g.hammerIndex a=i
    · rw [hi,Cells.get_set_self,if_pos rfl,UInt32.toNat_add]
      rfl
    · rw [Cells.get_set_ne _ _ (Ne.symm hi),if_neg hi,Nat.add_zero,Nat.mod_eq_of_lt hlt]

variable {byZero : UInt64 → Except Throttle.Fault UInt64}

theorem hammer_counts {g : Geometry} {threshold blThreshold : UInt32} {memory s : BlockHammer} {w : List Access}
    (h : Windowed (BlockHammer.access byZero) (·.lastReset) (.construct threshold g.rowsPerBank blThreshold
      g.numBanks g.numRanks 1 memory) w s) : (s.Regular ∧ s.numBanks=g.numBanks ∧ s.numDRAMRows=g.numDRAMRows) ∧ ∀ i,
    (s.numAccessesToRow.get i).toNat=(w.countP fun x => g.hammerIndex x=i)%2^32 :=
  windowed_counts (hammer_countsStep g byZero) ⟨BlockHammer.construct_regular _ _ _ _ _ _ _,rfl,rfl⟩
    (fun _ => rfl) h

theorem hammer_answers {s s' : BlockHammer} {a : Access} (haccess : s.access byZero a = .ok s') :
    s'.mcDelay byZero a.currTick (s'.numAccessesToRow.get (s'.dramRowID a)) = .ok s'.decision.mcDelay := by
  obtain ⟨s1,ho,hc⟩:=(BlockHammer.access_post byZero s a).of_ok haccess
  have hindex : s'.dramRowID a=s.dramRowID a := by
    unfold BlockHammer.dramRowID
    rw [hc.same.numBanks,ho.same.numBanks]
  have hdelay:=hc.delay
  unfold BlockHammer.mcDelay at hdelay ⊢
  rw [hindex,hc.counts,Cells.get_set_self,hc.same.blackListThreshold,hc.same.threshold,hc.lastReset]
  exact hdelay

theorem hammer_returns {s : BlockHammer} {a : Access}
    {delay : UInt64} (hstay : windowOver a.currTick s.lastReset=false) (hin : s.dramRowID a<s.numAccessesToRow.size)
    (hdelay : s.mcDelay byZero a.currTick (s.numAccessesToRow.get (s.dramRowID a)+1) = .ok delay) :
    ∃ s',s.access byZero a = .ok s' := by
  have htotal : Post (s.access byZero a) (fun _ => True) fun _ => False := by
    refine (BlockHammer.access_post byZero s a).mono (fun _ _ => trivial) fun e he => ?_
    rcases he with hover | hout | hno
    · exact absurd (hstay.symm.trans hover) Bool.false_ne_true
    · exact absurd hin (Nat.not_lt.mpr hout)
    · exact hno delay hdelay
  exact htotal.exists_ok

theorem hammer_shared {g : Geometry} (h : HammerIsolated g) (hcorner : g.Has (corner 0)) {a : Access}
    (ha : g.Has a) (hindex : g.hammerIndex a=0) : SameRow a (corner 0) := by
  have hzero : g.hammerIndex (corner 0)=0 := by
    unfold Geometry.hammerIndex
    rw [Geometry.swapIndex_corner]
    rfl
  have hstay : windowOver (corner 0).currTick 0=false := by decide
  have hin:=(h.sound 100 100 zeroed (fun _ => .error .divByZero) [] _ .start nofun).1 _ hcorner
  obtain ⟨s',hok⟩ : ∃ s',BlockHammer.access (fun _ => .error .divByZero)
      (.construct 100 g.rowsPerBank 100 g.numBanks g.numRanks 1 zeroed) (corner 0) = .ok s' :=
    hammer_returns hstay hin rfl
  have hrun : Windowed (BlockHammer.access _) (·.lastReset) _ [corner 0] s' := windowed_corner rfl hok
  obtain ⟨⟨_,hbanks,_⟩,hcounts⟩:=hammer_counts hrun
  have hentry : s'.dramRowID a=0 := by
    unfold BlockHammer.dramRowID
    rw [hbanks]
    exact hindex
  have hown:=h.counts _ _ _ _ _ _ hrun (fun x hx => List.mem_singleton.mp hx ▸ hcorner) a ha
  rw [hentry,hcounts 0,List.countP_singleton,decide_eq_true hzero] at hown
  exact own_singleton hown.symm

theorem hammer_isolated {g : Geometry} (hfit : g.Fits) : HammerIsolated g := by
  have hrows:=(Geometry.numDRAMRows_of_fits hfit).2
  have hcounts : ∀ threshold blThreshold memory byZero w s,
      Windowed (BlockHammer.access byZero) (·.lastReset) (.construct threshold g.rowsPerBank blThreshold
        g.numBanks g.numRanks 1 memory) w s → (∀ x∈w,g.Has x) → ∀ a,g.Has a →
      (s.numAccessesToRow.get (s.dramRowID a)).toNat=own a w%2^32 := by
    intro threshold blThreshold memory byZero w s hrun hw a ha
    obtain ⟨hone,hfew⟩:=hfit.resolve_left fun hnone => Geometry.not_has hnone ha
    obtain ⟨⟨_,hbanks,_⟩,hentries⟩:=hammer_counts hrun
    have hindex : s.dramRowID a=g.hammerIndex a := by
      unfold BlockHammer.dramRowID
      rw [hbanks]
      rfl
    rw [hindex,hentries]
    exact congrArg (·%2^32) (Geometry.own_of_inj (fun _ _ => Geometry.hammerIndex_inj hone hfew)
      (fun _ _ h => congrArg (·%2^32) (Geometry.swapIndex_congr h)) hw ha)
  refine ⟨fun threshold blThreshold memory byZero w s hrun _ => ?_,hcounts,
    fun threshold blThreshold memory byZero w s a s' hrun haccess hw => ?_⟩
  · obtain ⟨⟨hregular,hbanks,hnum⟩,_⟩:=hammer_counts hrun
    refine ⟨fun a ha => ?_,(BlockHammer.reset_returns_iff hregular.size).mpr (hnum ▸ hrows)⟩
    have hlt:=Geometry.swapIndex_lt hfit ha
    unfold BlockHammer.dramRowID
    rw [hbanks,hregular.size,hnum]
    exact (Nat.mod_le _ _).trans_lt hlt
  · have hnext:=Windowed.step w s s' a hrun haccess
    have ha : g.Has a := hw a (mem_push _ w a)
    rw [← UInt32.toNat_inj.mp ((hcounts _ _ _ _ _ s' hnext hw a ha).trans UInt32.toNat_ofNat'.symm)]
    exact hammer_answers haccess

theorem hammer_isolated_iff (g : Geometry) : HammerIsolated g ↔ g.Fits := by
  refine ⟨fun h => ?_,hammer_isolated⟩
  by_cases hnone : g.rowsPerBank*g.numBanks*g.numRanks=0
  · exact .inl hnone
  have hranks:=Nat.pos_of_ne_zero (right_ne_zero_of_mul hnone)
  have hone : g.numRanks≤1 := by
    by_contra htwo
    have hsame:=hammer_shared h (Geometry.corner_has hnone hranks)
      (Geometry.corner_has hnone (Nat.lt_of_not_le htwo)) (by
        unfold Geometry.hammerIndex
        rw [Geometry.swapIndex_corner]
        rfl)
    exact absurd hsame.1 (by decide)
  obtain ⟨hin,hreset⟩:=h.sound 100 100 zeroed (fun _ => .error .divByZero) [] _ .start nofun
  have hrows : g.numDRAMRows<2^31 := (BlockHammer.reset_returns_iff rfl).mp hreset
  refine Geometry.fits_of_inBounds (by omega) hrows fun a ha hindex => absurd (hin a ha) ?_
  show ¬g.swapIndex a%2^32<g.numDRAMRows
  rw [hindex,Nat.mod_eq_of_lt (hrows.trans (by decide))]
  exact Nat.lt_irrefl _

def swapAccess (s : RandomizedRowSwap) (a : Access) : Except Swap.Fault RandomizedRowSwap :=
  s.access a.currTick a.rowID a.bank

def Geometry.params (g : Geometry) (rhActualThreshold : ℕ) (swapDelay ritAccDelay : UInt64) :
    Swap.MemCtrlParams :=
  ⟨rhActualThreshold,g.rowsPerBank,g.numBanks,g.numRanks,swapDelay,ritAccDelay⟩

/-- The entry of an access's row is within the array and counts the accesses to that row, and a reset gets
through the counters. -/
def SwapIsolated (g : Geometry) : Prop :=
  ∀ rhActualThreshold swapDelay ritAccDelay trackers randSeq stats s0 w s,
    buildRRS (g.params rhActualThreshold swapDelay ritAccDelay) trackers randSeq stats = .ok s0 →
    Windowed swapAccess (·.lastReset) s0 w s → (∀ x∈w,g.Has x) → (∃ s',s.reset = .ok s') ∧ ∀ a,g.Has a →
    a.bank.bankID+s.numBanks*a.rowID<s.numAccessesToRow.size ∧
      s.numAccessesToRow.get (a.bank.bankID+s.numBanks*a.rowID)=own a w%2^32

structure SwapCounters (g : Geometry) (s : RandomizedRowSwap) : Prop where
  regular : s.Regular
  numBanks : s.numBanks=g.numBanks
  numDRAMRows : s.numDRAMRows=g.numDRAMRows
  bounded : ∀ i,s.numAccessesToRow.get i<2^32

theorem swap_countsStep (g : Geometry) : CountsStep swapAccess (·.lastReset)
    (fun s i => s.numAccessesToRow.get i) g.swapIndex (SwapCounters g) := by
  have hcounted : ∀ {s s' a},SwapCounters g s → swapAccess s a = .ok s' →
      RandomizedRowSwap.Counted s s' a.currTick a.rowID a.bank := fun hinv haccess =>
    (RandomizedRowSwap.access_counted hinv.regular _ _ _).of_ok haccess
  have hentry : ∀ {s s' a},SwapCounters g s → swapAccess s a = .ok s' → ∀ i,s'.numAccessesToRow.get i =
      ((if windowOver a.currTick s.lastReset=true then 0 else s.numAccessesToRow.get i) +
        if g.swapIndex a=i then 1 else 0)%2^32 := by
    intro s s' a hinv haccess i
    have hlt:=hinv.bounded i
    have hi:=(hcounted hinv haccess).counts i
    have hindex : a.bank.bankID+g.numBanks*a.rowID=g.swapIndex a := rfl
    rw [hinv.numBanks,hindex] at hi
    rw [hi]
    dsimp only
    by_cases heq : g.swapIndex a=i
    · rw [if_pos heq,if_pos heq.symm]
      rfl
    · rw [if_neg heq,if_neg (Ne.symm heq),Nat.add_zero]
      split
      next => rfl
      next => rw [Nat.mod_eq_of_lt hlt]
  refine ⟨fun hinv haccess => ?_,hentry⟩
  have hc:=hcounted hinv haccess
  refine ⟨hc.regular,?_,?_,fun i => ?_⟩
  · exact (congrArg RandomizedRowSwap.Shape.numBanks hc.shape).trans hinv.numBanks
  · exact hc.shape.numDRAMRows.trans hinv.numDRAMRows
  · rw [hentry hinv haccess i]
    exact Nat.mod_lt _ (by decide)

theorem buildRRS_counters {g : Geometry} {rhActualThreshold : ℕ} {swapDelay ritAccDelay : UInt64}
    {trackers : Bank → Tracker} {randSeq : ℕ → ℕ} {stats : Swap.Stats} {s0 : RandomizedRowSwap}
    (hbuild : buildRRS (g.params rhActualThreshold swapDelay ritAccDelay) trackers randSeq stats = .ok s0) :
    SwapCounters g s0 ∧ ∀ i,s0.numAccessesToRow.get i=0 := by
  obtain ⟨n,_,hconstruct⟩:=bind_ok hbuild
  obtain ⟨numTuples,_,hconstruct⟩:=bind_ok hconstruct
  cases hconstruct
  have hbanks : g.numBanks%256=g.numBanks := Nat.mod_eq_of_lt g.banks_lt
  have hranks : g.numRanks%256=g.numRanks := Nat.mod_eq_of_lt g.ranks_lt
  refine ⟨⟨⟨rfl,fun _ _ => rfl⟩,hbanks,?_,fun _ => Nat.two_pow_pos 32⟩,fun _ => rfl⟩
  show g.rowsPerBank*(g.numBanks%256)*(g.numRanks%256)*1%2^32=g.numDRAMRows
  rw [hbanks,hranks]
  rfl

theorem swap_counts {g : Geometry} {rhActualThreshold : ℕ} {swapDelay ritAccDelay : UInt64}
    {trackers : Bank → Tracker} {randSeq : ℕ → ℕ} {stats : Swap.Stats} {s0 s : RandomizedRowSwap} {w : List Access}
    (hbuild : buildRRS (g.params rhActualThreshold swapDelay ritAccDelay) trackers randSeq stats = .ok s0)
    (h : Windowed swapAccess (·.lastReset) s0 w s) : SwapCounters g s ∧ ∀ i,
      s.numAccessesToRow.get i=(w.countP fun x => g.swapIndex x=i)%2^32 :=
  windowed_counts (swap_countsStep g) (buildRRS_counters hbuild).1 (buildRRS_counters hbuild).2 h

theorem detector_first {rows banks ranks : ℕ} (hrows : 0<rows) (hbanks : 0<banks) (hranks : 0<ranks) :
    Post ((MisraGries.construct 1 1360000 rows banks ranks 1 fun _ => .zeroed).access 0 ⟨0,0,0⟩ false)
      (fun r => r.2=false) fun _ => False := by
  obtain ⟨rows,rfl⟩:=Nat.exists_eq_succ_of_ne_zero hrows.ne'
  obtain ⟨banks,rfl⟩:=Nat.exists_eq_succ_of_ne_zero hbanks.ne'
  obtain ⟨ranks,rfl⟩:=Nat.exists_eq_succ_of_ne_zero hranks.ne'
  -- every read and write is within arrays of at least one cell, so the access computes
  exact (rfl : false=false)

theorem buildRRS_first (g : Geometry) (stats : Swap.Stats) :
    Post (buildRRS (g.params 8160000 0 0) (fun _ => .zeroed) (fun _ => 0) stats)
      (fun s => s.detector = .construct 1 1360000 g.rowsPerBank (g.numBanks%256) (g.numRanks%256) 1
          (fun _ => .zeroed) ∧ s.lastReset=0 ∧
        s.numAccessesToRow.size=g.rowsPerBank*(g.numBanks%256)*(g.numRanks%256)*1%2^32) fun _ => False := by
  have hdiv : (udiv 1360000 (8160000/6) : Except Swap.Fault ℕ) = .ok 1 := rfl
  have htuples : RandomizedRowSwap.tupleCount (2*1) = .ok 2 := rfl
  have hthreshold : 8160000/6=1360000 := rfl
  unfold buildRRS
  refine Post.bind (R := fun n => n=1) ?_ fun n hn => ?_
  · rw [show (g.params 8160000 0 0).rhActualThreshold=8160000 from rfl,hdiv]
    rfl
  · subst hn
    unfold RandomizedRowSwap.construct
    dsimp only
    rw [htuples,show (g.params 8160000 0 0).rhActualThreshold/6=1360000 from hthreshold]
    exact ⟨rfl,rfl,rfl⟩

theorem swap_returns {s : RandomizedRowSwap} {a : Access} (hstay : windowOver a.currTick s.lastReset=false)
    (hin : a.bank.bankID+s.numBanks*a.rowID<s.numAccessesToRow.size)
    (hdetector : Post (s.detector.access a.rowID a.bank false) (fun r => r.2=false) fun _ => False) :
    ∃ s',swapAccess s a = .ok s' := by
  have htotal : Post (swapAccess s a) (fun _ => True) fun _ => False := by
    unfold swapAccess RandomizedRowSwap.access
    dsimp only
    rw [hstay,if_neg Bool.false_ne_true]
    simp only [post_bind,post_pure,Cells.post_read,post_within]
    refine ⟨fun _ => hdetector.imp fun r hr => ?_,fun hno => hno hin⟩
    rw [hr,if_neg Bool.false_ne_true]
    trivial
  exact htotal.exists_ok

theorem swap_ranks {g : Geometry} (h : SwapIsolated g) (hsome : g.rowsPerBank*g.numBanks*g.numRanks≠0) : g.Fits := by
  have hranks:=Nat.pos_of_ne_zero (right_ne_zero_of_mul hsome)
  have hhas:=Geometry.corner_has hsome hranks
  have hbanks : g.numBanks%256=g.numBanks := Nat.mod_eq_of_lt g.banks_lt
  have hmod : g.numRanks%256=g.numRanks := Nat.mod_eq_of_lt g.ranks_lt
  obtain ⟨s0,hbuild,hdetector,hreset,_⟩:=(buildRRS_first g ⟨0,0,0,0,0,0,0,0,⟨0,.calloc 4 0⟩⟩).returns
  obtain ⟨hcounters0,_⟩:=buildRRS_counters hbuild
  obtain ⟨hends,hentries⟩:=h _ _ _ _ _ _ _ [] _ hbuild .start nofun
  have hrows:=(RandomizedRowSwap.reset_returns_iff hcounters0.regular).mp hends
  have hin : ∀ a,g.Has a → g.swapIndex a<g.numDRAMRows := fun a ha => by
    have hlt:=(hentries a ha).1
    rwa [hcounters0.numBanks,hcounters0.regular.size,hcounters0.numDRAMRows] at hlt
  rw [hcounters0.numDRAMRows] at hrows
  refine Geometry.fits_of_inBounds ?_ hrows fun a ha => (hin a ha).ne
  by_contra hne
  have hother:=Geometry.corner_has hsome (show 1<g.numRanks by omega)
  have hstay : windowOver (corner 0).currTick 0=false := by decide
  rw [hbanks,hmod] at hdetector
  obtain ⟨s',hok⟩:=swap_returns (s := s0) (a := corner 0) (by rwa [hreset]) (hentries _ hhas).1 (by
    rw [hdetector]
    exact detector_first hhas.2.2.2 hhas.2.2.1 hranks)
  have hrun : Windowed swapAccess (·.lastReset) s0 [corner 0] s' := windowed_corner hreset hok
  obtain ⟨hcounters,hcounts⟩:=swap_counts hbuild hrun
  have hown:=((h _ _ _ _ _ _ _ _ _ hbuild hrun (fun x hx => List.mem_singleton.mp hx ▸ hhas)).2 (corner 1) hother).2
  have hentry : (corner 1).bank.bankID+s'.numBanks*(corner 1).rowID=0 :=
    (Nat.zero_add _).trans (Nat.mul_zero s'.numBanks)
  rw [hentry,hcounts 0,List.countP_singleton,decide_eq_true (Geometry.swapIndex_corner g 0)] at hown
  exact absurd (own_singleton hown.symm).1 (by decide)

theorem swap_isolated_iff (g : Geometry) : SwapIsolated g ↔ g.Fits := by
  constructor
  · intro h
    by_cases hnone : g.rowsPerBank*g.numBanks*g.numRanks=0
    · exact .inl hnone
    · exact swap_ranks h hnone
  · intro h _ _ _ _ _ _ s0 w s hbuild hrun hw
    obtain ⟨hcounters,hcounts⟩:=swap_counts hbuild hrun
    refine ⟨(RandomizedRowSwap.reset_returns_iff hcounters.regular).mpr
      (hcounters.numDRAMRows ▸ (Geometry.numDRAMRows_of_fits h).2),fun a ha => ?_⟩
    obtain ⟨hone,_⟩:=h.resolve_left fun hnone => Geometry.not_has hnone ha
    rw [hcounters.numBanks,hcounters.regular.size,hcounters.numDRAMRows]
    refine ⟨Geometry.swapIndex_lt h ha,(hcounts (g.swapIndex a)).trans ?_⟩
    exact congrArg (·%2^32) (Geometry.own_of_inj (fun _ _ => Geometry.sameRow_of_index hone.le)
      (fun _ _ => Geometry.swapIndex_congr) hw ha)

/-- A counter of either defence is a row's own, within its array and swept by a reset, exactly when the channel has one
rank of fewer than `2^31` rows, or no row at all. -/
theorem isolated_iff (g : Geometry) : (HammerIsolated g ↔ g.Fits) ∧ (SwapIsolated g ↔ g.Fits) :=
  ⟨hammer_isolated_iff g,swap_isolated_iff g⟩

/-- Two ranks of two banks share the counter of their first rows. -/
theorem ranks_share_counters : ∃ g : Geometry,g.numRanks=2 ∧ ¬HammerIsolated g ∧ ¬SwapIsolated g := by
  refine ⟨⟨2,2,4,by decide,by decide,by decide⟩,rfl,fun h => ?_,fun h => ?_⟩
  · exact absurd ((hammer_isolated_iff _).mp h) (by unfold Geometry.Fits; decide)
  · exact absurd ((swap_isolated_iff _).mp h) (by unfold Geometry.Fits; decide)

end AquaGem5.Mitigation
