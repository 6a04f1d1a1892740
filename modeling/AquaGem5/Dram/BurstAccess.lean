import AquaGem5.Dram.Activate

/-!
# Bursts and their runs

A burst goes through the page of its bank, the command bandwidth and the bus. From any state that
keeps the constraints it leaves one that does, unless it activates a bank at tick zero.
-/

namespace AquaGem5.Dram
open Ticks Controller Checked Recent

variable {P : Params} {fuel : ℕ} {burstTicks : Multiset ℕ} {rk rk' : Rank} {cmds : List Command}
  {bank row t curTick : ℕ} {memPkt : MemPacket} {s : State}

theorem mem_acts_of_last {i : ℕ} (h : last .ACT i cmds=some t) : t∈acts cmds := by
  obtain ⟨c,hc,rfl⟩:=List.mem_map.mp (List.mem_of_getLast? h)
  rw [List.mem_filter] at hc
  exact List.mem_map.mpr ⟨c,List.mem_filter.mpr ⟨hc.1,decide_eq_true (of_decide_eq_true hc.2).1⟩,rfl⟩

def ActivatesAtZero (P : Params) (burstTicks : Multiset ℕ) (curTick : ℕ) (rk : Rank) (bank : ℕ) : Prop :=
  curTick=0 ∧ (rk.banks bank).openRow=none ∧ (rk.banks bank).actAllowedAt=0 ∧
    ¬ZeroTaken P burstTicks (if P.twoCycleActivate then 2 else 1)

instance (P : Params) (burstTicks : Multiset ℕ) (curTick : ℕ) (rk : Rank) (bank : ℕ) :
    Decidable (ActivatesAtZero P burstTicks curTick rk bank) := inferInstanceAs (Decidable (_ ∧ _))

theorem openPage_post (h : rk.Tracks P) (hX : 0<P.activationLimit) (hbank : bank<P.banksPerRank)
    (hzero : ¬ActivatesAtZero P burstTicks curTick rk bank) : Post (openPage P fuel curTick burstTicks rk bank row)
      (fun r => r.1.Tracks P ∧ (r.1.banks bank).openRow=some row ∧ r.2.card≤burstTicks.card+4)
      (Starved P fuel (burstTicks.card+2)) := by
  rw [openPage]
  split
  next hclosed =>
    refine (activateBank_post h hX hbank hclosed (Nat.le_max_left _ curTick) ?_).mono (fun r hr => ?_)
      fun _ he => he.mono (by omega)
    · cases Nat.eq_zero_or_pos (max (rk.banks bank).actAllowedAt curTick) with
      | inl hmax => exact .inr (by_contra fun hfree => hzero ⟨by omega,hclosed,by omega,hfree⟩)
      | inr hpos => exact .inl hpos
    · obtain ⟨⟨actAt,hpos,hle,ha⟩,hcard⟩:=hr
      exact ⟨h.activate hX hbank hclosed hpos ((Nat.le_max_left _ _).trans hle) ha,ha.row,by omega⟩
  next hopen =>
    refine ((prechargeBank_post h hbank hopen).mono (fun _ hr => hr) fun _ he => he.mono (by omega)).bind fun r hr => ?_
    obtain ⟨rk',burstTicks'⟩:=r
    obtain ⟨⟨preAt,hle,hp⟩,hcard⟩:=hr
    have hcard' : burstTicks'.card≤burstTicks.card+2 := hcard
    have h':=h.precharge hbank hopen ((Nat.le_max_left _ _).trans hle) hp
    -- the bank was activated before, and not at tick zero
    obtain ⟨a,hlast,_⟩:=h.opened bank hopen
    have hin:=mem_acts_of_last hlast
    have hpos:=(h.positive a hin).trans_le ((h.acts_le hin).trans hp.act)
    refine (activateBank_post h' hX hbank hp.closed (Nat.le_max_left _ curTick)
      (.inl (hpos.trans_le (Nat.le_max_left _ _)))).mono (fun r hr => ?_) fun _ he => he.mono hcard'
    obtain ⟨⟨actAt,hpos,hle,ha⟩,hcard⟩:=hr
    exact ⟨h'.activate hX hbank hp.closed hpos ((Nat.le_max_left _ _).trans hle) ha,ha.row,by omega⟩

theorem verifyBurst_post (P : Params) (fuel : ℕ) (burstTicks : Multiset ℕ) (rk : Rank) (cmdAt : ℕ) :
    Post (verifyBurst P fuel burstTicks rk cmdAt) (fun r => cmdAt≤r.1 ∧ r.2.card≤burstTicks.card+2)
      (Starved P fuel burstTicks.card) := by
  rw [verifyBurst]
  split
  next =>
    exact (verifyMulti_post (Nat.le_max_right _ _) fuel burstTicks cmdAt).imp fun _ hr => ⟨hr.1,hr.2.1⟩
  next => exact (verifySingle_post P fuel burstTicks cmdAt).imp fun _ hr => ⟨hr.1,hr.2.1⟩

theorem le_interleaveBurst (P : Params) (rk : Rank) (cmdAt : ℕ) : cmdAt≤(interleaveBurst P rk cmdAt).1 := by
  rw [interleaveBurst]
  split
  next =>
    split
    next => exact le_refl _
    next =>
      split
      next hlt => exact hlt.le
      next => exact le_refl _
  next => exact le_refl _

theorem le_burstTick (P : Params) (curTick : ℕ) (memPkt : MemPacket) (colAllowedAt nextBurstAt : ℕ) :
    colAllowedAt≤burstTick P curTick memPkt colAllowedAt nextBurstAt := by
  rw [burstTick]
  split <;> exact (Nat.le_max_left _ _).trans (Nat.le_max_left _ _)

theorem Rank.Tracks.column {type : MemCommand} (h : rk.Tracks P) (hcol : type = .RD ∨ type = .WR)
    (hrcd : ∃ a,last .ACT bank rk.cmdList=some a ∧ a+P.tRCD≤t) : (rk.issue type bank t).Tracks P := by
  have hact : type ≠ .ACT := by rintro rfl; simp at hcol
  have hpre : type ≠ .PRE := by rintro rfl; simp at hcol
  have hcmd : (rk.issue type bank t).cmdList=rk.cmdList++[⟨type,bank,t⟩] := rfl
  have hacts : acts (rk.issue type bank t).cmdList=acts rk.cmdList := by rw [hcmd,acts_snoc,if_neg hact]
  have hlast : ∀ other i,type≠other → last other i (rk.issue type bank t).cmdList=last other i rk.cmdList := by
    intro other i hne
    rw [hcmd,last_snoc,if_neg fun hsame => hne hsame.1]
  constructor
  · exact h.timed.snoc_col hcol hrcd
  · rw [hacts]
    exact h.ticks
  · rw [hacts]
    exact h.positive
  · rw [hacts]
    exact h.rrd
  · exact h.xaw
  · intro i hopen
    rw [hlast .ACT i hact]
    exact h.opened i hopen
  · intro i a ha
    rw [hlast .PRE i hpre] at ha
    exact h.closed i a ha
  · exact h.count

theorem later_afterBurst (s : State) (memPkt : MemPacket) (cmdAt burstGap j : ℕ) :
    (s.ranks j).Later ((s.afterBurst P memPkt cmdAt burstGap).ranks j) := by
  have hdelay:=fun j => later_delayCol (s.ranks j)
    (fun i => cmdAt+(colDelays P memPkt (decide (memPkt.rank=j)) burstGap i).1)
    fun i => cmdAt+(colDelays P memPkt (decide (memPkt.rank=j)) burstGap i).2
  cases Decidable.eq_or_ne j memPkt.rank with
  | inl heq =>
    subst heq
    rw [State.afterBurst]
    dsimp only
    rw [Function.update_self]
    have hbank:=fun rk => later_setBank rk memPkt.bank (fun b => {b with
      preAllowedAt := max b.preAllowedAt (if memPkt.read then cmdAt+P.tRTP else cmdAt+P.tCL+P.tBURST+P.tWR)
      bytesAccessed := b.bytesAccessed+P.burstSize
      rowAccesses := b.rowAccesses+1}) ⟨rfl,le_refl _,le_refl _,Nat.le_max_left _ _,le_refl _⟩
    obtain ⟨hbanks,hcmd,hticks,hactive⟩:=(hdelay memPkt.rank).trans (hbank _)
    exact ⟨hbanks,hcmd,hticks,hactive⟩
  | inr hother =>
    rw [State.afterBurst]
    dsimp only
    rw [Function.update_of_ne hother]
    exact hdelay j

def State.Tracks (P : Params) (s : State) : Prop := ∀ j,(s.ranks j).Tracks P

theorem setRank_self (s : State) (rank : ℕ) (rk : Rank) : (s.setRank rank rk).ranks rank=rk := Function.update_self ..

theorem setRank_of_ne (s : State) (rk : Rank) {rank j : ℕ} (h : j≠rank) : (s.setRank rank rk).ranks j=s.ranks j :=
  Function.update_of_ne h ..

theorem State.Tracks.setRank (h : s.Tracks P) (rank : ℕ) (hrk : rk.Tracks P) : (s.setRank rank rk).Tracks P := by
  intro j
  cases Decidable.eq_or_ne j rank with
  | inl heq => rwa [heq,setRank_self]
  | inr hother =>
    rw [setRank_of_ne s rk hother]
    exact h j

theorem later_wake (rk : Rank) (curTick : ℕ) : rk.Later (rk.wake P curTick) := by
  rw [Rank.wake]
  split
  next => exact later_wakeUp rk curTick P.tXP
  next => exact Rank.Later.refl rk

theorem finishBurst_post {cmdAt : ℕ} {queue : List (List MemPacket)} (h : s.Tracks P) (hbank : memPkt.bank<P.banksPerRank)
    (hopen : ((s.ranks memPkt.rank).banks memPkt.bank).openRow≠none)
    (hrcd : ∃ a,last .ACT memPkt.bank (s.ranks memPkt.rank).cmdList=some a ∧ a+P.tRCD≤cmdAt) :
    Post (s.finishBurst P fuel curTick burstTicks memPkt cmdAt queue) (fun r => r.1.Tracks P)
      (Starved P fuel burstTicks.card) := by
  have hopen' : (((s.ranks memPkt.rank).issue (if memPkt.read then .RD else .WR) memPkt.bank cmdAt).banks
      memPkt.bank).openRow≠none := hopen
  have hcol : ((s.ranks memPkt.rank).issue (if memPkt.read then .RD else .WR) memPkt.bank cmdAt).Tracks P := by
    refine (h memPkt.rank).column ?_ hrcd
    split
    next => exact .inl rfl
    next => exact .inr rfl
  rw [State.finishBurst]
  generalize (s.ranks memPkt.rank).issue _ memPkt.bank cmdAt=rk' at hcol hopen'
  have hpre : Post (if autoPrecharge P rk' memPkt queue then
      prechargeBank P fuel burstTicks rk' memPkt.bank (max curTick (rk'.banks memPkt.bank).preAllowedAt) true
      else pure (rk',burstTicks)) (fun r => r.1.Tracks P) (Starved P fuel burstTicks.card) := by
    split
    next =>
      refine (prechargeBank_post hcol hbank hopen').imp fun r hr => ?_
      obtain ⟨⟨preAt,hle,hp⟩,_⟩:=hr
      exact hcol.precharge hbank hopen' ((Nat.le_max_right _ _).trans hle) hp
    next => exact hcol
  exact hpre.bind fun r hr => h.setRank memPkt.rank hr

theorem doBurstAccess_post {nextBurstAt : ℕ} {queue : List (List MemPacket)} (h : s.Tracks P)
    (hX : 0<P.activationLimit) (hbank : memPkt.bank<P.banksPerRank)
    (hzero : ¬ActivatesAtZero P burstTicks curTick ((s.ranks memPkt.rank).wake P curTick) memPkt.bank) :
    Post (doBurstAccess P fuel curTick burstTicks s memPkt nextBurstAt queue) (fun r => r.2.1.Tracks P)
      (Starved P fuel (burstTicks.card+6)) := by
  have hrk : ((s.ranks memPkt.rank).wake P curTick).Tracks P := (h memPkt.rank).later (later_wake _ curTick)
  have hpage : Post (if (((s.ranks memPkt.rank).wake P curTick).banks memPkt.bank).openRow=some memPkt.row then
      pure ((s.ranks memPkt.rank).wake P curTick,burstTicks)
      else openPage P fuel curTick burstTicks ((s.ranks memPkt.rank).wake P curTick) memPkt.bank memPkt.row)
      (fun r => r.1.Tracks P ∧ (r.1.banks memPkt.bank).openRow=some memPkt.row ∧ r.2.card≤burstTicks.card+4)
      (Starved P fuel (burstTicks.card+6)) := by
    split
    next hhit => exact ⟨hrk,hhit,Nat.le_add_right _ _⟩
    next => exact (openPage_post hrk hX hbank hzero).mono (fun _ hr => hr) fun _ he => he.mono (by omega)
  rw [doBurstAccess]
  refine hpage.bind fun r hr => ?_
  obtain ⟨rk',burstTicksP⟩:=r
  obtain ⟨htracks,hrow,hcardP⟩:=hr
  replace hcardP : burstTicksP.card≤burstTicks.card+4 := hcardP
  refine ((verifyBurst_post P fuel burstTicksP rk' _).mono (fun _ hr => hr) fun _ he => he.mono (by omega)).bind
    fun r hr => ?_
  obtain ⟨cmdAt,burstTicksC⟩:=r
  obtain ⟨hle,hcardC⟩:=hr
  replace hcardC : burstTicksC.card≤burstTicksP.card+2 := hcardC
  have hlater:=later_afterBurst (P := P) (s.setRank memPkt.rank rk') memPkt (interleaveBurst P rk' cmdAt).1
    (interleaveBurst P rk' cmdAt).2
  have hopen : (rk'.banks memPkt.bank).openRow≠none := hrow ▸ Option.some_ne_none memPkt.row
  obtain ⟨a,hlast,hrd,hwr,_⟩:=htracks.opened memPkt.bank hopen
  have hcol : a+P.tRCD≤(interleaveBurst P rk' cmdAt).1 := by
    refine le_trans ?_ (((le_burstTick P curTick memPkt _ nextBurstAt).trans hle).trans (le_interleaveBurst P rk' cmdAt))
    split
    next => exact hrd
    next => exact hwr
  have hself:=hlater memPkt.rank
  rw [setRank_self] at hself
  refine ((finishBurst_post (fun j => (h.setRank memPkt.rank htracks j).later (hlater j)) hbank ?_ ⟨a,?_,hcol⟩).mono
    (fun _ hr => hr) fun _ he => he.mono (by omega)).bind fun r hr => hr
  · rw [(hself.banks memPkt.bank).openRow]
    exact hopen
  · rw [hself.cmdList]
    exact hlast

structure Call where
  curTick : ℕ
  burstTicks : Multiset ℕ
  fuel : ℕ
  memPkt : MemPacket
  nextBurstAt : ℕ
  queue : List (List MemPacket)

def Call.run (c : Call) (P : Params) (s : State) : Except Fault (Burst × State × Multiset ℕ) :=
  doBurstAccess P c.fuel c.curTick c.burstTicks s c.memPkt c.nextBurstAt c.queue

def Call.AwayFromZero (c : Call) (P : Params) (s : State) : Prop :=
  ¬ActivatesAtZero P c.burstTicks c.curTick ((s.ranks c.memPkt.rank).wake P c.curTick) c.memPkt.bank

/-- The states after calls at non-decreasing ticks, each with `ok` before it, while ranks power down and
bursts of other interfaces come between. -/
inductive Reachable (P : Params) (ok : Call → State → Prop) : ℕ → State → Prop
  | init : Reachable P ok 0 (State.new P)
  | burst (curTick : ℕ) (s s' : State) (c : Call) (b : Burst) (burstTicks : Multiset ℕ) : Reachable P ok curTick s →
      curTick≤c.curTick → c.memPkt.bank<P.banksPerRank → ok c s → c.run P s = .ok (b,s',burstTicks) →
      Reachable P ok c.curTick s'
  | powerDown (curTick : ℕ) (s : State) (rank tick : ℕ) : Reachable P ok curTick s →
      Reachable P ok curTick (s.setRank rank ((s.ranks rank).powerDownSleep P tick))
  | otherBurst (curTick : ℕ) (s : State) (cmdAt : ℕ) : Reachable P ok curTick s →
      Reachable P ok curTick (s.addRankToRankDelay P cmdAt)

theorem reachable_tracks (hX : 0<P.activationLimit) (h : Reachable P (fun c s => c.AwayFromZero P s) curTick s) :
    s.Tracks P := by
  induction h with
  | init => exact fun _ => tracks_new P
  | burst curTick s s' c b burstTicks _ _ hbank hzero hrun ih => exact (doBurstAccess_post ih hX hbank hzero).of_ok hrun
  | powerDown curTick s rank tick _ ih =>
    exact ih.setRank rank ((ih rank).later ⟨fun _ => Bank.Later.refl _,rfl,rfl,rfl⟩)
  | otherBurst curTick s cmdAt _ ih => exact fun j => (ih j).later (later_delayCol _ _ _)

/-- In a run without an activate at tick zero, the commands of every rank keep the constraints of the device, and no
call panics or stops at an assertion: it returns if its searches have the budget. -/
theorem activation_timing (hX : 0<P.activationLimit) (h : Reachable P (fun c s => c.AwayFromZero P s) curTick s) :
    (∀ j,Timed P (s.ranks j).cmdList) ∧
      ∀ c : Call,curTick≤c.curTick → c.memPkt.bank<P.banksPerRank → c.AwayFromZero P s →
        Post (c.run P s) (fun _ => True) fun e => e = .search ∧ ¬Enough P c.fuel (c.burstTicks.card+6) :=
  ⟨fun j => (reachable_tracks hX h j).timed,fun _ _ hbank hzero =>
    (doBurstAccess_post (reachable_tracks hX h) hX hbank hzero).imp fun _ _ => trivial⟩

def burstAll (P : Params) (fuel : ℕ) : List (ℕ × MemPacket) → Multiset ℕ → State → ℕ → Except Fault State
  | [],_,s,_ => pure s
  | (curTick,memPkt)::calls,burstTicks,s,nextBurstAt => do
    let (b,s,burstTicks) ← doBurstAccess P fuel curTick (pruneBurstTick curTick burstTicks) s memPkt nextBurstAt []
    burstAll P fuel calls burstTicks s b.nextBurstAt

theorem reachable_burstAll {ok : Call → State → Prop} {calls : List (ℕ × MemPacket)} {nextBurstAt : ℕ} {s' : State}
    (h : Reachable P ok curTick s) (hsorted : (curTick::calls.map Prod.fst).IsChain (·≤·))
    (hbank : ∀ c∈calls,c.2.bank<P.banksPerRank) (hrun : burstAll P fuel calls burstTicks s nextBurstAt = .ok s')
    (hok : ∀ c s,c.curTick∈calls.map Prod.fst → ok c s) : ∃ t,Reachable P ok t s' := by
  induction calls generalizing curTick s burstTicks nextBurstAt with
  | nil =>
    cases hrun
    exact ⟨curTick,h⟩
  | cons c calls ih =>
    obtain ⟨t,memPkt⟩:=c
    obtain ⟨⟨b,s'',burstTicks'⟩,hburst,hrest⟩:=bind_ok hrun
    rw [List.map_cons,List.isChain_cons_cons] at hsorted
    have hstep:=Reachable.burst curTick s s'' ⟨t,_,fuel,memPkt,nextBurstAt,[]⟩ b burstTicks' h hsorted.1
      (hbank (t,memPkt) (List.mem_cons_self ..)) (hok _ _ (List.mem_cons_self ..)) hburst
    exact ih hstep hsorted.2 (fun c hc => hbank c (List.mem_cons_of_mem _ hc)) hrest fun c s hc =>
      hok c s (List.mem_cons_of_mem _ hc)

def ddr3 : Params where
  burstSize := 64
  banksPerRank := 8
  bankGroupsPerRank := 0
  tCK := 1250
  tCS := 2500
  tBURST := 5000
  tRTW := 2500
  tWTR := 7500
  tCL := 13750
  tBURST_MIN := 5000
  tBURST_MAX := 5000
  tCCD_L_WR := 0
  tCCD_L := 0
  tRCD := 13750
  tRP := 13750
  tRAS := 35000
  tWR := 15000
  tWTR_L := 7500
  tRTP := 7500
  tRRD := 6000
  tRRD_L := 0
  tPPD := 0
  tAAD := 1250
  tXAW := 30000
  tXP := 6000
  dataClockSync := false
  twoCycleActivate := false
  activationLimit := 4
  pageMgmt := .openAdaptive
  maxAccessesPerRow := 16
  commandWindow := 10000
  rrdSane := fun h => absurd h (Nat.lt_irrefl 0)
  burstPow := ⟨6,rfl⟩

def readOf (bank : ℕ) : MemPacket := ⟨bank,bank,0,true,true,0,bank,0,bank,bank*8192,64,none,0,0,0,false,0,0⟩

/-- Reads of five banks, the first at tick zero and each other one when the bus has room for it. -/
theorem not_activation_timing : ∃ t s,Reachable ddr3 (fun _ _ => True) t s ∧
    acts (s.ranks 0).cmdList=[0,6000,12000,18000,24000] ∧ ¬Timed ddr3 (s.ranks 0).cmdList := by
  have hrun : Post (burstAll ddr3 10 [(0,readOf 0),(5000,readOf 1),(10000,readOf 2),(15000,readOf 3),(20000,readOf 4)] 0
      (State.new ddr3) 27500) (fun s => acts (s.ranks 0).cmdList=[0,6000,12000,18000,24000]) fun _ => False := by
    decide +kernel
  obtain ⟨s,hs,hacts⟩:=hrun.returns
  obtain ⟨t,hreach⟩:=reachable_burstAll .init (by decide) (by decide) hs fun _ _ _ => trivial
  refine ⟨t,s,hreach,hacts,fun htimed => ?_⟩
  have hspan:=htimed.xaw 0 0 24000
  rw [hacts] at hspan
  exact absurd (hspan rfl rfl) (by decide)

theorem activation_timing_five_reads : ∃ s : State,acts (s.ranks 0).cmdList=[5000,11000,17000,23000,35000] ∧
    Timed ddr3 (s.ranks 0).cmdList := by
  have hrun : Post (burstAll ddr3 10 [(5000,readOf 0),(10000,readOf 1),(15000,readOf 2),(20000,readOf 3),(25000,readOf 4)]
      0 (State.new ddr3) 32500) (fun s => acts (s.ranks 0).cmdList=[5000,11000,17000,23000,35000]) fun _ => False := by
    decide +kernel
  obtain ⟨s,hs,hacts⟩:=hrun.returns
  have haway : ∀ (c : Call) (s : State),c.curTick∈[5000,10000,15000,20000,25000] → c.AwayFromZero ddr3 s := by
    intro c s hc hzero
    rw [hzero.1] at hc
    exact absurd hc (by decide)
  obtain ⟨t,hreach⟩:=reachable_burstAll .init (by decide) (by decide) hs haway
  exact ⟨s,hacts,(activation_timing (by decide) hreach).1 0⟩

end AquaGem5.Dram
