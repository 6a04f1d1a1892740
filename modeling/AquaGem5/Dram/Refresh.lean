import AquaGem5.Dram.BurstAccess

/-!
# Bank states over bursts and refreshes

A row is opened by an activate only, and closed by an explicit precharge, by one that goes with a burst or by the
precharge of all banks before a refresh.
-/

namespace AquaGem5.Dram
open Ticks Controller Checked Recent Finset

variable {P : Params} {fuel : ℕ} {burstTicks : Multiset ℕ} {rk rk' : Rank} {bank row curTick : ℕ}
  {memPkt : MemPacket} {s : State}

namespace Rank

def preAllAt (P : Params) (rk : Rank) (curTick : ℕ) : ℕ :=
  (List.range P.banksPerRank).foldl (fun preAt i => max (rk.banks i).preAllowedAt preAt) curTick

/-- A bank in the precharge of all banks. It is not in the trace of the commands, and takes no command bandwidth. -/
def refreshBank (P : Params) (preAt : ℕ) (rk : Rank) (bank : ℕ) : Except Fault Rank :=
  if (rk.banks bank).openRow≠none then
    (prechargeBank P 0 0 rk bank preAt true).map fun r => {r.1 with cmdList := rk.cmdList}
  else
    .ok (rk.setBank bank fun b => {b with
      actAllowedAt := max b.actAllowedAt (preAt+P.tRP)
      preAllowedAt := max b.preAllowedAt preAt})

/-- `processRefreshEvent` in `REF_PRE`, without its power events. -/
def refreshPre (P : Params) (rk : Rank) (curTick : ℕ) : Except Fault Rank := do
  let rk ← (if rk.numBanksActive≠0 then do
      let preAt := rk.preAllAt P curTick
      let rk ← (List.range P.banksPerRank).foldlM (refreshBank P preAt) rk
      return rk.issue .PREA 0 preAt
    else pure rk)
  check (rk.numBanksActive=0) .assertion
  return rk

/-- `processRefreshEvent` in `REF_START`, without its power events. -/
def refreshStart (rk : Rank) (curTick tRFC : ℕ) : Except Fault Rank := do
  check (rk.numBanksActive=0) .assertion
  return {rk with banks := fun i => {rk.banks i with actAllowedAt := curTick+tRFC} }.issue .REF 0 curTick

end Rank

structure Rank.Counted (P : Params) (rk : Rank) : Prop where
  count : rk.numBanksActive=(openBanks P rk).card
  limit : rk.actTicks.length=P.activationLimit

structure Rank.SamePages (rk rk' : Rank) : Prop where
  rows : ∀ i,(rk'.banks i).openRow=(rk.banks i).openRow
  active : rk'.numBanksActive=rk.numBanksActive
  limit : rk'.actTicks.length=rk.actTicks.length

theorem counted_new (P : Params) : (Rank.new P).Counted P :=
  ⟨(tracks_new P).count,List.length_replicate⟩

theorem Rank.SamePages.trans {rk'' : Rank} (h : rk.SamePages rk') (h' : rk'.SamePages rk'') : rk.SamePages rk'' :=
  ⟨fun i => (h'.rows i).trans (h.rows i),h'.active.trans h.active,h'.limit.trans h.limit⟩

theorem Rank.Later.samePages (h : rk.Later rk') : rk.SamePages rk' :=
  ⟨fun i => (h.banks i).openRow,h.numBanksActive,congrArg List.length h.actTicks⟩

theorem Rank.Counted.same (h : rk.Counted P) (hs : rk.SamePages rk') : rk'.Counted P := by
  obtain ⟨hrows,hactive,hlimit⟩:=hs
  constructor
  · have hopen : openBanks P rk'=openBanks P rk := filter_congr fun i _ => by rw [hrows i]
    rw [hactive,hopen]
    exact h.count
  · rw [hlimit]
    exact h.limit

theorem Rank.Counted.open (h : rk.Counted P) (hbank : bank<P.banksPerRank) (hclosed : (rk.banks bank).openRow=none)
    (hopen : (rk'.banks bank).openRow≠none) (hothers : ∀ i,i≠bank → (rk'.banks i).openRow=(rk.banks i).openRow)
    (hactive : rk'.numBanksActive=rk.numBanksActive+1) (hlimit : rk'.actTicks.length=rk.actTicks.length) :
    rk'.Counted P := by
  have hout : bank∉openBanks P rk := fun hin => (mem_filter.mp hin).2 hclosed
  constructor
  · rw [openBanks_insert rk hbank hopen hothers,card_insert_of_notMem hout,hactive,h.count]
  · rw [hlimit]
    exact h.limit

theorem Rank.Counted.close (h : rk.Counted P) (hbank : bank<P.banksPerRank) (hopen : (rk.banks bank).openRow≠none)
    (hclosed : (rk'.banks bank).openRow=none) (hothers : ∀ i,i≠bank → (rk'.banks i).openRow=(rk.banks i).openRow)
    (hactive : rk'.numBanksActive=rk.numBanksActive-1) (hlimit : rk'.actTicks.length=rk.actTicks.length) :
    rk'.Counted P := by
  have hinsert:=openBanks_insert rk' hbank hopen fun i hi => (hothers i hi).symm
  have hout : bank∉openBanks P rk' := fun hin => (mem_filter.mp hin).2 hclosed
  have hcount:=h.count
  rw [hinsert,card_insert_of_notMem hout] at hcount
  constructor
  · omega
  · rw [hlimit]
    exact h.limit

theorem Rank.Counted.active_ne_zero (h : rk.Counted P) (hbank : bank<P.banksPerRank)
    (hopen : (rk.banks bank).openRow≠none) : rk.numBanksActive≠0 := by
  have hin : bank∈openBanks P rk := mem_filter.mpr ⟨mem_range.mpr hbank,hopen⟩
  rw [h.count]
  exact (card_pos.mpr ⟨bank,hin⟩).ne'

def Stopped (P : Params) (fuel n : ℕ) (e : Fault) : Prop := e = .panic ∨ Starved P fuel n e

theorem Stopped.mono {n m : ℕ} {e : Fault} (h : Stopped P fuel n e) (hle : n ≤ m) : Stopped P fuel m e :=
  h.imp_right fun he => he.mono hle

theorem verifyActivate_card (P : Params) (fuel : ℕ) (burstTicks : Multiset ℕ) (actTick : ℕ) :
    Post (verifyActivate P fuel burstTicks actTick) (fun r => r.2.card≤burstTicks.card+2)
      (Starved P fuel burstTicks.card) := by
  unfold verifyActivate
  split
  next =>
    exact (verifyMulti_post (Nat.le_max_left _ _) fuel burstTicks actTick).imp fun _ hr => hr.2.1
  next => exact (verifySingle_post P fuel burstTicks actTick).imp fun _ hr => hr.2.1

theorem enforceXAW_pages (P : Params) (rk : Rank) (actAt : ℕ) :
    Post (rk.enforceXAW P actAt) (fun rk' => rk.SamePages rk') fun e => e = .panic := by
  rw [Rank.enforceXAW,post_ite]
  refine ⟨fun _ => (Rank.Later.refl rk).samePages,fun hne => ?_⟩
  have hlimit : (actAt::rk.actTicks.dropLast).length=rk.actTicks.length := by
    have hpos:=List.length_pos_of_ne_nil hne
    rw [List.length_cons,List.length_dropLast]
    omega
  have hpushed : rk.SamePages {rk with actTicks := actAt::rk.actTicks.dropLast} := ⟨fun _ => rfl,rfl,hlimit⟩
  rw [post_ite]
  refine ⟨fun _ => rfl,fun _ => ?_⟩
  rw [post_ite]
  exact ⟨fun _ => hpushed.trans (later_delayAct _ _).samePages,fun _ => hpushed⟩

theorem activateBank_counted {actTick : ℕ} (h : rk.Counted P) (hbank : bank<P.banksPerRank)
    (hclosed : (rk.banks bank).openRow=none) : Post (activateBank P fuel burstTicks rk bank actTick row)
      (fun r => r.1.Counted P ∧ (r.1.banks bank).openRow=some row ∧ r.2.card≤burstTicks.card+2)
      (Stopped P fuel burstTicks.card) := by
  have hcount:=h.count
  have hcard:=openBanks_card hbank hclosed
  rw [activateBank,post_bind,post_check]
  refine ⟨fun _ => ?_,fun hno => absurd h.limit hno⟩
  refine ((verifyActivate_card P fuel burstTicks actTick).mono (fun _ hr => hr) fun _ he => .inr he).bind fun r hr => ?_
  simp only [post_bind,post_check,post_pure]
  refine ⟨fun _ => ⟨fun _ => ?_,fun hmany => absurd (by omega) hmany⟩,fun hno => absurd hclosed hno⟩
  refine (enforceXAW_pages P _ r.1).mono (fun rk' hrk' => ?_) fun _ he => .inl he
  have hpages:=(later_enforceRRD (P := P) _ bank r.1).samePages.trans hrk'
  have hrow : (rk'.banks bank).openRow=some row := by
    rw [hpages.rows bank]
    exact congrArg Bank.openRow (opened_self rk bank row r.1)
  refine ⟨h.open hbank hclosed ?_ (fun i hi => ?_) hpages.active hpages.limit,hrow,hr⟩
  · rw [hrow]
    exact Option.some_ne_none row
  · rw [hpages.rows i]
    exact congrArg Bank.openRow (opened_of_ne rk row r.1 hi)

theorem samePages_setBank (rk : Rank) (bank : ℕ) (f : Bank → Bank)
    (hf : (f (rk.banks bank)).openRow=(rk.banks bank).openRow) : rk.SamePages (rk.setBank bank f) := by
  refine ⟨fun i => ?_,rfl,rfl⟩
  cases Decidable.eq_or_ne i bank with
  | inl heq => rw [heq,setBank_self,hf]
  | inr hother => rw [setBank_of_ne rk f hother]

theorem counted_closePage {rkC : Rank} {preAt : ℕ} (h : rk.Counted P) (hbank : bank<P.banksPerRank)
    (hopen : (rk.banks bank).openRow≠none)
    (hpages : (rk.setBank bank fun b => {b with openRow := none}).SamePages rkC) :
    (({rkC with numBanksActive := rkC.numBanksActive-1} : Rank).issue .PRE bank preAt).Counted P ∧
      (rkC.banks bank).openRow=none ∧ ∀ i,i≠bank → (rkC.banks i).openRow=(rk.banks i).openRow := by
  have hclosed : (rkC.banks bank).openRow=none := by rw [hpages.rows bank,setBank_self]
  have hothers : ∀ i,i≠bank → (rkC.banks i).openRow=(rk.banks i).openRow := fun i hi => by
    rw [hpages.rows i,setBank_of_ne rk _ hi]
  exact ⟨h.close hbank hopen hclosed hothers (congrArg (·-1) hpages.active) hpages.limit,hclosed,hothers⟩

theorem prechargeBank_counted {preTick : ℕ} {auto : Bool} (h : rk.Counted P) (hbank : bank<P.banksPerRank)
    (hopen : (rk.banks bank).openRow≠none) : Post (prechargeBank P fuel burstTicks rk bank preTick auto)
      (fun r => r.1.Counted P ∧ (r.1.banks bank).openRow=none ∧
        (∀ i,i≠bank → (r.1.banks i).openRow=(rk.banks i).openRow) ∧ r.2.card≤burstTicks.card+2)
      fun e => auto=false ∧ Starved P fuel burstTicks.card e := by
  have hcount:=h.active_ne_zero hbank hopen
  rw [prechargeBank,post_bind,post_check]
  refine ⟨fun _ => ?_,fun hno => absurd hopen hno⟩
  cases auto with
  | true =>
    simp only [if_true,post_bind,post_pure,post_check]
    refine ⟨fun _ => ?_,fun hno => absurd hcount hno⟩
    have hpages:=(samePages_setBank (rk.setBank bank fun b => {b with openRow := none}) bank
      (fun b => {b with preAllowedAt := preTick}) rfl).trans
      (samePages_setBank _ bank (fun b => {b with actAllowedAt := max b.actAllowedAt (preTick+P.tRP)}) rfl)
    obtain ⟨hcounted,hclosed,hothers⟩:=counted_closePage h hbank hopen hpages
    exact ⟨hcounted,hclosed,hothers,Nat.le_add_right _ _⟩
  | false =>
    simp only [Bool.false_eq_true,if_false,post_bind,post_pure,post_check]
    refine (verifySingle_post P fuel burstTicks preTick).mono (fun r hr => ?_) fun _ he => ⟨trivial,he⟩
    refine ⟨fun _ => ?_,fun hno => absurd hcount hno⟩
    have hpages:=(later_delayPre (rk.setBank bank fun b => {b with openRow := none}) (r.1+P.tPPD)).samePages.trans
      (samePages_setBank _ bank (fun b => {b with actAllowedAt := max b.actAllowedAt (r.1+P.tRP)}) rfl)
    obtain ⟨hcounted,hclosed,hothers⟩:=counted_closePage h hbank hopen hpages
    exact ⟨hcounted,hclosed,hothers,hr.2.1⟩

theorem openPage_counted (h : rk.Counted P) (hbank : bank<P.banksPerRank) :
    Post (openPage P fuel curTick burstTicks rk bank row)
      (fun r => r.1.Counted P ∧ (r.1.banks bank).openRow=some row ∧ r.2.card≤burstTicks.card+4)
      (Stopped P fuel (burstTicks.card+2)) := by
  rw [openPage]
  have hclose : Post (if (rk.banks bank).openRow=none then pure (rk,burstTicks)
      else prechargeBank P fuel burstTicks rk bank (max (rk.banks bank).preAllowedAt curTick) false)
      (fun r => r.1.Counted P ∧ (r.1.banks bank).openRow=none ∧ r.2.card≤burstTicks.card+2)
      (Stopped P fuel (burstTicks.card+2)) := by
    split
    next hclosed => exact ⟨h,hclosed,Nat.le_add_right _ _⟩
    next hopen =>
      exact (prechargeBank_counted h hbank hopen).mono (fun _ hr => ⟨hr.1,hr.2.1,hr.2.2.2⟩)
        fun _ he => .inr (he.2.mono (by omega))
  refine hclose.bind fun r hr => ?_
  obtain ⟨hcounted,hclosed,hcard⟩:=hr
  exact (activateBank_counted hcounted hbank hclosed).mono (fun _ ha => ⟨ha.1,ha.2.1,by have := ha.2.2; omega⟩)
    fun _ he => he.mono hcard

def State.Counted (P : Params) (s : State) : Prop := ∀ j,(s.ranks j).Counted P

theorem State.Counted.setRank (h : s.Counted P) (rank : ℕ) (hrk : rk.Counted P) : (s.setRank rank rk).Counted P := by
  intro j
  cases Decidable.eq_or_ne j rank with
  | inl heq => rwa [heq,setRank_self]
  | inr hother =>
    rw [setRank_of_ne s rk hother]
    exact h j

theorem finishBurst_counted {cmdAt : ℕ} {queue : List (List MemPacket)} (h : s.Counted P)
    (hbank : memPkt.bank<P.banksPerRank) (hopen : ((s.ranks memPkt.rank).banks memPkt.bank).openRow≠none) :
    Post (s.finishBurst P fuel curTick burstTicks memPkt cmdAt queue) (fun r => r.1.Counted P) fun _ => False := by
  rw [State.finishBurst]
  have hcol : ∀ type,((s.ranks memPkt.rank).issue type memPkt.bank cmdAt).Counted P := fun _ =>
    (h memPkt.rank).same ⟨fun _ => rfl,rfl,rfl⟩
  have hpre : ∀ rk : Rank,rk.Counted P → (rk.banks memPkt.bank).openRow≠none →
      Post (if autoPrecharge P rk memPkt queue then
        prechargeBank P fuel burstTicks rk memPkt.bank (max curTick (rk.banks memPkt.bank).preAllowedAt) true
        else pure (rk,burstTicks)) (fun r => r.1.Counted P) fun _ => False := by
    intro rk hrk hrow
    split
    next => exact (prechargeBank_counted hrk hbank hrow).mono (fun _ hr => hr.1) fun _ he => by cases he.1
    next => exact hrk
  exact (hpre _ (hcol _) hopen).bind fun r hr => h.setRank memPkt.rank hr

theorem doBurstAccess_counted {nextBurstAt : ℕ} {queue : List (List MemPacket)} (h : s.Counted P)
    (hbank : memPkt.bank<P.banksPerRank) :
    Post (doBurstAccess P fuel curTick burstTicks s memPkt nextBurstAt queue) (fun r => r.2.1.Counted P)
      (Stopped P fuel (burstTicks.card+6)) := by
  have hrk : ((s.ranks memPkt.rank).wake P curTick).Counted P :=
    (h memPkt.rank).same (later_wake _ curTick).samePages
  have hpage : Post (if (((s.ranks memPkt.rank).wake P curTick).banks memPkt.bank).openRow=some memPkt.row then
      pure ((s.ranks memPkt.rank).wake P curTick,burstTicks)
      else openPage P fuel curTick burstTicks ((s.ranks memPkt.rank).wake P curTick) memPkt.bank memPkt.row)
      (fun r => r.1.Counted P ∧ (r.1.banks memPkt.bank).openRow=some memPkt.row ∧ r.2.card≤burstTicks.card+4)
      (Stopped P fuel (burstTicks.card+6)) := by
    split
    next hhit => exact ⟨hrk,hhit,Nat.le_add_right _ _⟩
    next => exact (openPage_counted hrk hbank).mono (fun _ hr => hr) fun _ he => he.mono (by omega)
  rw [doBurstAccess]
  refine hpage.bind fun r hr => ?_
  obtain ⟨rk',burstTicksP⟩:=r
  obtain ⟨hcounted,hrow,hcardP⟩:=hr
  replace hcardP : burstTicksP.card≤burstTicks.card+4 := hcardP
  refine ((verifyBurst_post P fuel burstTicksP rk' _).mono (fun _ hr => hr) fun _ he => .inr (he.mono (by omega))).bind
    fun r _ => ?_
  have hlater:=later_afterBurst (P := P) (s.setRank memPkt.rank rk') memPkt (interleaveBurst P rk' r.1).1
    (interleaveBurst P rk' r.1).2
  have hself:=hlater memPkt.rank
  rw [setRank_self] at hself
  refine ((finishBurst_counted (fun j => (h.setRank memPkt.rank hcounted j).same (hlater j).samePages) hbank ?_).mono
    (fun _ hr => hr) fun _ he => he.elim).bind fun r hr => hr
  rw [(hself.banks memPkt.bank).openRow]
  exact hrow ▸ Option.some_ne_none memPkt.row

theorem refreshBank_counted {preAt : ℕ} (h : rk.Counted P) (hbank : bank<P.banksPerRank) :
    ∃ rk',rk.refreshBank P preAt bank = .ok rk' ∧ rk'.Counted P ∧ (rk'.banks bank).openRow=none ∧
      ∀ i,i≠bank → (rk'.banks i).openRow=(rk.banks i).openRow := by
  rw [Rank.refreshBank]
  split
  next hopen =>
    have hpre : Post (prechargeBank P 0 0 rk bank preAt true) (fun r => r.1.Counted P ∧
        (r.1.banks bank).openRow=none ∧ ∀ i,i≠bank → (r.1.banks i).openRow=(rk.banks i).openRow) fun _ => False :=
      (prechargeBank_counted h hbank hopen).mono (fun _ hr => ⟨hr.1,hr.2.1,hr.2.2.1⟩) fun _ he => by cases he.1
    obtain ⟨r,hr,hcounted,hclosed,hothers⟩:=hpre.returns
    rw [hr]
    exact ⟨_,rfl,hcounted.same ⟨fun _ => rfl,rfl,rfl⟩,hclosed,hothers⟩
  next hclosed =>
    have hpages:=samePages_setBank rk bank (fun b => {b with
      actAllowedAt := max b.actAllowedAt (preAt+P.tRP)
      preAllowedAt := max b.preAllowedAt preAt}) rfl
    exact ⟨_,rfl,h.same hpages,(hpages.rows bank).trans (not_not.mp hclosed),fun i _ => hpages.rows i⟩

theorem refreshPre_counted (h : rk.Counted P) (curTick : ℕ) :
    ∃ rk',rk.refreshPre P curTick = .ok rk' ∧ rk'.Counted P ∧ rk'.numBanksActive=0 := by
  rw [Rank.refreshPre]
  split
  next hactive =>
    obtain ⟨rk1,hrun,hcounted,hclosed⟩:=foldlM_range (f := Rank.refreshBank P (rk.preAllAt P curTick))
      (P := fun n rk => rk.Counted P ∧ ∀ i<n,(rk.banks i).openRow=none) (n := P.banksPerRank) (b := rk)
      ⟨h,fun i hi => absurd hi (Nat.not_lt_zero i)⟩ (by
        intro k hk rk hboth
        obtain ⟨hrk,hbefore⟩:=hboth
        obtain ⟨rk',hstep,hcounted,hclosed,hothers⟩:=refreshBank_counted hrk hk
        refine ⟨rk',hstep,hcounted,fun i hi => ?_⟩
        cases Decidable.eq_or_ne i k with
        | inl heq => rw [heq,hclosed]
        | inr hother => rw [hothers i hother,hbefore i (by omega)])
    have hempty : openBanks P rk1 = ∅ := by
      rw [openBanks,filter_eq_empty_iff]
      intro i hi
      exact not_not.mpr (hclosed i (mem_range.mp hi))
    have hzero : rk1.numBanksActive=0 := by rw [hcounted.count,hempty,card_empty]
    refine ⟨rk1.issue .PREA 0 (rk.preAllAt P curTick),?_,hcounted.same ⟨fun _ => rfl,rfl,rfl⟩,hzero⟩
    simp only [hrun,bind,Except.bind,pure,Except.pure,check,Rank.issue,hzero,if_true]
  next hidle =>
    refine ⟨rk,?_,h,not_not.mp hidle⟩
    simp only [bind,Except.bind,pure,Except.pure,check,not_not.mp hidle,if_true]

/-- The states that bursts and refreshes reach, in any order and at any ticks, while ranks power down and wake up and
bursts of other interfaces come between. -/
inductive Interleaved (P : Params) : State → Prop
  | init : Interleaved P (State.new P)
  | burst (s s' : State) (c : Call) (b : Burst) (burstTicks : Multiset ℕ) : Interleaved P s →
      c.memPkt.bank<P.banksPerRank → c.run P s = .ok (b,s',burstTicks) → Interleaved P s'
  | prechargeAll (s : State) (rank curTick : ℕ) (rk : Rank) : Interleaved P s →
      (s.ranks rank).refreshPre P curTick = .ok rk → Interleaved P (s.setRank rank rk)
  | refresh (s : State) (rank curTick tRFC : ℕ) (rk : Rank) : Interleaved P s →
      (s.ranks rank).refreshStart curTick tRFC = .ok rk → Interleaved P (s.setRank rank rk)
  | wakeUp (s : State) (rank curTick exitDelay : ℕ) : Interleaved P s →
      Interleaved P (s.setRank rank ((s.ranks rank).scheduleWakeUpEvent curTick exitDelay))
  | powerDown (s : State) (rank tick : ℕ) : Interleaved P s →
      Interleaved P (s.setRank rank ((s.ranks rank).powerDownSleep P tick))
  | otherBurst (s : State) (cmdAt : ℕ) : Interleaved P s → Interleaved P (s.addRankToRankDelay P cmdAt)

theorem interleaved_counted (h : Interleaved P s) : s.Counted P := by
  induction h with
  | init => exact fun _ => counted_new P
  | burst s s' c b burstTicks _ hbank hrun ih => exact (doBurstAccess_counted ih hbank).of_ok hrun
  | prechargeAll s rank curTick rk _ hrun ih =>
    obtain ⟨rk',hrun',hcounted,_⟩:=refreshPre_counted (ih rank) curTick
    rw [hrun] at hrun'
    cases hrun'
    exact ih.setRank rank hcounted
  | refresh s rank curTick tRFC rk _ hrun ih =>
    obtain ⟨_,_,hrk⟩:=bind_ok hrun
    cases hrk
    exact ih.setRank rank ((ih rank).same ⟨fun _ => rfl,rfl,rfl⟩)
  | wakeUp s rank curTick exitDelay _ ih =>
    exact ih.setRank rank ((ih rank).same (later_wakeUp _ curTick exitDelay).samePages)
  | powerDown s rank tick _ ih => exact ih.setRank rank ((ih rank).same ⟨fun _ => rfl,rfl,rfl⟩)
  | otherBurst s cmdAt _ ih => exact fun j => (ih j).same (later_delayCol _ _ _).samePages

/-- Every rank counts its open banks, no burst stops at an assertion on the row of a bank or on the count, and the
precharge of all banks leaves none open. -/
theorem bank_accounting (h : Interleaved P s) :
    (∀ j,(s.ranks j).numBanksActive=(openBanks P (s.ranks j)).card) ∧
      (∀ c : Call,c.memPkt.bank<P.banksPerRank →
        Post (c.run P s) (fun _ => True) (Stopped P c.fuel (c.burstTicks.card+6))) ∧
      ∀ j curTick,∃ rk,(s.ranks j).refreshPre P curTick = .ok rk ∧ rk.numBanksActive=0 ∧ openBanks P rk = ∅ := by
  have hcounted:=interleaved_counted h
  refine ⟨fun j => (hcounted j).count,fun c hbank => ?_,fun j curTick => ?_⟩
  · exact (doBurstAccess_counted hcounted hbank).imp fun _ _ => trivial
  · obtain ⟨rk,hrun,hrk,hzero⟩:=refreshPre_counted (hcounted j) curTick
    exact ⟨rk,hrun,hzero,Finset.card_eq_zero.mp (hrk.count.symm.trans hzero)⟩

theorem bank_accounting_two_reads : ∃ s : State,(s.ranks 0).numBanksActive=2 ∧ (openBanks ddr3 (s.ranks 0)).card=2 ∧
    ∃ rk,(s.ranks 0).refreshPre ddr3 90000 = .ok rk ∧ rk.numBanksActive=0 := by
  have hrun : Post (do
      let r ← Call.run ⟨5000,0,10,readOf 0,27500,[]⟩ ddr3 (State.new ddr3)
      Call.run ⟨10000,r.2.2,10,readOf 1,r.1.nextBurstAt,[]⟩ ddr3 r.2.1)
      (fun r => (r.2.1.ranks 0).numBanksActive=2) fun _ => False := by decide +kernel
  obtain ⟨⟨b,s,burstTicks⟩,hs,htwo⟩:=hrun.returns
  obtain ⟨⟨b1,s1,burstTicks1⟩,h1,h2⟩:=bind_ok hs
  have hreach : Interleaved ddr3 s :=
    .burst s1 s _ b burstTicks (.burst _ s1 _ b1 burstTicks1 .init (by decide) h1) (show 1<8 by decide) h2
  obtain ⟨hcount,_,hrefresh⟩:=bank_accounting hreach
  obtain ⟨rk,hpre,hzero,_⟩:=hrefresh 0 90000
  exact ⟨s,htwo,(hcount 0).symm.trans htwo,rk,hpre,hzero⟩

end AquaGem5.Dram
