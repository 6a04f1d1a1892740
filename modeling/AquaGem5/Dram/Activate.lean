import AquaGem5.Dram.Interface
import AquaGem5.Lib.Recent
import Mathlib.Data.Finset.Card

/-!
# Activation timing of the DRAM interface

The commands that a rank has been sent are in its `cmdList`, in the order in which they were
decided.
-/

namespace AquaGem5.Dram
open Ticks Controller Checked Recent List

variable {P : Params} {fuel : ℕ} {burstTicks : Multiset ℕ} {rk rk' : Rank} {cmds : List Command}
  {bank row t curTick : ℕ}

def acts (cmds : List Command) : List ℕ := (cmds.filter fun c => decide (c.type = .ACT)).map Command.timeStamp

def last (type : MemCommand) (bank : ℕ) (cmds : List Command) : Option ℕ :=
  ((cmds.filter fun c => decide (c.type=type ∧ c.bank=bank)).map Command.timeStamp).getLast?

theorem acts_snoc (cmds : List Command) (c : Command) :
    acts (cmds++[c])=if c.type = .ACT then acts cmds++[c.timeStamp] else acts cmds := by
  rw [acts,filter_append,map_append,acts]
  split_ifs with h <;> simp [h]

theorem last_snoc (type : MemCommand) (bank : ℕ) (cmds : List Command) (c : Command) :
    last type bank (cmds++[c])=if c.type=type ∧ c.bank=bank then some c.timeStamp else last type bank cmds := by
  rw [last,filter_append,map_append,last]
  split_ifs with h <;> simp [h]

/-- The constraints of the device on the commands of a rank. -/
structure Timed (P : Params) (cmds : List Command) : Prop where
  /-- Consecutive activates are tRRD apart. -/
  rrd : ∀ i a b,(acts cmds)[i]?=some a → (acts cmds)[i+1]?=some b → a+P.tRRD≤b
  /-- Any `activationLimit + 1` consecutive activates span tXAW. -/
  xaw : ∀ i a b,(acts cmds)[i]?=some a → (acts cmds)[i+P.activationLimit]?=some b → a+P.tXAW≤b
  /-- A column command comes tRCD after the last activate of its bank. -/
  column : ∀ before c after,cmds=before++c::after → (c.type = .RD ∨ c.type = .WR) →
    ∃ t,last .ACT c.bank before=some t ∧ t+P.tRCD≤c.timeStamp
  /-- A precharge comes tRAS after the last activate of its bank. -/
  precharge : ∀ before c after,cmds=before++c::after → c.type = .PRE →
    ∃ t,last .ACT c.bank before=some t ∧ t+P.tRAS≤c.timeStamp
  /-- An activate comes tRP after the last precharge of its bank. -/
  activate : ∀ before c after,cmds=before++c::after → c.type = .ACT →
    ∀ t,last .PRE c.bank before=some t → t+P.tRP≤c.timeStamp

theorem timed_nil : Timed P [] := by
  have hcut : ∀ before (c : Command) after,[]≠before++c::after := by simp
  exact ⟨fun i a b ha => by simp [acts] at ha,fun i a b ha => by simp [acts] at ha,
    fun before c after h => absurd h (hcut before c after),fun before c after h => absurd h (hcut before c after),
    fun before c after h => absurd h (hcut before c after)⟩

theorem Timed.snoc_act (h : Timed P cmds) (hX : 0<P.activationLimit) (hrrd : ∀ a,(acts cmds).getLast?=some a → a+P.tRRD≤t)
    (hxaw : P.activationLimit≤(acts cmds).length → (acts cmds).getD ((acts cmds).length-P.activationLimit) 0+P.tXAW≤t)
    (hrp : ∀ a,last .PRE bank cmds=some a → a+P.tRP≤t) : Timed P (cmds++[⟨.ACT,bank,t⟩]) := by
  have hacts : acts (cmds++[⟨.ACT,bank,t⟩])=acts cmds++[t] := by rw [acts_snoc,if_pos rfl]
  constructor
  · rw [hacts]
    intro i a b ha hb
    rcases getElem?_snoc hb with hb | ⟨hi,rfl⟩
    · have hlt:=(List.getElem?_eq_some_iff.mp hb).1
      rw [getElem?_append_left (by omega)] at ha
      exact h.rrd i a b ha hb
    · rw [getElem?_append_left (by omega)] at ha
      refine hrrd a ?_
      rw [getLast?_eq_getElem?,← ha]
      congr 1
      omega
  · rw [hacts]
    intro i a b ha hb
    rcases getElem?_snoc hb with hb | ⟨hi,rfl⟩
    · have hlt:=(List.getElem?_eq_some_iff.mp hb).1
      rw [getElem?_append_left (by omega)] at ha
      exact h.xaw i a b ha hb
    · rw [getElem?_append_left (by omega)] at ha
      have hwindow:=hxaw (by omega)
      rw [getD_eq_getElem?_getD,show (acts cmds).length-P.activationLimit=i by omega,ha] at hwindow
      exact hwindow
  · intro before c after hcut hc
    rcases cut_snoc hcut with ⟨_,rfl⟩ | ⟨after',hcut⟩
    · simp at hc
    · exact h.column before c after' hcut hc
  · intro before c after hcut hc
    rcases cut_snoc hcut with ⟨_,rfl⟩ | ⟨after',hcut⟩
    · cases hc
    · exact h.precharge before c after' hcut hc
  · intro before c after hcut hc
    rcases cut_snoc hcut with ⟨rfl,rfl⟩ | ⟨after',hcut⟩
    · exact hrp
    · exact h.activate before c after' hcut hc

theorem Timed.snoc_pre (h : Timed P cmds) (hras : ∃ a,last .ACT bank cmds=some a ∧ a+P.tRAS≤t) :
    Timed P (cmds++[⟨.PRE,bank,t⟩]) := by
  have hacts : acts (cmds++[⟨.PRE,bank,t⟩])=acts cmds := by rw [acts_snoc,if_neg (by simp)]
  refine ⟨hacts ▸ h.rrd,hacts ▸ h.xaw,fun before c after hcut hc => ?_,fun before c after hcut hc => ?_,
    fun before c after hcut hc => ?_⟩
  · rcases cut_snoc hcut with ⟨_,rfl⟩ | ⟨after',hcut⟩
    · simp at hc
    · exact h.column before c after' hcut hc
  · rcases cut_snoc hcut with ⟨rfl,rfl⟩ | ⟨after',hcut⟩
    · exact hras
    · exact h.precharge before c after' hcut hc
  · rcases cut_snoc hcut with ⟨_,rfl⟩ | ⟨after',hcut⟩
    · cases hc
    · exact h.activate before c after' hcut hc

theorem Timed.snoc_col {type : MemCommand} (h : Timed P cmds) (hcol : type = .RD ∨ type = .WR)
    (hrcd : ∃ a,last .ACT bank cmds=some a ∧ a+P.tRCD≤t) : Timed P (cmds++[⟨type,bank,t⟩]) := by
  have hact : type ≠ .ACT := by rintro rfl; simp at hcol
  have hpre : type ≠ .PRE := by rintro rfl; simp at hcol
  have hacts : acts (cmds++[⟨type,bank,t⟩])=acts cmds := by rw [acts_snoc,if_neg hact]
  refine ⟨hacts ▸ h.rrd,hacts ▸ h.xaw,fun before c after hcut hc => ?_,fun before c after hcut hc => ?_,
    fun before c after hcut hc => ?_⟩
  · rcases cut_snoc hcut with ⟨rfl,rfl⟩ | ⟨after',hcut⟩
    · exact hrcd
    · exact h.column before c after' hcut hc
  · rcases cut_snoc hcut with ⟨_,rfl⟩ | ⟨after',hcut⟩
    · exact absurd hc hpre
    · exact h.precharge before c after' hcut hc
  · rcases cut_snoc hcut with ⟨_,rfl⟩ | ⟨after',hcut⟩
    · exact absurd hc hact
    · exact h.activate before c after' hcut hc

def openBanks (P : Params) (rk : Rank) : Finset ℕ :=
  (Finset.range P.banksPerRank).filter fun i => (rk.banks i).openRow≠none

structure Rank.Tracks (P : Params) (rk : Rank) : Prop where
  timed : Timed P rk.cmdList
  ticks : rk.actTicks=recent P.activationLimit (acts rk.cmdList)
  positive : ∀ t∈acts rk.cmdList,0<t
  rrd : ∀ t,(acts rk.cmdList).getLast?=some t → ∀ i,t+P.tRRD≤(rk.banks i).actAllowedAt
  xaw : rk.actTicks.getLastD 0≠0 → ∀ i,rk.actTicks.getLastD 0+P.tXAW≤(rk.banks i).actAllowedAt
  opened : ∀ i,(rk.banks i).openRow≠none → ∃ t,last .ACT i rk.cmdList=some t ∧
    t+P.tRCD≤(rk.banks i).rdAllowedAt ∧ t+P.tRCD≤(rk.banks i).wrAllowedAt ∧
    t+P.tRAS≤(rk.banks i).preAllowedAt
  closed : ∀ i t,last .PRE i rk.cmdList=some t → t+P.tRP≤(rk.banks i).actAllowedAt
  count : rk.numBanksActive=(openBanks P rk).card

theorem tracks_new (P : Params) : (Rank.new P).Tracks P := by
  have hopen : openBanks P (Rank.new P) = ∅ := by
    rw [openBanks,Finset.filter_eq_empty_iff]
    intro i _ h
    exact h rfl
  refine ⟨timed_nil,(recent_nil _).symm,fun t ht => absurd ht not_mem_nil,fun t ht => by simp [acts,Rank.new] at ht,
    fun h => absurd ?_ h,fun i hi => absurd rfl hi,fun i t ht => by simp [last,Rank.new] at ht,by rw [hopen]; rfl⟩
  simp only [Rank.new,getLastD_eq_getLast?,getLast?_replicate]
  split_ifs <;> rfl

structure Bank.Later (b b' : Bank) : Prop where
  openRow : b'.openRow=b.openRow
  rd : b.rdAllowedAt≤b'.rdAllowedAt
  wr : b.wrAllowedAt≤b'.wrAllowedAt
  pre : b.preAllowedAt≤b'.preAllowedAt
  act : b.actAllowedAt≤b'.actAllowedAt

theorem Bank.Later.refl (b : Bank) : b.Later b := ⟨rfl,le_refl _,le_refl _,le_refl _,le_refl _⟩

theorem Bank.Later.trans {b b' b'' : Bank} (h : b.Later b') (h' : b'.Later b'') : b.Later b'' :=
  ⟨h'.openRow.trans h.openRow,h.rd.trans h'.rd,h.wr.trans h'.wr,h.pre.trans h'.pre,h.act.trans h'.act⟩

structure Rank.Later (rk rk' : Rank) : Prop where
  banks : ∀ i,(rk.banks i).Later (rk'.banks i)
  cmdList : rk'.cmdList=rk.cmdList
  actTicks : rk'.actTicks=rk.actTicks
  numBanksActive : rk'.numBanksActive=rk.numBanksActive

theorem Rank.Later.refl (rk : Rank) : rk.Later rk := ⟨fun _ => Bank.Later.refl _,rfl,rfl,rfl⟩

theorem Rank.Later.trans {rk'' : Rank} (h : rk.Later rk') (h' : rk'.Later rk'') : rk.Later rk'' :=
  ⟨fun i => (h.banks i).trans (h'.banks i),h'.cmdList.trans h.cmdList,h'.actTicks.trans h.actTicks,
    h'.numBanksActive.trans h.numBanksActive⟩

theorem Rank.Tracks.later (h : rk.Tracks P) (hl : rk.Later rk') : rk'.Tracks P := by
  obtain ⟨hbanks,hcmd,hticks,hactive⟩:=hl
  have hopen : openBanks P rk'=openBanks P rk := by
    rw [openBanks,openBanks]
    refine Finset.filter_congr fun i _ => ?_
    rw [(hbanks i).openRow]
  constructor
  · rw [hcmd]
    exact h.timed
  · rw [hcmd,hticks]
    exact h.ticks
  · rw [hcmd]
    exact h.positive
  · rw [hcmd]
    intro t ht i
    exact (h.rrd t ht i).trans (hbanks i).act
  · rw [hticks]
    intro hne i
    exact (h.xaw hne i).trans (hbanks i).act
  · intro i hi
    rw [(hbanks i).openRow] at hi
    obtain ⟨t,ht,hrd,hwr,hpre⟩:=h.opened i hi
    exact ⟨t,by rw [hcmd]; exact ht,hrd.trans (hbanks i).rd,hwr.trans (hbanks i).wr,hpre.trans (hbanks i).pre⟩
  · rw [hcmd]
    intro i t ht
    exact (h.closed i t ht).trans (hbanks i).act
  · rw [hactive,hopen]
    exact h.count

theorem later_delayAct (rk : Rank) (f : ℕ → ℕ) : rk.Later (rk.delayAct f) :=
  ⟨fun _ => ⟨rfl,le_refl _,le_refl _,le_refl _,le_max_right _ _⟩,rfl,rfl,rfl⟩

theorem later_delayPre (rk : Rank) (t : ℕ) : rk.Later (rk.delayPre t) :=
  ⟨fun _ => ⟨rfl,le_refl _,le_refl _,le_max_right _ _,le_refl _⟩,rfl,rfl,rfl⟩

theorem later_delayCol (rk : Rank) (rd wr : ℕ → ℕ) : rk.Later (rk.delayCol rd wr) :=
  ⟨fun _ => ⟨rfl,le_max_right _ _,le_max_right _ _,le_refl _,le_refl _⟩,rfl,rfl,rfl⟩

theorem later_setBank (rk : Rank) (bank : ℕ) (f : Bank → Bank) (hf : (rk.banks bank).Later (f (rk.banks bank))) :
    rk.Later (rk.setBank bank f) := by
  refine ⟨fun i => ?_,rfl,rfl,rfl⟩
  by_cases hi : i=bank
  · subst hi
    rw [Rank.setBank]
    simp only [Function.update_self]
    exact hf
  · simp only [Rank.setBank,Function.update_of_ne hi]
    exact Bank.Later.refl _

theorem later_wakeUp (rk : Rank) (curTick exitDelay : ℕ) : rk.Later (rk.scheduleWakeUpEvent curTick exitDelay) := by
  obtain ⟨hbanks,hcmd,hticks,hactive⟩:=((later_delayCol rk _ _).trans (later_delayPre _ _)).trans (later_delayAct _ _)
  exact ⟨hbanks,hcmd,hticks,hactive⟩

/-! ## Activates and precharges -/

open Nat

def ZeroTaken (P : Params) (burstTicks : Multiset ℕ) (n : ℕ) : Prop :=
  P.maxCommandsPerWindow<burstTicks.count 0+n

instance (P : Params) (burstTicks : Multiset ℕ) (n : ℕ) : Decidable (ZeroTaken P burstTicks n) :=
  inferInstanceAs (Decidable (_<_))

def Enough (P : Params) (fuel n : ℕ) : Prop :=
  0<P.commandWindow ∧ 2≤P.maxCommandsPerWindow ∧ max P.tAAD P.tCK+2*n+1≤fuel

def Starved (P : Params) (fuel n : ℕ) (e : Fault) : Prop := e = .search ∧ ¬Enough P fuel n

theorem Starved.mono {n m : ℕ} {e : Fault} (h : Starved P fuel n e) (hle : n ≤ m) : Starved P fuel m e :=
  ⟨h.1,fun hm => h.2 ⟨hm.1,hm.2.1,by have := hm.2.2; omega⟩⟩

theorem verifySingle_post (P : Params) (fuel : ℕ) (burstTicks : Multiset ℕ) (t : ℕ) :
    Post (verifySingle P fuel burstTicks t)
      (fun r => t≤r.1 ∧ r.2.card≤burstTicks.card+2 ∧ (ZeroTaken P burstTicks 1 → 0<r.1))
      (Starved P fuel burstTicks.card) := by
  unfold verifySingle
  split
  next r hr =>
    obtain ⟨cmdAt,burstTicks'⟩:=r
    cases Nat.eq_zero_or_pos P.commandWindow with
    | inl hzero =>
      -- without a window there is no slot, and the search goes on
      have hmax : P.maxCommandsPerWindow=0 := by rw [Params.maxCommandsPerWindow,hzero,Nat.zero_div]
      unfold verifySingleCmd at hr
      simp only [Option.bind_eq_bind,Option.bind_eq_some_iff] at hr
      obtain ⟨_,hloop,_⟩:=hr
      have hroom:=(singleLoop_spec hloop).1
      omega
    | inr hpos =>
      obtain ⟨hticks,hroom,hle,_⟩:=verifySingleCmd_spec hpos hr
      refine ⟨hle,by rw [hticks,Multiset.card_cons]; omega,fun htaken => Nat.pos_of_ne_zero fun hat => ?_⟩
      unfold ZeroTaken at htaken
      rw [show cmdAt=0 from hat,getBurstWindow,Nat.zero_sub] at hroom
      omega
  next hnone =>
    refine ⟨rfl,fun henough => ?_⟩
    obtain ⟨hpos,hmax,hfuel⟩:=henough
    have hends:=verifySingleCmd_ends hpos (by omega : 0<P.maxCommandsPerWindow) t (by omega : burstTicks.card<fuel)
    rw [hnone] at hends
    cases hends

theorem verifyMulti_post {maxSplit : ℕ} (hsplit : maxSplit ≤ max P.tAAD P.tCK) (fuel : ℕ) (burstTicks : Multiset ℕ) (t : ℕ) :
    Post (verifyMulti P fuel burstTicks t maxSplit)
      (fun r => t≤r.1 ∧ r.2.card≤burstTicks.card+2 ∧ (ZeroTaken P burstTicks 2 → 0<r.1))
      (Starved P fuel burstTicks.card) := by
  unfold verifyMulti
  split
  next r hr =>
    obtain ⟨cmdAt,burstTicks'⟩:=r
    obtain ⟨s,hticks,hfirst,hsecond⟩:=verifyMultiCmd_room hr
    unfold Slots.firstCanIssue at hfirst
    unfold Slots.secondCanIssue at hsecond
    cases Nat.eq_zero_or_pos P.commandWindow with
    | inl hzero =>
      have hmax : P.maxCommandsPerWindow=0 := by rw [Params.maxCommandsPerWindow,hzero,Nat.zero_div]
      omega
    | inr hpos =>
      obtain ⟨hle,_,_,first,hticks',hordered,_⟩:=verifyMultiCmd_spec hpos hr
      refine ⟨hle,by rw [hticks,Multiset.card_cons,Multiset.card_cons],fun htaken => Nat.pos_of_ne_zero fun hat => ?_⟩
      -- at tick zero both commands are in the first window
      unfold ZeroTaken at htaken
      rw [show cmdAt=0 from hat,getBurstWindow,Nat.zero_sub] at hordered hticks'
      rw [le_zero.mp hordered,hticks] at hticks'
      have hcount:=congrArg (Multiset.count 0) hticks'
      simp only [Multiset.count_cons,if_true] at hcount
      have hboth : 0=s.firstCmdTick ∧ 0=s.burstTick := by
        split at hcount <;> split at hcount <;> omega
      have hsame : s.sameBurst := hboth.2.symm.trans hboth.1
      rw [if_pos hsame,← hboth.1] at hsecond
      omega
  next hnone =>
    refine ⟨rfl,fun henough => ?_⟩
    obtain ⟨hpos,hmax,hfuel⟩:=henough
    have hends:=verifyMultiCmd_ends hpos hmax t (by unfold multiFuel; omega : multiFuel maxSplit burstTicks≤fuel)
    rw [hnone] at hends
    cases hends

theorem verifyActivate_post {actTick : ℕ}
    (hzero : 0<actTick ∨ ZeroTaken P burstTicks (if P.twoCycleActivate then 2 else 1)) :
    Post (verifyActivate P fuel burstTicks actTick)
      (fun r => 0<r.1 ∧ actTick≤r.1 ∧ r.2.card≤burstTicks.card+2) (Starved P fuel burstTicks.card) := by
  unfold verifyActivate
  split
  next htwo =>
    rw [if_pos htwo] at hzero
    exact (verifyMulti_post (Nat.le_max_left _ _) fuel burstTicks actTick).imp
      fun r hr => ⟨hzero.elim (fun hpos => hpos.trans_le hr.1) hr.2.2,hr.1,hr.2.1⟩
  next hone =>
    rw [if_neg hone] at hzero
    exact (verifySingle_post P fuel burstTicks actTick).imp
      fun r hr => ⟨hzero.elim (fun hpos => hpos.trans_le hr.1) hr.2.2,hr.1,hr.2.1⟩

theorem Timed.sorted (h : Timed P cmds) : (acts cmds).Pairwise (·≤·) := by
  rw [← isChain_iff_pairwise,isChain_iff_getElem]
  intro i hi
  have hrrd:=h.rrd i _ _ (getElem?_eq_getElem (by omega)) (getElem?_eq_getElem hi)
  omega

theorem Rank.Tracks.acts_le (h : rk.Tracks P) {i : ℕ} (ht : t∈acts rk.cmdList) : t≤(rk.banks i).actAllowedAt := by
  obtain ⟨k,hk,rfl⟩:=getElem_of_mem ht
  have hlast:=getLast?_eq_getElem? (l := acts rk.cmdList)
  have hnext:=h.rrd _ (hlast.trans (getElem?_eq_getElem (by omega))) i
  have hle : (acts rk.cmdList)[k]≤(acts rk.cmdList)[(acts rk.cmdList).length-1] := by
    cases eq_or_lt_of_le (le_sub_one_of_lt hk) with
    | inl heq => simp only [heq,le_refl]
    | inr hlt => exact pairwise_iff_getElem.mp h.timed.sorted k _ hk (by omega) hlt
  omega

theorem mem_recent {n : ℕ} {l : List ℕ} (h : t∈recent n l) : t∈l ∨ t=0 := by
  cases mem_append.mp (mem_of_mem_take h) with
  | inl hin => exact .inl (mem_reverse.mp hin)
  | inr hzero => exact .inr (mem_replicate.mp hzero).2

structure Activated (P : Params) (bank row t : ℕ) (rk rk' : Rank) : Prop where
  cmdList : rk'.cmdList=rk.cmdList++[⟨.ACT,bank,t⟩]
  actTicks : rk'.actTicks=t::rk.actTicks.dropLast
  numBanksActive : rk'.numBanksActive=rk.numBanksActive+1
  rrd : ∀ i,t+P.tRRD≤(rk'.banks i).actAllowedAt
  xaw : rk'.actTicks.getLastD 0≠0 → ∀ i,rk'.actTicks.getLastD 0+P.tXAW≤(rk'.banks i).actAllowedAt
  act : ∀ i,(rk.banks i).actAllowedAt≤(rk'.banks i).actAllowedAt
  row : (rk'.banks bank).openRow=some row
  rd : t+P.tRCD≤(rk'.banks bank).rdAllowedAt
  wr : t+P.tRCD≤(rk'.banks bank).wrAllowedAt
  pre : t+P.tRAS≤(rk'.banks bank).preAllowedAt
  others : ∀ i,i≠bank → (rk.banks i).Later (rk'.banks i)

theorem enforceXAW_post {actAt : ℕ} (hne : rk.actTicks≠[])
    (hlast : rk.actTicks.getLastD 0≠0 → rk.actTicks.getLastD 0+P.tXAW≤actAt)
    (hle : ∀ t∈rk.actTicks,t≤actAt) (hbanks : ∀ i,actAt≤(rk.banks i).actAllowedAt) :
    Post (rk.enforceXAW P actAt)
      (fun rk' => ({rk with actTicks := actAt::rk.actTicks.dropLast} : Rank).Later rk' ∧
        (rk'.actTicks.getLastD 0≠0 → ∀ i,rk'.actTicks.getLastD 0+P.tXAW≤(rk'.banks i).actAllowedAt))
      fun _ => False := by
  have holdest : (actAt::rk.actTicks.dropLast).getLastD 0≤actAt := by
    rw [getLastD_eq_getLast?,getLast?_eq_some_getLast (cons_ne_nil _ _),Option.getD_some]
    cases mem_cons.mp (getLast_mem (cons_ne_nil actAt rk.actTicks.dropLast)) with
    | inl heq => exact heq.le
    | inr hin => exact hle _ (mem_of_mem_dropLast hin)
  rw [Rank.enforceXAW,if_neg hne,post_ite]
  refine ⟨fun hpanic => ?_,fun _ => ?_⟩
  · have hspan:=hlast hpanic.1
    have hshort:=hpanic.2
    rw [tickSub_of_le (by omega)] at hshort
    omega
  · rw [post_ite]
    refine ⟨fun _ => ⟨later_delayAct _ _,fun _ i => Nat.le_max_left _ _⟩,fun hfar => ⟨Rank.Later.refl _,fun hold i => ?_⟩⟩
    have hspan:=not_and.mp hfar hold
    rw [tickSub_of_le holdest] at hspan
    have hspan' : (actAt::rk.actTicks.dropLast).getLastD 0+P.tXAW≤actAt := by omega
    exact hspan'.trans (hbanks i)

theorem later_enforceRRD (rk : Rank) (bank actAt : ℕ) : rk.Later (rk.enforceRRD P bank actAt) :=
  later_delayAct rk _

theorem enforceRRD_act (rk : Rank) (bank actAt i : ℕ) :
    actAt+P.tRRD≤((rk.enforceRRD P bank actAt).banks i).actAllowedAt := by
  refine (Nat.add_le_add_left ?_ actAt).trans (Nat.le_max_left _ _)
  split
  next hgroup =>
    rw [Bool.and_eq_true] at hgroup
    exact P.rrdSane (of_decide_eq_true hgroup.1)
  next => exact le_refl _

theorem setBank_self (rk : Rank) (bank : ℕ) (f : Bank → Bank) : (rk.setBank bank f).banks bank=f (rk.banks bank) :=
  Function.update_self ..

theorem setBank_of_ne (rk : Rank) (f : Bank → Bank) {i : ℕ} (h : i≠bank) : (rk.setBank bank f).banks i=rk.banks i :=
  Function.update_of_ne h ..

theorem later_setBank_of_ne (rk : Rank) (bank : ℕ) (f : Bank → Bank) (i : ℕ) (h : i≠bank) :
    (rk.banks i).Later ((rk.setBank bank f).banks i) := by
  rw [setBank_of_ne rk f h]
  exact Bank.Later.refl _

theorem opened_self (rk : Rank) (bank row actAt : ℕ) :
    (rk.opened P bank row actAt).banks bank={rk.banks bank with
      openRow := some row
      bytesAccessed := 0
      rowAccesses := 0
      preAllowedAt := actAt+P.tRAS
      rdAllowedAt := max (actAt+P.tRCD) (rk.banks bank).rdAllowedAt
      wrAllowedAt := max (actAt+P.tRCD) (rk.banks bank).wrAllowedAt} := setBank_self rk bank _

theorem opened_of_ne (rk : Rank) (row actAt : ℕ) {i : ℕ} (h : i≠bank) :
    (rk.opened P bank row actAt).banks i=rk.banks i := setBank_of_ne rk _ h

theorem openBanks_card (hbank : bank<P.banksPerRank) (hclosed : (rk.banks bank).openRow=none) :
    (openBanks P rk).card<P.banksPerRank := by
  have hlt : (openBanks P rk).card<(Finset.range P.banksPerRank).card := by
    refine Finset.card_lt_card ⟨Finset.filter_subset _ _,fun hsub => ?_⟩
    exact (Finset.mem_filter.mp (hsub (Finset.mem_range.mpr hbank))).2 hclosed
  rwa [Finset.card_range] at hlt

theorem activateBank_post {actTick : ℕ} (h : rk.Tracks P) (hX : 0<P.activationLimit) (hbank : bank<P.banksPerRank)
    (hclosed : (rk.banks bank).openRow=none) (hallowed : (rk.banks bank).actAllowedAt≤actTick)
    (hzero : 0<actTick ∨ ZeroTaken P burstTicks (if P.twoCycleActivate then 2 else 1)) :
    Post (activateBank P fuel burstTicks rk bank actTick row)
      (fun r => (∃ actAt,0<actAt ∧ actTick≤actAt ∧ Activated P bank row actAt rk r.1) ∧
        r.2.card≤burstTicks.card+2) (Starved P fuel burstTicks.card) := by
  have hlen : rk.actTicks.length=P.activationLimit := by rw [h.ticks,recent_length]
  have hcount:=h.count
  have hcard:=openBanks_card hbank hclosed
  rw [activateBank,post_bind,post_check]
  refine ⟨fun _ => (verifyActivate_post hzero).bind fun r hr => ?_,fun hno => absurd hlen hno⟩
  obtain ⟨actAt,burstTicks'⟩:=r
  obtain ⟨hpos,hle,hcard'⟩:=hr
  simp only [post_bind,post_check,post_pure]
  refine ⟨fun _ => ⟨fun _ => ?_,fun hmany => absurd (by omega) hmany⟩,fun hopen => absurd hclosed hopen⟩
  have hticks : ∀ t∈rk.actTicks,t≤actAt := fun t ht => by
    rw [h.ticks] at ht
    cases mem_recent ht with
    | inl hin => exact (h.acts_le hin).trans (hallowed.trans hle)
    | inr hnever => omega
  have hxaw : rk.actTicks.getLastD 0≠0 → rk.actTicks.getLastD 0+P.tXAW≤actAt := fun hold =>
    (h.xaw hold bank).trans (hallowed.trans hle)
  have hne : rk.actTicks≠[] := ne_nil_of_length_pos (by omega)
  generalize hA : Rank.enforceRRD P _ bank actAt=rkA
  have hrrd : ∀ i,actAt+P.tRRD≤(rkA.banks i).actAllowedAt := fun i => by
    rw [← hA]
    exact enforceRRD_act _ bank actAt i
  have hopened : ∀ i,((rk.opened P bank row actAt).banks i).Later (rkA.banks i) := fun i => by
    rw [← hA]
    exact (later_enforceRRD _ bank actAt).banks i
  have hcmd : rkA.cmdList=rk.cmdList++[⟨.ACT,bank,actAt⟩] := by rw [← hA]; rfl
  have hactive : rkA.numBanksActive=rk.numBanksActive+1 := by rw [← hA]; rfl
  have hsame : rkA.actTicks=rk.actTicks := by rw [← hA]; rfl
  rw [← hsame] at hne hticks hxaw
  refine (enforceXAW_post hne hxaw hticks fun i => le_trans (le_add_right _ _) (hrrd i)).mono
    (fun rk' hrk' => ⟨⟨actAt,hpos,hle,?_⟩,hcard'⟩) fun _ he => he.elim
  have hbanks : ∀ i,((rk.opened P bank row actAt).banks i).Later (rk'.banks i) := fun i =>
    (hopened i).trans (hrk'.1.banks i)
  have hself:=hbanks bank
  rw [opened_self] at hself
  refine ⟨hrk'.1.cmdList.trans hcmd,hsame ▸ hrk'.1.actTicks,hrk'.1.numBanksActive.trans hactive,fun i => (hrrd i).trans (hrk'.1.banks i).act,hrk'.2,
    fun i => ?_,hself.openRow,(Nat.le_max_left _ _).trans hself.rd,(Nat.le_max_left _ _).trans hself.wr,hself.pre,
    fun i hi => opened_of_ne rk row actAt hi ▸ hbanks i⟩
  cases Decidable.eq_or_ne i bank with
  | inl heq =>
    rw [heq]
    exact hself.act
  | inr hother => exact (opened_of_ne rk row actAt hother ▸ hbanks i).act

theorem openBanks_insert (rk : Rank) (hbank : bank<P.banksPerRank) (hopen : (rk'.banks bank).openRow≠none)
    (hothers : ∀ i,i≠bank → (rk'.banks i).openRow=(rk.banks i).openRow) :
    openBanks P rk'=insert bank (openBanks P rk) := by
  ext i
  rw [Finset.mem_insert,openBanks,openBanks,Finset.mem_filter,Finset.mem_filter,Finset.mem_range]
  cases Decidable.eq_or_ne i bank with
  | inl heq => simp [heq,hbank,hopen]
  | inr hother => simp [hother,hothers i hother]

theorem Rank.Tracks.activate (h : rk.Tracks P) (hX : 0<P.activationLimit) (hbank : bank<P.banksPerRank)
    (hclosed : (rk.banks bank).openRow=none) (hpos : 0<t) (hallowed : (rk.banks bank).actAllowedAt≤t)
    (ha : Activated P bank row t rk rk') : rk'.Tracks P := by
  have hacts : acts rk'.cmdList=acts rk.cmdList++[t] := by rw [ha.cmdList,acts_snoc,if_pos rfl]
  have hticks : rk'.actTicks=recent P.activationLimit (acts rk'.cmdList) := by
    rw [ha.actTicks,hacts,recent_snoc hX,h.ticks]
  constructor
  · rw [ha.cmdList]
    refine h.timed.snoc_act hX (fun a hlast => (h.rrd a hlast bank).trans hallowed) (fun hlong => ?_)
      fun a hlast => (h.closed bank a hlast).trans hallowed
    have holdest:=recent_getLastD hX (acts rk.cmdList)
    rw [← h.ticks,if_pos hlong] at holdest
    have hin : (acts rk.cmdList).getD ((acts rk.cmdList).length-P.activationLimit) 0∈acts rk.cmdList := by
      rw [getD_eq_getElem?_getD,getElem?_eq_getElem (by omega)]
      exact getElem_mem _
    have hold:=h.positive _ hin
    rw [← holdest] at hold ⊢
    exact (h.xaw hold.ne' bank).trans hallowed
  · exact hticks
  · intro a hin
    rw [hacts,mem_append,mem_singleton] at hin
    cases hin with
    | inl hin => exact h.positive a hin
    | inr hnew => exact hnew ▸ hpos
  · intro a hlast i
    rw [hacts,getLast?_concat,Option.some.injEq] at hlast
    exact hlast ▸ ha.rrd i
  · exact ha.xaw
  · intro i hopen
    rw [ha.cmdList,last_snoc]
    cases Decidable.eq_or_ne i bank with
    | inl heq =>
      subst heq
      exact ⟨t,if_pos ⟨rfl,rfl⟩,ha.rd,ha.wr,ha.pre⟩
    | inr hother =>
      have hlater:=ha.others i hother
      rw [hlater.openRow] at hopen
      obtain ⟨a,hlast,hrd,hwr,hpre⟩:=h.opened i hopen
      exact ⟨a,by rw [if_neg fun hsame => hother hsame.2.symm]; exact hlast,hrd.trans hlater.rd,hwr.trans hlater.wr,
        hpre.trans hlater.pre⟩
  · intro i a hlast
    rw [ha.cmdList,last_snoc,if_neg fun hsame => by cases hsame.1] at hlast
    exact (h.closed i a hlast).trans (ha.act i)
  · have hout : bank∉openBanks P rk := fun hin => (Finset.mem_filter.mp hin).2 hclosed
    have hopen : (rk'.banks bank).openRow≠none := ha.row ▸ Option.some_ne_none row
    rw [openBanks_insert rk hbank hopen fun i hi => (ha.others i hi).openRow,Finset.card_insert_of_notMem hout,
      ha.numBanksActive,h.count]

structure Precharged (P : Params) (bank t : ℕ) (rk rk' : Rank) : Prop where
  cmdList : rk'.cmdList=rk.cmdList++[⟨.PRE,bank,t⟩]
  actTicks : rk'.actTicks=rk.actTicks
  numBanksActive : rk'.numBanksActive=rk.numBanksActive-1
  closed : (rk'.banks bank).openRow=none
  act : (rk.banks bank).actAllowedAt≤(rk'.banks bank).actAllowedAt
  done : t+P.tRP≤(rk'.banks bank).actAllowedAt
  others : ∀ i,i≠bank → (rk.banks i).Later (rk'.banks i)

theorem precharged_setBank {rkC : Rank} {preAt : ℕ} (hcmd : rkC.cmdList=rk.cmdList) (hticks : rkC.actTicks=rk.actTicks)
    (hactive : rkC.numBanksActive=rk.numBanksActive) (hrow : (rkC.banks bank).openRow=none)
    (hact : (rkC.banks bank).actAllowedAt=(rk.banks bank).actAllowedAt)
    (hothers : ∀ i,i≠bank → (rk.banks i).Later (rkC.banks i)) :
    Precharged P bank preAt rk (({rkC.setBank bank fun b =>
      {b with actAllowedAt := max b.actAllowedAt (preAt+P.tRP)} with
      numBanksActive := rkC.numBanksActive-1} : Rank).issue .PRE bank preAt) := by
  have hself:=setBank_self rkC bank fun b => {b with actAllowedAt := max b.actAllowedAt (preAt+P.tRP)}
  have hother:=later_setBank_of_ne rkC bank fun b => {b with actAllowedAt := max b.actAllowedAt (preAt+P.tRP)}
  refine ⟨congrArg (·++_) hcmd,hticks,congrArg (·-1) hactive,(congrArg Bank.openRow hself).trans hrow,?_,?_,
    fun i hi => (hothers i hi).trans (hother i hi)⟩
  · exact hact ▸ (Nat.le_max_left _ _).trans (congrArg Bank.actAllowedAt hself).ge
  · exact (Nat.le_max_right _ _).trans (congrArg Bank.actAllowedAt hself).ge

theorem prechargeBank_post {preTick : ℕ} {auto : Bool} (h : rk.Tracks P) (hbank : bank<P.banksPerRank)
    (hopen : (rk.banks bank).openRow≠none) : Post (prechargeBank P fuel burstTicks rk bank preTick auto)
      (fun r => (∃ preAt,preTick≤preAt ∧ Precharged P bank preAt rk r.1) ∧
        r.2.card≤burstTicks.card+2) (Starved P fuel burstTicks.card) := by
  have hin : bank∈openBanks P rk := Finset.mem_filter.mpr ⟨Finset.mem_range.mpr hbank,hopen⟩
  have hcount : rk.numBanksActive≠0 := by
    rw [h.count]
    exact (Finset.card_pos.mpr ⟨bank,hin⟩).ne'
  rw [prechargeBank,post_bind,post_check]
  refine ⟨fun _ => ?_,fun hno => absurd hopen hno⟩
  have hclosed:=later_setBank_of_ne rk bank fun b => {b with openRow := none}
  cases auto with
  | true =>
    simp only [if_true,post_bind,post_pure,post_check]
    refine ⟨fun _ => ⟨⟨preTick,le_refl _,?_⟩,le_add_right _ _⟩,fun hno => absurd hcount hno⟩
    refine precharged_setBank rfl rfl rfl ?_ ?_ fun i hi => (hclosed i hi).trans (later_setBank_of_ne _ bank _ i hi)
    · rw [setBank_self,setBank_self]
    · rw [setBank_self,setBank_self]
  | false =>
    simp only [Bool.false_eq_true,if_false,post_bind,post_pure,post_check]
    refine (verifySingle_post P fuel burstTicks preTick).imp fun r hr => ?_
    refine ⟨fun _ => ⟨⟨r.1,hr.1,?_⟩,hr.2.1⟩,fun hno => absurd hcount hno⟩
    have hdelay:=(later_delayPre (rk.setBank bank fun b => {b with openRow := none}) (r.1+P.tPPD)).banks
    refine precharged_setBank rfl rfl rfl ?_ ?_ fun i hi => (hclosed i hi).trans (hdelay i)
    · rw [(hdelay bank).openRow,setBank_self]
    · show ((rk.setBank bank fun b => {b with openRow := none}).banks bank).actAllowedAt=_
      rw [setBank_self]

theorem Rank.Tracks.precharge (h : rk.Tracks P) (hbank : bank<P.banksPerRank)
    (hopen : (rk.banks bank).openRow≠none) (hallowed : (rk.banks bank).preAllowedAt≤t)
    (hp : Precharged P bank t rk rk') : rk'.Tracks P := by
  have hacts : acts rk'.cmdList=acts rk.cmdList := by rw [hp.cmdList,acts_snoc,if_neg (by simp)]
  have hact : ∀ i,(rk.banks i).actAllowedAt≤(rk'.banks i).actAllowedAt := fun i => by
    cases Decidable.eq_or_ne i bank with
    | inl heq => exact heq ▸ hp.act
    | inr hother => exact (hp.others i hother).act
  constructor
  · rw [hp.cmdList]
    obtain ⟨a,hlast,_,_,hpre⟩:=h.opened bank hopen
    exact h.timed.snoc_pre ⟨a,hlast,hpre.trans hallowed⟩
  · rw [hp.actTicks,hacts,h.ticks]
  · rw [hacts]
    exact h.positive
  · rw [hacts]
    exact fun a hlast i => (h.rrd a hlast i).trans (hact i)
  · rw [hp.actTicks]
    exact fun hold i => (h.xaw hold i).trans (hact i)
  · intro i hrow
    cases Decidable.eq_or_ne i bank with
    | inl heq => exact absurd (heq ▸ hp.closed) hrow
    | inr hother =>
      have hlater:=hp.others i hother
      rw [hlater.openRow] at hrow
      obtain ⟨a,hlast,hrd,hwr,hpre⟩:=h.opened i hrow
      refine ⟨a,?_,hrd.trans hlater.rd,hwr.trans hlater.wr,hpre.trans hlater.pre⟩
      rw [hp.cmdList,last_snoc,if_neg fun hsame => by cases hsame.1]
      exact hlast
  · intro i a hlast
    rw [hp.cmdList,last_snoc] at hlast
    split at hlast
    next hsame =>
      have hi : bank=i := hsame.2
      cases hlast
      exact hi ▸ hp.done
    next => exact (h.closed i a hlast).trans (hact i)
  · have hinsert:=openBanks_insert rk' hbank hopen fun i hi => ((hp.others i hi).openRow).symm
    have hout : bank∉openBanks P rk' := fun hin => (Finset.mem_filter.mp hin).2 hp.closed
    rw [hp.numBanksActive,h.count,hinsert,Finset.card_insert_of_notMem hout,Nat.add_sub_cancel]

end AquaGem5.Dram
