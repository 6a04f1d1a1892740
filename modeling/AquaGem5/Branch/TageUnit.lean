import AquaGem5.Branch.RasRuns
import AquaGem5.Branch.TageRuns

/-!
# The unit with TAGE (tage.hh, tage.cc)

`live` lists the predicted branches that have not been squashed, newest first, each with the direction that has been
recorded for it.
-/

namespace AquaGem5.Branch
open List

/-- The record of `TAGEBase`, where `β` is what the tables keep in it. -/
structure TageBranchInfo (β : Type) where
  tageBranchInfo : BranchInfo
  condBranch : Bool
  rest : β

/-- The tables, with their scratch data and the random numbers. -/
structure TageTables (τ β : Type) where
  tagePredict : τ → ThreadHistory → Addr → Bool → Bool × β × τ
  condBranchUpdate : τ → Addr → Bool → TageBranchInfo β → Addr → τ

namespace TAGEBase

variable {τ β : Type} (tage : TAGEBase) (tables : TageTables τ β)

def uncondBranch (s : ThreadHistory × τ) (brPc : Addr) : Except Fault (TageBranchInfo β × ThreadHistory × τ) := do
  let (_,rest,t) := tables.tagePredict s.2 s.1 brPc false
  let (hist,bi) ← tage.updateHistories s.1 brPc true .new true
  .ok (⟨bi,false,rest⟩,hist,t)

def lookup (s : ThreadHistory × τ) (branchPc : Addr) : Except Fault (Bool × TageBranchInfo β × ThreadHistory × τ) := do
  let (retval,rest,t) := tables.tagePredict s.2 s.1 branchPc true
  let (hist,bi) ← tage.updateHistories s.1 branchPc retval .new true
  .ok (retval,⟨bi,true,rest⟩,hist,t)

def update (s : ThreadHistory × τ) (branchPc : Addr) (taken : Bool) (bi : TageBranchInfo β) (squashed : Bool)
    (corrTarget : Addr) : Except Fault (ThreadHistory × τ) :=
  if squashed then .ok (tage.squash s.1 taken bi.tageBranchInfo,s.2)
  else
    let t := if bi.condBranch then tables.condBranchUpdate s.2 branchPc taken bi corrTarget else s.2
    (tage.updateHistories s.1 branchPc taken bi.tageBranchInfo false).map fun h => (h.1,t)

/-- The virtual functions. The record of a squashed branch is only deleted. -/
def direction : Direction (ThreadHistory × τ) (TageBranchInfo β) where
  uncondBranch := tage.uncondBranch tables
  lookup := tage.lookup tables
  btbUpdate s _ bi := (tage.btbUpdate s.1 bi.tageBranchInfo).map fun hist => (bi,hist,s.2)
  update s branchPc taken bi squashed _ corrTarget := tage.update tables s branchPc taken bi squashed corrTarget
  squash s _ := s

end TAGEBase

structure Numbered where
  seqNum : ℕ
  branch : Recorded

def branches (live : List Numbered) : List Recorded := live.map (·.branch)

def deepenAll (n : ℕ) (live : List Numbered) : List Numbered :=
  live.map fun b => {b with branch := {b.branch with peak := max b.branch.peak n} }

def upTo (sn : ℕ) (live : List Numbered) : List Numbered := live.filter fun b => b.seqNum ≤ sn

def resolve (sn : ℕ) (taken : Bool) (live : List Numbered) : List Numbered :=
  live.map fun b => if b.seqNum=sn then {b with branch := {b.branch with taken := taken} } else b

namespace BPredUnit

variable {PC τ β ι η : Type} [Zero PC]

/-- `predict` calls `btbUpdate`. -/
def missed {σ κ : Type} (bp : BPredUnit PC σ κ ι η) (u : Predictor PC σ κ ι η) (inst : StaticInst) (pc : PC)
    (predTaken : Bool) : Bool :=
  predTaken && !inst.isReturn && !inst.isCall&&(bp.iPred.isNone || inst.isDirectCtrl) &&
    !u.BTB.valid (bp.isa.instAddr pc) bp.tid

def tage (isa : TheISA PC) (tage : TAGEBase) (tables : TageTables τ β) (iPred : Option (IndirectPredictor ι η PC))
    (tid : ℕ) : BPredUnit PC (ThreadHistory × τ) (TageBranchInfo β) ι η :=
  ⟨isa,tage.direction tables,iPred,tid⟩

end BPredUnit

namespace TAGEBase

variable {PC τ β ι η : Type} [Zero PC] (tage : TAGEBase)

/-- A squash, with the direction of the branch when one has been resolved. -/
abbrev Squashes (PC τ β ι η : Type) : Type :=
  Predictor PC (ThreadHistory × τ) (TageBranchInfo β) ι η → List Numbered → ℕ → Option Bool → Prop

/-- Predicting branches with increasing sequence numbers, committing and squashing, where `Fits` says which squashes
there are. -/
inductive UnitRun (bp : BPredUnit PC (ThreadHistory × τ) (TageBranchInfo β) ι η) (Fits : Squashes PC τ β ι η) :
    Predictor PC (ThreadHistory × τ) (TageBranchInfo β) ι η → List Numbered → Prop
  | init (RASSize BTB tables indirect) : UnitRun bp Fits (BPredUnit.init RASSize BTB (tage.init,tables) indirect) []
  | predict {u u' live inst seqNum pc predTaken bi direction taken target} : UnitRun bp Fits u live →
    (∀ b∈live, b.seqNum<seqNum) →
    bp.predictDirection u inst (bp.isa.instAddr pc) = .ok (predTaken,bi,direction) →
    bp.predict u inst seqNum pc = .ok (taken,target,u') →
    UnitRun bp Fits u' (⟨seqNum,bi.tageBranchInfo,predTaken && !bp.missed u inst pc predTaken,
      tage.pathbit (bp.isa.instAddr pc),live.length+1⟩::deepenAll (live.length+1) live)
  | update {u u' live doneSn} : UnitRun bp Fits u live → bp.update u doneSn = .ok u' → UnitRun bp Fits u' live
  | squash {u live} (squashedSn : ℕ) : UnitRun bp Fits u live → Fits u live squashedSn none →
    UnitRun bp Fits (bp.squash u squashedSn) (upTo squashedSn live)
  | squashBranch {u u' live squashedSn corrTarget actuallyTaken} : UnitRun bp Fits u live →
    Fits u live squashedSn (some actuallyTaken) → bp.squashBranch u squashedSn corrTarget actuallyTaken = .ok u' →
    UnitRun bp Fits u' (resolve squashedSn actuallyTaken (upTo squashedSn live))
  | share {u live} (BTB tables indirect) : UnitRun bp Fits u live →
    UnitRun bp Fits {u with BTB := BTB, direction := (u.direction.1,tables), indirect := indirect} live

/-- A squash without a resolved branch has no younger branch. One with a resolved branch has that branch in the history,
and the buffer has kept what its record is restored from, or all branches are older. -/
def Undone (u : Predictor PC (ThreadHistory × τ) (TageBranchInfo β) ι η) (live : List Numbered) (squashedSn : ℕ) :
    Option Bool → Prop
  | none => ∀ b∈live, b.seqNum ≤ squashedSn
  | some _ => (∀ b∈live, b.seqNum<squashedSn) ∨ (∃ r∈u.predHist, r.seqNum=squashedSn) ∧
    ∀ later b older, live=later++b::older → b.seqNum=squashedSn →
      tage.Kept (branches later) b.branch (branches older)

end TAGEBase

namespace BPredUnit

variable {PC σ κ ι η : Type} [Zero PC] {bp : BPredUnit PC σ κ ι η} {u u' : Predictor PC σ κ ι η}
  {r record : PredictorHistory PC κ η} {inst : StaticInst} {pc target : PC} {taken predTaken : Bool} {seqNum : ℕ}

omit [Zero PC] in
theorem cancelCall_direction (u : Predictor PC σ κ ι η) (record : PredictorHistory PC κ η) (inst : StaticInst) :
    (cancelCall u record inst).2.direction=u.direction ∧ (cancelCall u record inst).1.bpHistory=record.bpHistory := by
  unfold cancelCall
  split
  · exact ⟨rfl,rfl⟩
  · exact ⟨rfl,rfl⟩

theorem predictDirect_direction (h : bp.predictDirect u record inst pc = .ok (taken,target,r,u')) :
    if !u.BTB.valid (bp.isa.instAddr pc) bp.tid&&(!inst.isCall && !inst.isReturn) then
      bp.direction.btbUpdate u.direction (bp.isa.instAddr pc) record.bpHistory = .ok (r.bpHistory,u'.direction)
    else u'.direction=u.direction ∧ r.bpHistory=record.bpHistory := by
  rw [predictDirect] at h
  by_cases hv : u.BTB.valid (bp.isa.instAddr pc) bp.tid=true
  · rw [if_pos hv] at h
    cases h
    rw [hv]
    exact ⟨rfl,rfl⟩
  · rw [if_neg hv] at h
    rw [Bool.eq_false_iff.mpr hv]
    by_cases hc : (!inst.isCall && !inst.isReturn)=true
    · rw [if_pos hc] at h
      obtain ⟨b,hb,he⟩:=Checked.map_ok h
      cases he
      rw [hc]
      exact hb
    · rw [if_neg hc] at h
      rw [Bool.eq_false_iff.mpr hc]
      obtain ⟨rfl,rfl⟩:=Prod.mk.inj (Prod.mk.inj (Prod.mk.inj (Except.ok.inj h)).2).2
      exact cancelCall_direction u {record with predTaken := false} inst

omit [Zero PC] in
theorem predictIndirect_direction (bp : BPredUnit PC σ κ ι η) (iPred : IndirectPredictor ι η PC) (u : Predictor PC σ κ ι η)
    (record : PredictorHistory PC κ η) (inst : StaticInst) (pc : PC) :
    (bp.predictIndirect iPred u record inst pc).2.2.2.direction=u.direction ∧
      (bp.predictIndirect iPred u record inst pc).2.2.1.bpHistory=record.bpHistory := by
  rw [predictIndirect]
  obtain ⟨hit,target,indirect⟩:=iPred.lookup u.indirect (bp.isa.instAddr pc) pc
  cases hit with
  | true => exact ⟨rfl,rfl⟩
  | false => exact cancelCall_direction {u with indirect := indirect} _ inst

omit [Zero PC] in
theorem predictCall_kept {u1 : Predictor PC σ κ ι η} {record1 : PredictorHistory PC κ η}
    (h : predictCall u record inst pc=(record1,u1)) :
    u1.direction=u.direction ∧ u1.BTB=u.BTB ∧ record1.bpHistory=record.bpHistory ∧ u1.predHist=u.predHist ∧
      record1.seqNum=record.seqNum := by
  unfold predictCall at h
  split at h
  · cases h
    exact ⟨rfl,rfl,rfl,rfl,rfl⟩
  · cases h
    exact ⟨rfl,rfl,rfl,rfl,rfl⟩

theorem predictTarget_direction (h : bp.predictTarget u record inst pc = .ok (taken,target,r,u')) :
    u'.predHist=u.predHist ∧ r.seqNum=record.seqNum ∧ if bp.missed u inst pc record.predTaken then
      bp.direction.btbUpdate u.direction (bp.isa.instAddr pc) record.bpHistory = .ok (r.bpHistory,u'.direction)
    else u'.direction=u.direction ∧ r.bpHistory=record.bpHistory := by
  rw [predictTarget] at h
  rw [missed]
  cases ht : record.predTaken with
  | false =>
    rw [ht] at h
    cases h
    simp only [Bool.false_and,Bool.false_eq_true,if_false]
    split <;> exact ⟨trivial,rfl,trivial,rfl⟩
  | true =>
    rw [ht,if_pos rfl] at h
    cases hr : inst.isReturn with
    | true =>
      rw [hr,if_pos rfl] at h
      cases h
      exact ⟨rfl,rfl,rfl,rfl⟩
    | false =>
      rw [hr,if_neg Bool.false_ne_true] at h
      rcases hcall : predictCall u record inst pc with ⟨record1,u1⟩
      obtain ⟨hdir,hbtb,hbp,hhist,hseq⟩:=predictCall_kept hcall
      rw [hcall] at h
      dsimp only at h
      cases hi : bp.iPred with
      | none =>
        rw [hi] at h
        have hd:=predictDirect_direction h
        have ht:=predictDirect_targeted h
        rw [hdir,hbtb,hbp,hr] at hd
        refine ⟨ht.predHist.trans hhist,ht.seqNum.trans hseq,?_⟩
        simpa only [hi,Bool.not_false,Bool.true_and,Bool.and_true,Option.isNone_none,Bool.true_or,Bool.and_comm] using hd
      | some iPred =>
        rw [hi] at h
        dsimp only at h
        cases hdirect : inst.isDirectCtrl with
        | true =>
          rw [hdirect,if_pos rfl] at h
          have hd:=predictDirect_direction h
          have ht:=predictDirect_targeted h
          rw [hdir,hbtb,hbp,hr] at hd
          refine ⟨ht.predHist.trans hhist,ht.seqNum.trans hseq,?_⟩
          simpa only [Bool.not_false,Bool.true_and,Bool.and_true,Bool.or_true,Bool.and_comm] using hd
        | false =>
          rw [hdirect,if_neg Bool.false_ne_true] at h
          have hd:=predictIndirect_direction bp iPred u1 record1 inst pc
          have ht:=predictIndirect_targeted bp iPred u1 record1 inst pc
          rw [Except.ok.inj h,hdir,hbp] at hd
          rw [Except.ok.inj h] at ht
          refine ⟨ht.predHist.trans hhist,ht.seqNum.trans hseq,?_⟩
          simpa only [Option.isNone_some,Bool.or_false,Bool.and_false,Bool.false_and,Bool.false_eq_true,if_false] using hd

omit [Zero PC] in
theorem genIndirectInfo_BTB (bp : BPredUnit PC σ κ ι η) (u : Predictor PC σ κ ι η) :
    (bp.genIndirectInfo u).2.BTB=u.BTB := by
  unfold genIndirectInfo
  split <;> rfl

theorem predict_direction {κ' : κ} {s : σ} (hd : bp.predictDirection u inst (bp.isa.instAddr pc) = .ok (predTaken,κ',s))
    (h : bp.predict u inst seqNum pc = .ok (taken,target,u')) : ∃ r, u'.predHist=r::u.predHist ∧ r.seqNum=seqNum ∧
      if bp.missed u inst pc predTaken then
        bp.direction.btbUpdate s (bp.isa.instAddr pc) κ' = .ok (r.bpHistory,u'.direction)
      else u'.direction=s ∧ r.bpHistory=κ' := by
  obtain ⟨⟨orig,bpHistory,direction⟩,hd',h⟩:=Checked.bind_ok h
  cases hd.symm.trans hd'
  dsimp only at h
  obtain ⟨⟨taken',target',r,v⟩,ht,h⟩:=Checked.bind_ok h
  cases h
  obtain ⟨hhist,hseq,hdir⟩:=predictTarget_direction ht
  rw [genIndirectInfo_predHist] at hhist
  refine ⟨{r with target := bp.isa.instAddr target'},?_,hseq,?_⟩
  · dsimp only
    rw [callIndirect_predHist,hhist]
  · dsimp only
    rw [callIndirect_direction]
    rw [missed,genIndirectInfo_BTB,genIndirectInfo_direction] at hdir
    exact hdir

end BPredUnit

section
variable {live later older : List Numbered} {b : Numbered} {sn : ℕ} {taken : Bool}

theorem branches_deepenAll (n : ℕ) (live : List Numbered) : branches (deepenAll n live)=deepen n (branches live) := by
  rw [branches,branches,deepen,deepenAll,map_map,map_map]
  rfl

theorem seqNum_deepenAll (n : ℕ) (live : List Numbered) : (deepenAll n live).map (·.seqNum)=live.map (·.seqNum) := by
  rw [deepenAll,map_map]
  rfl

theorem upTo_eq_self (h : ∀ b∈live, b.seqNum ≤ sn) : upTo sn live=live :=
  filter_eq_self.mpr fun b hb => decide_eq_true (h b hb)

theorem resolve_eq_self (taken : Bool) (h : ∀ b∈live, b.seqNum<sn) : resolve sn taken live=live := by
  have hid : ∀ b∈live, (if b.seqNum=sn then {b with branch := {b.branch with taken := taken} } else b)=b :=
    fun b hb => if_neg (Nat.ne_of_lt (h b hb))
  exact (map_congr_left hid).trans (map_id _)

def Decreasing (live : List Numbered) : Prop := (live.map (·.seqNum)).Pairwise (·>·)

theorem upTo_append (h : Decreasing (later++b::older)) (hb : b.seqNum=sn) :
    upTo sn (later++b::older)=b::older ∧ ∀ a∈older, a.seqNum<sn := by
  rw [Decreasing,map_append,map_cons,pairwise_append] at h
  obtain ⟨_,hold,hlater⟩:=h
  have holder : ∀ a∈older, a.seqNum<sn := fun a ha =>
    hb ▸ (pairwise_cons.mp hold).1 _ (mem_map_of_mem ha)
  refine ⟨?_,holder⟩
  have hnone : later.filter (fun a => decide (a.seqNum ≤ sn))=[] := filter_eq_nil_iff.mpr fun a ha hle => by
    have hgt:=hlater _ (mem_map_of_mem ha) _ (mem_cons_self ..)
    have hle:=of_decide_eq_true hle
    omega
  rw [upTo,filter_append,hnone]
  exact upTo_eq_self fun a ha => by
    rcases mem_cons.mp ha with rfl | ha
    · exact hb.le
    · exact (holder a ha).le

end

namespace TAGEBase

variable {PC τ β ι η : Type} [Zero PC] {tage : TAGEBase}
  {u u' : Predictor PC (ThreadHistory × τ) (TageBranchInfo β) ι η} {live : List Numbered}

structure Tracked (tage : TAGEBase) (u : Predictor PC (ThreadHistory × τ) (TageBranchInfo β) ι η)
    (live : List Numbered) : Prop where
  sound : Sound tage u.direction.1 (branches live)
  decreasing : Decreasing live
  newest : u.predHist.map (fun r => (r.seqNum,r.bpHistory.tageBranchInfo)) <+: live.map fun b => (b.seqNum,b.branch.info)

section
omit [Zero PC]

theorem Tracked.seqNum (h : Tracked tage u live) : u.predHist.map (·.seqNum) <+: live.map (·.seqNum) := by
  have hmap:=h.newest.map Prod.fst
  rwa [map_map,map_map] at hmap

theorem Tracked.split (h : Tracked tage u live) {r : PredictorHistory PC (TageBranchInfo β) η} (hr : r∈u.predHist) :
    ∃ newer older later b before, u.predHist=newer++r::older ∧ live=later++b::before ∧
      newer.map (·.seqNum)=later.map (·.seqNum) ∧ b.seqNum=r.seqNum ∧ b.branch.info=r.bpHistory.tageBranchInfo ∧
      older.map (fun r => (r.seqNum,r.bpHistory.tageBranchInfo)) <+: before.map fun b => (b.seqNum,b.branch.info) := by
  obtain ⟨newer,older,hu⟩:=append_of_mem hr
  obtain ⟨rest,hrest⟩:=h.newest
  rw [hu,map_append,map_cons,append_assoc] at hrest
  obtain ⟨later,l,hl,hlater,htail⟩:=map_eq_append_iff.mp hrest.symm
  obtain ⟨b,before,rfl,hb,hbefore⟩:=map_eq_cons_iff.mp htail
  refine ⟨newer,older,later,b,before,hu,hl,?_,congrArg Prod.fst hb,congrArg Prod.snd hb,⟨rest,hbefore.symm⟩⟩
  have hmap:=congrArg (map Prod.fst) hlater
  rw [map_map,map_map] at hmap
  exact hmap.symm

end

variable {bp : BPredUnit PC (ThreadHistory × τ) (TageBranchInfo β) ι η} {tables : TageTables τ β} {inst : StaticInst}
  {pc target : PC} {taken predTaken : Bool} {sn : ℕ}

section
omit [Zero PC]

theorem predictDirection_ok (hbp : bp.direction=tage.direction tables) {instPC : Addr} {bi : TageBranchInfo β}
    {s : ThreadHistory × τ} (h : bp.predictDirection u inst instPC = .ok (predTaken,bi,s)) :
    tage.updateHistories u.direction.1 instPC predTaken .new true = .ok (s.1,bi.tageBranchInfo) := by
  rw [BPredUnit.predictDirection,hbp] at h
  split at h
  · obtain ⟨⟨bi',s'⟩,hrun,he⟩:=Checked.map_ok h
    cases he
    obtain ⟨⟨hist,bi1⟩,hupd,hok⟩:=Checked.bind_ok hrun
    cases hok
    exact hupd
  · obtain ⟨⟨hist,bi1⟩,hupd,hok⟩:=Checked.bind_ok h
    cases hok
    exact hupd

theorem update_committed (hz : Sizes tage) {s s' : ThreadHistory × τ} {instPC corrTarget : Addr} {bi : TageBranchInfo β}
    (h : tage.update tables s instPC taken bi false corrTarget = .ok s') : s'.1=s.1 := by
  rw [TAGEBase.update,if_neg Bool.false_ne_true] at h
  obtain ⟨a,ha,rfl⟩:=Checked.map_ok h
  rw [TAGEBase.updateHistories,if_pos (by rw [hz.speculative]; exact Bool.false_ne_true)] at ha
  cases ha
  rfl

theorem commitRecords_direction (hbp : bp.direction=tage.direction tables) (hz : Sizes tage)
    {rev : List (PredictorHistory PC (TageBranchInfo β) η)} (h : bp.commitRecords sn rev u = .ok u') :
    u'.direction.1=u.direction.1 := by
  induction rev generalizing u with
  | nil =>
    cases h
    rfl
  | cons r newer ih =>
    rw [BPredUnit.commitRecords] at h
    split at h
    · obtain ⟨s,hs,h⟩:=Checked.bind_ok h
      rw [hbp] at hs
      rw [ih h,BPredUnit.callIndirectWith_direction]
      exact update_committed hz hs
    · cases h
      rfl

theorem squashRecords_direction (hbp : bp.direction=tage.direction tables)
    (hist : List (PredictorHistory PC (TageBranchInfo β) η))
    (u : Predictor PC (ThreadHistory × τ) (TageBranchInfo β) ι η) :
    (bp.squashRecords sn hist u).direction=u.direction := by
  induction hist generalizing u with
  | nil => rfl
  | cons r older ih =>
    rw [BPredUnit.squashRecords]
    split
    · rw [ih,BPredUnit.squashRecord,BPredUnit.callIndirectWith_direction,hbp]
      dsimp only [TAGEBase.direction]
      split
      · rfl
      · split <;> rfl
    · rfl

theorem squash_direction (hbp : bp.direction=tage.direction tables)
    (u : Predictor PC (ThreadHistory × τ) (TageBranchInfo β) ι η) (sn : ℕ) :
    (bp.squash u sn).direction=u.direction := by
  rw [BPredUnit.squash,squashRecords_direction hbp,BPredUnit.callIndirect_direction]

theorem removed_eq_zero {hist : List (PredictorHistory PC (TageBranchInfo β) η)} (h : ∀ r∈hist, r.seqNum ≤ sn) :
    removed sn hist=0 := by
  cases hist with
  | nil => rfl
  | cons r older => rw [BPredUnit.removed_cons,if_neg (Nat.not_lt.mpr (h r (mem_cons_self ..)))]

theorem removed_append {newer older : List (PredictorHistory PC (TageBranchInfo β) η)}
    {r : PredictorHistory PC (TageBranchInfo β) η} (h : ∀ a∈newer, sn<a.seqNum) (hr : r.seqNum ≤ sn) :
    removed sn (newer++r::older)=newer.length := by
  induction newer with
  | nil => rw [nil_append,BPredUnit.removed_cons,if_neg (Nat.not_lt.mpr hr),length_nil]
  | cons a newer ih =>
    rw [cons_append,BPredUnit.removed_cons,if_pos (h a (mem_cons_self ..)),
      ih fun a ha => h a (mem_cons_of_mem _ ha),length_cons]

theorem Tracked.of_live {P : ℕ → Prop} (h : Tracked tage u live) (hp : ∀ b∈live, P b.seqNum) :
    ∀ r∈u.predHist, P r.seqNum := fun r hr => by
  obtain ⟨b,hb,he⟩:=List.mem_map.mp (h.seqNum.subset (List.mem_map_of_mem hr))
  exact he ▸ hp b hb

theorem Tracked.update (hbp : bp.direction=tage.direction tables) (hz : Sizes tage) (h : Tracked tage u live)
    (hu : bp.update u sn = .ok u') : Tracked tage u' live := by
  have hhist:=(BPredUnit.commitRecords_ok hu).1
  rw [reverse_reverse] at hhist
  refine ⟨?_,h.decreasing,(hhist.map _).trans h.newest⟩
  rw [commitRecords_direction hbp hz hu]
  exact h.sound

theorem Tracked.squash (hbp : bp.direction=tage.direction tables) (h : Tracked tage u live)
    (hle : ∀ b∈live, b.seqNum ≤ sn) : Tracked tage (bp.squash u sn) live := by
  refine ⟨?_,h.decreasing,?_⟩
  · rw [squash_direction hbp]
    exact h.sound
  · rw [BPredUnit.squash_predHist,removed_eq_zero (h.of_live (P := (· ≤ sn)) hle)]
    exact h.newest

theorem Tracked.resolved (hbp : bp.direction=tage.direction tables) (hz : Sizes tage) (h : Tracked tage u live)
    {r : PredictorHistory PC (TageBranchInfo β) η} (hr : r∈u.predHist) (hsn : r.seqNum=sn)
    (hk : ∀ later b older, live=later++b::older → b.seqNum=sn → tage.Kept (branches later) b.branch (branches older))
    (hu : bp.squashBranch u sn target taken = .ok u') : Tracked tage u' (resolve sn taken (upTo sn live)) := by
  obtain ⟨newer,older,later,b,before,hhist,rfl,hnums,hb,hinfo,hold⟩:=h.split hr
  obtain ⟨hup,hless⟩:=upTo_append h.decreasing (hb.trans hsn)
  -- the records of the younger branches are removed
  have hyounger : ∀ a∈newer, sn<a.seqNum := fun a ha => by
    have hmem : a.seqNum∈later.map (·.seqNum) := hnums ▸ mem_map_of_mem ha
    have hdec:=h.decreasing
    rw [Decreasing,map_append,map_cons,pairwise_append] at hdec
    have hgt:=hdec.2.2 _ hmem _ (mem_cons_self ..)
    omega
  have hsquash : (bp.squash u sn).predHist=r::older := by
    rw [BPredUnit.squash_predHist,hhist,removed_append hyounger hsn.le,drop_left]
  rcases BPredUnit.squashBranch_cases hu with ⟨hnil,_⟩ | ⟨record,_,older',v,hcons,_,rfl,_,_,hupd,r',v',hcorr,rfl⟩
  · exact (cons_ne_nil _ _ (hsquash.symm.trans hnil)).elim
  obtain ⟨rfl,rfl⟩:=List.cons.inj (hsquash.symm.trans hcons)
  rw [hbp,squash_direction hbp] at hupd
  have hv : v.direction.1=tage.squash u.direction.1 taken r.bpHistory.tageBranchInfo := by
    rw [← Except.ok.inj hupd]
  have hcorrected : v'.direction=v.direction ∧ r'.seqNum=r.seqNum ∧ r'.bpHistory=r.bpHistory := by
    cases taken with
    | true =>
      rw [if_pos rfl] at hcorr
      obtain ⟨r1,v1,he,hdir,hcase⟩:=BPredUnit.correctTaken_cases bp v
        {r with predTaken := true, target := bp.isa.instAddr target} target
      rw [he] at hcorr
      obtain ⟨rfl,rfl⟩:=Prod.mk.inj hcorr
      rcases hcase with ⟨_,_,rfl,_⟩ | ⟨rfl,_⟩
      · exact ⟨hdir,rfl,rfl⟩
      · exact ⟨hdir,rfl,rfl⟩
    | false =>
      rw [if_neg Bool.false_ne_true] at hcorr
      obtain ⟨r1,v1,he,hdir,_,_,hseq,hbp',_⟩:=BPredUnit.correctNotTaken_cases v
        {r with predTaken := false, target := bp.isa.instAddr target}
      rw [he] at hcorr
      obtain ⟨rfl,rfl⟩:=Prod.mk.inj hcorr
      exact ⟨hdir,hseq,hbp'⟩
  have hsound:=h.sound
  rw [branches,map_append,map_cons] at hsound
  have hnow:=hsound.squash hz (hk later b before rfl (hb.trans hsn)) taken
  have hres : resolve sn taken (upTo sn (later++b::before)) =
      {b with branch := {b.branch with taken := taken} }::before := by
    rw [hup]
    have hrest:=resolve_eq_self taken hless
    rw [resolve] at hrest
    rw [resolve,map_cons,if_pos (hb.trans hsn),hrest]
  rw [hres]
  refine ⟨?_,?_,?_⟩
  · dsimp only
    rw [hcorrected.1,hv,← hinfo]
    exact hnow
  · have hdec:=h.decreasing
    rw [Decreasing,map_append,pairwise_append] at hdec
    exact hdec.2.1
  · dsimp only
    rw [map_cons,map_cons,hcorrected.2.1,hcorrected.2.2,← hb,← hinfo]
    exact (prefix_cons_inj _).mpr hold

theorem Tracked.squashBranch (hbp : bp.direction=tage.direction tables) (hz : Sizes tage) (h : Tracked tage u live)
    (hf : Undone tage u live sn (some taken)) (hu : bp.squashBranch u sn target taken = .ok u') :
    Tracked tage u' (resolve sn taken (upTo sn live)) := by
  rcases hf with hless | ⟨⟨r,hr,hsn⟩,hk⟩
  · -- no record is found
    have hle : ∀ b∈live, b.seqNum ≤ sn := fun b hb => (hless b hb).le
    rw [upTo_eq_self hle,resolve_eq_self taken hless]
    rcases BPredUnit.squashBranch_cases hu with ⟨_,rfl⟩ | ⟨record,_,older,_,hhist,hsn,_⟩
    · exact h.squash hbp hle
    · rw [BPredUnit.squash_predHist,removed_eq_zero (h.of_live (P := (· ≤ sn)) hle),drop_zero] at hhist
      have hlt:=h.of_live (P := (·<sn)) hless record (by rw [hhist]; exact mem_cons_self ..)
      omega
  · exact h.resolved hbp hz hr hsn hk hu

end

theorem Tracked.predict (hbp : bp.direction=tage.direction tables) (hz : Sizes tage) (h : Tracked tage u live)
    {bi : TageBranchInfo β} {s : ThreadHistory × τ} {seqNum : ℕ} (hnew : ∀ b∈live, b.seqNum<seqNum)
    (hd : bp.predictDirection u inst (bp.isa.instAddr pc) = .ok (predTaken,bi,s))
    (hp : bp.predict u inst seqNum pc = .ok (taken,target,u')) :
    Tracked tage u' (⟨seqNum,bi.tageBranchInfo,predTaken && !bp.missed u inst pc predTaken,
      tage.pathbit (bp.isa.instAddr pc),live.length+1⟩::deepenAll (live.length+1) live) := by
  have hlen : (branches live).length=live.length := length_map ..
  obtain ⟨hist,bi',hupd,hsound⟩:=h.sound.updateHistories hz (bp.isa.instAddr pc) predTaken .new
  cases (predictDirection_ok hbp hd).symm.trans hupd
  rw [hlen] at hsound
  obtain ⟨r,hhist,hseq,hdir⟩:=BPredUnit.predict_direction hd hp
  have hbranch : Sound tage u'.direction.1 (⟨bi.tageBranchInfo,predTaken && !bp.missed u inst pc predTaken,
      tage.pathbit (bp.isa.instAddr pc),live.length+1⟩::deepen (live.length+1) (branches live)) ∧
      r.bpHistory=bi := by
    cases hm : bp.missed u inst pc predTaken with
    | false =>
      rw [hm,if_neg Bool.false_ne_true] at hdir
      rw [hdir.1,Bool.not_false,Bool.and_true]
      exact ⟨hsound,hdir.2⟩
    | true =>
      rw [hm,if_pos rfl,hbp] at hdir
      obtain ⟨hist',hbtb,he⟩:=Checked.map_ok hdir
      obtain ⟨hist'',hbtb',hsound'⟩:=hsound.btbUpdate hz
      cases hbtb.symm.trans hbtb'
      obtain ⟨hb,hs⟩:=Prod.mk.inj he
      rw [← hs,Bool.not_true,Bool.and_false]
      exact ⟨hsound',hb.symm⟩
  refine ⟨?_,?_,?_⟩
  · rw [branches,map_cons]
    have hmap:=branches_deepenAll (live.length+1) live
    rw [branches] at hmap
    rw [hmap]
    exact hbranch.1
  · rw [Decreasing,map_cons,seqNum_deepenAll,pairwise_cons]
    refine ⟨fun n hn => ?_,h.decreasing⟩
    obtain ⟨b,hb,rfl⟩:=mem_map.mp hn
    exact hnew b hb
  · rw [hhist,map_cons,map_cons,hseq,hbranch.2]
    refine prefix_cons_inj _ |>.mpr ?_
    rw [deepenAll,map_map]
    exact h.newest

theorem tracked_init (RASSize : ℕ) (BTB : DefaultBTB PC) (t : τ) (indirect : ι) :
    Tracked tage (BPredUnit.init RASSize BTB (tage.init,t) indirect :
      Predictor PC (ThreadHistory × τ) (TageBranchInfo β) ι η) [] :=
  ⟨sound_init tage,Pairwise.nil,prefix_rfl⟩

theorem UnitRun.tracked (hbp : bp.direction=tage.direction tables) (hz : Sizes tage)
    (hr : UnitRun tage bp (Undone tage) u live) : Tracked tage u live := by
  induction hr with
  | init RASSize BTB t indirect => exact tracked_init RASSize BTB t indirect
  | predict hr hnew hd hp ih => exact ih.predict hbp hz hnew hd hp
  | update hr hu ih => exact ih.update hbp hz hu
  | squash squashedSn hr hf ih =>
    rw [upTo_eq_self hf]
    exact ih.squash hbp hf
  | squashBranch hr hf hu ih => exact ih.squashBranch hbp hz hf hu
  | share BTB t indirect hr ih => exact ⟨ih.sound,ih.decreasing,ih.newest⟩

/-- While each squash that has something to undo is one for a resolved branch of the history, the histories are those
of the branches that have not been squashed. -/
theorem squashes_undone (isa : TheISA PC) (tables : TageTables τ β) (iPred : Option (IndirectPredictor ι η PC)) (tid : ℕ)
    (hz : Sizes tage) (hr : UnitRun tage (BPredUnit.tage isa tage tables iPred tid) (Undone tage) u live) :
    Shows tage u.direction.1 (branches live) :=
  (hr.tracked rfl hz).sound.shows

def smallUnit : BPredUnit ℕ (ThreadHistory × Unit) (TageBranchInfo Unit) Unit Unit :=
  BPredUnit.tage ⟨BitVec.ofNat 64,fun _ rasTop => rasTop,fun pc _ => pc+4⟩ small
    ⟨fun _ _ _ _ => (true,(),()),fun _ _ _ _ _ => ()⟩ none 0

def smallInit : Predictor ℕ (ThreadHistory × Unit) (TageBranchInfo Unit) Unit Unit :=
  BPredUnit.init 4 ⟨fun _ => ⟨0,0,0,false⟩,16,16,2,0⟩ (small.init,()) ()

def unconditionalReturn : StaticInst := ⟨true,false,true,false⟩

/-- The older of two returns is resolved as not taken. -/
theorem squashes_undone_nested : ∃ (u : Predictor ℕ (ThreadHistory × Unit) (TageBranchInfo Unit) Unit Unit) (live : _),
    live.length=1 ∧ outcomes (branches live) 0=false ∧ Shows small u.direction.1 (branches live) := by
  have hr0 : UnitRun small smallUnit (Undone small) smallInit [] := .init _ _ _ _
  have hr1 : UnitRun small smallUnit (Undone small) _ [_] := hr0.predict (fun b hb => (List.not_mem_nil hb).elim)
    (rfl : smallUnit.predictDirection smallInit unconditionalReturn 40 = .ok (_,_,_))
    (rfl : smallUnit.predict smallInit unconditionalReturn 1 40 = .ok (_,_,_))
  have hr2 : UnitRun small smallUnit (Undone small) _ [_,_] := hr1.predict
    (fun b hb => List.mem_singleton.mp hb ▸ (by decide : 1<2))
    (rfl : smallUnit.predictDirection _ unconditionalReturn 44 = .ok (_,_,_))
    (rfl : smallUnit.predict _ unconditionalReturn 2 44 = .ok (_,_,_))
  have hr3:=hr2.squashBranch (.inr ⟨⟨_,List.mem_cons_of_mem _ (List.mem_cons_self ..),rfl⟩,fun later b older hl _ => by
    have hb : b∈later++b::older := List.mem_append_right _ (List.mem_cons_self ..)
    rw [← hl] at hb
    have hpeak : b.branch.peak=2 := by
      rcases List.mem_cons.mp hb with rfl | hb
      · rfl
      · exact List.mem_singleton.mp hb ▸ rfl
    show b.branch.peak<(branches older).length+1+2
    omega⟩) (rfl : smallUnit.squashBranch _ 1 44 false = .ok _)
  exact ⟨_,_,rfl,rfl,squashes_undone _ _ none 0 small_sizes hr3⟩

/-- The outcome of a squashed return stays in the history. -/
theorem squash_not_undone : ¬∀ (u : Predictor ℕ (ThreadHistory × Unit) (TageBranchInfo Unit) Unit Unit) live,
    UnitRun small smallUnit (fun _ _ _ _ => True) u live → Shows small u.direction.1 (branches live) := by
  intro hall
  have hr0 : UnitRun small smallUnit (fun _ _ _ _ => True) smallInit [] := .init _ _ _ _
  have hr1:=hr0.predict (fun b hb => (List.not_mem_nil hb).elim)
    (rfl : smallUnit.predictDirection smallInit unconditionalReturn 40 = .ok (_,_,_))
    (rfl : smallUnit.predict smallInit unconditionalReturn 1 40 = .ok (_,_,_))
  have hr2:=hr1.squash 0 trivial
  exact absurd ((hall _ _ hr2).outcome 0 (Nat.zero_le _)) (by decide)

end TAGEBase

end AquaGem5.Branch
