import AquaGem5.Lib.Checked
import AquaGem5.Lib.Heights
import AquaGem5.Branch.Predictor

/-!
# The return address stack over a run

`marks` lists the states from before the branches of the history, newest first.
-/

namespace AquaGem5.Branch
open Heights ReturnAddrStack List Bool

variable {PC σ κ ι η : Type}

namespace PredictorHistory

def undo (r : PredictorHistory PC κ η) (s : ReturnAddrStack PC) : ReturnAddrStack PC :=
  if r.usedRAS then s.restore r.RASIndex r.RASTarget else if r.wasCall&&r.pushedRAS then s.pop else s

def undone (r : PredictorHistory PC κ η) : List ℤ :=
  if r.usedRAS then [1] else if r.wasCall&&r.pushedRAS then [-1] else []

def gain (r : PredictorHistory PC κ η) : ℤ := if r.usedRAS then -1 else if r.wasCall&&r.pushedRAS then 1 else 0

end PredictorHistory

def removed (squashedSn : ℕ) (hist : List (PredictorHistory PC κ η)) : ℕ :=
  (hist.takeWhile fun r => squashedSn<r.seqNum).length

def Predictor.since (before u : Predictor PC σ κ ι η) : List ℤ := u.moves.take (u.moves.length-before.moves.length)

/-- In `u'` the stack is as it was in `before`, but for what was pushed over until `u`. -/
structure Recovered (before u u' : Predictor PC σ κ ι η) : Prop where
  tos : u'.RAS.tos=before.RAS.tos
  below : ∀ j : ℕ, j<before.RAS.numEntries → j+peak (before.since u)<before.RAS.numEntries →
    u'.RAS.below j=before.RAS.below j

namespace BPredUnit

variable [Zero PC] (bp : BPredUnit PC σ κ ι η)

/-- The states of a thread with their marks, where `Fits` says which branches are resolved. The predictors and the
branch target buffer are shared with other threads. -/
inductive Run (Fits : Predictor PC σ κ ι η → List (Predictor PC σ κ ι η) → ℕ → Bool → Prop) :
    Predictor PC σ κ ι η → List (Predictor PC σ κ ι η) → Prop
  | init {RASSize : ℕ} (BTB direction indirect) : 0<RASSize → Run Fits (init RASSize BTB direction indirect) []
  | predict {u u' marks inst seqNum pc taken target} : Run Fits u marks →
    bp.predict u inst seqNum pc = .ok (taken,target,u') → Run Fits u' (u::marks)
  | update {u u' marks doneSn} : Run Fits u marks → bp.update u doneSn = .ok u' →
    Run Fits u' (marks.take u'.predHist.length)
  | squash {u marks} (squashedSn : ℕ) : Run Fits u marks →
    Run Fits (bp.squash u squashedSn) (marks.drop (removed squashedSn u.predHist))
  | squashBranch {u u' marks squashedSn corrTarget actuallyTaken} : Run Fits u marks →
    Fits u marks squashedSn actuallyTaken → bp.squashBranch u squashedSn corrTarget actuallyTaken = .ok u' →
    Run Fits u' (marks.drop (removed squashedSn u.predHist))
  | share {u marks} (BTB direction indirect) : Run Fits u marks →
    Run Fits {u with BTB := BTB, direction := direction, indirect := indirect} marks

/-- When a return is resolved as taken that has not used the stack, its record has the top from before the return. -/
def TopRecorded (u : Predictor PC σ κ ι η) (marks : List (Predictor PC σ κ ι η)) (squashedSn : ℕ)
    (actuallyTaken : Bool) : Prop :=
  ∀ r m, u.predHist[removed squashedSn u.predHist]?=some r → marks[removed squashedSn u.predHist]?=some m →
    actuallyTaken=true → r.wasReturn=true → r.usedRAS=false → r.RASIndex=m.RAS.topIdx ∧ r.RASTarget=m.RAS.top

end BPredUnit

structure Called (s : ReturnAddrStack PC) (r : PredictorHistory PC κ η) (s' : ReturnAddrStack PC) (walk : List ℤ) :
    Prop where
  lt : s'.tos<s'.numEntries
  sum : walk.sum=r.gain
  agree : Agree (peak walk) (r.undo s') s
  index : r.usedRAS=true → r.RASIndex=s'.incrTos.tos
  noCall : r.wasReturn=true ∨ r.usedRAS=true → r.wasCall=false

theorem undo_agree {r : PredictorHistory PC κ η} {d : ℤ} {s s' : ReturnAddrStack PC} (h : Agree d s s')
    (hi : r.usedRAS=true → r.RASIndex=s'.incrTos.tos) : Agree (d+r.gain) (r.undo s) (r.undo s') := by
  unfold PredictorHistory.undo PredictorHistory.gain
  split
  · rename_i hu
    have hi' : r.RASIndex=s.incrTos.tos := by rw [hi hu,incrTos,incrTos,h.tos,h.numEntries]
    exact h.restore hi'
  · split
    · exact h.pop
    · rw [add_zero]
      exact h

theorem undone_sum (r : PredictorHistory PC κ η) : r.undone.sum = -r.gain := by
  unfold PredictorHistory.undone PredictorHistory.gain
  split
  · rfl
  · split <;> rfl

theorem called_none {s : ReturnAddrStack PC} {r : PredictorHistory PC κ η} (hs : s.tos<s.numEntries)
    (hu : r.usedRAS=false) (hp : r.wasCall=false) : Called s r s [] := by
  refine ⟨hs,?_,?_,fun h => (Bool.false_ne_true (hu.symm.trans h)).elim,fun _ => hp⟩
  · rw [PredictorHistory.gain,hu,hp]
    rfl
  · rw [PredictorHistory.undo,hu,hp]
    exact Agree.refl hs _

theorem called_pop {s : ReturnAddrStack PC} {r : PredictorHistory PC κ η} (hs : s.tos<s.numEntries)
    (hu : r.usedRAS=true) (hi : r.RASIndex=s.topIdx) (ht : r.RASTarget=s.top) (hp : r.wasCall=false) :
    Called s r s.pop [-1] := by
  refine ⟨?_,?_,?_,fun _ => ?_,fun _ => hp⟩
  · rw [pop_tos,pop_numEntries]
    exact decrTos_lt hs
  · rw [PredictorHistory.gain,if_pos hu]
    rfl
  · rw [PredictorHistory.undo,if_pos hu,hi,ht]
    exact agree_restore_pop hs _
  · rw [hi,topIdx,← incrTos_decrTos hs,incrTos,incrTos,pop_tos,pop_numEntries]
    rfl

theorem called_push {s : ReturnAddrStack PC} {r : PredictorHistory PC κ η} (hs : s.tos<s.numEntries)
    (hu : r.usedRAS=false) (hc : r.wasCall=true) (hp : r.pushedRAS=true) (hw : r.wasReturn=false) (a : PC) :
    Called s r (s.push a) [1] := by
  refine ⟨?_,?_,?_,fun h => (Bool.false_ne_true (hu.symm.trans h)).elim,fun h => ?_⟩
  · rw [push_tos,push_numEntries]
    exact incrTos_lt hs
  · rw [PredictorHistory.gain,hu,hc,hp]
    rfl
  · rw [PredictorHistory.undo,hu,hc,hp]
    exact agree_pop_push hs a
  · rw [hu,hw] at h
    exact (Bool.false_ne_true (or_self_iff.mp h)).elim

theorem called_cancel {s : ReturnAddrStack PC} {r : PredictorHistory PC κ η} (hs : s.tos<s.numEntries)
    (hu : r.usedRAS=false) (hp : r.pushedRAS=false) (hw : r.wasReturn=false) (a : PC) :
    Called s r (s.push a).pop [-1,1] := by
  have hagree:=agree_pop_push hs a
  refine ⟨hagree.lt,?_,?_,fun h => (Bool.false_ne_true (hu.symm.trans h)).elim,fun h => ?_⟩
  · rw [PredictorHistory.gain,hu,hp,Bool.and_false]
    rfl
  · rw [PredictorHistory.undo,hu,hp,Bool.and_false]
    exact hagree
  · rw [hu,hw] at h
    exact (Bool.false_ne_true (or_self_iff.mp h)).elim

namespace BPredUnit

variable [Zero PC] {bp : BPredUnit PC σ κ ι η} {u u' v : Predictor PC σ κ ι η} {r record : PredictorHistory PC κ η}
  {inst : StaticInst} {pc target : PC} {taken : Bool} {seqNum : ℕ}

section
variable (bp u)
omit [Zero PC]

@[simp] theorem callIndirect_predHist (f) : (bp.callIndirect u f).predHist=u.predHist := by
  unfold callIndirect
  split <;> rfl

@[simp] theorem callIndirect_RAS (f) : (bp.callIndirect u f).RAS=u.RAS := by
  unfold callIndirect
  split <;> rfl

@[simp] theorem callIndirect_moves (f) : (bp.callIndirect u f).moves=u.moves := by
  unfold callIndirect
  split <;> rfl

@[simp] theorem callIndirect_direction (f) : (bp.callIndirect u f).direction=u.direction := by
  unfold callIndirect
  split <;> rfl

@[simp] theorem callIndirectWith_RAS (h f) : (bp.callIndirectWith u h f).RAS=u.RAS := by
  cases h with
  | none => rfl
  | some h => exact callIndirect_RAS bp u _

@[simp] theorem callIndirectWith_moves (h f) : (bp.callIndirectWith u h f).moves=u.moves := by
  cases h with
  | none => rfl
  | some h => exact callIndirect_moves bp u _

@[simp] theorem callIndirectWith_direction (h f) : (bp.callIndirectWith u h f).direction=u.direction := by
  cases h with
  | none => rfl
  | some h => exact callIndirect_direction bp u _

@[simp] theorem genIndirectInfo_predHist : (bp.genIndirectInfo u).2.predHist=u.predHist := by
  unfold genIndirectInfo
  split <;> rfl

@[simp] theorem genIndirectInfo_RAS : (bp.genIndirectInfo u).2.RAS=u.RAS := by
  unfold genIndirectInfo
  split <;> rfl

@[simp] theorem genIndirectInfo_moves : (bp.genIndirectInfo u).2.moves=u.moves := by
  unfold genIndirectInfo
  split <;> rfl

@[simp] theorem genIndirectInfo_direction : (bp.genIndirectInfo u).2.direction=u.direction := by
  unfold genIndirectInfo
  split <;> rfl

end

structure Targeted (inst : StaticInst) (u : Predictor PC σ κ ι η) (record : PredictorHistory PC κ η)
    (u' : Predictor PC σ κ ι η) (r : PredictorHistory PC κ η) : Prop where
  predHist : u'.predHist=u.predHist
  seqNum : r.seqNum=record.seqNum
  usedRAS : r.usedRAS=record.usedRAS
  wasCall : r.wasCall=record.wasCall
  wasReturn : r.wasReturn=record.wasReturn
  stack : u'.RAS=u.RAS ∧ u'.moves=u.moves ∧ r.pushedRAS=record.pushedRAS ∨
    inst.isCall=true ∧ u'.RAS=u.RAS.pop ∧ u'.moves = -1::u.moves ∧ r.pushedRAS=false

omit [Zero PC] in
theorem cancelCall_targeted (u : Predictor PC σ κ ι η) (record : PredictorHistory PC κ η) (inst : StaticInst) :
    Targeted inst u record (cancelCall u record inst).2 (cancelCall u record inst).1 := by
  unfold cancelCall
  split
  · rename_i h
    exact ⟨rfl,rfl,rfl,rfl,rfl,.inr ⟨(and_eq_true_iff.mp h).1,rfl,rfl,rfl⟩⟩
  · exact ⟨rfl,rfl,rfl,rfl,rfl,.inl ⟨rfl,rfl,rfl⟩⟩

theorem predictDirect_targeted (h : bp.predictDirect u record inst pc = .ok (taken,target,r,u')) :
    Targeted inst u record u' r := by
  rw [predictDirect] at h
  by_cases hv : u.BTB.valid (bp.isa.instAddr pc) bp.tid
  · rw [if_pos hv] at h
    cases h
    exact ⟨rfl,rfl,rfl,rfl,rfl,.inl ⟨rfl,rfl,rfl⟩⟩
  · rw [if_neg hv] at h
    by_cases hc : (!inst.isCall && !inst.isReturn)=true
    · rw [if_pos hc] at h
      obtain ⟨b,_,hb⟩:=Checked.map_ok h
      cases hb
      exact ⟨rfl,rfl,rfl,rfl,rfl,.inl ⟨rfl,rfl,rfl⟩⟩
    · rw [if_neg hc] at h
      have hcancel:=cancelCall_targeted u {record with predTaken := false} inst
      obtain ⟨rfl,rfl⟩:=Prod.mk.inj (Prod.mk.inj (Prod.mk.inj (Except.ok.inj h)).2).2
      exact ⟨hcancel.predHist,hcancel.seqNum,hcancel.usedRAS,hcancel.wasCall,hcancel.wasReturn,hcancel.stack⟩

omit [Zero PC] in
theorem predictIndirect_targeted (bp : BPredUnit PC σ κ ι η) (iPred : IndirectPredictor ι η PC) (u : Predictor PC σ κ ι η)
    (record : PredictorHistory PC κ η) (inst : StaticInst) (pc : PC) :
    Targeted inst u record (bp.predictIndirect iPred u record inst pc).2.2.2
      (bp.predictIndirect iPred u record inst pc).2.2.1 := by
  rw [predictIndirect]
  obtain ⟨hit,target,indirect⟩:=iPred.lookup u.indirect (bp.isa.instAddr pc) pc
  cases hit with
  | true => exact ⟨rfl,rfl,rfl,rfl,rfl,.inl ⟨rfl,rfl,rfl⟩⟩
  | false =>
    have hcancel:=cancelCall_targeted {u with indirect := indirect}
      {record with wasIndirect := true, predTaken := false} inst
    exact ⟨hcancel.predHist,hcancel.seqNum,hcancel.usedRAS,hcancel.wasCall,hcancel.wasReturn,hcancel.stack⟩

omit [Zero PC] in
theorem Targeted.called {u1 : Predictor PC σ κ ι η} {record1 : PredictorHistory PC κ η} (hs : u.RAS.tos<u.RAS.numEntries)
    (hcall : predictCall u record inst pc=(record1,u1)) (ht : Targeted inst u1 record1 u' r)
    (hu : record.usedRAS=false) (hc : record.wasCall=false) (hw : record.wasReturn=false) :
    u'.predHist=u.predHist ∧ r.seqNum=record.seqNum ∧
      ∃ walk, u'.moves=walk++u.moves ∧ Called u.RAS r u'.RAS walk := by
  unfold predictCall at hcall
  split at hcall
  · cases hcall
    refine ⟨ht.predHist,ht.seqNum,?_⟩
    rcases ht.stack with ⟨hras,hmoves,hpush⟩ | ⟨_,hras,hmoves,hpush⟩
    · rw [hras,hmoves]
      exact ⟨[1],rfl,called_push hs (ht.usedRAS.trans hu) ht.wasCall hpush (ht.wasReturn.trans hw) pc⟩
    · rw [hras,hmoves]
      exact ⟨[-1,1],rfl,called_cancel hs (ht.usedRAS.trans hu) hpush (ht.wasReturn.trans hw) pc⟩
  · rename_i hno
    cases hcall
    refine ⟨ht.predHist,ht.seqNum,?_⟩
    rcases ht.stack with ⟨hras,hmoves,_⟩ | ⟨hyes,_⟩
    · rw [hras,hmoves]
      exact ⟨[],rfl,called_none hs (ht.usedRAS.trans hu) (ht.wasCall.trans hc)⟩
    · exact (hno hyes).elim

theorem predictTarget_called (h : bp.predictTarget u record inst pc = .ok (taken,target,r,u'))
    (hs : u.RAS.tos<u.RAS.numEntries) (hu : record.usedRAS=false) (hc : record.wasCall=false)
    (hw : record.wasReturn=false) : u'.predHist=u.predHist ∧ r.seqNum=record.seqNum ∧
      ∃ walk, u'.moves=walk++u.moves ∧ Called u.RAS r u'.RAS walk := by
  rw [predictTarget] at h
  by_cases ht : record.predTaken=true
  · rw [if_pos ht] at h
    by_cases hr : inst.isReturn=true
    · rw [if_pos hr] at h
      cases h
      exact ⟨rfl,rfl,[-1],rfl,called_pop hs rfl rfl rfl hc⟩
    · rw [if_neg hr] at h
      rcases hcall : predictCall u record inst pc with ⟨record1,u1⟩
      rw [hcall] at h
      dsimp only at h
      split at h
      · exact (predictDirect_targeted h).called hs hcall hu hc hw
      · split at h
        · exact (predictDirect_targeted h).called hs hcall hu hc hw
        · rename_i iPred _ _
          have htarget:=predictIndirect_targeted bp iPred u1 record1 inst pc
          rw [Except.ok.inj h] at htarget
          exact htarget.called hs hcall hu hc hw
  · rw [if_neg ht] at h
    cases h
    split
    · exact ⟨rfl,rfl,[],rfl,called_none hs hu hc⟩
    · exact ⟨rfl,rfl,[],rfl,called_none hs hu hc⟩

theorem predict_called (h : bp.predict u inst seqNum pc = .ok (taken,target,u')) (hs : u.RAS.tos<u.RAS.numEntries) :
    ∃ r walk, u'.predHist=r::u.predHist ∧ r.seqNum=seqNum ∧ u'.moves=walk++u.moves ∧ Called u.RAS r u'.RAS walk := by
  obtain ⟨⟨orig,bpHistory,direction⟩,_,h⟩:=Checked.bind_ok h
  dsimp only at h
  obtain ⟨⟨taken',target',r,v⟩,ht,h⟩:=Checked.bind_ok h
  cases h
  have hcalled:=predictTarget_called ht (by simpa using hs) rfl rfl rfl
  rw [genIndirectInfo_RAS,genIndirectInfo_moves,genIndirectInfo_predHist] at hcalled
  obtain ⟨hhist,hseq,walk,hmoves,hc⟩:=hcalled
  refine ⟨{r with target := bp.isa.instAddr target'},walk,?_,hseq,?_,?_⟩
  · dsimp only
    rw [callIndirect_predHist,hhist]
  · dsimp only
    rw [callIndirect_moves,hmoves]
  · dsimp only
    rw [callIndirect_RAS]
    exact ⟨hc.lt,hc.sum,hc.agree,hc.index,hc.noCall⟩

structure Undoes (moves : List ℤ) (s : ReturnAddrStack PC) (n : ℤ) (r : PredictorHistory PC κ η)
    (m : Predictor PC σ κ ι η) : Prop where
  agree : ∃ walk, moves=walk++m.moves ∧ walk.sum=n+r.gain ∧ Agree (peak walk) (r.undo s) m.RAS
  index : r.usedRAS=true → r.RASIndex=s.incrTos.tos
  noCall : r.wasReturn=true ∨ r.usedRAS=true → r.wasCall=false

def Chain (moves : List ℤ) :
    ReturnAddrStack PC → ℤ → List (PredictorHistory PC κ η) → List (Predictor PC σ κ ι η) → Prop
  | _,_,[],[] => True
  | s,n,r::older,m::marks =>
    Undoes moves s n r m ∧ (∀ m'∈marks, m'.moves <:+ m.moves) ∧ Chain moves (r.undo s) (n+r.gain) older marks
  | _,_,_,_ => False

section
omit [Zero PC]
variable {moves : List ℤ} {s s' : ReturnAddrStack PC} {n d : ℤ} {hist older : List (PredictorHistory PC κ η)}
  {m : Predictor PC σ κ ι η} {marks : List (Predictor PC σ κ ι η)} {r' : PredictorHistory PC κ η}

theorem Chain.shift (h : Chain moves s n hist marks) (new : List ℤ) (hs : Agree (d+n) s' s)
    (hpeak : ∀ m∈marks, ∀ walk, moves=walk++m.moves → d+walk.sum≤peak (new++walk)) :
    Chain (new++moves) s' (n+new.sum) hist marks := by
  induction hist generalizing s s' n marks with
  | nil =>
    cases marks with
    | nil => trivial
    | cons m marks => exact h
  | cons r older ih =>
    cases marks with
    | nil => exact h
    | cons m marks =>
      obtain ⟨⟨⟨walk,hw,hsum,ha⟩,hi,hn⟩,hsuf,hrest⟩:=h
      have hu:=undo_agree hs hi
      have hle:=hpeak m (mem_cons_self ..) walk hw
      refine ⟨⟨⟨new++walk,?_,?_,?_⟩,fun hused => ?_,hn⟩,hsuf,?_⟩
      · rw [hw,append_assoc]
      · rw [sum_append]
        omega
      · refine (hu.mono (by omega)).trans (ha.mono ?_)
        rw [peak_append]
        exact le_max_left ..
      · rw [hi hused,incrTos,incrTos,hs.tos,hs.numEntries]
      · have hstep:=ih hrest (by rw [← add_assoc]; exact hu) fun m' hm' => hpeak m' (mem_cons_of_mem _ hm')
        rw [add_right_comm]
        exact hstep

theorem Chain.append (h : Chain moves s n hist marks) (hs : s.tos<s.numEntries) (new : List ℤ) :
    Chain (new++moves) s (n+new.sum) hist marks := by
  refine h.shift (d := 0) new (Agree.refl hs _) fun m _ walk _ => ?_
  have hnew:=peak_nonneg new
  rw [peak_append]
  omega

theorem Chain.take (h : Chain moves s n hist marks) (k : ℕ) : Chain moves s n (hist.take k) (marks.take k) := by
  induction k generalizing s n hist marks with
  | zero => trivial
  | succ k ih =>
    cases hist with
    | nil =>
      cases marks with
      | nil => trivial
      | cons m marks => exact h
    | cons r older =>
      cases marks with
      | nil => exact h
      | cons m marks => exact ⟨h.1,fun m' hm' => h.2.1 m' (mem_of_mem_take hm'),ih h.2.2⟩

theorem Chain.suffix (h : Chain moves s n hist marks) (hm : m∈marks) : m.moves <:+ moves := by
  induction hist generalizing s n marks with
  | nil =>
    cases marks with
    | nil => exact (not_mem_nil hm).elim
    | cons m' marks => exact h.elim
  | cons r older ih =>
    cases marks with
    | nil => exact h.elim
    | cons m' marks =>
      obtain ⟨⟨⟨walk,hw,_⟩,_⟩,_,hrest⟩:=h
      rcases mem_cons.mp hm with rfl | hm
      · exact ⟨walk,hw.symm⟩
      · exact ih hrest hm

theorem Chain.undo {i : ℕ} (h : Chain moves s n hist marks) (hi : i<hist.length) :
    ∃ m walk, marks[i]?=some m ∧ moves=walk++m.moves ∧
      Agree (peak walk) ((hist.take (i+1)).foldl (fun s r => r.undo s) s) m.RAS := by
  induction i generalizing s n hist marks with
  | zero =>
    cases hist with
    | nil => exact (Nat.not_lt_zero _ hi).elim
    | cons r older =>
      cases marks with
      | nil => exact h.elim
      | cons m marks =>
        obtain ⟨walk,hw,_,ha⟩:=h.1.agree
        exact ⟨m,walk,rfl,hw,ha⟩
  | succ i ih =>
    cases hist with
    | nil => exact (Nat.not_lt_zero _ hi).elim
    | cons r older =>
      cases marks with
      | nil => exact h.elim
      | cons m marks => exact ih h.2.2 (Nat.lt_of_succ_lt_succ hi)

theorem Chain.correct (h : Chain moves s 0 (r::older) (m::marks)) (hu : r'.usedRAS=false)
    (hp : (r'.wasCall&&r'.pushedRAS)=false) (hc : r'.wasReturn=true → r'.wasCall=false) :
    Chain (r.undone++moves) (r.undo s) 0 (r'::older) (m::marks) := by
  obtain ⟨⟨⟨walk,hw,hsum,ha⟩,_,_⟩,hsuf,hrest⟩:=h
  have hgain : r'.gain=0 := by
    rw [PredictorHistory.gain,hu,hp]
    rfl
  have hundo : ∀ s, r'.undo s=s := fun s => by
    rw [PredictorHistory.undo,hu,hp]
    rfl
  refine ⟨⟨⟨r.undone++walk,?_,?_,?_⟩,fun hused => (Bool.false_ne_true (hu.symm.trans hused)).elim,fun hret => ?_⟩,
    hsuf,?_⟩
  · rw [hw,append_assoc]
  · rw [sum_append,undone_sum,hsum,hgain]
    omega
  · rw [hundo]
    refine ha.mono ?_
    rw [peak_append]
    exact le_max_left ..
  · rcases hret with hret | hused
    · exact hc hret
    · exact (Bool.false_ne_true (hu.symm.trans hused)).elim
  · have hstep:=hrest.append ha.lt r.undone
    rw [hundo,hgain]
    rw [undone_sum,add_neg_cancel_right] at hstep
    rwa [add_zero]

theorem Chain.correctReturn (h : Chain moves s 0 (r::older) (m::marks)) (hr : r.wasReturn=true)
    (hu : r.usedRAS=false) (hi : r.RASIndex=m.RAS.topIdx) (ht : r.RASTarget=m.RAS.top) (hu' : r'.usedRAS=true)
    (hi' : r'.RASIndex=r.RASIndex) (ht' : r'.RASTarget=r.RASTarget) (hc' : r'.wasCall=r.wasCall) :
    Chain (-1::moves) s.pop 0 (r'::older) (m::marks) := by
  obtain ⟨⟨⟨walk,hw,hsum,ha⟩,_,hn⟩,hsuf,hrest⟩:=h
  have hcall:=hn (.inl hr)
  have hgain : r.gain=0 := by
    rw [PredictorHistory.gain,hu,hcall]
    rfl
  have hundo : r.undo s=s := by
    rw [PredictorHistory.undo,hu,hcall]
    rfl
  have hgain' : r'.gain = -1 := if_pos hu'
  have hundo' : r'.undo s.pop=s.pop.restore m.RAS.topIdx m.RAS.top := by
    rw [PredictorHistory.undo,if_pos hu',hi',ht',hi,ht]
  rw [hundo] at ha hrest
  rw [hgain] at hsum hrest
  have hpop:=ha.restore_pop
  refine ⟨⟨⟨-1::walk,by rw [hw]; rfl,?_,?_⟩,fun _ => ?_,fun _ => hc'.trans hcall⟩,hsuf,?_⟩
  · rw [sum_cons,hsum,hgain']
    rfl
  · rw [hundo']
    exact hpop.mono (le_max_left ..)
  · rw [hi',hi,topIdx,← ha.tos,← incrTos_decrTos ha.lt,incrTos,incrTos,pop_tos,pop_numEntries]
    rfl
  · rw [hundo',hgain']
    have hshift : Chain ([-1]++moves) (s.pop.restore m.RAS.topIdx m.RAS.top) (0+0+[-1].sum) older marks := by
      rcases lt_or_ge (peak walk) s.numEntries with hlt | hge
      · -- the top has not been pushed over
        have htop : s.top=m.RAS.top := by
          have hbelow:=ha.below 0 (by have := ha.lt; omega) (by omega)
          rwa [below_zero ha.lt,below_zero (by rw [← ha.tos,← ha.numEntries]; exact ha.lt)] at hbelow
        have hsame : Agree (0+(0+0)) (s.pop.restore m.RAS.topIdx m.RAS.top) s := by
          rw [← htop,topIdx,← ha.tos]
          exact agree_restore_pop ha.lt _
        refine hrest.shift [-1] hsame fun m' _ walk' _ => ?_
        have hnew:=peak_nonneg [-1]
        rw [peak_append]
        omega
      · have hfar : Agree (s.numEntries+(0+0)) (s.pop.restore m.RAS.topIdx m.RAS.top) s :=
          ⟨hpop.lt,hpop.tos.trans ha.tos.symm,hpop.numEntries.trans ha.numEntries.symm,fun j hj hd => by
            rw [restore_numEntries,pop_numEntries] at hd
            omega⟩
        refine hrest.shift [-1] hfar fun m' hm' walk' hw' => ?_
        obtain ⟨t,ht⟩:=hsuf m' hm'
        have hwalk : walk'=walk++t := by
          rw [hw,← ht,← append_assoc] at hw'
          exact (append_cancel_right hw').symm
        have hnew:=peak_nonneg [-1]
        rw [hwalk,sum_append,peak_append,peak_append]
        omega
    exact hshift

end

section
omit [Zero PC]
variable {n : ℤ} {hist : List (PredictorHistory PC κ η)} {marks : List (Predictor PC σ κ ι η)} {sn : ℕ}

theorem squashRecord_RAS (u : Predictor PC σ κ ι η) (r : PredictorHistory PC κ η) :
    (bp.squashRecord u r).RAS=r.undo u.RAS := by
  rw [squashRecord,PredictorHistory.undo,callIndirectWith_RAS]
  dsimp only
  split
  · rfl
  · split <;> rfl

theorem squashRecord_moves (u : Predictor PC σ κ ι η) (r : PredictorHistory PC κ η) :
    (bp.squashRecord u r).moves=r.undone++u.moves := by
  rw [squashRecord,PredictorHistory.undone,callIndirectWith_moves]
  dsimp only
  split
  · rfl
  · split <;> rfl

theorem removed_cons (r : PredictorHistory PC κ η) (older : List (PredictorHistory PC κ η)) :
    removed sn (r::older)=if sn<r.seqNum then removed sn older+1 else 0 := by
  rw [removed,takeWhile_cons]
  by_cases h : sn<r.seqNum
  · rw [if_pos h,if_pos (decide_eq_true h)]
    rfl
  · rw [if_neg h,decide_eq_false h]
    rfl

theorem squashRecords_predHist (hist : List (PredictorHistory PC κ η)) (u : Predictor PC σ κ ι η) :
    (bp.squashRecords sn hist u).predHist=hist.drop (removed sn hist) := by
  induction hist generalizing u with
  | nil => rfl
  | cons r older ih =>
    rw [squashRecords,removed_cons]
    split
    · exact ih _
    · rfl

theorem squashRecords_RAS (hist : List (PredictorHistory PC κ η)) (u : Predictor PC σ κ ι η) :
    (bp.squashRecords sn hist u).RAS=(hist.take (removed sn hist)).foldl (fun s r => r.undo s) u.RAS := by
  induction hist generalizing u with
  | nil => rfl
  | cons r older ih =>
    rw [squashRecords,removed_cons]
    split
    · rw [ih,squashRecord_RAS]
      rfl
    · rfl

structure Chained (u : Predictor PC σ κ ι η) (hist : List (PredictorHistory PC κ η))
    (marks : List (Predictor PC σ κ ι η)) : Prop where
  lt : u.RAS.tos<u.RAS.numEntries
  chain : Chain u.moves u.RAS 0 hist marks

theorem Chained.squashRecords (h : Chained u hist marks) : Chained (bp.squashRecords sn hist u)
    (bp.squashRecords sn hist u).predHist (marks.drop (removed sn hist)) := by
  induction hist generalizing u marks with
  | nil => exact ⟨h.lt,h.chain⟩
  | cons r older ih =>
    rw [BPredUnit.squashRecords,removed_cons]
    split
    · cases marks with
      | nil => exact h.chain.elim
      | cons m marks =>
        obtain ⟨⟨⟨walk,_,_,ha⟩,_,_⟩,_,hrest⟩:=h.chain
        have hnext : Chained (bp.squashRecord u r) older marks := by
          refine ⟨by rw [squashRecord_RAS]; exact ha.lt,?_⟩
          have hchain:=hrest.append ha.lt r.undone
          rw [undone_sum,add_neg_cancel_right] at hchain
          rw [squashRecord_RAS,squashRecord_moves]
          exact hchain
        exact ih hnext
    · exact ⟨h.lt,h.chain⟩

theorem Chained.squash (h : Chained u u.predHist marks) (bp : BPredUnit PC σ κ ι η) (sn : ℕ) :
    Chained (bp.squash u sn) (bp.squash u sn).predHist (marks.drop (removed sn u.predHist)) := by
  have h' : Chained (bp.callIndirect u fun iPred indirect => iPred.squash indirect sn) u.predHist marks := by
    refine ⟨?_,?_⟩
    · rw [callIndirect_RAS]
      exact h.lt
    · rw [callIndirect_RAS,callIndirect_moves]
      exact h.chain
  exact h'.squashRecords

theorem squash_predHist (u : Predictor PC σ κ ι η) (sn : ℕ) :
    (bp.squash u sn).predHist=u.predHist.drop (removed sn u.predHist) := squashRecords_predHist ..

theorem commitRecords_ok {rev : List (PredictorHistory PC κ η)} (h : bp.commitRecords sn rev u = .ok u') :
    u'.predHist <+: rev.reverse ∧ u'.RAS=u.RAS ∧ u'.moves=u.moves := by
  induction rev generalizing u with
  | nil =>
    cases h
    exact ⟨prefix_rfl,rfl,rfl⟩
  | cons r newer ih =>
    rw [commitRecords] at h
    split at h
    · obtain ⟨direction,_,h⟩:=Checked.bind_ok h
      obtain ⟨hhist,hras,hmoves⟩:=ih h
      rw [callIndirectWith_RAS] at hras
      rw [callIndirectWith_moves] at hmoves
      rw [reverse_cons]
      exact ⟨hhist.trans (prefix_append _ _),hras,hmoves⟩
    · cases h
      exact ⟨prefix_rfl,rfl,rfl⟩

theorem Chained.update (h : Chained u u.predHist marks) (hu : bp.update u sn = .ok u') :
    Chained u' u'.predHist (marks.take u'.predHist.length) := by
  obtain ⟨hhist,hras,hmoves⟩:=commitRecords_ok hu
  rw [reverse_reverse] at hhist
  refine ⟨by rw [hras]; exact h.lt,?_⟩
  have htake:=h.chain.take u'.predHist.length
  rw [← prefix_iff_eq_take.mp hhist] at htake
  rw [hras,hmoves]
  exact htake

end

section
omit [Zero PC]

theorem squashBranch_cases {corrTarget : PC} {actuallyTaken : Bool} {sn : ℕ}
    (h : bp.squashBranch u sn corrTarget actuallyTaken = .ok u') : (bp.squash u sn).predHist=[] ∧ u'=bp.squash u sn ∨
    ∃ record r older v, (bp.squash u sn).predHist=record::older ∧ record.seqNum=sn ∧
      r={record with predTaken := actuallyTaken, target := bp.isa.instAddr corrTarget} ∧
      v.RAS=(bp.squash u sn).RAS ∧ v.moves=(bp.squash u sn).moves ∧
      bp.direction.update (bp.squash u sn).direction record.pc actuallyTaken record.bpHistory true record.inst r.target =
        .ok v.direction ∧
      ∃ r' v', (r',v')=(if actuallyTaken then bp.correctTaken v r corrTarget else correctNotTaken v r) ∧
        u'={v' with predHist := r'::older} := by
  rw [squashBranch] at h
  dsimp only at h
  cases hh : (bp.squash u sn).predHist with
  | nil =>
    rw [hh] at h
    cases h
    exact .inl ⟨rfl,rfl⟩
  | cons record older =>
    rw [hh] at h
    dsimp only at h
    split at h
    · cases h
    · rename_i hsn
      obtain ⟨direction,hdir,h⟩:=Checked.bind_ok h
      refine .inr ⟨record,_,older,bp.callIndirectWith
        {bp.squash u sn with predHist := record::older, direction := direction} record.indirectHistory
        fun iPred indirect h => iPred.changeDirectionPrediction indirect h actuallyTaken,rfl,not_not.mp hsn,rfl,?_,?_,?_,
        _,_,rfl,(Except.ok.inj h).symm⟩
      · rw [callIndirectWith_RAS]
      · rw [callIndirectWith_moves]
      · rw [callIndirectWith_direction]
        exact hdir

theorem correctTaken_cases (bp : BPredUnit PC σ κ ι η) (v : Predictor PC σ κ ι η) (r : PredictorHistory PC κ η)
    (corrTarget : PC) : ∃ r' v', bp.correctTaken v r corrTarget=(r',v') ∧ v'.direction=v.direction ∧
      (r.wasReturn=true ∧ r.usedRAS=false ∧ r'={r with usedRAS := true} ∧ v'.RAS=v.RAS.pop ∧
        v'.moves = -1::v.moves ∨ r'=r ∧ v'.RAS=v.RAS ∧ v'.moves=v.moves) := by
  unfold correctTaken
  by_cases hr : (r.wasReturn && !r.usedRAS)=true
  · rw [if_pos hr]
    obtain ⟨hret,hused⟩:=and_eq_true_iff.mp hr
    rw [not_eq_true'] at hused
    dsimp only
    split
    · exact ⟨_,_,rfl,callIndirectWith_direction ..,
        .inl ⟨hret,hused,rfl,callIndirectWith_RAS ..,callIndirectWith_moves ..⟩⟩
    · exact ⟨_,_,rfl,rfl,.inl ⟨hret,hused,rfl,rfl,rfl⟩⟩
  · rw [if_neg hr]
    dsimp only
    split
    · exact ⟨_,_,rfl,callIndirectWith_direction ..,.inr ⟨rfl,callIndirectWith_RAS ..,callIndirectWith_moves ..⟩⟩
    · exact ⟨_,_,rfl,rfl,.inr ⟨rfl,rfl,rfl⟩⟩

theorem correctNotTaken_cases (v : Predictor PC σ κ ι η) (r : PredictorHistory PC κ η) :
    ∃ r' v', correctNotTaken v r=(r',v') ∧ v'.direction=v.direction ∧ v'.RAS=r.undo v.RAS ∧
      v'.moves=r.undone++v.moves ∧ r'.seqNum=r.seqNum ∧ r'.bpHistory=r.bpHistory ∧
      r'.usedRAS=false ∧ r'.wasReturn=r.wasReturn ∧ r'.wasCall=r.wasCall ∧
      (r.usedRAS=true ∨ (r'.wasCall&&r'.pushedRAS)=false) := by
  unfold correctNotTaken PredictorHistory.undo PredictorHistory.undone
  by_cases hu : r.usedRAS=true
  · rw [if_pos hu,if_pos hu,if_pos hu]
    exact ⟨_,_,rfl,rfl,rfl,rfl,rfl,rfl,rfl,rfl,rfl,.inl hu⟩
  · rw [if_neg hu,if_neg hu,if_neg hu]
    by_cases hp : (r.wasCall&&r.pushedRAS)=true
    · rw [if_pos hp,if_pos hp,if_pos hp]
      exact ⟨_,_,rfl,rfl,rfl,rfl,rfl,rfl,eq_false_iff.mpr hu,rfl,rfl,.inr (Bool.and_false _)⟩
    · rw [if_neg hp,if_neg hp,if_neg hp]
      exact ⟨_,_,rfl,rfl,rfl,rfl,rfl,rfl,eq_false_iff.mpr hu,rfl,rfl,.inr (eq_false_iff.mpr hp)⟩

theorem Chained.squashBranch {marks : List (Predictor PC σ κ ι η)} {sn : ℕ} {corrTarget : PC} {actuallyTaken : Bool}
    (h : Chained u u.predHist marks) (hf : TopRecorded u marks sn actuallyTaken)
    (hu : bp.squashBranch u sn corrTarget actuallyTaken = .ok u') :
    Chained u' u'.predHist (marks.drop (removed sn u.predHist)) := by
  have hsquash:=h.squash bp sn
  rcases squashBranch_cases hu with ⟨_,rfl⟩ | ⟨record,r,older,v,hhist,_,rfl,hras,hmoves,_,r',v',hcorr,rfl⟩
  · exact hsquash
  obtain ⟨hlt,hchain⟩:=hsquash
  rw [hhist,← hras,← hmoves] at hchain
  rw [← hras] at hlt
  have hrec : u.predHist[removed sn u.predHist]?=some record := by
    rw [squash_predHist] at hhist
    rw [← Nat.add_zero (removed sn u.predHist),← getElem?_drop,hhist]
    rfl
  cases hm : marks.drop (removed sn u.predHist) with
  | nil =>
    rw [hm] at hchain
    exact hchain.elim
  | cons m ms =>
    rw [hm] at hchain
    have hmark : marks[removed sn u.predHist]?=some m := by
      rw [← Nat.add_zero (removed sn u.predHist),← getElem?_drop,hm]
      rfl
    obtain ⟨⟨hagree,hindex,hcall⟩,hsuf,hrest⟩:=hchain
    cases actuallyTaken with
    | true =>
      rw [if_pos rfl] at hcorr
      obtain ⟨r1,v1,he,_,hcase⟩:=correctTaken_cases bp v
        {record with predTaken := true, target := bp.isa.instAddr corrTarget} corrTarget
      rw [he] at hcorr
      obtain ⟨rfl,rfl⟩:=Prod.mk.inj hcorr
      rcases hcase with ⟨hret,hused,rfl,hpop,hmove⟩ | ⟨rfl,hsame,hmove⟩
      · obtain ⟨hi,ht⟩:=hf record m hrec hmark rfl hret hused
        refine ⟨?_,?_⟩
        · show v'.RAS.tos<v'.RAS.numEntries
          rw [hpop,pop_tos,pop_numEntries]
          exact decrTos_lt hlt
        · show Chain v'.moves v'.RAS 0 _ _
          rw [hpop,hmove]
          have hold : Chain v.moves v.RAS 0 (record::older) (m::ms) := ⟨⟨hagree,hindex,hcall⟩,hsuf,hrest⟩
          exact hold.correctReturn hret hused hi ht rfl rfl rfl rfl
      · refine ⟨?_,?_⟩
        · show v'.RAS.tos<v'.RAS.numEntries
          rw [hsame]
          exact hlt
        · show Chain v'.moves v'.RAS 0 _ _
          rw [hsame,hmove]
          exact ⟨⟨hagree,hindex,hcall⟩,hsuf,hrest⟩
    | false =>
      rw [if_neg Bool.false_ne_true] at hcorr
      obtain ⟨r1,v1,he,_,hundo,hmove,_,_,hused,hret,hwas,hpush⟩:=correctNotTaken_cases v
        {record with predTaken := false, target := bp.isa.instAddr corrTarget}
      rw [he] at hcorr
      obtain ⟨rfl,rfl⟩:=Prod.mk.inj hcorr
      refine ⟨?_,?_⟩
      · show v'.RAS.tos<v'.RAS.numEntries
        rw [hundo]
        obtain ⟨walk,_,_,ha⟩:=hagree
        exact ha.lt
      · show Chain v'.moves v'.RAS 0 _ _
        rw [hundo,hmove]
        have hold : Chain v.moves v.RAS 0 (record::older) (m::ms) := ⟨⟨hagree,hindex,hcall⟩,hsuf,hrest⟩
        have hno : (r'.wasCall&&r'.pushedRAS)=false := by
          rcases hpush with hyes | hno
          · rw [hwas,hcall (.inr hyes)]
            rfl
          · exact hno
        exact hold.correct hused hno fun hr => hwas.trans (hcall (.inl (hret.symm.trans hr)))

end

theorem Run.chained {marks : List (Predictor PC σ κ ι η)} (hr : Run bp TopRecorded u marks) :
    Chained u u.predHist marks := by
  induction hr with
  | init BTB direction indirect hpos => exact ⟨hpos,trivial⟩
  | @predict u u' marks inst seqNum pc taken target hr hp ih =>
    obtain ⟨r,walk,hhist,_,hmoves,hc⟩:=predict_called hp ih.lt
    refine ⟨hc.lt,?_⟩
    rw [hhist,hmoves]
    refine ⟨⟨⟨walk,rfl,hc.sum.trans (zero_add _).symm,hc.agree⟩,hc.index,hc.noCall⟩,fun m hm => ?_,?_⟩
    · exact ih.chain.suffix hm
    · rw [← hc.sum]
      refine ih.chain.shift (d := peak walk) walk (by rw [add_zero]; exact hc.agree) fun m _ walk' _ => ?_
      rw [peak_append,add_comm]
      exact le_max_right ..
  | update hr hu ih => exact ih.update hu
  | squash squashedSn hr ih => exact ih.squash bp squashedSn
  | squashBranch hr hf hu ih => exact ih.squashBranch hf hu
  | share BTB direction indirect hr ih => exact ⟨ih.lt,ih.chain⟩

/-- While no return is resolved as taken whose record has nothing of the stack, each squash recovers the stack from
before the oldest branch that it removes. It is also the first step of the squash for a resolved branch. -/
theorem stack_recovered {marks : List (Predictor PC σ κ ι η)} (hr : Run bp TopRecorded u marks) (squashedSn i : ℕ)
    (hi : removed squashedSn u.predHist=i+1) :
    ∃ before, marks[i]?=some before ∧ Recovered before u (bp.squash u squashedSn) := by
  obtain ⟨_,hchain⟩:=hr.chained
  have hlen : i<u.predHist.length := by
    have hle:=(List.takeWhile_sublist (fun r : PredictorHistory PC κ η => decide (squashedSn<r.seqNum))
      (l := u.predHist)).length_le
    rw [removed] at hi
    omega
  obtain ⟨before,walk,hm,hw,ha⟩:=hchain.undo hlen
  have hras : (bp.squash u squashedSn).RAS=(u.predHist.take (i+1)).foldl (fun s r => r.undo s) u.RAS := by
    rw [squash,squashRecords_RAS,callIndirect_RAS,hi]
  rw [← hras] at ha
  have hsince : before.since u=walk := by
    rw [Predictor.since,hw,List.length_append,Nat.add_sub_cancel]
    exact List.take_left
  refine ⟨before,hm,ha.tos,fun j hj hd => ha.below j (by rw [ha.numEntries]; exact hj) ?_⟩
  rw [ha.numEntries,← hsince]
  exact hd

def static : BPredUnit ℕ Unit Unit Unit Unit where
  isa := ⟨BitVec.ofNat 64,fun _ rasTop => rasTop,fun pc _ => pc+4⟩
  direction := ⟨fun s _ => .ok ((),s),fun s _ => .ok (false,(),s),fun s _ _ => .ok ((),s),fun s _ _ _ _ _ _ => .ok s,
    fun s _ => s⟩
  iPred := none
  tid := 0

def staticInit : Predictor ℕ Unit Unit Unit Unit := init 4 ⟨fun _ => ⟨0,0,0,false⟩,16,16,2,0⟩ () ()

def directCall : StaticInst := ⟨true,true,false,true⟩

def conditionalReturn : StaticInst := ⟨false,false,true,false⟩

/-- A return is resolved as taken on the empty stack, and two nested calls after it are squashed. -/
theorem stack_recovered_nested : ∃ (u : Predictor ℕ Unit Unit Unit Unit) (marks : List (Predictor ℕ Unit Unit Unit Unit))
    (before : _), u.RAS.tos=1 ∧ marks[1]?=some before ∧ Recovered before u (static.squash u 1) := by
  have hr0 : Run static TopRecorded staticInit [] := .init _ _ _ (by decide)
  have hr1:=hr0.predict (rfl : static.predict staticInit conditionalReturn 1 40 = .ok (_,_,_))
  have hr2:=hr1.squashBranch (fun r m hr hm _ _ _ => by
    obtain rfl : _=r := Option.some.inj hr
    obtain rfl : _=m := Option.some.inj hm
    exact ⟨rfl,rfl⟩) (rfl : static.squashBranch _ 1 44 true = .ok _)
  have hr3:=hr2.predict (rfl : static.predict _ directCall 2 44 = .ok (_,_,_))
  have hr4:=hr3.predict (rfl : static.predict _ directCall 3 80 = .ok (_,_,_))
  obtain ⟨before,hm,hrec⟩:=stack_recovered hr4 1 1 (by decide)
  exact ⟨_,_,before,by decide,hm,hrec⟩

/-- A return that was predicted not taken is resolved as taken, and its record restores the entry 0. -/
theorem stack_not_recovered : ¬∀ (u : Predictor ℕ Unit Unit Unit Unit) marks, Run static (fun _ _ _ _ => True) u marks →
    ∀ squashedSn i, removed squashedSn u.predHist=i+1 →
      ∃ before, marks[i]?=some before ∧ Recovered before u (static.squash u squashedSn) := by
  intro hall
  have hr0 : Run static (fun _ _ _ _ => True) staticInit [] := .init _ _ _ (by decide)
  have hr1:=hr0.predict (rfl : static.predict staticInit directCall 1 40 = .ok (_,_,_))
  have hr2:=hr1.predict (rfl : static.predict _ conditionalReturn 2 80 = .ok (_,_,_))
  have hr3:=hr2.squashBranch trivial (rfl : static.squashBranch _ 2 44 true = .ok _)
  obtain ⟨before,hm,hrec⟩:=hall _ _ hr3 1 0 (by decide)
  cases hm
  exact absurd hrec.tos (by decide)

end BPredUnit

end AquaGem5.Branch
