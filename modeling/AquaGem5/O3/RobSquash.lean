import AquaGem5.Lib.Checked
import Mathlib.Algebra.Order.Group.Nat

/-!
# The squash of the reorder buffer (o3/rob_impl.hh)

An iterator into the list of a thread is a position, `none` at the end.
-/

namespace AquaGem5.O3
open Checked Function List

namespace Rob

structure Inst where
  seqNum : ℕ
  isSquashed : Bool
  readyToCommit : Bool

inductive Fault where
  | assertion
  | endDereferenced
  deriving DecidableEq

def Inst.setSquashed (inst : Inst) : Inst := {inst with isSquashed := true}

def Inst.setCanCommit (inst : Inst) : Inst := {inst with readyToCommit := true}

end Rob

structure Rob where
  activeThreads : List ℕ
  instList : ℕ → List Rob.Inst
  squashIt : ℕ → Option ℕ
  squashedSeqNum : ℕ → ℕ
  doneSquashing : ℕ → Bool
  /-- A thread and a position in its list. -/
  tail : Option (ℕ × ℕ)

namespace Rob

def deref (insts : List Inst) (it : Option ℕ) : Except Fault Inst :=
  match it.bind (insts[·]?) with
  | some inst => .ok inst
  | none => .error .endDereferenced

/-- The loop of `updateTail` over the threads. -/
def youngest (rob : Rob) : List ℕ → Bool → Option (ℕ × ℕ) → Except Fault (Option (ℕ × ℕ))
  | [],_,tail => .ok tail
  | tid::threads,first_valid,tail =>
    match (rob.instList tid).getLast? with
    | none => youngest rob threads first_valid tail
    | some inst =>
      let tail_thread := (tid,(rob.instList tid).length-1)
      if first_valid then youngest rob threads false (some tail_thread)
      else do
        let tail_inst ← deref (rob.instList (tail.elim 0 Prod.fst)) (tail.map Prod.snd)
        youngest rob threads false (if inst.seqNum>tail_inst.seqNum then some tail_thread else tail)

def updateTail (rob : Rob) : Except Fault Rob := do
  let tail ← youngest rob rob.activeThreads true none
  return {rob with tail := tail}

structure Walk where
  insts : List Inst
  squashIt : Option ℕ
  robTailUpdate : Bool
  reachedHead : Bool

def squashLoop (squashedSeqNum : ℕ) : ℕ → Walk → Except Fault Walk
  | 0,w => .ok w
  | fuel+1,w =>
    match w.squashIt with
    | none => .ok w
    | some it => do
      let inst ← deref w.insts (some it)
      if inst.seqNum>squashedSeqNum then
        let insts := w.insts.set it inst.setSquashed.setCanCommit
        if it=0 then return {w with insts := insts, squashIt := none, reachedHead := true}
        else
          squashLoop squashedSeqNum fuel
            {w with
              insts := insts
              squashIt := some (it-1)
              robTailUpdate := w.robTailUpdate || it=insts.length-1}
      else return w

def done (rob : Rob) (tid : ℕ) : Rob :=
  {rob with
    squashIt := Function.update rob.squashIt tid none
    doneSquashing := Function.update rob.doneSquashing tid true}

def doSquash (squashWidth : ℕ) (rob : Rob) (tid : ℕ) : Except Fault Rob := do
  check (rob.squashIt tid≠none) .assertion
  let inst ← deref (rob.instList tid) (rob.squashIt tid)
  if inst.seqNum<rob.squashedSeqNum tid then return rob.done tid
  else
    let w ← squashLoop (rob.squashedSeqNum tid) squashWidth ⟨rob.instList tid,rob.squashIt tid,false,false⟩
    let rob := {rob with
      instList := Function.update rob.instList tid w.insts
      squashIt := Function.update rob.squashIt tid w.squashIt}
    if w.reachedHead then return rob.done tid
    else
      let inst ← deref w.insts w.squashIt
      let rob := if inst.seqNum≤rob.squashedSeqNum tid then rob.done tid else rob
      if w.robTailUpdate then rob.updateTail else return rob

/-- `threadEntries[tid]`, which `isEmpty` reads, is the length of the list. -/
def squash (squashWidth : ℕ) (rob : Rob) (squash_num tid : ℕ) : Except Fault Rob :=
  if (rob.instList tid).isEmpty then return rob
  else
    doSquash squashWidth {rob with
      doneSquashing := Function.update rob.doneSquashing tid false
      squashedSeqNum := Function.update rob.squashedSeqNum tid squash_num
      squashIt := Function.update rob.squashIt tid (some ((rob.instList tid).length-1))} tid

def mark (n : ℕ) (inst : Inst) : Inst := if inst.seqNum>n then inst.setSquashed.setCanCommit else inst

/-- The squashes of a thread that holds `insts`: the number of the last one, the calls of `doSquash` since then, and the
buffer, of which the rest may change in between. -/
inductive Run (squashWidth tid : ℕ) (insts : List Inst) : ℕ → ℕ → Rob → Prop
  | squash (rob rob' : Rob) (n : ℕ) : rob.instList tid=insts → rob.doneSquashing tid=true →
      rob.squash squashWidth n tid = .ok rob' → Run squashWidth tid insts n 0 rob'
  | doSquash (rob rob' : Rob) (n k : ℕ) : Run squashWidth tid insts n k rob → rob.doneSquashing tid=false →
      rob.doSquash squashWidth tid = .ok rob' → Run squashWidth tid insts n (k+1) rob'
  | others (rob rob' : Rob) (n k : ℕ) : Run squashWidth tid insts n k rob → rob'.instList tid=rob.instList tid →
      rob'.squashIt tid=rob.squashIt tid → rob'.squashedSeqNum tid=rob.squashedSeqNum tid →
      rob'.doneSquashing tid=rob.doneSquashing tid → Run squashWidth tid insts n k rob'
  | again (rob rob' : Rob) (n m k : ℕ) : Run squashWidth tid insts n k rob → rob.doneSquashing tid=false → m≤n →
      rob.squash squashWidth m tid = .ok rob' → Run squashWidth tid insts m 0 rob'

variable {squashWidth tid n m k it fuel : ℕ} {insts l : List Inst} {inst : Inst} {w : Walk} {rob rob' : Rob}

theorem mark_of_lt (h : n < inst.seqNum) : mark n inst=inst.setSquashed.setCanCommit := if_pos h

theorem mark_of_le (h : inst.seqNum≤n) : mark n inst=inst := if_neg (Nat.not_lt.mpr h)

theorem mark_seqNum (n : ℕ) (inst : Inst) : (mark n inst).seqNum=inst.seqNum := by
  unfold mark
  split
  · rfl
  · rfl

theorem mark_mark (h : m≤n) (inst : Inst) : mark m (mark n inst)=mark m inst := by
  rcases Nat.lt_or_ge n inst.seqNum with hn | hn
  · have hm : m < inst.setSquashed.setCanCommit.seqNum := h.trans_lt hn
    rw [mark_of_lt hn,mark_of_lt hm,mark_of_lt (h.trans_lt hn)]
    rfl
  · rw [mark_of_le hn]

theorem deref_ok (h : l[it]?=some inst) : deref l (some it) = .ok inst := by
  rw [deref,Option.bind_some,h]

/-- Above the iterator everything is marked; below, the marks of a squash of some larger number may stand. -/
structure Walking (n : ℕ) (insts l : List Inst) (it : ℕ) : Prop where
  lt : it<l.length
  map : l.map (mark n)=insts.map (mark n)
  marked : ∀ j inst,it<j → l[j]?=some inst → mark n inst=inst

theorem marked_eq (hmap : l.map (mark n)=insts.map (mark n)) (hall : ∀ inst∈l,mark n inst=inst) :
    l=insts.map (mark n) := by
  rw [← hmap,map_congr_left hall,map_id']

theorem Walking.head (h : Walking n insts l it) : ∃ inst,l[it]?=some inst := ⟨_,List.getElem?_eq_getElem h.lt⟩

theorem Walking.stop (h : Walking n insts l it) (hsorted : (insts.map Inst.seqNum).Pairwise (·<·))
    (hit : l[it]?=some inst) (hn : inst.seqNum≤n) : l=insts.map (mark n) := by
  have hseq : l.map Inst.seqNum=insts.map Inst.seqNum := by
    have hcomp:=congrArg (List.map Inst.seqNum) h.map
    simpa only [map_map,Function.comp_def,mark_seqNum] using hcomp
  have hpair:=pairwise_map.mp (hseq ▸ hsorted)
  refine marked_eq h.map fun inst' hin => ?_
  obtain ⟨j,hj⟩:=mem_iff_getElem?.mp hin
  rcases Nat.lt_trichotomy j it with hlt | rfl | hgt
  · obtain ⟨hjlt,rfl⟩:=List.getElem?_eq_some_iff.mp hj
    obtain ⟨hitlt,rfl⟩:=List.getElem?_eq_some_iff.mp hit
    exact mark_of_le ((pairwise_iff_getElem.mp hpair j it hjlt hitlt hlt).le.trans hn)
  · rw [hit] at hj
    cases hj
    exact mark_of_le hn
  · exact h.marked j inst' hgt hj

theorem Walking.round (h : Walking n insts l it) (hit : l[it]?=some inst) (hn : n < inst.seqNum) :
    (l.set it inst.setSquashed.setCanCommit).map (mark n)=insts.map (mark n) ∧
      ∀ j inst',it≤j → (l.set it inst.setSquashed.setCanCommit)[j]?=some inst' → mark n inst'=inst' := by
  have hmark : mark n inst.setSquashed.setCanCommit=inst.setSquashed.setCanCommit := by
    rw [← mark_of_lt hn,mark_mark le_rfl]
  obtain ⟨hlt,rfl⟩:=List.getElem?_eq_some_iff.mp hit
  constructor
  · rw [← h.map,map_set,hmark,← mark_of_lt hn,← getElem_map (mark n),set_getElem_self]
    exact (length_map (mark n)).symm ▸ hlt
  · intro j inst' hj hget
    rcases hj.eq_or_lt with rfl | hlt'
    · rw [getElem?_set_self hlt] at hget
      cases hget
      exact hmark
    · rw [getElem?_set_ne hlt'.ne] at hget
      exact h.marked j inst' hlt' hget

theorem squashLoop_spec (fuel : ℕ) (w : Walk) (it : ℕ) (hit : w.squashIt=some it) (hhead : w.reachedHead=false)
    (h : Walking n insts w.insts it) : Post (squashLoop n fuel w) (fun w' =>
      (w'.reachedHead=true ∧ w'.squashIt=none ∧ w'.insts=insts.map (mark n)) ∨
        (w'.reachedHead=false ∧ ∃ it',w'.squashIt=some it' ∧ it' ≤ it ∧ Walking n insts w'.insts it' ∧
          (0<fuel → it' < it ∨ ∀ inst,w'.insts[it']?=some inst → inst.seqNum≤n))) fun _ => False := by
  induction fuel generalizing w it with
  | zero => exact .inr ⟨hhead,it,hit,le_rfl,h,fun hpos => absurd hpos (Nat.lt_irrefl 0)⟩
  | succ fuel ih =>
    obtain ⟨inst,hinst⟩:=h.head
    rw [squashLoop,hit]
    simp only [deref_ok hinst,post_bind,post_ok]
    by_cases hn : n < inst.seqNum
    · obtain ⟨hmap,hmarked⟩:=h.round hinst hn
      rw [if_pos hn]
      by_cases hzero : it=0
      · rw [if_pos hzero]
        refine .inl ⟨rfl,rfl,marked_eq hmap fun inst' hin => ?_⟩
        obtain ⟨j,hj⟩:=mem_iff_getElem?.mp hin
        exact hmarked j inst' (hzero ▸ Nat.zero_le j) hj
      · rw [if_neg hzero]
        have hnext : Walking n insts (w.insts.set it inst.setSquashed.setCanCommit) (it-1) := by
          refine ⟨?_,hmap,fun j inst' hj => hmarked j inst' (by omega)⟩
          rw [length_set]
          exact (Nat.sub_le ..).trans_lt h.lt
        refine (ih (Walk.mk _ _ _ _) (it-1) rfl hhead hnext).imp ?_
        rintro w' (hend | ⟨hhead',it',hit',hle,hwalk,_⟩)
        · exact .inl hend
        · exact .inr ⟨hhead',it',hit',by omega,hwalk,fun _ => .inl (by omega)⟩
    · rw [if_neg hn]
      refine .inr ⟨hhead,it,hit,le_rfl,h,fun _ => .inr fun inst' hinst' => ?_⟩
      rw [hinst] at hinst'
      cases hinst'
      exact Nat.le_of_not_lt hn

theorem youngest_returns (rob : Rob) (threads : List ℕ) (first_valid : Bool) (tail : Option (ℕ × ℕ))
    (htail : first_valid=false → ∃ tid k,tail=some (tid,k) ∧ k<(rob.instList tid).length) :
    ∃ tail',youngest rob threads first_valid tail = .ok tail' := by
  induction threads generalizing first_valid tail with
  | nil => exact ⟨tail,rfl⟩
  | cons tid threads ih =>
    rw [youngest]
    cases hlast : (rob.instList tid).getLast? with
    | none => exact ih first_valid tail htail
    | some inst =>
      have hvalid : ∃ tid' k,some (tid,(rob.instList tid).length-1)=some (tid',k) ∧ k<(rob.instList tid').length := by
        refine ⟨tid,_,rfl,Nat.sub_lt (length_pos_iff.mpr fun hnil => ?_) Nat.one_pos⟩
        rw [hnil] at hlast
        cases hlast
      cases first_valid with
      | true => exact ih false _ fun _ => hvalid
      | false =>
        obtain ⟨tid',k,rfl,hk⟩:=htail rfl
        have hderef : deref (rob.instList tid') (some k) = .ok (rob.instList tid')[k] :=
          deref_ok (getElem?_eq_getElem hk)
        simp only [Bool.false_eq_true,if_false,Option.elim_some,Option.map_some,hderef]
        refine ih false _ fun _ => ?_
        split
        · exact hvalid
        · exact ⟨tid',k,rfl,hk⟩

theorem updateTail_eq (rob : Rob) : ∃ tail,rob.updateTail = .ok {rob with tail := tail} := by
  obtain ⟨tail,htail⟩:=youngest_returns rob rob.activeThreads true none fun h => absurd h.symm Bool.false_ne_true
  exact ⟨tail,by rw [updateTail,htail]; rfl⟩

structure Going (insts : List Inst) (rob : Rob) (tid n it : ℕ) : Prop where
  squashIt : rob.squashIt tid=some it
  squashedSeqNum : rob.squashedSeqNum tid=n
  doneSquashing : rob.doneSquashing tid=false
  walking : Walking n insts (rob.instList tid) it

def Ended (insts : List Inst) (rob : Rob) (tid n : ℕ) : Prop :=
  rob.doneSquashing tid=true ∧ rob.instList tid=insts.map (mark n)

theorem doSquash_spec (hwidth : 0<squashWidth) (hsorted : (insts.map Inst.seqNum).Pairwise (·<·))
    (h : Going insts rob tid n it) : Post (rob.doSquash squashWidth tid)
      (fun rob' => Ended insts rob' tid n ∨ ∃ it' < it,Going insts rob' tid n it') fun _ => False := by
  obtain ⟨inst,hinst⟩:=h.walking.head
  have hassert : rob.squashIt tid≠none := by rw [h.squashIt]; exact Option.some_ne_none it
  rw [doSquash,post_bind,post_check]
  refine ⟨fun _ => ?_,fun hend => absurd hassert hend⟩
  rw [post_bind,h.squashIt,deref_ok hinst,post_ok,h.squashedSeqNum]
  by_cases hlt : inst.seqNum<n
  · rw [if_pos hlt]
    exact .inl ⟨update_self ..,h.walking.stop hsorted hinst hlt.le⟩
  · rw [if_neg hlt,post_bind]
    refine (squashLoop_spec squashWidth _ it rfl rfl h.walking).imp ?_
    rintro w (⟨hhead,hit',hinsts⟩ | ⟨hhead,it',hit',hle,hwalk,hstop⟩)
    · simp only [hhead,if_true]
      exact .inl ⟨update_self ..,(update_self ..).trans hinsts⟩
    · obtain ⟨inst',hinst'⟩:=hwalk.head
      simp only [hhead,Bool.false_eq_true,if_false,hit',deref_ok hinst',post_bind,post_ok]
      -- The tail is not what a later call depends on.
      have hpost : ∀ rob1 : Rob,(Ended insts rob1 tid n ∨ ∃ it' < it,Going insts rob1 tid n it') →
          Post (if w.robTailUpdate then rob1.updateTail else pure rob1)
            (fun rob' => Ended insts rob' tid n ∨ ∃ it' < it,Going insts rob' tid n it') fun _ => False := by
        intro rob1 hrob1
        obtain ⟨tail,htail⟩:=updateTail_eq rob1
        split
        · rw [htail]
          refine hrob1.imp id ?_
          rintro ⟨it1,hit1,hgo⟩
          exact ⟨it1,hit1,hgo.squashIt,hgo.squashedSeqNum,hgo.doneSquashing,hgo.walking⟩
        · exact hrob1
      refine hpost _ ?_
      split
      next hn =>
        have hn' : inst'.seqNum≤n := h.squashedSeqNum ▸ hn
        exact .inl ⟨update_self ..,(update_self ..).trans (hwalk.stop hsorted hinst' hn')⟩
      next hn =>
        have hn' : ¬inst'.seqNum≤n := h.squashedSeqNum ▸ hn
        refine .inr ⟨it',(hstop hwidth).resolve_right fun hall => hn' (hall inst' hinst'),update_self ..,
          h.squashedSeqNum,h.doneSquashing,?_⟩
        simp only [update_self]
        exact hwalk

theorem squash_spec (hwidth : 0<squashWidth) (hsorted : (insts.map Inst.seqNum).Pairwise (·<·))
    (hne : rob.instList tid≠[]) (hmap : (rob.instList tid).map (mark n)=insts.map (mark n)) :
    Post (rob.squash squashWidth n tid)
      (fun rob' => Ended insts rob' tid n ∨ ∃ it',it'+1 < insts.length ∧ Going insts rob' tid n it') fun _ => False := by
  have hlen : (rob.instList tid).length=insts.length := by simpa using congrArg length hmap
  have hpos:=length_pos_iff.mpr hne
  rw [squash,if_neg (by simpa using hne)]
  have hwalk : Walking n insts (rob.instList tid) ((rob.instList tid).length-1) := by
    refine ⟨Nat.sub_lt hpos Nat.one_pos,hmap,fun j inst hj hget => ?_⟩
    have hjlt:=(List.getElem?_eq_some_iff.mp hget).1
    omega
  have hstart : ∀ rob1,Going insts rob1 tid n ((rob.instList tid).length-1) → Post (doSquash squashWidth rob1 tid)
      (fun rob' => Ended insts rob' tid n ∨ ∃ it',it'+1 < insts.length ∧ Going insts rob' tid n it') fun _ => False := by
    refine fun rob1 hgo => (doSquash_spec hwidth hsorted hgo).imp ?_
    rintro rob' (hend | ⟨it',hit',hgo'⟩)
    · exact .inl hend
    · exact .inr ⟨it',by omega,hgo'⟩
  exact hstart _ ⟨update_self ..,update_self ..,update_self ..,hwalk⟩

theorem squash_returns (hwidth : 0<squashWidth) (hsorted : ((rob.instList tid).map Inst.seqNum).Pairwise (·<·)) (n : ℕ) :
    ∃ rob',rob.squash squashWidth n tid = .ok rob' := by
  by_cases hne : rob.instList tid=[]
  · exact ⟨rob,if_pos (by rw [hne]; rfl)⟩
  · exact (squash_spec hwidth hsorted hne rfl).returns.imp fun _ h => h.1

theorem Going.squash (hwidth : 0<squashWidth) (hsorted : (insts.map Inst.seqNum).Pairwise (·<·))
    (h : Going insts rob tid n it) (hm : m≤n) : Post (rob.squash squashWidth m tid)
      (fun rob' => Ended insts rob' tid m ∨ ∃ it',it'+1 < insts.length ∧ Going insts rob' tid m it') fun _ => False := by
  refine squash_spec hwidth hsorted (ne_nil_of_length_pos (Nat.zero_lt_of_lt h.walking.lt)) ?_
  -- Marking again from `m` on covers what the squash of `n` has marked.
  have hagain:=congrArg (List.map (mark m)) h.walking.map
  simpa only [map_map,Function.comp_def,mark_mark hm] using hagain

theorem run_going (hwidth : 0<squashWidth) (hsorted : (insts.map Inst.seqNum).Pairwise (·<·))
    (h : Run squashWidth tid insts n k rob) :
    (Ended insts rob tid n ∧ k ≤ insts.length) ∨ ∃ it,k+it+1 < insts.length ∧ Going insts rob tid n it := by
  induction h with
  | squash rob rob' n hinsts hdone hcall =>
    by_cases hne : rob.instList tid=[]
    · rw [Rob.squash,if_pos (by rw [hne]; rfl)] at hcall
      cases hcall
      exact .inl ⟨⟨hdone,by rw [← hinsts,hne]; rfl⟩,Nat.zero_le _⟩
    · rcases (squash_spec hwidth hsorted hne (by rw [hinsts])).of_ok hcall with hend | ⟨it',hlt,hgo⟩
      · exact .inl ⟨hend,Nat.zero_le _⟩
      · exact .inr ⟨it',by omega,hgo⟩
  | doSquash rob rob' n k _ hdone hcall ih =>
    rcases ih with ⟨hend,_⟩ | ⟨it,hlt,hgo⟩
    · exact absurd (hdone.symm.trans hend.1) Bool.false_ne_true
    · rcases (doSquash_spec hwidth hsorted hgo).of_ok hcall with hend | ⟨it',hit',hgo'⟩
      · exact .inl ⟨hend,by omega⟩
      · exact .inr ⟨it',by omega,hgo'⟩
  | others rob rob' n k _ hinsts hit hseq hdone ih =>
    refine ih.imp (And.imp_left fun hend => ⟨hdone.trans hend.1,hinsts.trans hend.2⟩) ?_
    rintro ⟨it,hlt,hgo⟩
    exact ⟨it,hlt,hit.trans hgo.squashIt,hseq.trans hgo.squashedSeqNum,hdone.trans hgo.doneSquashing,hinsts ▸ hgo.walking⟩
  | again rob rob' n m k _ hdone hm hcall ih =>
    rcases ih with ⟨hend,_⟩ | ⟨it,_,hgo⟩
    · exact absurd (hdone.symm.trans hend.1) Bool.false_ne_true
    · rcases (hgo.squash hwidth hsorted hm).of_ok hcall with hend | ⟨it',hlt,hgo'⟩
      · exact .inl ⟨hend,Nat.zero_le _⟩
      · exact .inr ⟨it',by omega,hgo'⟩

/-- Every call returns, at most as many as there are instructions end the squash, and then exactly the younger
instructions are marked. -/
theorem rob_squash (hwidth : 0<squashWidth) (hsorted : (insts.map Inst.seqNum).Pairwise (·<·)) :
    (∀ (rob : Rob) (n : ℕ),rob.instList tid=insts → ∃ rob',rob.squash squashWidth n tid = .ok rob') ∧
      ∀ n k rob,Run squashWidth tid insts n k rob → k ≤ insts.length ∧
        (rob.doneSquashing tid=true → rob.instList tid=insts.map (mark n)) ∧
        (rob.doneSquashing tid=false → (∃ rob',rob.doSquash squashWidth tid = .ok rob') ∧
          ∀ m≤n,∃ rob',rob.squash squashWidth m tid = .ok rob') := by
  refine ⟨fun rob n hinsts => squash_returns hwidth (hinsts ▸ hsorted) n,fun n k rob h => ?_⟩
  rcases run_going hwidth hsorted h with ⟨hend,hk⟩ | ⟨it,hk,hgo⟩
  · exact ⟨hk,fun _ => hend.2,fun hdone => absurd (hdone.symm.trans hend.1) Bool.false_ne_true⟩
  · refine ⟨by omega,fun hdone => absurd (hgo.doneSquashing.symm.trans hdone) Bool.false_ne_true,fun _ => ⟨?_,?_⟩⟩
    · exact (doSquash_spec hwidth hsorted hgo).returns.imp fun _ h => h.1
    · exact fun m hm => (hgo.squash hwidth hsorted hm).returns.imp fun _ h => h.1

def threeInsts : List Inst := [⟨1,false,false⟩,⟨2,false,true⟩,⟨3,false,false⟩]

theorem rob_squash_three : ∃ rob,Run 1 0 threeInsts 1 0 rob ∧ rob.doneSquashing 0=false ∧
    ∃ rob',rob.doSquash 1 0 = .ok rob' := by
  have hrun : ∃ rob,Run 1 0 threeInsts 1 0 rob ∧ rob.doneSquashing 0=false :=
    ⟨_,.squash ⟨[0],fun _ => threeInsts,fun _ => none,fun _ => 0,fun _ => true,none⟩ _ 1 rfl rfl rfl,rfl⟩
  obtain ⟨rob,hrob,hdone⟩:=hrun
  exact ⟨rob,hrob,hdone,(((rob_squash Nat.one_pos (by decide)).2 1 0 rob hrob).2.2 hdone).1⟩

end Rob

end AquaGem5.O3
