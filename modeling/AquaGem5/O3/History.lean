import AquaGem5.Lib.Queues
import AquaGem5.O3.Rename
import Mathlib.Tactic.Abel

/-!
# Conservation of the physical registers

What a thread owns of a class are the entries of its map and the registers its history keeps.
-/

namespace AquaGem5.O3
open Checked List

namespace Rename

variable {c : Config} {s s' s'' : Rename} {tid t n i : ℕ} {cls cls' : RegClass} {r r' : PhysReg} {history : List RenameHistory}
  {h : RenameHistory}

def previous (cls : RegClass) (history : List RenameHistory) : List PhysReg :=
  (history.filter fun h => h.newPhysReg≠h.prevPhysReg ∧ h.prevPhysReg.classValue=cls).map RenameHistory.prevPhysReg

def owned (s : Rename) (cls : RegClass) (tid : ℕ) : List PhysReg := s.renameMap tid cls++previous cls (s.historyBuffer tid)

def Conserved (c : Config) (s : Rename) : Prop :=
  ∀ cls,(Queues.queued c.numThreads (s.owned cls) : Multiset PhysReg)+s.freeList cls=physRegs c cls

structure Balanced (tid : ℕ) (s s' : Rename) : Prop where
  others : ∀ t,t≠tid → s'.renameMap t=s.renameMap t ∧ s'.historyBuffer t=s.historyBuffer t
  balance : ∀ cls,(s'.owned cls tid : Multiset PhysReg)+s'.freeList cls=s.owned cls tid+s.freeList cls

theorem Balanced.refl (tid : ℕ) (s : Rename) : Balanced tid s s := ⟨fun _ _ => ⟨rfl,rfl⟩,fun _ => rfl⟩

theorem Balanced.symm (h : Balanced tid s s') : Balanced tid s' s :=
  ⟨fun t ht => ⟨(h.others t ht).1.symm,(h.others t ht).2.symm⟩,fun cls => (h.balance cls).symm⟩

theorem Balanced.trans (h : Balanced tid s s') (h' : Balanced tid s' s'') : Balanced tid s s'' :=
  ⟨fun t ht => ⟨(h'.others t ht).1.trans (h.others t ht).1,(h'.others t ht).2.trans (h.others t ht).2⟩,
    fun cls => (h'.balance cls).trans (h.balance cls)⟩

theorem Conserved.step (hc : Conserved c s) (hb : Balanced tid s s') (htid : tid<c.numThreads) : Conserved c s' := fun cls => by
  have howned : s'.owned cls=Function.update (s.owned cls) tid (s'.owned cls tid) := by
    funext t
    by_cases ht : t=tid
    · rw [ht,Function.update_self]
    · rw [Function.update_of_ne ht,owned,owned,(hb.others t ht).1,(hb.others t ht).2]
  have hqueued:=Queues.queued_update (q := s.owned cls) htid (s'.owned cls tid)
  have hbalance:=hb.balance cls
  rw [← hc cls,howned]
  refine add_right_cancel (b := (s.owned cls tid : Multiset PhysReg)) ?_
  rw [add_right_comm,hqueued,add_assoc,hbalance,add_right_comm,add_assoc]

theorem physRegs_nodup (c : Config) (cls : RegClass) : (physRegs c cls).Nodup := by
  have hsimple : ∀ (cls : RegClass) (n : ℕ),((range n).map fun i => (⟨cls,i,none⟩ : PhysReg)).Nodup := fun cls n =>
    nodup_range.map fun i j hij => (PhysReg.mk.inj hij).2.1
  cases cls with
  | vec =>
    rw [physRegs]
    split
    next => exact hsimple _ _
    next => exact .nil
  | vecElem =>
    rw [physRegs]
    split
    next =>
      rw [nodup_flatMap]
      refine ⟨fun i _ => nodup_range.map fun j k hjk => Option.some.inj (PhysReg.mk.inj hjk).2.2,
        nodup_range.imp fun {i j} hij x hx hy => ?_⟩
      obtain ⟨_,_,rfl⟩:=mem_map.mp hx
      obtain ⟨_,_,heq⟩:=mem_map.mp hy
      exact hij (PhysReg.mk.inj heq).2.1.symm
    next => exact .nil
  | misc => exact .nil
  | int | float | vecPred | cc => exact hsimple _ _

theorem physRegs_class (hr : r∈physRegs c cls) : r.classValue=cls := by
  have hsimple : ∀ (cls : RegClass) (n : ℕ),r∈((range n).map fun i => (⟨cls,i,none⟩ : PhysReg)) → r.classValue=cls :=
    fun cls n hr => by
      obtain ⟨_,_,rfl⟩:=mem_map.mp hr
      rfl
  cases cls with
  | vec =>
    rw [physRegs] at hr
    split at hr
    next => exact hsimple _ _ hr
    next => cases hr
  | vecElem =>
    rw [physRegs] at hr
    split at hr
    next =>
      obtain ⟨_,_,hr⟩:=mem_flatMap.mp hr
      obtain ⟨_,_,rfl⟩:=mem_map.mp hr
      rfl
    next => cases hr
  | misc => cases hr
  | int | float | vecPred | cc => exact hsimple _ _ hr

theorem Conserved.apart (hc : Conserved c s) (htid : tid<c.numThreads) (hr : r∈s.renameMap tid cls) :
    r.classValue=cls ∧ ∀ r'∈s.freeList cls,r'.classValue=cls ∧ r'≠r := by
  have htotal:=hc cls
  have hmem : r∈Queues.queued c.numThreads (s.owned cls) := Queues.mem_queued.mpr ⟨tid,htid,mem_append_left _ hr⟩
  rw [Multiset.coe_add,Multiset.coe_eq_coe] at htotal
  have hnodup:=htotal.nodup_iff.mpr (physRegs_nodup c cls)
  refine ⟨physRegs_class (htotal.subset (mem_append_left _ hmem)),fun r' hr' => ?_⟩
  refine ⟨physRegs_class (htotal.subset (mem_append_right _ hr')),fun heq => ?_⟩
  exact (nodup_append.mp hnodup).2.2 r hmem r' hr' heq.symm

def remap (c : Config) (m : RegClass → List PhysReg) (archReg : RegId) (r : PhysReg) : RegClass → List PhysReg :=
  Function.update m archReg.classValue ((m archReg.classValue).set (archReg.flatIndex c) r)

theorem set_balance {l : List PhysReg} (hi : l[i]?=some r) (r' : PhysReg) :
    (l.set i r' : Multiset PhysReg)+{r}=l+{r'} := by
  obtain ⟨hlt,rfl⟩:=List.getElem?_eq_some_iff.mp hi
  have hget : (l : Multiset PhysReg)=l[i] ::ₘ (l.eraseIdx i : Multiset PhysReg) :=
    (Multiset.coe_eq_coe.mpr (getElem_cons_eraseIdx_perm hlt)).symm
  have hset : (l.set i r' : Multiset PhysReg)=r' ::ₘ (l.eraseIdx i : Multiset PhysReg) :=
    Multiset.coe_eq_coe.mpr (set_perm_cons_eraseIdx hlt r')
  rw [hget,hset,← Multiset.singleton_add,← Multiset.singleton_add]
  abel

theorem previous_kept (heq : h.newPhysReg=h.prevPhysReg) (cls : RegClass) (history : List RenameHistory) :
    previous cls (h::history)=previous cls history := by
  rw [previous,filter_cons_of_neg (by simp [heq]),previous]

theorem previous_cons (hne : h.newPhysReg≠h.prevPhysReg) (cls : RegClass) (history : List RenameHistory) :
    (previous cls (h::history) : Multiset PhysReg) =
      previous cls history+if h.prevPhysReg.classValue=cls then {h.prevPhysReg} else 0 := by
  unfold previous
  split
  next hcls =>
    rw [filter_cons_of_pos (by simp [hne,hcls]),map_cons,← Multiset.cons_coe,← Multiset.singleton_add,add_comm]
  next hcls => rw [filter_cons_of_neg (by simp [hcls]),add_zero]

structure Entry (c : Config) (m : RegClass → List PhysReg) (h : RenameHistory) : Prop where
  mapped : (m h.archReg.classValue)[h.archReg.flatIndex c]?=some h.newPhysReg
  newClass : h.newPhysReg.classValue=h.archReg.classValue
  prevClass : h.prevPhysReg.classValue=h.archReg.classValue
  renamed : h.archReg.classValue ≠ .misc
  mode : ∀ mode∈modeOf h.archReg.classValue,c.vecMode=mode

theorem entry_balance {m m' : RegClass → List PhysReg} {free free' : RegClass → List PhysReg}
    (hnew : Entry c m h) (hne : h.newPhysReg≠h.prevPhysReg) (hm : m'=remap c m h.archReg h.prevPhysReg)
    (hfree : ∀ cls,(free' cls : Multiset PhysReg)=free cls+if h.newPhysReg.classValue=cls then {h.newPhysReg} else 0)
    (cls : RegClass) (history : List RenameHistory) :
    ((m' cls++previous cls history : List PhysReg) : Multiset PhysReg)+free' cls =
      (m cls++previous cls (h::history) : List PhysReg)+free cls := by
  rw [← Multiset.coe_add,← Multiset.coe_add,previous_cons hne,hfree,hm,hnew.newClass,hnew.prevClass]
  by_cases hcls : h.archReg.classValue=cls
  · have hset:=set_balance hnew.mapped h.prevPhysReg
    rw [if_pos hcls,if_pos hcls,remap,← hcls,Function.update_self]
    have hleft : ((m h.archReg.classValue).set (h.archReg.flatIndex c) h.prevPhysReg : Multiset PhysReg) +
        previous h.archReg.classValue history+(free h.archReg.classValue+{h.newPhysReg}) =
      ((m h.archReg.classValue).set (h.archReg.flatIndex c) h.prevPhysReg : Multiset PhysReg)+{h.newPhysReg} +
        (previous h.archReg.classValue history+free h.archReg.classValue) := by abel
    rw [hleft,hset]
    abel
  · rw [if_neg hcls,if_neg hcls,remap,Function.update_of_ne (Ne.symm hcls),add_zero,add_zero]

end Rename
/-! ## Walks along the history of a thread -/

open Function

namespace Rename

variable {c : Config} {s s' : Rename} {tid t n k seqNum : ℕ} {cls : RegClass} {history rest : List RenameHistory}
  {h : RenameHistory} {r : PhysReg} {m : RegClass → List PhysReg} {dest : RegId} {dests : List RegId}

def before (c : Config) (m : RegClass → List PhysReg) (h : RenameHistory) : RegClass → List PhysReg :=
  if h.newPhysReg≠h.prevPhysReg then remap c m h.archReg h.prevPhysReg else m

def restore (c : Config) (squashed : ℕ) : (RegClass → List PhysReg) → List RenameHistory → (RegClass → List PhysReg)
  | m,[] => m
  | m,h::hs => if squashed<h.instSeqNum then restore c squashed (before c m h) hs else m

def Chain (c : Config) : (RegClass → List PhysReg) → List RenameHistory → Prop
  | _,[] => True
  | m,h::hs => (h.newPhysReg≠h.prevPhysReg → Entry c m h) ∧ Chain c (before c m h) hs

def Sorted (history : List RenameHistory) : Prop := history.Pairwise fun h h' => h'.instSeqNum≤h.instSeqNum

theorem restore_stop (hstop : ∀ h∈history,h.instSeqNum≤n) (m : RegClass → List PhysReg) : restore c n m history=m := by
  cases history with
  | nil => rfl
  | cons h hs => exact if_neg (not_lt.mpr (hstop h mem_cons_self))

theorem restore_restore (hkn : k≤n) (history : List RenameHistory) (m : RegClass → List PhysReg) :
    restore c k (restore c n m history) (history.dropWhile fun h => n<h.instSeqNum)=restore c k m history := by
  induction history generalizing m with
  | nil => rfl
  | cons h hs ih =>
    by_cases hlt : n<h.instSeqNum
    · rw [dropWhile_cons_of_pos (by simpa using hlt),restore,if_pos hlt,ih,restore,if_pos (hkn.trans_lt hlt)]
    · have hstop : restore c n m (h::hs)=m := if_neg hlt
      rw [dropWhile_cons_of_neg (by simpa using hlt),hstop]

theorem restore_append (hrest : ∀ h∈rest,h.instSeqNum≤n) (history : List RenameHistory) (m : RegClass → List PhysReg) :
    restore c n m (history++rest)=restore c n m history := by
  induction history generalizing m with
  | nil => exact restore_stop hrest m
  | cons h hs ih =>
    rw [cons_append,restore,restore,ih]

theorem Chain.drop (h : Chain c m history) (n : ℕ) :
    Chain c (restore c n m history) (history.dropWhile fun h => n<h.instSeqNum) := by
  induction history generalizing m with
  | nil => trivial
  | cons e es ih =>
    by_cases hlt : n<e.instSeqNum
    · rw [dropWhile_cons_of_pos (by simpa using hlt),restore,if_pos hlt]
      exact ih h.2
    · have hstop : restore c n m (e::es)=m := if_neg hlt
      rw [dropWhile_cons_of_neg (by simpa using hlt),hstop]
      exact h

theorem Chain.newest (h : Chain c m (history++rest)) : Chain c m history := by
  induction history generalizing m with
  | nil => trivial
  | cons e es ih => exact ⟨h.1,ih h.2⟩

theorem Chain.prev (h : Chain c m history) : ∀ e∈history,e.newPhysReg≠e.prevPhysReg → e.prevPhysReg.classValue ≠ .misc := by
  induction history generalizing m with
  | nil => exact fun e he => absurd he not_mem_nil
  | cons e es ih =>
    intro x hx hne
    cases mem_cons.mp hx with
    | inl hxe =>
      rw [hxe] at hne ⊢
      rw [(h.1 hne).prevClass]
      exact (h.1 hne).renamed
    | inr hx => exact ih h.2 x hx hne

def freed (s : Rename) (r : PhysReg) : Rename :=
  {s with freeList := Function.update s.freeList r.classValue (s.freeList r.classValue++[r])}

theorem addReg_post (hr : r.classValue ≠ .misc) : s.addReg r = .ok (s.freed r) := by
  unfold addReg
  split
  next heq => exact absurd heq hr
  next => rfl

theorem setEntry_post (hentry : Entry c (s.renameMap tid) h) :
    s.setEntry c tid h.archReg h.prevPhysReg = .ok (s.setMap tid h.archReg.classValue (h.archReg.flatIndex c) h.prevPhysReg) := by
  unfold setEntry
  split
  next heq => exact absurd heq hentry.renamed
  next =>
    obtain ⟨hlt,_⟩:=List.getElem?_eq_some_iff.mp hentry.mapped
    simp only [check,checkMode,if_pos hentry.prevClass,if_pos hentry.mode,if_pos hlt]
    rfl

theorem owned_setHistory (s : Rename) (cls : RegClass) : (s.setHistory tid history).owned cls tid=s.renameMap tid cls++previous cls history := by
  show _++previous cls (update s.historyBuffer tid history tid)=_
  rw [update_self]
  rfl

theorem balanced_history (hmap : ∀ t,t≠tid → s'.renameMap t=s.renameMap t)
    (hhistory : ∀ t,t≠tid → s'.historyBuffer t=s.historyBuffer t)
    (hbalance : ∀ cls,((s'.renameMap tid cls++previous cls rest : List PhysReg) : Multiset PhysReg)+s'.freeList cls =
      (s.renameMap tid cls++previous cls history : List PhysReg)+s.freeList cls) :
    Balanced tid (s.setHistory tid history) (s'.setHistory tid rest) := by
  refine ⟨fun t ht => ⟨hmap t ht,?_⟩,fun cls => ?_⟩
  · show update s'.historyBuffer tid rest t=update s.historyBuffer tid history t
    rw [update_of_ne ht,update_of_ne ht,hhistory t ht]
  · rw [owned_setHistory,owned_setHistory]
    exact hbalance cls

theorem balanced_kept (heq : h.newPhysReg=h.prevPhysReg) : Balanced tid (s.setHistory tid (h::history)) (s.setHistory tid history) := by
  refine balanced_history (fun _ _ => rfl) (fun _ _ => rfl) fun cls => ?_
  rw [previous_kept heq]

theorem push_balance (r : PhysReg) (cls : RegClass) :
    ((s.freed r).freeList cls : Multiset PhysReg)=s.freeList cls+if r.classValue=cls then {r} else 0 := by
  show (update s.freeList r.classValue (s.freeList r.classValue++[r]) cls : Multiset PhysReg)=_
  by_cases hcls : r.classValue=cls
  · rw [if_pos hcls,← hcls,update_self,← Multiset.coe_add,Multiset.coe_singleton]
  · rw [if_neg hcls,update_of_ne (Ne.symm hcls),add_zero]

theorem setMap_renameMap (s : Rename) (h : RenameHistory) :
    (s.setMap tid h.archReg.classValue (h.archReg.flatIndex c) r).renameMap tid=remap c (s.renameMap tid) h.archReg r :=
  update_self ..

theorem undo_post (n : ℕ) (history : List RenameHistory) (s : Rename) (hchain : Chain c (s.renameMap tid) history) :
    Post (undo c n tid history s) (fun s' => Balanced tid (s.setHistory tid history) s' ∧
      s'.renameMap tid=restore c n (s.renameMap tid) history ∧
      s'.historyBuffer tid=(history.dropWhile fun h => n<h.instSeqNum) ∧ s'.numPinnedWrites=s.numPinnedWrites)
      fun _ => False := by
  induction history generalizing s with
  | nil => exact ⟨Balanced.refl _ _,rfl,update_self ..,rfl⟩
  | cons h hs ih =>
    rw [undo]
    by_cases hlt : n<h.instSeqNum
    · rw [if_pos hlt,restore,if_pos hlt,dropWhile_cons_of_pos (by simpa using hlt)]
      have hbefore:=hchain.2
      by_cases hne : h.newPhysReg≠h.prevPhysReg
      · have hentry:=hchain.1 hne
        have hnew : h.newPhysReg.classValue ≠ .misc := hentry.newClass ▸ hentry.renamed
        rw [if_pos hne,setEntry_post hentry]
        simp only [post_bind,post_ok,addReg_post hnew]
        rw [before,if_pos hne,(setMap_renameMap s h).symm] at hbefore
        let s1:=(s.setMap tid h.archReg.classValue (h.archReg.flatIndex c) h.prevPhysReg).freed h.newPhysReg
        have hmap1 : s1.renameMap tid=remap c (s.renameMap tid) h.archReg h.prevPhysReg := setMap_renameMap s h
        have hstep : Balanced tid (s.setHistory tid (h::hs)) (s1.setHistory tid hs) :=
          balanced_history (fun t ht => update_of_ne ht ..) (fun _ _ => rfl) fun cls =>
            entry_balance hentry hne hmap1 (push_balance _) cls hs
        refine (ih s1 hbefore).imp fun s' hs' => ?_
        obtain ⟨hbalanced,hmap,hhistory,hpinned⟩:=hs'
        refine ⟨hstep.trans hbalanced,?_,hhistory,hpinned⟩
        rw [hmap,before,if_pos hne,hmap1]
      · rw [if_neg hne]
        rw [before,if_neg hne] at hbefore
        refine (ih s hbefore).imp fun s' hs' => ?_
        obtain ⟨hbalanced,hmap,hhistory,hpinned⟩:=hs'
        refine ⟨(balanced_kept (not_not.mp hne)).trans hbalanced,?_,hhistory,hpinned⟩
        rw [hmap,before,if_neg hne]
    · rw [if_neg hlt,restore,if_neg hlt,dropWhile_cons_of_neg (by simpa using hlt)]
      exact ⟨Balanced.refl _ _,rfl,update_self ..,rfl⟩

theorem retire_post (n : ℕ) (history : List RenameHistory) (s : Rename)
    (hprev : ∀ h∈history,h.newPhysReg≠h.prevPhysReg → h.prevPhysReg.classValue ≠ .misc) :
    Post (retire n tid history s) (fun s' => Balanced tid (s.setHistory tid history.reverse) s' ∧
      s'.renameMap=s.renameMap ∧ s'.historyBuffer tid=(history.dropWhile fun h => h.instSeqNum≤n).reverse ∧
      s'.numPinnedWrites=s.numPinnedWrites) fun _ => False := by
  induction history generalizing s with
  | nil => exact ⟨Balanced.refl _ _,rfl,update_self ..,rfl⟩
  | cons h hs ih =>
    have htail:=fun e he => hprev e (mem_cons_of_mem _ he)
    rw [retire]
    by_cases hle : h.instSeqNum≤n
    · rw [if_pos hle,dropWhile_cons_of_pos (by simpa using hle),reverse_cons]
      have hsplit : ∀ cls,(previous cls (hs.reverse++[h]) : Multiset PhysReg)=previous cls (h::hs.reverse) := fun cls => by
        refine Multiset.coe_eq_coe.mpr (Perm.map _ (Perm.filter _ ?_))
        exact perm_append_singleton _ _
      by_cases hne : h.newPhysReg≠h.prevPhysReg
      · rw [if_pos hne,addReg_post (hprev h mem_cons_self hne)]
        simp only [post_bind,post_ok]
        have hstep : Balanced tid (s.setHistory tid (hs.reverse++[h])) ((s.freed h.prevPhysReg).setHistory tid hs.reverse) :=
          balanced_history (fun _ _ => rfl) (fun _ _ => rfl) fun cls => by
            rw [← Multiset.coe_add,← Multiset.coe_add,hsplit,previous_cons hne,push_balance]
            show (s.renameMap tid cls : Multiset PhysReg)+_+_=_
            abel
        refine (ih (s.freed h.prevPhysReg) htail).imp fun s' hs' => ?_
        obtain ⟨hbalanced,hmap,hhistory,hpinned⟩:=hs'
        exact ⟨hstep.trans hbalanced,hmap,hhistory,hpinned⟩
      · rw [if_neg hne]
        simp only [post_bind,post_pure]
        refine (ih s htail).imp fun s' hs' => ?_
        obtain ⟨hbalanced,hmap,hhistory,hpinned⟩:=hs'
        have hstep : Balanced tid (s.setHistory tid (hs.reverse++[h])) (s.setHistory tid hs.reverse) :=
          balanced_history (fun _ _ => rfl) (fun _ _ => rfl) fun cls => by
            rw [← Multiset.coe_add,← Multiset.coe_add,hsplit,previous_kept (not_not.mp hne)]
        exact ⟨hstep.trans hbalanced,hmap,hhistory,hpinned⟩
    · rw [if_neg hle,dropWhile_cons_of_neg (by simpa using hle)]
      exact ⟨Balanced.refl _ _,rfl,update_self ..,rfl⟩

inductive Took (c : Config) (s : Rename) (tid : ℕ) (dest : RegId) : PhysReg → PhysReg → Rename → Prop
  | kept (r : PhysReg) : Took c s tid dest r r s
  | taken (new prev : PhysReg) (free : List PhysReg) : dest.classValue ≠ .misc → (∀ mode∈modeOf dest.classValue,c.vecMode=mode) →
      (s.renameMap tid dest.classValue)[dest.flatIndex c]?=some prev → s.freeList dest.classValue=new::free →
      Took c s tid dest new prev ((({s with freeList := Function.update s.freeList dest.classValue free}).setMap tid
        dest.classValue (dest.flatIndex c) new).setPinned new 0)

theorem simpleRename_post (hpinned : ∀ r,s.numPinnedWrites r=0) (hdest : dest.numPinnedWrites=0) (hmisc : dest.classValue ≠ .misc)
    (hmode : ∀ mode∈modeOf dest.classValue,c.vecMode=mode) :
    Post (s.simpleRename c tid dest) (fun res => Took c s tid dest res.1.1 res.1.2 res.2)
      fun e => e = .noFreeReg → s.freeList dest.classValue=[] := by
  unfold simpleRename
  cases hmap : (s.renameMap tid dest.classValue)[dest.flatIndex c]? with
  | none => exact fun he => (by cases he)
  | some prev =>
    dsimp only
    split
    next =>
      simp only [post_bind,post_check,post_pure]
      exact ⟨fun _ => .kept prev,fun _ he => (by cases he)⟩
    next =>
      rw [if_neg (by rw [hpinned]; exact lt_irrefl 0)]
      cases hfree : s.freeList dest.classValue with
      | nil =>
        rw [getReg,hfree]
        exact fun _ => rfl
      | cons r free =>
        rw [getReg,hfree]
        simp only [post_bind,post_ok,post_pure]
        rw [hdest]
        exact .taken r prev free hmisc hmode hmap hfree

theorem rename_post (hpinned : ∀ r,s.numPinnedWrites r=0) (hdest : dest.numPinnedWrites=0) :
    Post (s.rename c tid dest) (fun res => Took c s tid dest res.1.1 res.1.2 res.2)
      fun e => e = .noFreeReg → dest.classValue ≠ .misc ∧ s.freeList dest.classValue=[] := by
  unfold rename
  split
  next => exact .kept _
  next hmisc =>
    simp only [post_bind,checkMode,post_check]
    refine ⟨fun hmode => ?_,fun _ he => (by cases he)⟩
    exact (simpleRename_post hpinned hdest hmisc hmode).mono (fun _ => id) fun e he hnone => ⟨hmisc,he hnone⟩

theorem remap_remap {r r' : PhysReg} (hr : (m dest.classValue)[dest.flatIndex c]?=some r) : remap c (remap c m dest r') dest r=m := by
  obtain ⟨hlt,rfl⟩:=List.getElem?_eq_some_iff.mp hr
  rw [remap,remap,update_self,update_idem,set_set,set_getElem_self,update_eq_self]

structure Renames (c : Config) (tid seqNum : ℕ) (s s' : Rename) : Prop where
  balanced : Balanced tid s s'
  chain : Chain c (s'.renameMap tid) (s'.historyBuffer tid)
  restores : ∀ n<seqNum,restore c n (s'.renameMap tid) (s'.historyBuffer tid)=restore c n (s.renameMap tid) (s.historyBuffer tid)
  pushed : ∃ entries : List RenameHistory,s'.historyBuffer tid=entries++s.historyBuffer tid ∧ ∀ h∈entries,h.instSeqNum=seqNum
  pinned : ∀ r,s'.numPinnedWrites r=0

theorem Renames.trans {s'' : Rename} (h : Renames c tid seqNum s s') (h' : Renames c tid seqNum s' s'') : Renames c tid seqNum s s'' := by
  obtain ⟨entries,heq,hseq⟩:=h.pushed
  obtain ⟨entries',heq',hseq'⟩:=h'.pushed
  refine ⟨h.balanced.trans h'.balanced,h'.chain,fun n hn => (h'.restores n hn).trans (h.restores n hn),
    ⟨entries'++entries,by rw [heq',heq,append_assoc],fun e he => ?_⟩,h'.pinned⟩
  cases mem_append.mp he with
  | inl he => exact hseq' e he
  | inr he => exact hseq e he

theorem Took.push {new prev : PhysReg} (htook : Took c s tid dest new prev s') (hc : Conserved c s) (htid : tid<c.numThreads)
    (hchain : Chain c (s.renameMap tid) (s.historyBuffer tid)) (hpinned : ∀ r,s.numPinnedWrites r=0) (seqNum : ℕ) :
    Renames c tid seqNum s (s'.setHistory tid (⟨seqNum,dest,new,prev⟩::s'.historyBuffer tid)) ∧
      ∀ cls,(s.freeList cls).length≤(s'.freeList cls).length+if dest.classValue=cls then 1 else 0 := by
  have hself : ∀ (x : Rename) (l : List RenameHistory),(x.setHistory tid l).historyBuffer tid=l := fun x l => update_self ..
  have hsame : s.setHistory tid (s.historyBuffer tid)=s := by
    unfold setHistory
    rw [update_eq_self]
  cases htook with
  | kept =>
    have hbalanced : Balanced tid (s.setHistory tid (⟨seqNum,dest,new,new⟩::s.historyBuffer tid)) (s.setHistory tid (s.historyBuffer tid)) :=
      balanced_kept rfl
    have hbefore : before c (s.renameMap tid) ⟨seqNum,dest,new,new⟩=s.renameMap tid := if_neg (not_not.mpr rfl)
    rw [hsame] at hbalanced
    refine ⟨⟨hbalanced.symm,?_,fun n hn => ?_,⟨[⟨seqNum,dest,new,new⟩],hself _ _,fun e he => ?_⟩,hpinned⟩,fun cls => Nat.le_add_right ..⟩
    · rw [hself]
      exact ⟨fun hne => absurd rfl hne,hbefore.symm ▸ hchain⟩
    · rw [hself,restore,if_pos hn]
      exact congrArg (fun m => restore c n m (s.historyBuffer tid)) hbefore
    · rw [mem_singleton.mp he]
  | taken _ free hmisc hmode hmap hfree =>
    obtain ⟨hprevClass,hapart⟩:=hc.apart htid (mem_of_getElem? hmap)
    obtain ⟨hnewClass,hne⟩:=hapart new (hfree ▸ mem_cons_self)
    let s1:=(({s with freeList := update s.freeList dest.classValue free}).setMap tid dest.classValue
      (dest.flatIndex c) new).setPinned new 0
    have hmap1 : s1.renameMap tid=remap c (s.renameMap tid) dest new := update_self ..
    have hentry : Entry c (s1.renameMap tid) ⟨seqNum,dest,new,prev⟩ := by
      refine ⟨?_,hnewClass,hprevClass,hmisc,hmode⟩
      obtain ⟨hlt,_⟩:=List.getElem?_eq_some_iff.mp hmap
      rw [hmap1,remap,update_self]
      exact getElem?_set_self hlt
    have hold : s.renameMap tid=remap c (s1.renameMap tid) dest prev := by
      rw [hmap1,remap_remap hmap]
    have hbefore : before c (s1.renameMap tid) ⟨seqNum,dest,new,prev⟩=s.renameMap tid := (if_pos hne).trans hold.symm
    have hfree1 : ∀ cls,(s.freeList cls : Multiset PhysReg)=s1.freeList cls+if new.classValue=cls then {new} else 0 := fun cls => by
      rw [hnewClass]
      show _=(update s.freeList dest.classValue free cls : Multiset PhysReg)+_
      by_cases hcls : dest.classValue=cls
      · rw [if_pos hcls,← hcls,update_self,hfree,← Multiset.cons_coe,← Multiset.singleton_add,add_comm]
      · rw [if_neg hcls,update_of_ne (Ne.symm hcls),add_zero]
    have hbalanced : Balanced tid (s1.setHistory tid (⟨seqNum,dest,new,prev⟩::s.historyBuffer tid)) (s.setHistory tid (s.historyBuffer tid)) :=
      balanced_history (fun t ht => (update_of_ne ht ..).symm) (fun _ _ => rfl) fun cls =>
        entry_balance hentry hne hold hfree1 cls _
    rw [hsame] at hbalanced
    refine ⟨⟨hbalanced.symm,?_,fun n hn => ?_,⟨[⟨seqNum,dest,new,prev⟩],hself _ _,fun e he => ?_⟩,fun r => ?_⟩,fun cls => ?_⟩
    · rw [hself]
      exact ⟨fun _ => hentry,hbefore.symm ▸ hchain⟩
    · rw [hself,restore,if_pos hn]
      exact congrArg (fun m => restore c n m (s.historyBuffer tid)) hbefore
    · rw [mem_singleton.mp he]
    · show update s.numPinnedWrites new 0 r=0
      by_cases hr : r=new
      · rw [hr,update_self]
      · rw [update_of_ne hr,hpinned]
    · show _≤(update s.freeList dest.classValue free cls).length+_
      by_cases hcls : dest.classValue=cls
      · rw [if_pos hcls,← hcls,update_self,hfree,length_cons]
      · rw [if_neg hcls,update_of_ne (Ne.symm hcls),add_zero]

theorem renameRegs_post (seqNum : ℕ) (dests : List RegId) (s : Rename) (hc : Conserved c s) (htid : tid<c.numThreads)
    (hchain : Chain c (s.renameMap tid) (s.historyBuffer tid)) (hpinned : ∀ r,s.numPinnedWrites r=0)
    (hdests : ∀ dest∈dests,dest.numPinnedWrites=0)
    (henough : ∀ cls,cls ≠ .misc → (dests.countP fun dest => dest.classValue=cls)≤(s.freeList cls).length) :
    Post (renameRegs c tid seqNum dests s) (Renames c tid seqNum s) fun e => e ≠ .noFreeReg := by
  induction dests generalizing s with
  | nil => exact ⟨Balanced.refl _ _,hchain,fun _ _ => rfl,⟨[],rfl,fun e he => absurd he not_mem_nil⟩,hpinned⟩
  | cons dest dests ih =>
    rw [renameRegs]
    have hfirst : Post (s.rename c tid dest) (fun res => Took c s tid dest res.1.1 res.1.2 res.2)
        fun e => e = .noFreeReg → dest.classValue ≠ .misc ∧ s.freeList dest.classValue=[] :=
      rename_post hpinned (hdests dest mem_cons_self)
    rw [post_bind]
    refine hfirst.mono (fun res htook => ?_) fun e he hnone => ?_
    · obtain ⟨⟨new,prev⟩,s1⟩:=res
      obtain ⟨hstep,hlength⟩:=htook.push hc htid hchain hpinned seqNum
      refine (ih _ (hc.step hstep.balanced htid) hstep.chain hstep.pinned (fun d hd => hdests d (mem_cons_of_mem _ hd))
        fun cls hcls => ?_).imp fun s' hs' => hstep.trans hs'
      have hcount:=henough cls hcls
      have hlen : (s.freeList cls).length≤(s1.freeList cls).length+_ := hlength cls
      rw [countP_cons] at hcount
      simp only [decide_eq_true_eq] at hcount
      show _≤(s1.freeList cls).length
      omega
    · obtain ⟨hmisc,hempty⟩:=he hnone
      have hcount:=henough _ hmisc
      rw [hempty,countP_cons_of_pos (by simp)] at hcount
      exact absurd hcount (by simp)

end Rename
end AquaGem5.O3
