import Mathlib.Data.List.TakeWhile
import AquaGem5.O3.History

/-!
# Runs of the rename stage

Beside the state a run keeps, for each thread, the instructions it has renamed with the map after each, and the last
committed number.
-/

namespace AquaGem5.O3
open Checked List Function

namespace Rename

structure Renamed where
  seqNum : ℕ
  map : RegClass → List PhysReg
  squashed : Bool

/-- The instructions of a thread, the latest first, above its map at the start. -/
structure Thread where
  initial : RegClass → List PhysReg
  renamed : List Renamed
  committed : ℕ

/-- The map just after the last of the instructions with a property, or at the start. -/
def Thread.mapAfter (t : Thread) (p : Renamed → Bool) : RegClass → List PhysReg :=
  ((t.renamed.find? p).map Renamed.map).getD t.initial

def Thread.rename (t : Thread) (seqNum : ℕ) (map : RegClass → List PhysReg) : Thread :=
  {t with renamed := ⟨seqNum,map,false⟩::t.renamed}

def Thread.squash (t : Thread) (n : ℕ) : Thread :=
  {t with renamed := t.renamed.map fun r => {r with squashed := r.squashed || n<r.seqNum} }

def Thread.commit (t : Thread) (n : ℕ) : Thread := {t with committed := max t.committed n}

inductive Reachable (c : Config) : Rename → (ℕ → Thread) → Prop
  | start (s : Rename) : init c = .ok s → Reachable c s fun tid => ⟨s.renameMap tid,[],0⟩
  | rename (s s' : Rename) (ts : ℕ → Thread) (tid : ℕ) (inst : Inst) : Reachable c s ts → tid<c.numThreads →
      (∀ r∈(ts tid).renamed,r.seqNum < inst.seqNum) → (∀ dest∈inst.destRegs,dest.numPinnedWrites=0) →
      s.canRename inst=true → s.renameDestRegs c tid inst = .ok s' →
      Reachable c s' (Function.update ts tid ((ts tid).rename inst.seqNum (s'.renameMap tid)))
  | squash (s s' : Rename) (ts : ℕ → Thread) (tid n : ℕ) : Reachable c s ts → tid<c.numThreads → (ts tid).committed≤n →
      s.doSquash c n tid = .ok s' → Reachable c s' (Function.update ts tid ((ts tid).squash n))
  | commit (s s' : Rename) (ts : ℕ → Thread) (tid n : ℕ) : Reachable c s ts → tid<c.numThreads →
      s.removeFromHistory n tid = .ok s' → Reachable c s' (Function.update ts tid ((ts tid).commit n))

variable {c : Config} {s s' : Rename} {ts : ℕ → Thread} {t : Thread} {tid n k : ℕ} {inst : Inst}

def upTo (n : ℕ) (r : Renamed) : Bool := !r.squashed&&r.seqNum≤n

theorem mapAfter_rename (n k : ℕ) (m : RegClass → List PhysReg) :
    (t.rename k m).mapAfter (upTo n)=if k≤n then m else t.mapAfter (upTo n) := by
  unfold Thread.mapAfter Thread.rename
  by_cases hk : k≤n
  · rw [if_pos hk,find?_cons_of_pos (by simp [upTo,hk])]
    rfl
  · rw [if_neg hk,find?_cons_of_neg (by simpa [upTo] using hk)]

theorem mapAfter_squash (n k : ℕ) : (t.squash n).mapAfter (upTo k)=t.mapAfter (upTo (min n k)) := by
  have hp : ∀ r : Renamed,upTo k {r with squashed := r.squashed || n<r.seqNum}=upTo (min n k) r := fun r => by
    unfold upTo
    cases r.squashed with
    | true => rfl
    | false =>
      rw [Bool.eq_iff_iff]
      simp
  unfold Thread.mapAfter Thread.squash
  rw [find?_map,Option.map_map]
  have hfind : (t.renamed.find? (upTo k ∘ fun r => {r with squashed := r.squashed || decide (n<r.seqNum)})) =
      t.renamed.find? (upTo (min n k)) := congrArg (fun p => t.renamed.find? p) (funext hp)
  rw [hfind]
  rfl

theorem Sorted.below {history : List RenameHistory} (h : Sorted history) (n : ℕ) :
    ∀ e∈history.dropWhile (fun h => n<h.instSeqNum),e.instSeqNum≤n := by
  induction history with
  | nil => exact fun e he => absurd he not_mem_nil
  | cons x xs ih =>
    obtain ⟨hhead,htail⟩:=pairwise_cons.mp h
    intro e he
    by_cases hlt : n<x.instSeqNum
    · rw [dropWhile_cons_of_pos (by simpa using hlt)] at he
      exact ih htail e he
    · rw [dropWhile_cons_of_neg (by simpa using hlt)] at he
      cases mem_cons.mp he with
      | inl hex => exact hex ▸ not_lt.mp hlt
      | inr he => exact (hhead e he).trans (not_lt.mp hlt)

structure Tracks (c : Config) (s : Rename) (tid : ℕ) (t : Thread) : Prop where
  chain : Chain c (s.renameMap tid) (s.historyBuffer tid)
  sorted : Sorted (s.historyBuffer tid)
  known : ∀ h∈s.historyBuffer tid,∃ r∈t.renamed,r.seqNum=h.instSeqNum
  restores : ∀ n,t.committed≤n → restore c n (s.renameMap tid) (s.historyBuffer tid)=t.mapAfter (upTo n)

structure Sound (c : Config) (s : Rename) (ts : ℕ → Thread) : Prop where
  conserved : Conserved c s
  pinned : ∀ r,s.numPinnedWrites r=0
  tracks : ∀ tid<c.numThreads,Tracks c s tid (ts tid)

theorem Tracks.congr (h : Tracks c s tid t) (hmap : s'.renameMap tid=s.renameMap tid) (hhistory : s'.historyBuffer tid=s.historyBuffer tid) :
    Tracks c s' tid t := by
  obtain ⟨hchain,hsorted,hknown,hrestores⟩:=h
  rw [← hmap,← hhistory] at hchain
  rw [← hhistory] at hsorted hknown
  refine ⟨hchain,hsorted,hknown,fun n hn => ?_⟩
  rw [hmap,hhistory]
  exact hrestores n hn

theorem Sound.update (h : Sound c s ts) (htid : tid<c.numThreads) (hbalanced : Balanced tid s s') (hpinned : ∀ r,s'.numPinnedWrites r=0)
    (htracks : Tracks c s' tid t) : Sound c s' (Function.update ts tid t) := by
  refine ⟨h.conserved.step hbalanced htid,hpinned,fun t' ht' => ?_⟩
  by_cases heq : t'=tid
  · rw [heq,update_self]
    exact htracks
  · rw [update_of_ne heq]
    exact (h.tracks t' ht').congr (hbalanced.others t' heq).1 (hbalanced.others t' heq).2

theorem canRename_enough (h : s.canRename inst=true) (cls : RegClass) (hcls : cls ≠ .misc) :
    (inst.destRegs.countP fun dest => dest.classValue=cls)≤(s.freeList cls).length := by
  simp only [canRename,Bool.and_eq_true,Inst.numDestRegs] at h
  cases cls with
  | misc => exact absurd rfl hcls
  | int => exact of_decide_eq_true h.1.1.1.1.1
  | float => exact of_decide_eq_true h.1.1.1.1.2
  | vec => exact of_decide_eq_true h.1.1.1.2
  | vecElem => exact of_decide_eq_true h.1.1.2
  | vecPred => exact of_decide_eq_true h.1.2
  | cc => exact of_decide_eq_true h.2

theorem Tracks.rename (h : Tracks c s tid t) (hlarger : ∀ r∈t.renamed,r.seqNum<k) (hs : Renames c tid k s s') :
    Tracks c s' tid (t.rename k (s'.renameMap tid)) := by
  obtain ⟨entries,heq,hseq⟩:=hs.pushed
  have hold : ∀ e∈s.historyBuffer tid,e.instSeqNum<k := fun e he => by
    obtain ⟨r,hr,hre⟩:=h.known e he
    exact hre ▸ hlarger r hr
  have hall : ∀ e∈s'.historyBuffer tid,e.instSeqNum≤k := fun e he => by
    rw [heq] at he
    cases mem_append.mp he with
    | inl he => exact (hseq e he).le
    | inr he => exact (hold e he).le
  refine ⟨hs.chain,?_,fun e he => ?_,fun n hn => ?_⟩
  · rw [heq]
    refine pairwise_append.mpr ⟨pairwise_of_forall_mem_list fun a ha b hb => ?_,h.sorted,fun a ha b hb => ?_⟩
    · rw [hseq a ha,hseq b hb]
    · rw [hseq a ha]
      exact (hold b hb).le
  · rw [heq] at he
    cases mem_append.mp he with
    | inl he => exact ⟨_,mem_cons_self,(hseq e he).symm⟩
    | inr he =>
      obtain ⟨r,hr,hre⟩:=h.known e he
      exact ⟨r,mem_cons_of_mem _ hr,hre⟩
  · rw [mapAfter_rename]
    by_cases hk : k≤n
    · rw [if_pos hk]
      exact restore_stop (fun e he => (hall e he).trans hk) _
    · rw [if_neg hk,hs.restores n (not_le.mp hk)]
      exact h.restores n hn

theorem Sound.rename (h : Sound c s ts) (htid : tid<c.numThreads) (hlarger : ∀ r∈(ts tid).renamed,r.seqNum < inst.seqNum)
    (hdests : ∀ dest∈inst.destRegs,dest.numPinnedWrites=0) (hcan : s.canRename inst=true) :
    Post (s.renameDestRegs c tid inst) (fun s' => Sound c s' (Function.update ts tid ((ts tid).rename inst.seqNum (s'.renameMap tid))))
      fun e => e ≠ .noFreeReg := by
  have htracks:=h.tracks tid htid
  refine (renameRegs_post inst.seqNum inst.destRegs s h.conserved htid htracks.chain h.pinned hdests
    (canRename_enough hcan)).imp fun s' hs' => ?_
  exact h.update htid hs'.balanced hs'.pinned (htracks.rename hlarger hs')

theorem Sound.squash (h : Sound c s ts) (htid : tid<c.numThreads) (hn : (ts tid).committed≤n) :
    Post (s.doSquash c n tid) (fun s' => Sound c s' (Function.update ts tid ((ts tid).squash n)) ∧
      s'.renameMap tid=(ts tid).mapAfter (upTo n)) fun _ => False := by
  obtain ⟨hchain,hsorted,hknown,hrestores⟩:=h.tracks tid htid
  have hsame : s.setHistory tid (s.historyBuffer tid)=s := by
    unfold setHistory
    rw [update_eq_self]
  refine (undo_post n _ s hchain).imp fun s' hs' => ?_
  obtain ⟨hbalanced,hmap,hhistory,hpinned⟩:=hs'
  rw [hsame] at hbalanced
  have hsub : (s.historyBuffer tid).dropWhile (fun h => n<h.instSeqNum) <:+ s.historyBuffer tid := dropWhile_suffix _
  refine ⟨h.update htid hbalanced (fun r => by rw [hpinned,h.pinned]) ⟨?_,?_,fun e he => ?_,fun k hk => ?_⟩,?_⟩
  · rw [hmap,hhistory]
    exact hchain.drop n
  · rw [hhistory]
    exact hsorted.sublist hsub.sublist
  · rw [hhistory] at he
    obtain ⟨r,hr,hre⟩:=hknown e (hsub.subset he)
    exact ⟨_,mem_map_of_mem hr,hre⟩
  · rw [mapAfter_squash,hmap,hhistory]
    cases Nat.le_total n k with
    | inl hnk =>
      rw [Nat.min_eq_left hnk,← hrestores n hn]
      exact restore_stop (fun e he => (hsorted.below n e he).trans hnk) _
    | inr hkn =>
      rw [Nat.min_eq_right hkn,restore_restore hkn]
      exact hrestores k hk
  · rw [hmap]
    exact hrestores n hn

theorem Sound.commit (h : Sound c s ts) (htid : tid<c.numThreads) (n : ℕ) :
    Post (s.removeFromHistory n tid) (fun s' => Sound c s' (Function.update ts tid ((ts tid).commit n))) fun _ => False := by
  obtain ⟨hchain,hsorted,hknown,hrestores⟩:=h.tracks tid htid
  have hsame : s.setHistory tid (s.historyBuffer tid).reverse.reverse=s := by
    unfold setHistory
    rw [reverse_reverse,update_eq_self]
  have hprev : ∀ e∈(s.historyBuffer tid).reverse,e.newPhysReg≠e.prevPhysReg → e.prevPhysReg.classValue ≠ .misc :=
    fun e he => hchain.prev e (mem_reverse.mp he)
  refine (retire_post n _ s hprev).imp fun s' hs' => ?_
  obtain ⟨hbalanced,hmap,hhistory,hpinned⟩:=hs'
  rw [hsame] at hbalanced
  have hsplit : s.historyBuffer tid=s'.historyBuffer tid++((s.historyBuffer tid).reverse.takeWhile fun h => h.instSeqNum≤n).reverse := by
    rw [hhistory,← reverse_append,takeWhile_append_dropWhile,reverse_reverse]
  have hgone : ∀ e∈((s.historyBuffer tid).reverse.takeWhile fun h => h.instSeqNum≤n).reverse,e.instSeqNum≤n := fun e he => by
    have hin:=mem_takeWhile_imp (mem_reverse.mp he)
    simpa using hin
  refine h.update htid hbalanced (fun r => by rw [hpinned,h.pinned]) ⟨?_,?_,fun e he => ?_,fun k hk => ?_⟩
  · rw [hsplit] at hchain
    rw [hmap]
    exact hchain.newest
  · rw [hsplit] at hsorted
    exact (pairwise_append.mp hsorted).1
  · refine hknown e ?_
    rw [hsplit]
    exact mem_append_left _ he
  · have hk' : (ts tid).committed≤k ∧ n≤k := max_le_iff.mp hk
    have hold:=hrestores k hk'.1
    rw [hsplit,restore_append (fun e he => (hgone e he).trans hk'.2)] at hold
    rw [hmap]
    exact hold

theorem fillMap_post (tid : ℕ) (cls : RegClass) (n : ℕ) (s : Rename) :
    Post (fillMap tid cls n s) (fun s' => Balanced tid s s' ∧ s'.historyBuffer=s.historyBuffer ∧
      s'.numPinnedWrites=s.numPinnedWrites) := by
  induction n generalizing s with
  | zero => exact ⟨Balanced.refl _ _,rfl,rfl⟩
  | succ n ih =>
    rw [fillMap,getReg]
    cases hfree : s.freeList cls with
    | nil => trivial
    | cons r free =>
      simp only [post_bind,post_ok]
      let s1:=({s with freeList := update s.freeList cls free}).setEntries tid cls (s.renameMap tid cls++[r])
      have hstep : Balanced tid s s1 := by
        refine ⟨fun t ht => ⟨update_of_ne ht ..,rfl⟩,fun cls' => ?_⟩
        show ((update s.renameMap tid (update (s.renameMap tid) cls (s.renameMap tid cls++[r])) tid cls' ++
          previous cls' (s.historyBuffer tid) : List PhysReg) : Multiset PhysReg)+update s.freeList cls free cls'=_
        rw [update_self,owned]
        by_cases hcls : cls'=cls
        · rw [hcls,update_self,update_self,hfree,← Multiset.cons_coe,← Multiset.singleton_add,← Multiset.coe_add,
            ← Multiset.coe_add,← Multiset.coe_add,Multiset.coe_singleton]
          abel
        · rw [update_of_ne hcls,update_of_ne hcls]
      refine (ih s1).imp fun s' hs' => ?_
      exact ⟨hstep.trans hs'.1,hs'.2.1,hs'.2.2⟩

theorem fillMaps_post (tid : ℕ) (maps : List (RegClass × ℕ)) (s : Rename) :
    Post (fillMaps tid maps s) (fun s' => Balanced tid s s' ∧ s'.historyBuffer=s.historyBuffer ∧
      s'.numPinnedWrites=s.numPinnedWrites) := by
  induction maps generalizing s with
  | nil => exact ⟨Balanced.refl _ _,rfl,rfl⟩
  | cons m maps ih =>
    obtain ⟨cls,n⟩:=m
    refine (fillMap_post tid cls n s).bind fun s1 hs1 => (ih s1).imp fun s' hs' => ?_
    exact ⟨hs1.1.trans hs'.1,hs'.2.1.trans hs1.2.1,hs'.2.2.trans hs1.2.2⟩

theorem fillThreads_post (n : ℕ) (hn : n≤c.numThreads) (hc : Conserved c s) :
    Post (fillThreads c n s) (fun s' => Conserved c s' ∧ s'.historyBuffer=s.historyBuffer ∧
      s'.numPinnedWrites=s.numPinnedWrites) := by
  induction n with
  | zero => exact ⟨hc,rfl,rfl⟩
  | succ n ih =>
    refine (ih (Nat.le_of_succ_le hn)).bind fun s1 hs1 => (fillMaps_post n (maps c) s1).imp fun s' hs' => ?_
    exact ⟨hs1.1.step hs'.1 hn,hs'.2.1.trans hs1.2.1,hs'.2.2.trans hs1.2.2⟩

theorem init_post : Post (init c) (fun s => Sound c s fun tid => ⟨s.renameMap tid,[],0⟩) := by
  refine (fillThreads_post (c := c) c.numThreads (le_refl _) fun cls => ?_).imp fun s hs => ?_
  · have hnone : Queues.queued c.numThreads (owned ⟨physRegs c,fun _ _ => [],fun _ => [],fun _ => 0⟩ cls)=[] :=
      flatMap_eq_nil_iff.mpr fun _ _ => rfl
    rw [hnone]
    exact zero_add _
  · obtain ⟨hconserved,hhistory,hpinned⟩:=hs
    refine ⟨hconserved,fun r => by rw [hpinned],fun tid _ => ?_⟩
    have hnil : s.historyBuffer tid=[] := by rw [hhistory]
    refine ⟨?_,?_,?_,fun n _ => ?_⟩
    · rw [hnil]
      trivial
    · rw [hnil]
      exact .nil
    · rw [hnil]
      exact fun h hh => absurd hh not_mem_nil
    · rw [hnil]
      rfl

theorem Reachable.sound (h : Reachable c s ts) : Sound c s ts := by
  induction h with
  | start s hinit => exact init_post.of_ok hinit
  | rename s s' ts tid inst _ htid hlarger hdests hcan hrun ih => exact (ih.rename htid hlarger hdests hcan).of_ok hrun
  | squash s s' ts tid n _ htid hn hrun ih => exact ((ih.squash htid hn).of_ok hrun).1
  | commit s s' ts tid n _ htid hrun ih => exact (ih.commit htid n).of_ok hrun

/-- In every run the physical registers of each class are those of the maps, the free ones and those the histories keep,
none of them twice, a squash leaves the map after the last instruction up to its number that is not squashed, and renames
that `canRename` admits find free registers. -/
theorem registers_conserved (h : Reachable c s ts) :
    (∀ cls,(physRegs c cls).Nodup ∧ (Queues.queued c.numThreads (fun tid => s.renameMap tid cls) : Multiset PhysReg)+s.freeList cls +
      Queues.queued c.numThreads (fun tid => previous cls (s.historyBuffer tid))=physRegs c cls) ∧
    (∀ tid n,tid<c.numThreads → (ts tid).committed≤n →
      Post (s.doSquash c n tid) (fun s' => s'.renameMap tid=(ts tid).mapAfter (upTo n)) fun _ => False) ∧
    (∀ tid inst,tid<c.numThreads → (∀ dest∈inst.destRegs,dest.numPinnedWrites=0) → s.canRename inst=true →
      Post (s.renameDestRegs c tid inst) (fun _ => True) fun e => e ≠ .noFreeReg) := by
  have hsound:=h.sound
  refine ⟨fun cls => ⟨physRegs_nodup c cls,?_⟩,fun tid n htid hn => ?_,fun tid inst htid hdests hcan => ?_⟩
  · rw [add_right_comm,← Queues.queued_append]
    exact hsound.conserved cls
  · exact (hsound.squash htid hn).imp fun _ hs' => hs'.2
  · exact (renameRegs_post inst.seqNum inst.destRegs s hsound.conserved htid (hsound.tracks tid htid).chain hsound.pinned hdests
      (canRename_enough hcan)).imp fun _ _ => trivial

def oneReg : Config :=
  { numRegs := fun cls => if cls = .int then 1 else 0, numPhysRegs := fun cls => if cls = .int then 3 else 0, numVecElemPerVecReg := 1,
    zeroReg := 7, numThreads := 1, vecMode := .full}

theorem squashed_twice : ∃ s ts s',Reachable oneReg s ts ∧ (ts 0).committed≤6 ∧ s.doSquash oneReg 6 0 = .ok s' ∧
    s'.renameMap 0 .int=[⟨.int,0,none⟩] ∧ ((ts 0).mapAfter fun r => r.seqNum≤6) .int=[⟨.int,1,none⟩] := by
  have hstart : Reachable oneReg _ _ := .start _ rfl
  have hfive : Reachable oneReg _ _ := .rename _ _ _ 0 ⟨5,[⟨.int,0,none,0⟩]⟩ hstart (by decide) (fun _ hr => absurd hr not_mem_nil)
    (by decide) rfl rfl
  have hsquash : Reachable oneReg _ _ := .squash _ _ _ 0 4 hfive (by decide) (by decide) rfl
  have hseven : Reachable oneReg _ _ := .rename _ _ _ 0 ⟨7,[⟨.int,0,none,0⟩]⟩ hsquash (by decide) (by decide) (by decide) rfl rfl
  exact ⟨_,_,_,hseven,by decide,rfl,rfl,rfl⟩

theorem not_map_after_last : ¬∀ (c : Config) (s s' : Rename) (ts : ℕ → Thread) (tid n : ℕ),c.vecMode = .full → Reachable c s ts →
    tid<c.numThreads → (ts tid).committed≤n → s.doSquash c n tid = .ok s' →
    s'.renameMap tid=(ts tid).mapAfter fun r => r.seqNum≤n := by
  intro hclaim
  obtain ⟨s,ts,s',hreachable,hcommitted,hrun,hmap,hafter⟩:=squashed_twice
  have hsame:=congrFun (hclaim oneReg s s' ts 0 6 rfl hreachable (by decide) hcommitted hrun) .int
  rw [hmap,hafter] at hsame
  exact absurd hsame (by decide)

theorem registers_conserved_squashed : ∃ s ts,Reachable oneReg s ts ∧
    Post (s.doSquash oneReg 6 0) (fun s' => s'.renameMap 0=(ts 0).mapAfter (upTo 6)) fun _ => False := by
  obtain ⟨s,ts,_,hreachable,hcommitted,_⟩:=squashed_twice
  exact ⟨s,ts,hreachable,(registers_conserved hreachable).2.1 0 6 (by decide) hcommitted⟩

end Rename
end AquaGem5.O3
