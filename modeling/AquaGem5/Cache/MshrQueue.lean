import AquaGem5.Cache.MshrFlags
import AquaGem5.Lib.Queues

/-!
# The queue of miss status holding registers (queue.hh, mshr_queue.cc)

An entry is known by its place in the storage.
-/

namespace AquaGem5.Cache
open Checked BackInsert Function List

/-- `reserve` of the `n` entries are kept for overflow. -/
structure MshrQueue (n blkSize : ℕ) where
  numReserve : ℕ
  entries : Fin n → Mshr blkSize
  allocatedList : List (Fin n)
  readyList : List (Fin n)
  freeList : List (Fin n)
  numInService : ℤ
  allocated : ℤ

namespace MshrQueue

variable {n blkSize : ℕ} (q : MshrQueue n blkSize)

def init (numReserve : ℕ) : MshrQueue n blkSize where
  numReserve := numReserve
  entries := fun _ => Mshr.idle
  allocatedList := []
  readyList := []
  freeList := List.finRange n
  numInService := 0
  allocated := 0

def readyTime (e : Fin n) : ℕ := (q.entries e).readyTime

def setEntry (e : Fin n) (s : Mshr blkSize) : MshrQueue n blkSize :=
  {q with entries := Function.update q.entries e s}

def isFull : Bool := decide ((n : ℤ)-q.numReserve≤q.allocated)

def addToReadyList (e : Fin n) : Except Fault (MshrQueue n blkSize) :=
  if q.readyList.getLast?.all fun b => decide (q.readyTime b≤q.readyTime e) then
    .ok {q with readyList := q.readyList++[e]}
  else if q.readyList.any fun i => decide (q.readyTime e<q.readyTime i) then
    .ok {q with readyList := scan (fun i => decide (q.readyTime e<q.readyTime i)) e q.readyList}
  else .error .panic

def allocate (pkt : Packet blkSize) (whenReady order : ℕ) (allocOnFill : Bool) :
    Except Fault (MshrQueue n blkSize) :=
  match q.freeList with
  | [] => .error .assertion
  | e::rest =>
    if (q.entries e).getNumTargets≠0 then .error .assertion
    else do
      let q := {q with freeList := rest, allocatedList := q.allocatedList++[e]}
      let q := q.setEntry e ((q.entries e).allocate pkt whenReady order allocOnFill)
      let q ← q.addToReadyList e
      return {q with allocated := q.allocated+1}

def eraseReady (e : Fin n) : Except Fault (MshrQueue n blkSize) :=
  if e∈q.readyList then .ok {q with readyList := q.readyList.erase e} else .error .dangling

/-- Where `splice` puts an entry, given what `find_if` returned. -/
def splice (e : Fin n) (it : Option (Fin n)) (xs : List (Fin n)) : List (Fin n) :=
  match it with
  | some i => if i=e then xs else scan (fun j => decide (j=i)) e (xs.erase e)
  | none => xs.erase e++[e]

def delay (e : Fin n) (now delayTicks : ℕ) : Except Fault (MshrQueue n blkSize) := do
  let s ← (q.entries e).delay now delayTicks
  let q := q.setEntry e s
  if e∈q.readyList then
    let it := (q.readyList.dropWhile fun i => decide (i≠e)).find? fun i => decide (q.readyTime i≤q.readyTime e)
    return {q with readyList := splice e it q.readyList}
  else .error .dangling

def markInService (e : Fin n) (pendingModifiedResp : Bool) : Except Fault (MshrQueue n blkSize) := do
  let s ← (q.entries e).markInService pendingModifiedResp
  let q ← (q.setEntry e s).eraseReady e
  return {q with numInService := q.numInService+1}

def markPending (e : Fin n) : Except Fault (MshrQueue n blkSize) :=
  if (q.entries e).inService then
    {q.setEntry e {q.entries e with inService := false} with
      numInService := q.numInService-1}.addToReadyList e
  else .error .assertion

def release (e : Fin n) : Except Fault (MshrQueue n blkSize) :=
  if e∈q.allocatedList then
    let q := {q with
      allocatedList := q.allocatedList.erase e
      freeList := e::q.freeList
      allocated := q.allocated-1}
    if (q.entries e).inService then .ok {q with numInService := q.numInService-1}
    else q.eraseReady e
  else .error .dangling

def deallocate (e : Fin n) : Except Fault (MshrQueue n blkSize) := do
  let q ← q.release e
  let s ← (q.entries e).deallocate
  return q.setEntry e s

def deallocateUnless (promoted : Bool) (e : Fin n) : Except Fault (MshrQueue n blkSize) :=
  if promoted then .ok q else q.deallocate e

def forceDeallocateTarget (e : Fin n) (now : ℕ) : Except Fault (MshrQueue n blkSize × Bool) :=
  let wasFull := q.isFull
  if (q.entries e).hasTargets then
    let q := q.setEntry e (q.entries e).popTarget
    if (q.entries e).hasTargets then .ok (q,wasFull && !q.isFull)
    else do
      let (s,promoted) ← (q.entries e).promoteDeferredTargets now
      let q := q.setEntry e s
      let q ← q.deallocateUnless promoted e
      return (q,wasFull && !q.isFull)
  else .error .assertion

def getNext (now : ℕ) : Option (Fin n) :=
  match q.readyList with
  | [] => none
  | e::_ => if now<q.readyTime e then none else some e

def maxTick : ℕ := 2^64-1

def nextReadyTime : ℕ :=
  match q.readyList with
  | [] => maxTick
  | e::_ => q.readyTime e

inductive Op (n blkSize : ℕ) where
  | allocate (pkt : Packet blkSize) (whenReady order : ℕ) (allocOnFill : Bool)
  | markInService (e : Fin n) (pendingModifiedResp : Bool)
  | markPending (e : Fin n)
  | deallocate (e : Fin n)
  | delay (e : Fin n) (now delayTicks : ℕ)
  | forceDeallocateTarget (e : Fin n) (now : ℕ)

def exec (q : MshrQueue n blkSize) : Op n blkSize → Except Fault (MshrQueue n blkSize)
  | .allocate pkt whenReady order allocOnFill => q.allocate pkt whenReady order allocOnFill
  | .markInService e pendingModifiedResp => q.markInService e pendingModifiedResp
  | .markPending e => q.markPending e
  | .deallocate e => q.deallocate e
  | .delay e now delayTicks => q.delay e now delayTicks
  | .forceDeallocateTarget e now => (q.forceDeallocateTarget e now).map fun r => r.1

def Serves (s s' : Mshr blkSize) : Prop :=
  s'.inService=s.inService ∧ (s.inService=false → s'.readyTime=s.readyTime) ∧ ∃ c,s.exec c = .ok s'

inductive Run (n blkSize : ℕ) (cond : MshrQueue n blkSize → Op n blkSize → Prop) : MshrQueue n blkSize → Prop
  | init (numReserve : ℕ) : Run n blkSize cond (init numReserve)
  | step {q q' : MshrQueue n blkSize} {c : Op n blkSize} :
      Run n blkSize cond q → cond q c → q.exec c = .ok q' → Run n blkSize cond q'
  | serve {q : MshrQueue n blkSize} {e : Fin n} {s : Mshr blkSize} :
      Run n blkSize cond q → e∈q.allocatedList → Serves (q.entries e) s → Run n blkSize cond (q.setEntry e s)

def KeepsPlace (q : MshrQueue n blkSize) (e : Fin n) (t : ℕ) : Prop :=
  (∀ i,[i,e].Sublist q.readyList → q.readyTime i≤t) ∧ ∀ i,[e,i].Sublist q.readyList → t≤q.readyTime i

/-- The steps that keep the list sorted. -/
def InPlace (q : MshrQueue n blkSize) : Op n blkSize → Prop
  | .delay e now delayTicks => ∀ i,[e,i].Sublist q.readyList → now+delayTicks≤q.readyTime i
  | .forceDeallocateTarget e now =>
    (q.entries e).inService=false → (q.entries e).targets.list.tail=[] →
      ∀ front,(Mshr.promoted [] (q.entries e).deferredTargets.list).head?=some front →
        q.KeepsPlace e (max now front.readyTime)
  | _ => True

structure Partition (q : MshrQueue n blkSize) : Prop where
  entries : (q.allocatedList++q.freeList).Perm (List.finRange n)
  allocated : q.allocated=q.allocatedList.length
  ready : q.readyList.Nodup
  waiting : ∀ e,e∈q.readyList ↔ e∈q.allocatedList ∧ (q.entries e).inService=false
  inService : q.numInService=(q.allocatedList.filter fun e => (q.entries e).inService).length

def Sorted (q : MshrQueue n blkSize) : Prop := q.readyList.Pairwise fun a b => q.readyTime a≤q.readyTime b

structure Inv (q : MshrQueue n blkSize) : Prop where
  entries : (q.allocatedList++q.freeList).Perm (List.finRange n)
  allocated : q.allocated=q.allocatedList.length
  ready : q.readyList.Nodup
  waiting : ∀ e,e∈q.readyList ↔ e∈q.allocatedList ∧ (q.entries e).inService=false
  count : q.numInService+q.readyList.length=q.allocatedList.length
  idle : ∀ e∈q.freeList,(q.entries e).inService=false ∧ (q.entries e).targets.list=[]

variable {q} {q' : MshrQueue n blkSize} {e : Fin n}

namespace Inv

variable (h : Inv q)

include h

theorem nodup : (q.allocatedList++q.freeList).Nodup := h.entries.nodup_iff.mpr (List.nodup_finRange n)

theorem apart (he : e∈q.freeList) : e∉q.allocatedList :=
  fun hmem => (nodup_append.mp h.nodup).2.2 e hmem e he rfl

theorem mem_or (e : Fin n) : e∈q.allocatedList ∨ e∈q.freeList :=
  mem_append.mp (h.entries.mem_iff.mpr (mem_finRange e))

theorem allocated_of (he : (q.entries e).inService=true ∨ (q.entries e).hasTargets=true) : e∈q.allocatedList := by
  refine (h.mem_or e).resolve_right fun hfree => ?_
  obtain ⟨hservice,hnone⟩:=h.idle e hfree
  rcases he with he | he
  · rw [hservice] at he
    cases he
  · simp [Mshr.hasTargets,hnone] at he

theorem partition : Partition q where
  entries := h.entries
  allocated := h.allocated
  ready := h.ready
  waiting := h.waiting
  inService := by
    have hnodup:=(nodup_append.mp h.nodup).1
    have hperm : q.readyList.Perm (q.allocatedList.filter fun e => !(q.entries e).inService) := by
      rw [perm_ext_iff_of_nodup h.ready (hnodup.filter _)]
      intro e
      rw [h.waiting,mem_filter,Bool.not_eq_true']
    have hsplit:=length_eq_length_filter_add (l := q.allocatedList) fun e => (q.entries e).inService
    have hcount:=h.count
    rw [hperm.length_eq] at hcount
    omega

theorem update {s : Mshr blkSize} (he : e∈q.allocatedList) (hs : s.inService=(q.entries e).inService) :
    Inv (q.setEntry e s) where
  entries := h.entries
  allocated := h.allocated
  ready := h.ready
  waiting := by
    intro x
    by_cases hx : x=e
    · subst hx
      simp only [MshrQueue.setEntry,update_self,hs]
      exact h.waiting x
    · simp only [MshrQueue.setEntry,update_of_ne hx]
      exact h.waiting x
  count := h.count
  idle := by
    intro x hx
    have hne : x≠e := fun hxe => h.apart hx (hxe ▸ he)
    simp only [MshrQueue.setEntry,update_of_ne hne]
    exact h.idle x hx

end Inv

theorem init_inv (numReserve : ℕ) : Inv (init numReserve : MshrQueue n blkSize) :=
  ⟨Perm.refl _,rfl,nodup_nil,fun e => by simp [init],rfl,fun _ _ => ⟨rfl,rfl⟩⟩

theorem Sorted.congr (h : Sorted q) (hlist : q'.readyList=q.readyList)
    (htime : ∀ e∈q.readyList,q'.readyTime e=q.readyTime e) : Sorted q' := by
  unfold Sorted
  rw [hlist]
  refine Pairwise.imp_of_mem ?_ h
  intro a b ha hb hab
  rw [htime a ha,htime b hb]
  exact hab

theorem readyTime_setEntry_self (q : MshrQueue n blkSize) (e : Fin n) (s : Mshr blkSize) :
    (q.setEntry e s).readyTime e=s.readyTime := by
  simp [readyTime,setEntry]

theorem readyTime_setEntry_ne {x : Fin n} (hx : x≠e) (s : Mshr blkSize) :
    (q.setEntry e s).readyTime x=q.readyTime x := by
  simp [readyTime,setEntry,hx]

theorem Sorted.update (h : Sorted q) (hnodup : q.readyList.Nodup) {s : Mshr blkSize}
    (hplace : e∈q.readyList → q.KeepsPlace e s.readyTime) : Sorted (q.setEntry e s) := by
  unfold Sorted at h ⊢
  rw [pairwise_iff_forall_sublist] at h ⊢
  intro a b hab
  have hpair : [a,b].Nodup := hnodup.sublist hab
  have hne : a≠b := by simpa using hpair
  by_cases ha : a=e
  · subst ha
    rw [readyTime_setEntry_self,readyTime_setEntry_ne hne.symm]
    exact (hplace (hab.subset (by simp))).2 b hab
  · by_cases hb : b=e
    · subst hb
      rw [readyTime_setEntry_self,readyTime_setEntry_ne hne]
      exact (hplace (hab.subset (by simp))).1 a hab
    · rw [readyTime_setEntry_ne ha,readyTime_setEntry_ne hb]
      exact h hab

theorem addToReadyList_cases (h : q.addToReadyList e = .ok q') :
    ∃ before after,q.readyList=before++after ∧ q'={q with readyList := before++e::after} ∧
      (Sorted q → (∀ x∈before,q.readyTime x≤q.readyTime e) ∧ ∀ x∈after,q.readyTime e≤q.readyTime x) := by
  unfold addToReadyList at h
  split at h
  · rename_i hlast
    cases h
    refine ⟨q.readyList,[],(append_nil _).symm,rfl,fun hs => ⟨fun x hx => ?_,fun x hx => by cases hx⟩⟩
    cases hb : q.readyList.getLast? with
    | none =>
      rw [getLast?_eq_none_iff] at hb
      rw [hb] at hx
      cases hx
    | some b =>
      rw [hb,Option.all_some,decide_eq_true_eq] at hlast
      obtain ⟨ys,hys⟩:=getLast?_eq_some_iff.mp hb
      unfold Sorted at hs
      rw [hys] at hs hx
      rcases mem_append.mp hx with hx | hx
      · exact Nat.le_trans ((pairwise_append.mp hs).2.2 x hx b (by simp)) hlast
      · obtain rfl : x=b := by simpa using hx
        exact hlast
  · split at h
    · rename_i hany
      cases h
      obtain ⟨before,after,hsplit,hscan,hbefore,hafter⟩ :=
        scan_eq (fun i => decide (q.readyTime e<q.readyTime i)) e q.readyList
      refine ⟨before,after,hsplit,by rw [hscan],fun hs => ⟨fun x hx => ?_,fun x hx => ?_⟩⟩
      · have hnot:=hbefore x hx
        rw [decide_eq_false_iff_not] at hnot
        omega
      · cases after with
        | nil => cases hx
        | cons y ys =>
          have hy : q.readyTime e<q.readyTime y := by simpa using hafter y rfl
          unfold Sorted at hs
          rw [hsplit] at hs
          rcases mem_cons.mp hx with rfl | hx
          · exact Nat.le_of_lt hy
          · have hle:=(pairwise_cons.mp (pairwise_append.mp hs).2.1).1 x hx
            omega
    · cases h

theorem Sorted.insert (h : Sorted q) {before after : List (Fin n)} (hsplit : q.readyList=before++after)
    (hbefore : ∀ x∈before,q.readyTime x≤q.readyTime e) (hafter : ∀ x∈after,q.readyTime e≤q.readyTime x) :
    Sorted {q with readyList := before++e::after} := by
  unfold Sorted at h ⊢
  rw [hsplit,pairwise_append] at h
  rw [pairwise_append,pairwise_cons]
  refine ⟨h.1,⟨hafter,h.2.1⟩,fun a ha b hb => ?_⟩
  rcases mem_cons.mp hb with rfl | hb
  · exact hbefore a ha
  · exact h.2.2 a ha b hb

structure Missing (q : MshrQueue n blkSize) (e : Fin n) : Prop where
  entries : (q.allocatedList++q.freeList).Perm (List.finRange n)
  ready : q.readyList.Nodup
  missing : e∉q.readyList
  mem : e∈q.allocatedList
  waits : (q.entries e).inService=false
  waiting : ∀ x,x≠e → (x∈q.readyList ↔ x∈q.allocatedList ∧ (q.entries x).inService=false)
  count : q.numInService+q.readyList.length+1=q.allocatedList.length
  idle : ∀ x∈q.freeList,(q.entries x).inService=false ∧ (q.entries x).targets.list=[]

theorem Missing.add (h : Missing q e) (hrun : q.addToReadyList e = .ok q') {a : ℤ} (ha : a=q.allocatedList.length) :
    Inv {q' with allocated := a} ∧ (Sorted q → Sorted q') := by
  obtain ⟨before,after,hsplit,rfl,horder⟩:=addToReadyList_cases hrun
  have hready:=h.ready
  have hmissing:=h.missing
  have hcount:=h.count
  rw [hsplit] at hready hmissing hcount
  refine ⟨⟨h.entries,ha,nodup_middle.mpr (nodup_cons.mpr ⟨hmissing,hready⟩),?_,?_,h.idle⟩,?_⟩
  · intro x
    simp only [mem_append,mem_cons]
    by_cases hx : x=e
    · subst hx
      exact ⟨fun _ => ⟨h.mem,h.waits⟩,fun _ => .inr (.inl rfl)⟩
    · rw [← h.waiting x hx,hsplit,mem_append]
      simp [hx]
  · simp only [length_append,length_cons] at hcount ⊢
    omega
  · intro hs
    obtain ⟨hbefore,hafter⟩:=horder hs
    exact hs.insert hsplit hbefore hafter

theorem Inv.allocate (h : Inv q) {pkt : Packet blkSize} {whenReady order : ℕ} {allocOnFill : Bool}
    (hrun : q.allocate pkt whenReady order allocOnFill = .ok q') : Inv q' ∧ (Sorted q → Sorted q') := by
  unfold MshrQueue.allocate at hrun
  split at hrun
  · cases hrun
  · rename_i e rest hfree
    split at hrun
    · cases hrun
    · obtain ⟨q2,hadd,hlast⟩:=bind_ok hrun
      cases hlast
      have he : e∈q.freeList := by rw [hfree]; exact mem_cons_self
      have hout:=h.apart he
      have hnodup:=h.nodup
      rw [hfree] at hnodup
      have hready : e∉q.readyList := fun hmem => hout ((h.waiting e).mp hmem).1
      have hmissing : Missing (setEntry {q with freeList := rest, allocatedList := q.allocatedList++[e]} e
          ((q.entries e).allocate pkt whenReady order allocOnFill)) e := by
        refine ⟨?_,h.ready,hready,by simp [setEntry],by simp [setEntry,Mshr.allocate],?_,?_,?_⟩
        · simp only [setEntry,append_assoc,singleton_append]
          rw [← hfree]
          exact h.entries
        · intro x hx
          simp only [setEntry,mem_append,mem_singleton,hx,or_false,update_of_ne hx]
          exact h.waiting x
        · have hcount:=h.count
          simp only [setEntry,length_append,length_singleton]
          omega
        · intro x hx
          have hne : x≠e := by
            rintro rfl
            exact (nodup_cons.mp (nodup_append.mp hnodup).2.1).1 hx
          simp only [setEntry,update_of_ne hne]
          exact h.idle x (by rw [hfree]; exact mem_cons_of_mem _ hx)
      have hlen : q.allocated+1=(q.allocatedList++[e]).length := by
        rw [h.allocated,length_append,length_singleton,Nat.cast_add,Nat.cast_one]
      obtain ⟨_,_,_,hsame,_⟩:=addToReadyList_cases hadd
      have hcounter : q2.allocated=q.allocated := by rw [hsame]; rfl
      obtain ⟨hinv,hsorted⟩:=hmissing.add hadd (a := q.allocated+1) hlen
      rw [hcounter]
      refine ⟨hinv,fun hs => (hsorted ?_).congr rfl fun _ _ => rfl⟩
      refine Sorted.congr (q := q) hs rfl fun x hx => readyTime_setEntry_ne (q := q) (fun hxe : x=e => hready (hxe ▸ hx)) _

theorem Inv.markPending (h : Inv q) (hrun : q.markPending e = .ok q') : Inv q' ∧ (Sorted q → Sorted q') := by
  unfold MshrQueue.markPending at hrun
  split at hrun
  · rename_i hservice
    have hmem:=h.allocated_of (.inl hservice)
    have hready : e∉q.readyList := by
      intro hin
      rw [((h.waiting e).mp hin).2] at hservice
      cases hservice
    have hmissing : Missing {q.setEntry e {q.entries e with inService := false} with
        numInService := q.numInService-1} e := by
      refine ⟨h.entries,h.ready,hready,hmem,by simp [setEntry],?_,?_,?_⟩
      · intro x hx
        simp only [setEntry,update_of_ne hx]
        exact h.waiting x
      · have hcount:=h.count
        simp only [setEntry]
        omega
      · intro x hx
        have hne : x≠e := fun hxe => h.apart hx (hxe ▸ hmem)
        simp only [setEntry,update_of_ne hne]
        exact h.idle x hx
    obtain ⟨_,_,_,hsame,_⟩:=addToReadyList_cases hrun
    obtain ⟨hinv,hsorted⟩:=hmissing.add hrun (a := q.allocated) h.allocated
    have hcounter : q'.allocated=q.allocated := by rw [hsame]; rfl
    rw [← hcounter] at hinv
    refine ⟨hinv,fun hs => hsorted ?_⟩
    exact Sorted.congr (q := q) hs rfl fun x hx => readyTime_setEntry_ne (q := q) (fun hxe : x=e => hready (hxe ▸ hx)) _
  · cases hrun

theorem eraseReady_cases (h : q.eraseReady e = .ok q') :
    e∈q.readyList ∧ q'={q with readyList := q.readyList.erase e} := by
  unfold eraseReady at h
  split at h
  · rename_i hmem
    exact ⟨hmem,(Except.ok.inj h).symm⟩
  · cases h

theorem Sorted.erase (h : Sorted q) (e : Fin n) : Sorted {q with readyList := q.readyList.erase e} :=
  Pairwise.sublist erase_sublist h

theorem Inv.markInService (h : Inv q) {pendingModifiedResp : Bool}
    (hrun : q.markInService e pendingModifiedResp = .ok q') : Inv q' ∧ (Sorted q → Sorted q') := by
  obtain ⟨s,hmark,hrest⟩:=bind_ok hrun
  obtain ⟨q2,herase,hlast⟩:=bind_ok hrest
  cases hlast
  obtain ⟨_,hservice,_,htime,_⟩:=Mshr.markInService_cases hmark
  obtain ⟨hmem,rfl⟩:=eraseReady_cases herase
  have halloc:=((h.waiting e).mp hmem).1
  refine ⟨⟨h.entries,h.allocated,h.ready.erase e,?_,?_,?_⟩,fun hs => ?_⟩
  · intro x
    simp only [setEntry]
    rw [h.ready.mem_erase_iff]
    by_cases hx : x=e
    · subst hx
      simp [hservice]
    · simp only [update_of_ne hx,hx,ne_eq,not_false_eq_true,true_and]
      exact h.waiting x
  · have hcount:=h.count
    have hlen : (q.readyList.erase e).length=q.readyList.length-1 := length_erase_of_mem hmem
    have hpos : 0<q.readyList.length := length_pos_of_mem hmem
    simp only [setEntry]
    omega
  · intro x hx
    have hne : x≠e := fun hxe => h.apart hx (hxe ▸ halloc)
    simp only [setEntry,update_of_ne hne]
    exact h.idle x hx
  · refine Sorted.congr (q := {q with readyList := q.readyList.erase e}) (hs.erase e) rfl fun x hx => ?_
    exact readyTime_setEntry_ne (q := q) (h.ready.mem_erase_iff.mp hx).1 s

theorem delay_cases {now delayTicks : ℕ} (h : q.delay e now delayTicks = .ok q') :
    e∈q.readyList ∧ q.readyTime e≤now ∧
      q'=q.setEntry e {q.entries e with readyTime := now+delayTicks} := by
  obtain ⟨s,hdelay,hrest⟩:=bind_ok h
  unfold Mshr.delay at hdelay
  split at hdelay
  · rename_i htime
    cases hdelay
    simp only at hrest
    split at hrest
    · rename_i hmem
      refine ⟨hmem,htime,?_⟩
      cases hrest
      have hself : ∀ (t : Fin n → ℕ) (xs : List (Fin n)),e∈xs →
          (xs.dropWhile fun i => decide (i≠e)).find? (fun i => decide (t i≤t e))=some e := by
        intro t xs hxs
        induction xs with
        | nil => cases hxs
        | cons x xs ih =>
          by_cases hx : x=e
          · subst hx
            simp
          · have hrest : e∈xs := (mem_cons.mp hxs).resolve_left fun h => hx h.symm
            simp [hx] at ih ⊢
            exact ih hrest
      rw [hself _ _ hmem]
      simp [splice]
    · cases hrest
  · cases hdelay

theorem Inv.delay (h : Inv q) {now delayTicks : ℕ} (hrun : q.delay e now delayTicks = .ok q') :
    Inv q' ∧ (Sorted q → InPlace q (.delay e now delayTicks) → Sorted q') := by
  obtain ⟨hmem,htime,rfl⟩:=delay_cases hrun
  refine ⟨h.update ((h.waiting e).mp hmem).1 rfl,fun hs hplace => ?_⟩
  refine hs.update h.ready fun _ => ⟨fun i hi => ?_,hplace⟩
  have hbefore:=pairwise_iff_forall_sublist.mp hs hi
  have hle : q.readyTime i≤now := Nat.le_trans hbefore htime
  exact Nat.le_trans hle (Nat.le_add_right _ _)

theorem Inv.deallocate (h : Inv q) (hrun : q.deallocate e = .ok q') : Inv q' ∧ (Sorted q → Sorted q') := by
  obtain ⟨q1,hrelease,hrest⟩:=bind_ok hrun
  obtain ⟨s,hdealloc,hlast⟩:=bind_ok hrest
  cases hlast
  have hs : s.inService=false ∧ s.targets.list=[] := by
    unfold Mshr.deallocate at hdealloc
    split at hdealloc
    · cases hdealloc
    · rename_i hempty
      split at hdealloc
      · cases hdealloc
        exact ⟨rfl,Classical.not_not.mp hempty⟩
      · cases hdealloc
  unfold release at hrelease
  split at hrelease
  · rename_i hmem
    have hnodup:=(nodup_append.mp h.nodup).1
    have hlen:=length_erase_of_mem hmem
    have hpos:=length_pos_of_mem hmem
    have hcount:=h.count
    have hnum:=h.allocated
    -- what both ways of the release leave
    have hdone : ∀ (ready : List (Fin n)) (num : ℤ),ready.Nodup → e∉ready →
        (∀ x,x≠e → (x∈ready ↔ x∈q.readyList)) → num+ready.length+1=q.allocatedList.length →
        ready.Sublist q.readyList →
        Inv (MshrQueue.setEntry {q with
          allocatedList := q.allocatedList.erase e, freeList := e::q.freeList, allocated := q.allocated-1,
          readyList := ready, numInService := num} e s) ∧
        (Sorted q → Sorted (MshrQueue.setEntry {q with
          allocatedList := q.allocatedList.erase e, freeList := e::q.freeList, allocated := q.allocated-1,
          readyList := ready, numInService := num} e s)) := by
      intro ready num hready hout hother hnumber hsub
      refine ⟨⟨?_,?_,hready,?_,?_,?_⟩,fun hsorted => ?_⟩
      · have hperm : (q.allocatedList.erase e++e::q.freeList).Perm (q.allocatedList++q.freeList) := by
          refine perm_middle.trans ?_
          exact (perm_cons_erase hmem).symm.append_right _
        exact hperm.trans h.entries
      · simp only [MshrQueue.setEntry]
        omega
      · intro x
        simp only [MshrQueue.setEntry]
        rw [hnodup.mem_erase_iff]
        by_cases hx : x=e
        · subst hx
          simp [hout]
        · simp only [update_of_ne hx,hx,ne_eq,not_false_eq_true,true_and]
          rw [hother x hx]
          exact h.waiting x
      · simp only [MshrQueue.setEntry]
        omega
      · intro x hx
        by_cases hxe : x=e
        · subst hxe
          simp only [MshrQueue.setEntry,update_self]
          exact hs
        · simp only [MshrQueue.setEntry,update_of_ne hxe]
          exact h.idle x ((mem_cons.mp hx).resolve_left hxe)
      · have hpart : Sorted {q with readyList := ready} := Pairwise.sublist hsub hsorted
        refine hpart.congr rfl fun x hx => ?_
        exact readyTime_setEntry_ne (q := q) (fun hxe : x=e => hout (hxe ▸ hx)) s
    simp only at hrelease
    split at hrelease
    · rename_i hservice
      cases hrelease
      have hout : e∉q.readyList := by
        intro hin
        rw [((h.waiting e).mp hin).2] at hservice
        cases hservice
      exact hdone q.readyList (q.numInService-1) h.ready hout (fun _ _ => Iff.rfl) (by omega) (Sublist.refl _)
    · obtain ⟨hin,rfl⟩:=eraseReady_cases hrelease
      have hin' : e∈q.readyList := hin
      have hshort:=length_erase_of_mem hin'
      have hsome:=length_pos_of_mem hin'
      refine hdone (q.readyList.erase e) q.numInService (h.ready.erase e) ?_ ?_ (by omega) erase_sublist
      · intro hmem'
        exact (h.ready.mem_erase_iff.mp hmem').1 rfl
      · intro x hx
        rw [h.ready.mem_erase_iff]
        exact and_iff_right hx
  · cases hrelease

theorem Inv.forceDeallocateTarget (h : Inv q) {now : ℕ} {notify : Bool}
    (hrun : q.forceDeallocateTarget e now = .ok (q',notify)) :
    Inv q' ∧ (Sorted q → InPlace q (.forceDeallocateTarget e now) → Sorted q') := by
  unfold MshrQueue.forceDeallocateTarget at hrun
  simp only at hrun
  split at hrun
  · rename_i htargets
    have halloc:=h.allocated_of (.inr htargets)
    let q1:=q.setEntry e (q.entries e).popTarget
    have hentry : q1.entries e=(q.entries e).popTarget := update_self ..
    have hinv1 : Inv q1 := h.update halloc rfl
    have hsorted1 : Sorted q → Sorted q1 := by
      intro hs
      refine hs.congr rfl fun x _ => ?_
      by_cases hx : x=e
      · rw [hx]
        exact readyTime_setEntry_self q e _
      · exact readyTime_setEntry_ne hx _
    split at hrun
    · cases hrun
      exact ⟨hinv1,fun hs _ => hsorted1 hs⟩
    · rename_i hnone
      obtain ⟨⟨s,promoted⟩,hpromote,hrest⟩:=bind_ok hrun
      obtain ⟨q2,hdone,hlast⟩:=bind_ok hrest
      cases hlast
      have hpop : (q.entries e).popTarget.targets.list=[] := by
        have hempty : ¬(q1.entries e).hasTargets=true := hnone
        rw [hentry] at hempty
        simpa [Mshr.hasTargets] using hempty
      change (q1.entries e).promoteDeferredTargets now=_ at hpromote
      rw [hentry] at hpromote
      obtain ⟨_,_,rfl,rfl⟩ | ⟨rfl,front,hfront,rfl⟩:=Mshr.promoteDeferredTargets_cases hpromote
      · have hsame : q1.setEntry e (q.entries e).popTarget=q1 := by
          simp [q1,MshrQueue.setEntry]
        change (q1.setEntry e (q.entries e).popTarget).deallocate e=_ at hdone
        rw [hsame] at hdone
        obtain ⟨hinv,hsorted⟩:=hinv1.deallocate hdone
        exact ⟨hinv,fun hs _ => hsorted (hsorted1 hs)⟩
      · cases hdone
        refine ⟨hinv1.update halloc (congrArg Mshr.inService hentry).symm,fun hs hplace => ?_⟩
        refine (hsorted1 hs).update hinv1.ready fun hin => ?_
        have hwaits:=((h.waiting e).mp hin).2
        rw [hpop,nil_append] at hfront
        have hkeep:=hplace hwaits hpop front hfront
        have hsametime : ∀ x,q1.readyTime x=q.readyTime x := by
          intro x
          by_cases hx : x=e
          · rw [hx]
            exact readyTime_setEntry_self q e _
          · exact readyTime_setEntry_ne hx _
        exact ⟨fun x hx => by rw [hsametime]; exact hkeep.1 x hx,fun x hx => by rw [hsametime]; exact hkeep.2 x hx⟩
  · cases hrun

theorem Inv.exec (h : Inv q) {c : Op n blkSize} (hrun : q.exec c = .ok q') :
    Inv q' ∧ (Sorted q → InPlace q c → Sorted q') := by
  cases c with
  | allocate pkt whenReady order allocOnFill => exact (h.allocate hrun).imp_right fun hs hsorted _ => hs hsorted
  | markInService e pendingModifiedResp => exact (h.markInService hrun).imp_right fun hs hsorted _ => hs hsorted
  | markPending e => exact (h.markPending hrun).imp_right fun hs hsorted _ => hs hsorted
  | deallocate e => exact (h.deallocate hrun).imp_right fun hs hsorted _ => hs hsorted
  | delay e now delayTicks => exact h.delay hrun
  | forceDeallocateTarget e now =>
    simp only [MshrQueue.exec] at hrun
    cases hforce : q.forceDeallocateTarget e now with
    | error f =>
      rw [hforce] at hrun
      cases hrun
    | ok r =>
      rw [hforce] at hrun
      cases hrun
      exact h.forceDeallocateTarget hforce

theorem Inv.serve (h : Inv q) {s : Mshr blkSize} (he : e∈q.allocatedList) (hs : Serves (q.entries e) s) :
    Inv (q.setEntry e s) ∧ (Sorted q → Sorted (q.setEntry e s)) := by
  refine ⟨h.update he hs.1,fun hsorted => hsorted.congr rfl fun x hx => ?_⟩
  by_cases hxe : x=e
  · subst hxe
    rw [readyTime_setEntry_self,hs.2.1 ((h.waiting x).mp hx).2]
    rfl
  · exact readyTime_setEntry_ne hxe s

theorem Run.inv {cond : MshrQueue n blkSize → Op n blkSize → Prop} (h : Run n blkSize cond q) : Inv q := by
  induction h with
  | init numReserve => exact init_inv numReserve
  | step _ _ hrun ih => exact (ih.exec hrun).1
  | serve _ he hs ih => exact (ih.serve he hs).1

theorem Run.sorted (h : Run n blkSize InPlace q) : Sorted q := by
  induction h with
  | init numReserve => exact Pairwise.nil
  | step hr hc hrun ih => exact (hr.inv.exec hrun).2 ih hc
  | serve hr he hs ih => exact (hr.inv.serve he hs).2 ih

def Waits (q : MshrQueue n blkSize) (e : Fin n) : Prop := e∈q.allocatedList ∧ (q.entries e).inService=false

structure Served (q : MshrQueue n blkSize) : Prop where
  sorted : Sorted q
  getNext : ∀ now,(∃ e,q.Waits e ∧ q.readyTime e≤now) → ∃ e,q.getNext now=some e ∧ q.Waits e ∧ q.readyTime e≤now
  nextReadyTime : ∀ e,q.Waits e → q.nextReadyTime≤q.readyTime e
  attained : ∀ e,q.Waits e → ∃ x,q.Waits x ∧ q.nextReadyTime=q.readyTime x

theorem Sorted.served (h : Sorted q) (hinv : Inv q) : Served q := by
  have hfirst : ∀ e,q.Waits e → ∃ x xs,q.readyList=x::xs ∧ q.Waits x ∧ q.readyTime x≤q.readyTime e := by
    intro e he
    have hmem:=(hinv.waiting e).mpr he
    cases hlist : q.readyList with
    | nil =>
      rw [hlist] at hmem
      cases hmem
    | cons x xs =>
      refine ⟨x,xs,rfl,(hinv.waiting x).mp (by rw [hlist]; exact mem_cons_self),?_⟩
      unfold Sorted at h
      rw [hlist] at h hmem
      rcases mem_cons.mp hmem with rfl | hmem
      · exact Nat.le_refl _
      · exact (pairwise_cons.mp h).1 e hmem
  refine ⟨h,fun now hsome => ?_,fun e he => ?_,fun e he => ?_⟩
  · obtain ⟨e,he,hle⟩:=hsome
    obtain ⟨x,xs,hlist,hx,hxe⟩:=hfirst e he
    have hnow : q.readyTime x≤now := Nat.le_trans hxe hle
    exact ⟨x,by rw [MshrQueue.getNext,hlist]; exact if_neg (Nat.not_lt.mpr hnow),hx,hnow⟩
  · obtain ⟨x,xs,hlist,_,hxe⟩:=hfirst e he
    rw [MshrQueue.nextReadyTime,hlist]
    exact hxe
  · obtain ⟨x,xs,hlist,hx,_⟩:=hfirst e he
    exact ⟨x,hx,by rw [MshrQueue.nextReadyTime,hlist]⟩

/-- The lists always partition the entries, and the list stays in order while every step keeps its place. -/
theorem run_served (n blkSize : ℕ) :
    (∀ q : MshrQueue n blkSize,Run n blkSize (fun _ _ => True) q → Partition q) ∧
    ∀ q : MshrQueue n blkSize,Run n blkSize InPlace q → Partition q ∧ Served q :=
  ⟨fun _ h => h.inv.partition,fun _ h => ⟨h.inv.partition,h.sorted.served h.inv⟩⟩

def twoReads : Except Fault (MshrQueue 2 64) := do
  let q ← (init 0).allocate Mshr.readWord 0 0 true
  q.allocate Mshr.readWord 0 1 true

theorem twoReads_run {cond : MshrQueue 2 64 → Op 2 64 → Prop} (hcond : ∀ q order,cond q (.allocate Mshr.readWord 0 order true))
    {q : MshrQueue 2 64} (hrun : twoReads = .ok q) : Run 2 64 cond q := by
  obtain ⟨q1,h1,h2⟩:=bind_ok hrun
  exact ((Run.init 0).step (hcond _ 0) h1).step (hcond _ 1) h2

/-- The later of two reads is delayed. -/
theorem run_served_delayed : ∃ q : MshrQueue 2 64,Run 2 64 InPlace q ∧ q.readyTime 1=10 ∧ Partition q ∧ Served q := by
  have hrun : ∃ q q',twoReads = .ok q ∧ q.readyList=[0,1] ∧ q.delay 1 0 10 = .ok q' ∧ q'.readyTime 1=10 :=
    ⟨_,_,rfl,rfl,rfl,rfl⟩
  obtain ⟨q,q',hrun,hready,hdelay,htime⟩:=hrun
  have hlast : ∀ i : Fin 2,¬[1,i].Sublist [0,1] := by decide
  have hreach : Run 2 64 InPlace q' := (twoReads_run (fun _ _ => trivial) hrun).step (c := .delay 1 0 10)
    (fun i hi => absurd (hready ▸ hi) (hlast i)) hdelay
  exact ⟨q',hreach,htime,(run_served 2 64).2 q' hreach⟩

/-- The delayed read stays first, so that the other, though ready, is not found. -/
theorem delayed_unserved : ∃ q : MshrQueue 2 64,Run 2 64 (fun _ _ => True) q ∧ q.Waits 1 ∧ q.readyTime 1=0 ∧
    q.getNext 5=none ∧ q.nextReadyTime=10 ∧ ¬Served q := by
  have hrun : ∃ q q',twoReads = .ok q ∧ q.delay 0 0 10 = .ok q' ∧ q'.allocatedList=[0,1] ∧
      (q'.entries 1).inService=false ∧ q'.readyTime 1=0 ∧ q'.getNext 5=none ∧ q'.nextReadyTime=10 :=
    ⟨_,_,rfl,rfl,rfl,rfl,rfl,rfl,rfl⟩
  obtain ⟨q,q',hrun,hdelay,halloc,hservice,htime,hnext,hready⟩:=hrun
  have hreach : Run 2 64 (fun _ _ => True) q' := (twoReads_run (fun _ _ => trivial) hrun).step (c := .delay 0 0 10) trivial hdelay
  have hwaits : q'.Waits 1 := ⟨by rw [halloc]; decide,hservice⟩
  refine ⟨q',hreach,hwaits,htime,hnext,hready,fun hs => ?_⟩
  obtain ⟨e,he,_⟩:=hs.getNext 5 ⟨1,hwaits,by rw [htime]; decide⟩
  rw [hnext] at he
  cases he

end MshrQueue

end AquaGem5.Cache
