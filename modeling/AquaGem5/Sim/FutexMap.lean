import Mathlib.Data.Finset.Basic
import AquaGem5.Lib.Checked
import AquaGem5.Lib.Lines

/-!
# The futex map (futex_map.hh, futex_map.cc)

The hash map has a list of waiters for each futex in it. An iterator is the key it was found by, and the end of
the map is `none`. `wakeup` and `wakeup_bitset` erase from `waitingTcs` through a reference into the node they
have just freed; the model reads the thread that the node held.
-/

namespace AquaGem5.Sim

structure FutexKey where
  addr : UInt64
  tgid : UInt64
  deriving DecidableEq

structure WaiterState (TC : Type) where
  tc : TC
  bitmask : BitVec 32
  deriving DecidableEq

/-- `endDereference` is `it2->second` at the end of the map. -/
inductive FutexFault where
  | endDereference
  deriving DecidableEq

structure FutexMap (TC : Type) where
  futexes : FutexKey → Option (List (WaiterState TC))
  waitingTcs : Finset TC

/-- What a call leaves: the map, the value it returns and the threads it has activated, in this order. -/
structure FutexMap.Outcome (TC : Type) where
  map : FutexMap TC
  result : ℤ
  activated : List TC

variable {TC α : Type}

def WaiterState.checkMask (w : WaiterState TC) (wakeupBitmask : BitVec 32) : Bool := w.bitmask &&& wakeupBitmask != 0

namespace FutexMap

def empty : FutexMap TC := ⟨fun _ => none,∅⟩

/-- The loops that pop the front of a list, from the count `n` up to `count`. -/
def popFront (count : ℤ) : ℤ → List α → List α × List α
  | _,[] => ([],[])
  | n,a::l =>
    if n<count then
      let r := popFront count (n+1) l
      (a::r.1,r.2)
    else ([],a::l)

/-- `if (waiterList.empty()) erase(it)`. -/
def eraseEmpty (futexes : FutexKey → Option (List (WaiterState TC))) (key : FutexKey) :
    FutexKey → Option (List (WaiterState TC)) :=
  if (futexes key).any List.isEmpty then Function.update futexes key none else futexes

variable [DecidableEq TC]

def wakeup (m : FutexMap TC) (addr tgid : UInt64) (count : ℤ) : Outcome TC :=
  let key := ⟨addr,tgid⟩
  match m.futexes key with
  | none => ⟨m,0,[]⟩
  | some waiterList =>
    let r := popFront count 0 waiterList
    let woken := r.1.map (·.tc)
    ⟨⟨eraseEmpty (Function.update m.futexes key (some r.2)) key,woken.foldl Finset.erase m.waitingTcs⟩,
      woken.length,woken⟩

def suspendBitset (m : FutexMap TC) (addr tgid : UInt64) (tc : TC) (bitmask : BitVec 32) : FutexMap TC :=
  let key := ⟨addr,tgid⟩
  let waiterList := match m.futexes key with
    | none => [⟨tc,bitmask⟩]
    | some waiterList => waiterList++[⟨tc,bitmask⟩]
  ⟨Function.update m.futexes key (some waiterList),insert tc m.waitingTcs⟩

def suspend (m : FutexMap TC) (addr tgid : UInt64) (tc : TC) : FutexMap TC :=
  m.suspendBitset addr tgid tc 0xffffffff

def wakeupBitset (m : FutexMap TC) (addr tgid : UInt64) (bitmask : BitVec 32) : Outcome TC :=
  let key := ⟨addr,tgid⟩
  match m.futexes key with
  | none => ⟨m,0,[]⟩
  | some waiterList =>
    let woken := (waiterList.filter (·.checkMask bitmask)).map (·.tc)
    let rest := waiterList.filter fun w => !w.checkMask bitmask
    ⟨⟨eraseEmpty (Function.update m.futexes key (some rest)) key,woken.foldl Finset.erase m.waitingTcs⟩,
      woken.length,woken⟩

/-- The threads woken here stay in `waitingTcs`. -/
def requeue (m : FutexMap TC) (addr1 tgid : UInt64) (count count2 : ℤ) (addr2 : UInt64) :
    Except FutexFault (Outcome TC) :=
  let key1 := ⟨addr1,tgid⟩
  match m.futexes key1 with
  | none => .ok ⟨m,0,[]⟩
  | some waiterList1 => do
    let r := popFront count 0 waiterList1
    let tmp := popFront count2 0 r.2
    let futexes := Function.update m.futexes key1 (some tmp.2)
    let key2 := ⟨addr2,tgid⟩
    let futexes ← (match futexes key2 with
      | none => if 0<tmp.1.length then .ok (Function.update futexes key2 (some tmp.1))
        else .error .endDereference
      | some waiterList2 => .ok (Function.update futexes key2 (some (waiterList2++tmp.1))) :
        Except FutexFault (FutexKey → Option (List (WaiterState TC))))
    .ok ⟨⟨eraseEmpty futexes key1,m.waitingTcs⟩,r.1.length+tmp.1.length,r.1.map (·.tc)⟩

def isWaiting (m : FutexMap TC) (tc : TC) : Bool := tc∈m.waitingTcs

inductive Call (TC : Type) where
  | suspend (addr tgid : UInt64) (tc : TC)
  | suspendBitset (addr tgid : UInt64) (tc : TC) (bitmask : BitVec 32)
  | wakeup (addr tgid : UInt64) (count : ℤ)
  | wakeupBitset (addr tgid : UInt64) (bitmask : BitVec 32)
  | requeue (addr1 tgid : UInt64) (count count2 : ℤ) (addr2 : UInt64)

def perform (m : FutexMap TC) : Call TC → Except FutexFault (Outcome TC)
  | .suspend addr tgid tc => .ok ⟨m.suspend addr tgid tc,0,[]⟩
  | .suspendBitset addr tgid tc bitmask => .ok ⟨m.suspendBitset addr tgid tc bitmask,0,[]⟩
  | .wakeup addr tgid count => .ok (m.wakeup addr tgid count)
  | .wakeupBitset addr tgid bitmask => .ok (m.wakeupBitset addr tgid bitmask)
  | .requeue addr1 tgid count count2 addr2 => m.requeue addr1 tgid count count2 addr2

end FutexMap

end AquaGem5.Sim

/-!
## Waiting on futexes

The waiters of a futex stand in a line. `requeue` does not take the threads it wakes out of `waitingTcs`, and it looks
up the second futex even when it moves nobody there.
-/

namespace AquaGem5.Sim.FutexMap
open Checked Lines Function List

variable {TC α : Type}

def queue (m : FutexMap TC) (key : FutexKey) : List (WaiterState TC) := (m.futexes key).getD []

def Waits (q : FutexKey → List (WaiterState TC)) (t : TC) : Prop := Lines.Waits WaiterState.tc q t

namespace Call

def woken (q : FutexKey → List (WaiterState TC)) : Call TC → List (WaiterState TC)
  | .suspend .. => []
  | .suspendBitset .. => []
  | .wakeup addr tgid count => (q ⟨addr,tgid⟩).take count.toNat
  | .wakeupBitset addr tgid bitmask => (q ⟨addr,tgid⟩).filter (·.checkMask bitmask)
  | .requeue addr1 tgid count _ _ => (q ⟨addr1,tgid⟩).take count.toNat

def lines (q : FutexKey → List (WaiterState TC)) : Call TC → FutexKey → List (WaiterState TC)
  | .suspend addr tgid tc => Function.update q ⟨addr,tgid⟩ (q ⟨addr,tgid⟩++[⟨tc,0xffffffff⟩])
  | .suspendBitset addr tgid tc bitmask => Function.update q ⟨addr,tgid⟩ (q ⟨addr,tgid⟩++[⟨tc,bitmask⟩])
  | .wakeup addr tgid count => Function.update q ⟨addr,tgid⟩ ((q ⟨addr,tgid⟩).drop count.toNat)
  | .wakeupBitset addr tgid bitmask =>
    Function.update q ⟨addr,tgid⟩ ((q ⟨addr,tgid⟩).filter fun w => !w.checkMask bitmask)
  | .requeue addr1 tgid count count2 addr2 =>
    let rest := (q ⟨addr1,tgid⟩).drop count.toNat
    let q := Function.update q ⟨addr1,tgid⟩ (rest.drop count2.toNat)
    Function.update q ⟨addr2,tgid⟩ (q ⟨addr2,tgid⟩++rest.take count2.toNat)

def result (q : FutexKey → List (WaiterState TC)) : Call TC → ℕ
  | .suspend .. => 0
  | .suspendBitset .. => 0
  | .wakeup addr tgid count => min count.toNat (q ⟨addr,tgid⟩).length
  | .wakeupBitset addr tgid bitmask => (q ⟨addr,tgid⟩).countP (·.checkMask bitmask)
  | .requeue addr1 tgid count count2 _ =>
    let n := (q ⟨addr1,tgid⟩).length
    min count.toNat n+min count2.toNat (n-min count.toNat n)

def slept : Call TC → List TC
  | .suspend _ _ tc => [tc]
  | .suspendBitset _ _ tc _ => [tc]
  | _ => []

def clears : Call TC → Bool
  | .requeue .. => false
  | _ => true

end Call

def Allows (m : FutexMap TC) (c : Call TC) : Prop := ∀ t∈c.slept,¬Waits m.queue t

structure Serves (m : FutexMap TC) (c : Call TC) (r : Outcome TC) : Prop where
  queue : r.map.queue=c.lines m.queue
  activated : r.activated=(c.woken m.queue).map WaiterState.tc
  result : r.result=c.result m.queue

variable {q : FutexKey → List (WaiterState TC)} {c : Call TC} {t : TC}

theorem woken_cases (q : FutexKey → List (WaiterState TC)) (c : Call TC) :
    c.woken q=[] ∨ ∃ key,(c.woken q).Sublist (q key) := by
  cases c with
  | suspend addr tgid tc | suspendBitset addr tgid tc bitmask => exact .inl rfl
  | wakeup addr tgid count | requeue addr1 tgid count count2 addr2 => exact .inr ⟨_,take_sublist _ _⟩
  | wakeupBitset addr tgid bitmask => exact .inr ⟨_,filter_sublist⟩

theorem woken_once (hq : Apart WaiterState.tc q) (c : Call TC) :
    ((c.woken q).map WaiterState.tc).Nodup ∧ ∀ t∈(c.woken q).map WaiterState.tc,Waits q t := by
  rcases woken_cases q c with h | ⟨key,h⟩
  · simp [h]
  · have hmap:=h.map WaiterState.tc
    exact ⟨(hq.once key).sublist hmap,fun t ht => ⟨key,hmap.subset ht⟩⟩

theorem take_drop_perm (l : List α) (n : ℕ) : (l.take n++l.drop n).Perm l := by
  rw [take_append_drop]

theorem filter_perm (p : α → Bool) (l : List α) : (l.filter p++l.filter fun a => !p a).Perm l :=
  filter_append_perm p l

theorem lines_apart (hq : Apart WaiterState.tc q) (hc : ∀ t∈c.slept,¬Waits q t) : Apart WaiterState.tc (c.lines q) ∧
      ∀ t,Waits (c.lines q) t ↔ (Waits q t ∧ t∉(c.woken q).map WaiterState.tc) ∨ t∈c.slept := by
  cases c with
  | suspend addr tgid tc | suspendBitset addr tgid tc bitmask =>
    refine ⟨hq.join (by simp) fun t ht => hc t (by simpa [Call.slept] using ht),fun t => ?_⟩
    simp [Call.lines,Waits,waits_join,Call.woken,Call.slept]
  | wakeup addr tgid count =>
    refine ⟨hq.cut (drop_sublist _ _),fun t => ?_⟩
    simp only [Call.slept,not_mem_nil,or_false]
    exact hq.waits_cut (take_drop_perm _ _)
  | wakeupBitset addr tgid bitmask =>
    refine ⟨hq.cut filter_sublist,fun t => ?_⟩
    simp only [Call.slept,not_mem_nil,or_false]
    exact hq.waits_cut (filter_perm _ _)
  | requeue addr1 tgid count count2 addr2 =>
    simp only [Call.slept,not_mem_nil,or_false,Call.lines,Call.woken]
    generalize hl : q ⟨addr1,tgid⟩=l
    have hperm : ((l.take count.toNat++(l.drop count.toNat).take count2.toNat) ++
        (l.drop count.toNat).drop count2.toNat).Perm (q ⟨addr1,tgid⟩) := by
      rw [append_assoc,take_append_drop,take_append_drop,hl]
    have hcut:=hq.cut (k := ⟨addr1,tgid⟩) (l := (l.drop count.toNat).drop count2.toNat)
      (hl ▸ (drop_sublist _ _).trans (drop_sublist _ _))
    have hnodup:=(hperm.map WaiterState.tc).nodup_iff.mpr (hq.once ⟨addr1,tgid⟩)
    simp only [map_append] at hnodup
    have hparts:=nodup_append.mp (nodup_append.mp hnodup).1
    have hmoved : ∀ t∈((l.drop count.toNat).take count2.toNat).map WaiterState.tc,Waits q t ∧
        t∉(l.take count.toNat).map WaiterState.tc := by
      intro t ht
      refine ⟨⟨⟨addr1,tgid⟩,(hperm.map WaiterState.tc).subset ?_⟩,fun h => hparts.2.2 t h t ht rfl⟩
      rw [map_append,map_append]
      exact mem_append_left _ (mem_append_right _ ht)
    refine ⟨hcut.join hparts.2.1 fun t ht hw => ?_,fun t => ?_⟩
    · rw [hq.waits_cut hperm,map_append,mem_append] at hw
      exact hw.2 (.inr ht)
    · unfold Waits
      rw [waits_join,hq.waits_cut hperm,map_append,mem_append]
      constructor
      · intro h
        cases h with
        | inl h => exact ⟨h.1,fun ht => h.2 (.inl ht)⟩
        | inr h => exact hmoved t h
      · intro ⟨hw,hnot⟩
        by_cases ht : t∈((l.drop count.toNat).take count2.toNat).map WaiterState.tc
        · exact .inr ht
        · exact .inl ⟨hw,fun h => h.elim hnot ht⟩

theorem popFront_eq (count n : ℤ) (l : List α) :
    popFront count n l=(l.take (count-n).toNat,l.drop (count-n).toNat) := by
  induction l generalizing n with
  | nil => simp [popFront]
  | cons a l ih =>
    unfold popFront
    split
    · have hsucc : (count-n).toNat=(count-(n+1)).toNat+1 := by omega
      rw [ih,hsucc]
      rfl
    · have hzero : (count-n).toNat=0 := by omega
      rw [hzero]
      rfl

theorem popFront_zero (count : ℤ) (l : List α) : popFront count 0 l=(l.take count.toNat,l.drop count.toNat) := by
  rw [popFront_eq,Int.sub_zero]

theorem getD_eraseEmpty (futexes : FutexKey → Option (List (WaiterState TC))) (key : FutexKey) :
    (fun k => (eraseEmpty futexes key k).getD [])=fun k => (futexes k).getD [] := by
  funext k
  unfold eraseEmpty
  split
  · rename_i h
    by_cases hk : k=key
    · subst hk
      obtain ⟨l,hl,hempty⟩:=(Option.any_eq_true _ _).mp h
      rw [update_self,hl,isEmpty_iff.mp hempty]
      rfl
    · rw [update_of_ne hk]
  · rfl

theorem getD_update (futexes : FutexKey → Option (List (WaiterState TC))) (key : FutexKey)
    (l : List (WaiterState TC)) : (fun k => (update futexes key (some l) k).getD []) =
      update (fun k => (futexes k).getD []) key l := by
  funext k
  by_cases hk : k=key
  · subst hk
    rw [update_self,update_self]
    rfl
  · rw [update_of_ne hk,update_of_ne hk]

variable {key : FutexKey}

theorem eraseEmpty_nonempty {futexes : FutexKey → Option (List (WaiterState TC))}
    (h : ∀ k,k≠key → futexes k≠some []) (k : FutexKey) : eraseEmpty futexes key k≠some [] := by
  unfold eraseEmpty
  by_cases hk : k=key
  · subst hk
    split
    · rw [update_self]
      simp
    · rename_i hany
      intro hnil
      rw [hnil] at hany
      exact hany rfl
  · split
    · rw [update_of_ne hk]
      exact h k hk
    · exact h k hk

theorem queue_some {m : FutexMap TC} {l : List (WaiterState TC)} (h : m.futexes key=some l) : m.queue key=l := by
  rw [queue,h]
  rfl

theorem queue_none {m : FutexMap TC} (h : m.futexes key=none) : m.queue key=[] := by
  rw [queue,h]
  rfl

variable [DecidableEq TC]

theorem mem_foldl_erase (l : List TC) (s : Finset TC) : t∈l.foldl Finset.erase s ↔ t∈s ∧ t∉l := by
  induction l generalizing s with
  | nil => simp
  | cons a l ih =>
    rw [foldl_cons,ih,Finset.mem_erase,mem_cons]
    tauto

structure Kept (m : FutexMap TC) (c : Call TC) (r : Outcome TC) : Prop where
  nonempty : (∀ key,m.futexes key≠some []) → ∀ key,r.map.futexes key≠some []
  waiting : ∀ t,r.map.isWaiting t=true ↔
    (m.isWaiting t=true ∧ (c.clears=true → t∉r.activated)) ∨ t∈c.slept

variable {m : FutexMap TC} {r : Outcome TC}

omit [DecidableEq TC] in
theorem release_queue (rest : List (WaiterState TC)) (s : Finset TC) :
    queue ⟨eraseEmpty (update m.futexes key (some rest)) key,s⟩=update m.queue key rest := by
  have h:=getD_eraseEmpty (update m.futexes key (some rest)) key
  rw [getD_update] at h
  exact h

omit [DecidableEq TC] in
theorem release_nonempty (rest : List (WaiterState TC)) (h : ∀ key,m.futexes key≠some []) (k : FutexKey) :
    eraseEmpty (update m.futexes key (some rest)) key k≠some [] := by
  refine eraseEmpty_nonempty (fun k' hk => ?_) k
  rw [update_of_ne hk]
  exact h k'

theorem unchanged_serves {c : Call TC} (hlines : c.lines m.queue=m.queue) (hwoken : c.woken m.queue=[])
    (hresult : c.result m.queue=0) (hslept : c.slept=[]) : Serves m c ⟨m,0,[]⟩ ∧ Kept m c ⟨m,0,[]⟩ := by
  refine ⟨⟨hlines.symm,?_,?_⟩,fun h => h,fun t => ?_⟩
  · rw [hwoken]
    rfl
  · rw [hresult]
    rfl
  · simp [hslept]

theorem suspendBitset_serves (m : FutexMap TC) (addr tgid : UInt64) (tc : TC) (bitmask : BitVec 32) :
    Serves m (.suspendBitset addr tgid tc bitmask) ⟨m.suspendBitset addr tgid tc bitmask,0,[]⟩ ∧
      Kept m (.suspendBitset addr tgid tc bitmask) ⟨m.suspendBitset addr tgid tc bitmask,0,[]⟩ := by
  have hrun : m.suspendBitset addr tgid tc bitmask =
      ⟨update m.futexes ⟨addr,tgid⟩ (some (m.queue ⟨addr,tgid⟩++[⟨tc,bitmask⟩])),
        insert tc m.waitingTcs⟩ := by
    unfold suspendBitset queue
    cases hf : m.futexes ⟨addr,tgid⟩ <;> simp [hf]
  rw [hrun]
  refine ⟨⟨getD_update _ _ _,rfl,rfl⟩,fun h key => ?_,fun t => ?_⟩
  · by_cases hk : key=⟨addr,tgid⟩
    · subst hk
      simp
    · simp only [update_of_ne hk]
      exact h key
  · simp [isWaiting,Call.slept,Call.clears,or_comm]

theorem wakeup_serves (m : FutexMap TC) (addr tgid : UInt64) (count : ℤ) :
    Serves m (.wakeup addr tgid count) (m.wakeup addr tgid count) ∧
      Kept m (.wakeup addr tgid count) (m.wakeup addr tgid count) := by
  cases hf : m.futexes ⟨addr,tgid⟩ with
  | none =>
    have hq:=queue_none hf
    have hrun : m.wakeup addr tgid count=⟨m,0,[]⟩ := by simp only [wakeup,hf]
    rw [hrun]
    apply unchanged_serves
    · simp only [Call.lines,hq,drop_nil]
      rw [← hq,update_eq_self]
    · simp [Call.woken,hq]
    · simp [Call.result,hq]
    · rfl
  | some l =>
    have hq:=queue_some hf
    have hrun : m.wakeup addr tgid count =
        ⟨⟨eraseEmpty (update m.futexes ⟨addr,tgid⟩ (some (l.drop count.toNat))) ⟨addr,tgid⟩,
          ((l.take count.toNat).map (·.tc)).foldl Finset.erase m.waitingTcs⟩,
          ((l.take count.toNat).map (·.tc)).length,(l.take count.toNat).map (·.tc)⟩ := by
      simp only [wakeup,hf,popFront_zero]
    rw [hrun]
    refine ⟨⟨?_,?_,?_⟩,release_nonempty _,fun t => ?_⟩
    · simp only [Call.lines,hq]
      exact release_queue _ _
    · simp only [Call.woken,hq]
    · simp [Call.result,hq]
    · simp [isWaiting,mem_foldl_erase,Call.slept,Call.clears]

theorem wakeupBitset_serves (m : FutexMap TC) (addr tgid : UInt64) (bitmask : BitVec 32) :
    Serves m (.wakeupBitset addr tgid bitmask) (m.wakeupBitset addr tgid bitmask) ∧
      Kept m (.wakeupBitset addr tgid bitmask) (m.wakeupBitset addr tgid bitmask) := by
  cases hf : m.futexes ⟨addr,tgid⟩ with
  | none =>
    have hq:=queue_none hf
    have hrun : m.wakeupBitset addr tgid bitmask=⟨m,0,[]⟩ := by simp only [wakeupBitset,hf]
    rw [hrun]
    apply unchanged_serves
    · simp only [Call.lines,hq,filter_nil]
      rw [← hq,update_eq_self]
    · simp [Call.woken,hq]
    · simp [Call.result,hq]
    · rfl
  | some l =>
    have hq:=queue_some hf
    have hrun : m.wakeupBitset addr tgid bitmask =
        ⟨⟨eraseEmpty (update m.futexes ⟨addr,tgid⟩ (some (l.filter fun w => !w.checkMask bitmask)))
            ⟨addr,tgid⟩,
          ((l.filter (·.checkMask bitmask)).map (·.tc)).foldl Finset.erase m.waitingTcs⟩,
          ((l.filter (·.checkMask bitmask)).map (·.tc)).length,(l.filter (·.checkMask bitmask)).map (·.tc)⟩ := by
      simp only [wakeupBitset,hf]
    rw [hrun]
    refine ⟨⟨?_,?_,?_⟩,release_nonempty _,fun t => ?_⟩
    · simp only [Call.lines,hq]
      exact release_queue _ _
    · simp only [Call.woken,hq]
    · simp [Call.result,hq,countP_eq_length_filter]
    · simp [isWaiting,mem_foldl_erase,Call.slept,Call.clears]

def Lost (m : FutexMap TC) (addr1 tgid : UInt64) (count count2 : ℤ) (addr2 : UInt64) : Prop :=
  m.queue ⟨addr1,tgid⟩≠[] ∧ m.futexes ⟨addr2,tgid⟩=none ∧
    (((m.queue ⟨addr1,tgid⟩).drop count.toNat).take count2.toNat)=[]

theorem moved_serves {addr1 tgid addr2 : UInt64} {count count2 : ℤ} {l : List (WaiterState TC)}
    (hf : m.futexes ⟨addr1,tgid⟩=some l)
    (hmoved : addr2≠addr1 → m.queue ⟨addr2,tgid⟩++(l.drop count.toNat).take count2.toNat≠[])
    {second : List (WaiterState TC)}
    (hsecond : second=update m.queue ⟨addr1,tgid⟩ ((l.drop count.toNat).drop count2.toNat) ⟨addr2,tgid⟩) :
    let r : Outcome TC := ⟨⟨eraseEmpty (update (update m.futexes ⟨addr1,tgid⟩
        (some ((l.drop count.toNat).drop count2.toNat))) ⟨addr2,tgid⟩
        (some (second++(l.drop count.toNat).take count2.toNat))) ⟨addr1,tgid⟩,m.waitingTcs⟩,
      (l.take count.toNat).length+((l.drop count.toNat).take count2.toNat).length,(l.take count.toNat).map (·.tc)⟩
    Serves m (.requeue addr1 tgid count count2 addr2) r ∧ Kept m (.requeue addr1 tgid count count2 addr2) r := by
  have hq:=queue_some hf
  refine ⟨⟨?_,?_,?_⟩,fun h => ?_,fun t => ?_⟩
  · have hempty:=getD_eraseEmpty (update (update m.futexes ⟨addr1,tgid⟩
      (some ((l.drop count.toNat).drop count2.toNat))) ⟨addr2,tgid⟩
      (some (second++(l.drop count.toNat).take count2.toNat))) ⟨addr1,tgid⟩
    rw [getD_update,getD_update] at hempty
    simp only [Call.lines,hq]
    rw [← hsecond]
    exact hempty
  · simp only [Call.woken,hq]
  · simp only [Call.result,hq,length_take,length_drop]
    omega
  · apply eraseEmpty_nonempty
    intro k hk
    by_cases hk2 : k=⟨addr2,tgid⟩
    · subst hk2
      have hne : addr2≠addr1 := fun heq => hk (by rw [heq])
      rw [update_self,hsecond,update_of_ne hk]
      simpa using hmoved hne
    · rw [update_of_ne hk2,update_of_ne hk]
      exact h k
  · simp [isWaiting,Call.clears,Call.slept]

theorem requeue_serves (m : FutexMap TC) (addr1 tgid : UInt64) (count count2 : ℤ) (addr2 : UInt64)
    (h : ∀ key,m.futexes key≠some []) : Post (m.requeue addr1 tgid count count2 addr2) (fun r =>
      ¬Lost m addr1 tgid count count2 addr2 ∧ Serves m (.requeue addr1 tgid count count2 addr2) r ∧
        Kept m (.requeue addr1 tgid count count2 addr2) r) fun _ => Lost m addr1 tgid count count2 addr2 := by
  cases hf : m.futexes ⟨addr1,tgid⟩ with
  | none =>
    have hq:=queue_none hf
    have hrun : m.requeue addr1 tgid count count2 addr2 = .ok ⟨m,0,[]⟩ := by simp only [requeue,hf]
    rw [hrun,post_ok]
    refine ⟨fun hlost => hlost.1 hq,?_⟩
    apply unchanged_serves
    · simp only [Call.lines,hq,drop_nil,take_nil,append_nil]
      rw [← hq,update_eq_self,update_eq_self]
    · simp [Call.woken,hq]
    · simp [Call.result,hq]
    · rfl
  | some l =>
    have hq:=queue_some hf
    have hl : l≠[] := fun hnil => h _ (hnil ▸ hf)
    simp only [requeue,hf,popFront_zero]
    by_cases hkey : addr2=addr1
    · subst hkey
      rw [update_self]
      refine ⟨fun hlost => ?_,moved_serves hf (fun hne => (hne rfl).elim) ?_⟩
      · have hnone:=hlost.2.1
        rw [hf] at hnone
        cases hnone
      · rw [update_self]
    · have hne : (⟨addr2,tgid⟩ : FutexKey)≠⟨addr1,tgid⟩ := fun heq => hkey (FutexKey.mk.inj heq).1
      rw [update_of_ne hne]
      cases hf2 : m.futexes ⟨addr2,tgid⟩ with
      | none =>
        have hq2:=queue_none hf2
        dsimp only
        split
        · rename_i hpos
          have htmp:=ne_nil_of_length_pos hpos
          have hmoved : m.queue ⟨addr2,tgid⟩++(l.drop count.toNat).take count2.toNat≠[] := by
            rw [hq2]
            exact htmp
          have hsecond : []=update m.queue ⟨addr1,tgid⟩ ((l.drop count.toNat).drop count2.toNat)
              ⟨addr2,tgid⟩ := by
            rw [update_of_ne hne,hq2]
          exact ⟨fun hlost => htmp (hq ▸ hlost.2.2),moved_serves hf (fun _ => hmoved) hsecond⟩
        · rename_i hzero
          refine ⟨by rw [hq]; exact hl,hf2,?_⟩
          rw [hq]
          exact length_eq_zero_iff.mp (Nat.eq_zero_of_not_pos hzero)
      | some l2 =>
        have hq2:=queue_some hf2
        have hl2 : l2≠[] := fun hnil => h _ (hnil ▸ hf2)
        have hmoved : m.queue ⟨addr2,tgid⟩++(l.drop count.toNat).take count2.toNat≠[] := by
          simp [hq2,hl2]
        have hsecond : l2=update m.queue ⟨addr1,tgid⟩ ((l.drop count.toNat).drop count2.toNat)
            ⟨addr2,tgid⟩ := by
          rw [update_of_ne hne,hq2]
        refine ⟨fun hlost => ?_,moved_serves hf (fun _ => hmoved) hsecond⟩
        rw [hlost.2.1] at hf2
        cases hf2

structure Consistent (m : FutexMap TC) : Prop where
  nonempty : ∀ key,m.futexes key≠some []
  apart : Apart WaiterState.tc m.queue
  waiting : ∀ t,m.isWaiting t=true ↔ Waits m.queue t

/-- A requeue that finds waiters wakes none of them, and moves one or finds the second futex. -/
def Good (m : FutexMap TC) : Call TC → Prop
  | .requeue addr1 tgid count count2 addr2 => m.futexes ⟨addr1,tgid⟩=none ∨
    (count≤0 ∧ (0<count2 ∨ m.futexes ⟨addr2,tgid⟩≠none))
  | _ => True

def Served (m : FutexMap TC) (c : Call TC) : Prop := ∃ r,m.perform c = .ok r ∧ Serves m c r ∧ r.map.Consistent

/-- The runs whose calls are all `P`, with the threads that were suspended and those that were woken. -/
inductive Run (P : FutexMap TC → Call TC → Prop) : List TC → List TC → FutexMap TC → Prop
  | start : Run P [] [] empty
  | step (slept woken : List TC) (m : FutexMap TC) (c : Call TC) (r : Outcome TC) : Run P slept woken m →
      m.Allows c → P m c → m.perform c = .ok r → Run P (c.slept++slept) (r.activated++woken) r.map

omit [DecidableEq TC] in
theorem queue_eq_nil (h : ∀ key,m.futexes key≠some []) (key : FutexKey) : m.queue key=[] ↔ m.futexes key=none := by
  constructor
  · intro hq
    cases hf : m.futexes key with
    | none => rfl
    | some l =>
      rw [queue_some hf] at hq
      exact (h key (hq ▸ hf)).elim
  · exact queue_none

theorem perform_serves (h : ∀ key,m.futexes key≠some []) (c : Call TC) :
    Post (m.perform c) (fun r => Serves m c r ∧ Kept m c r) fun _ => ¬Good m c := by
  cases c with
  | suspend addr tgid tc =>
    obtain ⟨hserves,hkept⟩:=suspendBitset_serves m addr tgid tc 0xffffffff
    exact ⟨⟨hserves.queue,hserves.activated,hserves.result⟩,hkept.nonempty,hkept.waiting⟩
  | suspendBitset addr tgid tc bitmask => exact suspendBitset_serves m addr tgid tc bitmask
  | wakeup addr tgid count => exact wakeup_serves m addr tgid count
  | wakeupBitset addr tgid bitmask => exact wakeupBitset_serves m addr tgid bitmask
  | requeue addr1 tgid count count2 addr2 =>
    refine (requeue_serves m addr1 tgid count count2 addr2 h).mono (fun r hr => hr.2) fun _ hlost hgood => ?_
    obtain ⟨hwait,hnone,hmoved⟩:=hlost
    rw [ne_eq,queue_eq_nil h] at hwait
    rcases hgood with hgood | ⟨hcount,hgood⟩
    · exact hwait hgood
    · rcases hgood with hpos | hsome
      · rw [show count.toNat=0 by omega,drop_zero,take_eq_nil_iff] at hmoved
        rcases hmoved with hzero | hnil
        · omega
        · exact hwait ((queue_eq_nil h _).mp hnil)
      · exact hsome hnone

omit [DecidableEq TC] in
theorem Good.woken (h : Good m c) : c.clears=true ∨ c.woken m.queue=[] := by
  cases c with
  | suspend addr tgid tc | suspendBitset addr tgid tc bitmask | wakeup addr tgid count
  | wakeupBitset addr tgid bitmask => exact .inl rfl
  | requeue addr1 tgid count count2 addr2 =>
    refine .inr ?_
    rcases h with h | ⟨hcount,_⟩
    · simp [Call.woken,queue_none h]
    · simp [Call.woken,show count.toNat=0 by omega]

theorem Consistent.step (h : Consistent m) (hallows : m.Allows c) (hgood : Good m c) : Served m c := by
  have hreturns : Post (m.perform c) (fun r => Serves m c r ∧ Kept m c r) fun _ => False :=
    (perform_serves h.nonempty c).mono (fun _ hr => hr) fun _ hbad => hbad hgood
  obtain ⟨r,hr,hserves,hkept⟩:=hreturns.returns
  obtain ⟨hapart,hwaits⟩:=lines_apart h.apart hallows
  refine ⟨r,hr,hserves,hkept.nonempty h.nonempty,?_,fun t => ?_⟩
  · rw [hserves.queue]
    exact hapart
  · rw [hkept.waiting,hserves.queue,hwaits,h.waiting,hserves.activated]
    rcases hgood.woken with hclears | hnone
    · simp [hclears]
    · simp [hnone]

theorem Consistent.good_of_served (h : Consistent m) (hserved : Served m c) : Good m c := by
  cases c with
  | suspend addr tgid tc | suspendBitset addr tgid tc bitmask | wakeup addr tgid count
  | wakeupBitset addr tgid bitmask => trivial
  | requeue addr1 tgid count count2 addr2 =>
    obtain ⟨r,hr,_,hr'⟩:=hserved
    obtain ⟨hlost,hserves,hkept⟩:=(requeue_serves m addr1 tgid count count2 addr2 h.nonempty).of_ok hr
    obtain ⟨_,hwaits⟩:=lines_apart (c := .requeue addr1 tgid count count2 addr2) h.apart (by simp [Call.slept])
    by_cases hnone : m.futexes ⟨addr1,tgid⟩=none
    · exact .inl hnone
    · have hwait:=(queue_eq_nil h.nonempty ⟨addr1,tgid⟩).not.mpr hnone
      have hcount : count≤0 := by
        by_contra hpos
        obtain ⟨w,l,hl⟩:=exists_cons_of_ne_nil hwait
        obtain ⟨n,hn⟩:=Nat.exists_eq_succ_of_ne_zero (n := count.toNat) (by omega)
        have hwoken : w.tc∈((Call.requeue addr1 tgid count count2 addr2).woken m.queue).map WaiterState.tc := by
          simp [Call.woken,hl,hn]
        have hbefore:=(woken_once h.apart _).2 _ hwoken
        have hstill:=(hkept.waiting w.tc).mpr (.inl ⟨(h.waiting w.tc).mpr hbefore,by simp [Call.clears]⟩)
        rw [hr'.waiting,hserves.queue,hwaits] at hstill
        rcases hstill with ⟨_,hnot⟩ | hslept
        · exact hnot hwoken
        · simp [Call.slept] at hslept
      refine .inr ⟨hcount,?_⟩
      by_contra hno
      simp only [not_or,not_lt,ne_eq,not_not] at hno
      exact hlost ⟨hwait,hno.2,by rw [show count2.toNat=0 by omega,take_zero]⟩

omit [DecidableEq TC] in
theorem balance_cases {before after wakes sleeps : Prop} [Decidable before] [Decidable after] [Decidable wakes]
    [Decidable sleeps] {n k : ℕ} (hbefore : n+(if before then 1 else 0)=k) (hwakes : wakes → before)
    (hsleeps : sleeps → ¬before) (hafter : after ↔ (before ∧ ¬wakes) ∨ sleeps) :
    (if wakes then 1 else 0)+n+(if after then 1 else 0)=(if sleeps then 1 else 0)+k := by
  by_cases hw : wakes <;> by_cases hs : sleeps <;> by_cases hb : before <;> simp_all <;> omega

theorem balance_step {slept woken : List TC} {r : Outcome TC} (h : Consistent m) (hallows : m.Allows c)
    (hserves : Serves m c r) (hr : r.map.Consistent)
    (hbalance : ∀ t,woken.count t+(if m.isWaiting t=true then 1 else 0)=slept.count t) (t : TC) :
    (r.activated++woken).count t+(if r.map.isWaiting t=true then 1 else 0)=(c.slept++slept).count t := by
  obtain ⟨hnodup,hwoken⟩:=woken_once h.apart c
  obtain ⟨_,hwaits⟩:=lines_apart h.apart hallows
  have hslept : (c.slept).Nodup := by cases c <;> simp [Call.slept]
  have hafter : r.map.isWaiting t=true ↔
      (m.isWaiting t=true ∧ t∉(c.woken m.queue).map WaiterState.tc) ∨ t∈c.slept := by
    rw [hr.waiting,hserves.queue,hwaits,h.waiting]
  rw [count_append,count_append,hserves.activated,hnodup.count,hslept.count]
  exact balance_cases (hbalance t) (fun hw => (h.waiting t).mpr (hwoken t hw))
    (fun hs => (h.waiting t).not.mpr (hallows t hs)) hafter

theorem run_consistent {slept woken : List TC} (h : Run Good slept woken m) : m.Consistent ∧
    ∀ t,woken.count t+(if m.isWaiting t=true then 1 else 0)=slept.count t := by
  induction h with
  | start =>
    refine ⟨⟨by simp [empty],⟨by simp [queue,empty],by simp [queue,empty]⟩,fun t => ?_⟩,fun t => ?_⟩
    · simp [isWaiting,empty,Waits,Lines.Waits,queue]
    · simp [isWaiting,empty]
  | step slept woken m c r _ hallows hgood hr ih =>
    obtain ⟨r',hr',hserves,hc⟩:=ih.1.step hallows hgood
    rw [hr] at hr'
    cases hr'
    exact ⟨hc,balance_step ih.1 hallows hserves hc ih.2⟩

/-- In a run whose requeues wake nobody and find the second futex, the map is consistent, every
wake-up ends one suspension, and the next call is served exactly when it is such a call too. -/
theorem futexes_consistent {slept woken : List TC} (h : Run Good slept woken m) : m.Consistent ∧
    (∀ t,woken.count t+(if m.isWaiting t=true then 1 else 0)=slept.count t) ∧
    ∀ c,m.Allows c → (Served m c ↔ Good m c) := by
  obtain ⟨hc,hbalance⟩:=run_consistent h
  exact ⟨hc,hbalance,fun c hallows => ⟨hc.good_of_served,hc.step hallows⟩⟩

def oneWaiter : FutexMap ℕ := empty.suspend 0 0 1

theorem oneWaiter_run : Run Good [1] [] oneWaiter := by
  refine .step [] [] empty (.suspend 0 0 1) ⟨oneWaiter,0,[]⟩ .start (fun t _ hw => ?_) trivial rfl
  obtain ⟨key,hkey⟩:=hw
  cases hkey

/-- The thread that a requeue wakes is still waiting, and a requeue that moves nobody to a futex
without waiters dereferences the end of the map. -/
theorem requeue_inconsistent : Run Good [1] [] oneWaiter ∧
    (∃ r,oneWaiter.perform (.requeue 0 0 1 0 0) = .ok r ∧ r.activated=[1] ∧ r.map.isWaiting 1=true ∧
      (∀ key,1∉(r.map.queue key).map WaiterState.tc) ∧ ¬r.map.Consistent) ∧
    oneWaiter.perform (.requeue 0 0 0 0 8) = .error .endDereference := by
  refine ⟨oneWaiter_run,?_,rfl⟩
  have hempty : ∀ r,oneWaiter.perform (.requeue 0 0 1 0 0) = .ok r → r.map.queue=fun _ => [] := by
    intro r hr
    obtain ⟨_,hserves,_⟩:=(requeue_serves oneWaiter 0 0 1 0 0 (run_consistent oneWaiter_run).1.nonempty).of_ok hr
    rw [hserves.queue]
    funext key
    by_cases hk : key=⟨0,0⟩
    · subst hk
      rfl
    · simp [Call.lines,update_of_ne hk,queue,oneWaiter,suspend,suspendBitset,empty]
  refine ⟨_,rfl,rfl,rfl,fun key => ?_,fun h => ?_⟩
  · rw [hempty _ rfl]
    simp
  · obtain ⟨key,hkey⟩:=(h.waiting 1).mp rfl
    rw [hempty _ rfl] at hkey
    cases hkey

theorem futexes_consistent_of_move : ∃ m : FutexMap ℕ,m.Consistent ∧ m.isWaiting 1=true ∧
    m.queue ⟨8,0⟩=[⟨1,0xffffffff⟩] ∧ (Served m (.requeue 8 0 0 0 0) ↔ Good m (.requeue 8 0 0 0 0)) := by
  have hfirst:=run_consistent oneWaiter_run
  have hallows : oneWaiter.Allows (.suspend 0 0 2) := by
    intro t ht hw
    rw [List.mem_singleton.mp ht,← hfirst.1.waiting] at hw
    cases hw
  have htwo : Run Good [2,1] [] (oneWaiter.suspend 0 0 2) :=
    .step [1] [] oneWaiter (.suspend 0 0 2) ⟨_,0,[]⟩ oneWaiter_run hallows trivial rfl
  have hmove:=Run.step _ _ _ (.requeue 0 0 0 1 8) _ htwo (fun t ht => by cases ht)
    (.inr ⟨le_rfl,.inl Int.one_pos⟩) rfl
  obtain ⟨hc,_,hserved⟩:=futexes_consistent hmove
  exact ⟨_,hc,rfl,rfl,hserved (.requeue 8 0 0 0 0) fun t ht => by cases ht⟩

end AquaGem5.Sim.FutexMap
