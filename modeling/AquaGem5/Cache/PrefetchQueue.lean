import AquaGem5.Lib.Checked
import Mathlib.Data.List.Perm.Basic
import Mathlib.Order.Lattice

/-!
# The queue of prefetches (prefetch/queued.cc, prefetch/queued.hh)

The packets with the highest priority are at the front. A scan that goes backwards is one over the reversed queue.
-/

namespace AquaGem5.Cache.Queued
open Checked List

structure PrefetchInfo where
  address : ℕ
  secure : Bool
  deriving DecidableEq

/-- `pkt` is the number of the insertion. -/
structure DeferredPacket where
  pfInfo : PrefetchInfo
  priority : ℤ
  pkt : ℕ
  deriving DecidableEq

def PrefetchInfo.sameAddr (info pfi : PrefetchInfo) : Bool :=
  decide (info.address=pfi.address)&&decide (info.secure=pfi.secure)

/-- How far the oldest packet with the priority of the last one is from the end. -/
def oldestLowest : List DeferredPacket → ℕ
  | it::prev::rest => if prev.priority=it.priority then oldestLowest (prev::rest)+1 else 0
  | _ => 0

/-- The new packet goes before the one at which the scan stops. It goes behind the head if its priority is not higher. -/
def insertFrom (dpp : DeferredPacket) : List DeferredPacket → List DeferredPacket
  | [] => [dpp]
  | [it] => if dpp.priority ≤ it.priority then [dpp,it] else [it,dpp]
  | it::prev::rest =>
    if it.priority<dpp.priority then it::insertFrom dpp (prev::rest) else it::dpp::prev::rest

inductive Fault where
  | panic
  deriving DecidableEq

def addToQueue (queueSize : ℕ) (dpp : DeferredPacket) (queue : List DeferredPacket) :
    Except Fault (List DeferredPacket) := do
  if queue.length=queueSize then
    check (queue≠[]) .panic
    check (queue.length≠1) .panic
    return (insertFrom dpp (queue.reverse.eraseIdx (oldestLowest queue.reverse))).reverse
  else return (insertFrom dpp queue.reverse).reverse

def search (pfi : PrefetchInfo) : List DeferredPacket → ℕ → Bool × ℕ
  | [],it => (false,it)
  | p::rest,it => if p.pfInfo.sameAddr pfi then (true,it+1) else search pfi rest (it+1)

/-- The loop that moves the packet `it` up: the packets ahead of `prev`, those between `prev` and `it`, and those behind. -/
def bubble (it : DeferredPacket) : List DeferredPacket → List DeferredPacket → List DeferredPacket → List DeferredPacket
  | [],between,behind => between++it::behind
  | prev::ahead,between,behind =>
    if prev.priority < it.priority then bubble it ahead [] (between++prev::behind)
    else bubble it ahead (prev::between) behind

def alreadyInQueue (queue : List DeferredPacket) (pfi : PrefetchInfo) (priority : ℤ) : Bool × List DeferredPacket :=
  let (found,it) := search pfi queue 0
  match queue[it]? with
  | none => (found,queue)
  | some p =>
    if p.priority<priority then
      (found,bubble {p with priority := priority} (queue.take it).reverse [] (queue.drop (it+1)))
    else (found,queue)

variable {queueSize n : ℕ} {queue r rest before after : List DeferredPacket} {dpp it p pkt : DeferredPacket}
  {pfi : PrefetchInfo} {priority : ℤ}

/-- By priority, and the packets of one priority in the order of their insertion. -/
def Before (a b : DeferredPacket) : Prop := b.priority<a.priority ∨ (a.priority=b.priority ∧ a.pkt<b.pkt)

instance (a b : DeferredPacket) : Decidable (Before a b) := inferInstanceAs (Decidable (_ ∨ _))

def Behind (b a : DeferredPacket) : Prop := Before a b

theorem reverse_pairwise : queue.reverse.Pairwise Behind ↔ queue.Pairwise Before := List.pairwise_reverse

theorem insertFrom_perm (dpp : DeferredPacket) (r : List DeferredPacket) : (insertFrom dpp r).Perm (dpp::r) := by
  induction r using insertFrom.induct dpp with
  | case1 => exact Perm.refl _
  | case2 it h => rw [insertFrom,if_pos h]
  | case3 it h =>
    rw [insertFrom,if_neg h]
    exact Perm.swap dpp it []
  | case4 it prev rest h ih =>
    rw [insertFrom,if_pos h]
    exact (ih.cons it).trans (Perm.swap dpp it _)
  | case5 it prev rest h =>
    rw [insertFrom,if_neg h]
    exact Perm.swap dpp it _

def noLess (dpp : DeferredPacket) (q : List DeferredPacket) : ℕ := q.countP fun p => decide (dpp.priority≤p.priority)

theorem noLess_cons_of_le (h : dpp.priority≤p.priority) (q : List DeferredPacket) :
    noLess dpp (p::q)=noLess dpp q+1 := List.countP_cons_of_pos (decide_eq_true h)

theorem noLess_cons_of_lt (h : p.priority<dpp.priority) (q : List DeferredPacket) : noLess dpp (p::q)=noLess dpp q :=
  countP_cons_of_neg (by simpa using h)

theorem insertFrom_behind (hr : r.Pairwise Behind) (hnew : ∀ p∈r,p.pkt<dpp.pkt) :
    (insertFrom dpp r).Pairwise Behind ↔ noLess dpp r≤1 := by
  induction r using insertFrom.induct dpp with
  | case1 => simp [insertFrom,noLess]
  | case2 it h =>
    have hpkt:=hnew it (mem_singleton_self it)
    rw [insertFrom,if_pos h,noLess]
    simp only [pairwise_pair,Behind,Before,countP_singleton]
    split <;> omega
  | case3 it h =>
    rw [insertFrom,if_neg h,noLess]
    simp only [pairwise_pair,Behind,Before,countP_singleton]
    split <;> omega
  | case4 it prev rest h ih =>
    obtain ⟨hit,hrest⟩:=pairwise_cons.mp hr
    have hstep:=ih hrest fun p hp => hnew p (mem_cons_of_mem _ hp)
    have hall : ∀ p∈insertFrom dpp (prev::rest),Behind it p := fun p hp => by
      rcases mem_cons.mp ((insertFrom_perm dpp _).mem_iff.mp hp) with heq | hin
      · exact heq ▸ .inl h
      · exact hit p hin
    rw [insertFrom,if_pos h,pairwise_cons,hstep,noLess_cons_of_lt h]
    exact ⟨fun hboth => hboth.2,fun hcount => ⟨hall,hcount⟩⟩
  | case5 it prev rest h =>
    have hpkt:=hnew it (mem_cons_self ..)
    have hprev:=(pairwise_cons.mp hr).1 prev (mem_cons_self ..)
    have hle : dpp.priority ≤ it.priority := not_lt.mp h
    have hle' : dpp.priority≤prev.priority := by
      simp only [Behind,Before] at hprev
      omega
    rw [insertFrom,if_neg h,noLess_cons_of_le hle,noLess_cons_of_le hle']
    refine ⟨fun hpair => ?_,fun hcount => absurd hcount (by omega)⟩
    have hfirst:=(pairwise_cons.mp hpair).1 dpp (mem_cons_self ..)
    simp only [Behind,Before] at hfirst
    omega

/-- The packet that is removed from a full queue. -/
structure Oldest (queue : List DeferredPacket) (it : DeferredPacket) : Prop where
  mem : it∈queue
  lowest : ∀ p∈queue,it.priority≤p.priority
  oldest : ∀ p∈queue,p.priority=it.priority → p=it ∨ it.pkt<p.pkt

theorem oldestLowest_spec (hr : r.Pairwise Behind) (hne : r≠[]) : ∃ it,r[oldestLowest r]?=some it ∧ Oldest r it := by
  induction r using oldestLowest.induct with
  | case1 it prev rest heq ih =>
    obtain ⟨hit,hrest⟩:=pairwise_cons.mp hr
    obtain ⟨old,hold,hmem,hlow,hage⟩:=ih hrest (cons_ne_nil _ _)
    have hbehind:=hit old hmem
    have hprev:=hlow prev (mem_cons_self ..)
    simp only [Behind,Before] at hbehind
    rw [oldestLowest,if_pos heq]
    refine ⟨old,hold,mem_cons_of_mem _ hmem,fun p hp => ?_,fun p hp hsame => ?_⟩
    · rcases mem_cons.mp hp with hpit | hin
      · rw [hpit]
        omega
      · exact hlow p hin
    · rcases mem_cons.mp hp with hpit | hin
      · rw [hpit] at hsame ⊢
        omega
      · exact hage p hin hsame
  | case2 it prev rest hne' =>
    obtain ⟨hit,hrest⟩:=pairwise_cons.mp hr
    have hprev:=hit prev (mem_cons_self ..)
    have hlower : ∀ p∈prev::rest,it.priority<p.priority := fun p hp => by
      have hp' : p=prev ∨ Behind prev p := (mem_cons.mp hp).imp_right ((pairwise_cons.mp hrest).1 p)
      simp only [Behind,Before] at hp' hprev
      rcases hp' with heq | hp'
      · rw [heq]
        omega
      · omega
    rw [oldestLowest,if_neg hne']
    refine ⟨it,rfl,mem_cons_self ..,fun p hp => ?_,fun p hp hsame => ?_⟩
    · rcases mem_cons.mp hp with heq | hin
      · exact heq ▸ le_refl _
      · exact (hlower p hin).le
    · rcases mem_cons.mp hp with heq | hin
      · exact .inl heq
      · exact absurd hsame (hlower p hin).ne'
  | case3 r hshort =>
    cases r with
    | nil => exact absurd rfl hne
    | cons it rest =>
      cases rest with
      | nil => exact ⟨it,rfl,by simp,by simp,by simp⟩
      | cons prev rest => exact absurd rfl (hshort it prev rest)

/-- A new packet finds at most one with its priority or a higher one, or there is room for two packets only. -/
def Fits (queueSize : ℕ) (queue : List DeferredPacket) (dpp : DeferredPacket) : Prop :=
  queueSize=2 ∨ noLess dpp queue≤1

/-- The queue after `n` insertions, each of them with `ok`. Packets leave it at the front, or when they are squashed. -/
inductive Run (queueSize : ℕ) (ok : List DeferredPacket → DeferredPacket → Prop) : ℕ → List DeferredPacket → Prop
  | init : Run queueSize ok 0 []
  | addToQueue (n : ℕ) (queue queue' : List DeferredPacket) (dpp : DeferredPacket) : Run queueSize ok n queue →
      dpp.pkt=n → ok queue dpp → addToQueue queueSize dpp queue = .ok queue' → Run queueSize ok (n+1) queue'
  | remove (n : ℕ) (queue queue' : List DeferredPacket) : Run queueSize ok n queue → queue'.Sublist queue →
      Run queueSize ok n queue'

def Replaced (queueSize : ℕ) (dpp : DeferredPacket) (queue queue' : List DeferredPacket) : Prop :=
  if queue.length=queueSize then ∃ it,Oldest queue it ∧ queue'.Perm (dpp::queue.erase it)
  else queue'.Perm (dpp::queue)

theorem Oldest.reverse (h : Oldest queue.reverse it) : Oldest queue it :=
  ⟨mem_reverse.mp h.mem,fun p hp => h.lowest p (mem_reverse.mpr hp),fun p hp => h.oldest p (mem_reverse.mpr hp)⟩

theorem noLess_erase (h : Oldest queue it) (hsize : 2<queue.length) (hperm : queue.Perm (it::rest)) :
    noLess dpp rest≤1 ↔ noLess dpp queue≤1 := by
  have hcount : noLess dpp queue=noLess dpp (it::rest) := hperm.countP_eq _
  have hlen:=hperm.length_eq
  rw [length_cons] at hlen
  by_cases hle : dpp.priority ≤ it.priority
  · have hall : noLess dpp rest=rest.length := countP_eq_length.mpr fun p hp =>
      decide_eq_true (hle.trans (h.lowest p (hperm.mem_iff.mpr (mem_cons_of_mem _ hp))))
    rw [hcount,noLess_cons_of_le hle]
    omega
  · rw [hcount,noLess_cons_of_lt (not_le.mp hle)]

theorem addToQueue_spec (hsize : 2≤queueSize) (hq : queue.Pairwise Before) (hlen : queue.length≤queueSize)
    (hnew : ∀ p∈queue,p.pkt<dpp.pkt) :
    Post (addToQueue queueSize dpp queue) (fun queue' => queue'.length≤queueSize ∧ Replaced queueSize dpp queue queue' ∧
      (queue'.Pairwise Before ↔ Fits queueSize queue dpp)) fun _ => False := by
  have hr:=reverse_pairwise.mpr hq
  rw [addToQueue,post_ite]
  refine ⟨fun hfull => ?_,fun hroom => ?_⟩
  · have hne : queue≠[] := fun hnil => by
      rw [hnil,length_nil] at hfull
      omega
    simp only [post_bind,post_check,post_pure]
    refine ⟨fun _ => ⟨fun _ => ?_,fun hone => hone (by omega)⟩,fun hnil => hnil hne⟩
    obtain ⟨it,hget,hold⟩:=oldestLowest_spec hr (by simpa using hne)
    obtain ⟨hlt,hit⟩:=List.getElem?_eq_some_iff.mp hget
    generalize hrest : queue.reverse.eraseIdx (oldestLowest queue.reverse)=rest
    have hperm : queue.Perm (it::rest) := by
      have herased:=getElem_cons_eraseIdx_perm hlt
      rw [hit,hrest] at herased
      exact (reverse_perm queue).symm.trans herased.symm
    have hin:=insertFrom_perm dpp rest
    have hcount:=hperm.length_eq
    rw [length_cons] at hcount
    have hsub : rest.Sublist queue.reverse := hrest ▸ eraseIdx_sublist _ _
    refine ⟨?_,?_,?_⟩
    · rw [length_reverse,hin.length_eq,length_cons]
      omega
    · rw [Replaced,if_pos hfull]
      refine ⟨it,hold.reverse,(reverse_perm _).trans (hin.trans (Perm.cons dpp ?_))⟩
      exact (cons_perm_iff_perm_erase.mp hperm.symm).2
    · rw [← reverse_pairwise,reverse_reverse,insertFrom_behind (hr.sublist hsub) fun p hp => hnew p
        (mem_reverse.mp (hsub.subset hp)),Fits]
      by_cases htwo : queueSize=2
      · have hle : noLess dpp rest≤rest.length := countP_le_length
        exact ⟨fun _ => .inl htwo,fun _ => by omega⟩
      · rw [noLess_erase hold.reverse (by omega) hperm]
        exact ⟨.inr,fun h => h.resolve_left htwo⟩
  · have hin:=insertFrom_perm dpp queue.reverse
    refine ⟨?_,?_,?_⟩
    · rw [length_reverse,hin.length_eq,length_cons,length_reverse]
      omega
    · rw [Replaced,if_neg hroom]
      exact (reverse_perm _).trans (hin.trans ((reverse_perm queue).cons dpp))
    · have hsame : noLess dpp queue.reverse=noLess dpp queue := (reverse_perm queue).countP_eq _
      rw [← reverse_pairwise,reverse_reverse,insertFrom_behind hr fun p hp => hnew p (mem_reverse.mp hp),hsame,Fits]
      refine ⟨.inr,fun h => h.elim (fun htwo => ?_) id⟩
      have hle : noLess dpp queue≤queue.length := countP_le_length
      omega

theorem run_ordered (hsize : 2≤queueSize) (h : Run queueSize (Fits queueSize) n queue) :
    queue.Pairwise Before ∧ queue.length≤queueSize ∧ ∀ p∈queue,p.pkt<n := by
  induction h with
  | init => exact ⟨Pairwise.nil,Nat.zero_le _,fun p hp => absurd hp not_mem_nil⟩
  | addToQueue n queue queue' dpp _ hpkt hfits hcall ih =>
    obtain ⟨hq,hlen,hold⟩:=ih
    obtain ⟨hlen',hreplaced,hiff⟩:=(addToQueue_spec hsize hq hlen fun p hp => hpkt ▸ hold p hp).of_ok hcall
    refine ⟨hiff.mpr hfits,hlen',fun p hp => ?_⟩
    have hin : p=dpp ∨ p∈queue := by
      rw [Replaced] at hreplaced
      split at hreplaced
      · obtain ⟨it,_,hperm⟩:=hreplaced
        exact (mem_cons.mp (hperm.mem_iff.mp hp)).imp_right fun hin => erase_subset hin
      · exact mem_cons.mp (hreplaced.mem_iff.mp hp)
    rcases hin with heq | hin
    · rw [heq,hpkt]
      exact Nat.lt_succ_self n
    · exact (hold p hin).trans (Nat.lt_succ_self n)
  | remove n queue queue' _ hsub ih =>
    obtain ⟨hq,hlen,hold⟩:=ih
    exact ⟨hq.sublist hsub,hsub.length_le.trans hlen,fun p hp => hold p (hsub.subset hp)⟩

/-- The queue is ordered and holds at most `queueSize` packets. A full queue loses the oldest packet of the lowest
priority, and the order is kept exactly by the insertions with `Fits`. -/
theorem prefetch_queue (hsize : 2≤queueSize) (h : Run queueSize (Fits queueSize) n queue) :
    queue.Pairwise Before ∧ queue.length≤queueSize ∧ ∀ dpp,dpp.pkt=n →
      ∃ queue',addToQueue queueSize dpp queue = .ok queue' ∧ Replaced queueSize dpp queue queue' ∧
        (queue'.Pairwise Before ↔ Fits queueSize queue dpp) := by
  obtain ⟨hq,hlen,hold⟩:=run_ordered hsize h
  refine ⟨hq,hlen,fun dpp hpkt => ?_⟩
  obtain ⟨queue',hcall,_,hreplaced,hiff⟩:=(addToQueue_spec hsize hq hlen fun p hp => hpkt ▸ hold p hp).returns
  exact ⟨queue',hcall,hreplaced,hiff⟩

def prefetch (k : ℕ) (priority : ℤ) : DeferredPacket := ⟨⟨64*k,false⟩,priority,k⟩

/-- The fourth insertion finds the queue full and replaces the older one of two packets with priority 5. The fifth may
replace the other one. -/
theorem prefetch_queue_four : ∃ queue,Run 3 (Fits 3) 4 queue ∧ queue=[prefetch 2 7,prefetch 3 6,prefetch 1 5] ∧
    queue.Pairwise Before ∧ queue.length≤3 ∧
    (∃ queue',addToQueue 3 (prefetch 4 8) queue = .ok queue' ∧ Replaced 3 (prefetch 4 8) queue queue' ∧
      queue'.Pairwise Before) ∧
    ∃ queue',addToQueue 3 (prefetch 4 5) queue = .ok queue' ∧ ¬queue'.Pairwise Before := by
  have h1 : Run 3 (Fits 3) 1 [prefetch 0 5] := .addToQueue 0 [] _ (prefetch 0 5) .init rfl (.inr (by decide)) rfl
  have h2 : Run 3 (Fits 3) 2 [prefetch 0 5,prefetch 1 5] :=
    .addToQueue 1 _ _ (prefetch 1 5) h1 rfl (.inr (by decide)) rfl
  have h3 : Run 3 (Fits 3) 3 [prefetch 2 7,prefetch 0 5,prefetch 1 5] :=
    .addToQueue 2 _ _ (prefetch 2 7) h2 rfl (.inr (by decide)) rfl
  have h4 : Run 3 (Fits 3) 4 [prefetch 2 7,prefetch 3 6,prefetch 1 5] :=
    .addToQueue 3 _ _ (prefetch 3 6) h3 rfl (.inr (by decide)) rfl
  obtain ⟨hq,hlen,hadd⟩:=prefetch_queue (by decide) h4
  obtain ⟨queue1,hcall1,hreplaced,hiff1⟩:=hadd (prefetch 4 8) rfl
  obtain ⟨queue2,hcall2,_,hiff2⟩:=hadd (prefetch 4 5) rfl
  refine ⟨_,h4,rfl,hq,hlen,⟨queue1,hcall1,hreplaced,hiff1.mpr (.inr (by decide))⟩,queue2,hcall2,fun hbefore => ?_⟩
  rcases hiff2.mp hbefore with htwo | hfits
  · exact absurd htwo (by decide)
  · exact absurd hfits (by decide)

/-- The packet with priority 7 goes ahead of the one with priority 8. -/
theorem not_prefetch_queue_ordered : ∃ queue,Run 32 (fun _ _ => True) 3 queue ∧ ¬queue.Pairwise Before := by
  have h1 : Run 32 (fun _ _ => True) 1 [prefetch 0 10] := .addToQueue 0 [] _ (prefetch 0 10) .init rfl trivial rfl
  have h2 : Run 32 (fun _ _ => True) 2 [prefetch 0 10,prefetch 1 8] :=
    .addToQueue 1 _ _ (prefetch 1 8) h1 rfl trivial rfl
  have h3 : Run 32 (fun _ _ => True) 3 [prefetch 0 10,prefetch 2 7,prefetch 1 8] :=
    .addToQueue 2 _ _ (prefetch 2 7) h2 rfl trivial rfl
  exact ⟨_,h3,by decide⟩

def Sorted (queue : List DeferredPacket) : Prop := queue.Pairwise fun a b => b.priority≤a.priority

def Distinct (queue : List DeferredPacket) : Prop := queue.Pairwise fun a b => a.pfInfo≠b.pfInfo

instance (queue : List DeferredPacket) : Decidable (Sorted queue) := inferInstanceAs (Decidable (List.Pairwise _ _))

instance (queue : List DeferredPacket) : Decidable (Distinct queue) := inferInstanceAs (Decidable (List.Pairwise _ _))

theorem sameAddr_iff {info : PrefetchInfo} : info.sameAddr pfi=true ↔ info=pfi := by
  cases info
  cases pfi
  simp [PrefetchInfo.sameAddr]

/-- The packet of the prefetch has the higher one of the two priorities, in a place for it among the others. -/
structure Filtered (queue : List DeferredPacket) (pfi : PrefetchInfo) (priority : ℤ) (result : Bool × List DeferredPacket) :
    Prop where
  found : result.1=queue.any (·.pfInfo.sameAddr pfi)
  raised : ∀ before pkt after,queue=before++pkt::after → pkt.pfInfo.sameAddr pfi=true →
    Sorted result.2 ∧ ∃ before' after',before'++after'=before++after ∧
      result.2=before'++{pkt with priority := max pkt.priority priority}::after'
  unchanged : result.1=false → result.2=queue

/-- The packet behind the one of the prefetch has at least the new priority, or that one itself if it is the last. -/
def Harmless (queue : List DeferredPacket) (pfi : PrefetchInfo) (priority : ℤ) : Prop :=
  ∀ before pkt after,queue=before++pkt::after → pkt.pfInfo.sameAddr pfi=true →
    priority≤(after.head?.getD pkt).priority

theorem search_none {i : ℕ} (h : ∀ p∈queue,p.pfInfo.sameAddr pfi=false) :
    search pfi queue i=(false,i+queue.length) := by
  induction queue generalizing i with
  | nil => rfl
  | cons p rest ih =>
    rw [search,if_neg (by rw [h p (mem_cons_self ..)]; exact Bool.false_ne_true),
      ih fun p' hp' => h p' (mem_cons_of_mem _ hp'),length_cons]
    congr 1
    omega

theorem search_some {i : ℕ} (h : ∀ p∈before,p.pfInfo.sameAddr pfi=false) (hpkt : pkt.pfInfo.sameAddr pfi=true) :
    search pfi (before++pkt::after) i=(true,i+before.length+1) := by
  induction before generalizing i with
  | nil => rw [nil_append,search,if_pos hpkt]; rfl
  | cons p rest ih =>
    rw [cons_append,search,if_neg (by rw [h p (mem_cons_self ..)]; exact Bool.false_ne_true),
      ih fun p' hp' => h p' (mem_cons_of_mem _ hp'),length_cons]
    congr 1
    omega

theorem bubble_perm (it : DeferredPacket) (ahead between behind : List DeferredPacket) :
    (bubble it ahead between behind).Perm (it::(ahead++between++behind)) := by
  induction ahead generalizing between behind with
  | nil => exact perm_middle
  | cons prev ahead ih =>
    rw [bubble]
    split
    · refine (ih [] _).trans (Perm.cons it ?_)
      rw [append_nil,cons_append,cons_append,← append_assoc]
      exact perm_middle
    · refine (ih (prev::between) behind).trans (Perm.cons it ?_)
      rw [cons_append,cons_append]
      exact perm_middle.append_right behind

theorem Distinct.others (h : Distinct (before++pkt::after)) (hpkt : pkt.pfInfo.sameAddr pfi=true) :
    ∀ p∈before++after,p.pfInfo.sameAddr pfi=false := by
  obtain ⟨_,hafter,hcross⟩:=pairwise_append.mp h
  have heq:=sameAddr_iff.mp hpkt
  intro p hp
  refine Bool.eq_false_iff.mpr fun hsame => ?_
  rcases mem_append.mp hp with hin | hin
  · exact hcross p hin pkt (mem_cons_self ..) ((sameAddr_iff.mp hsame).trans heq.symm)
  · exact (pairwise_cons.mp hafter).1 p hin (heq.trans (sameAddr_iff.mp hsame).symm)

theorem alreadyInQueue_none (h : ∀ p∈queue,p.pfInfo.sameAddr pfi=false) (priority : ℤ) :
    alreadyInQueue queue pfi priority=(false,queue) := by
  rw [alreadyInQueue,search_none h]
  dsimp only
  rw [getElem?_eq_none (by omega)]

theorem alreadyInQueue_last (h : ∀ p∈before,p.pfInfo.sameAddr pfi=false) (hpkt : pkt.pfInfo.sameAddr pfi=true)
    (priority : ℤ) : alreadyInQueue (before++[pkt]) pfi priority=(true,before++[pkt]) := by
  rw [alreadyInQueue,search_some h hpkt]
  dsimp only
  rw [getElem?_eq_none (by rw [length_append,length_singleton]; omega)]

theorem alreadyInQueue_next (h : ∀ p∈before,p.pfInfo.sameAddr pfi=false) (hpkt : pkt.pfInfo.sameAddr pfi=true)
    (priority : ℤ) : alreadyInQueue (before++pkt::p::rest) pfi priority =
      (true,if p.priority<priority then bubble {p with priority := priority} (pkt::before.reverse) [] rest
        else before++pkt::p::rest) := by
  have hsplit : before++pkt::p::rest=(before++[pkt])++p::rest := by rw [append_assoc]; rfl
  have hlen : (before++[pkt]).length=before.length+1 := by rw [length_append,length_singleton]
  rw [alreadyInQueue,search_some h hpkt,hsplit]
  dsimp only
  rw [Nat.zero_add,← hlen,getElem?_append_right (le_refl _),Nat.sub_self,getElem?_cons_zero]
  dsimp only
  rw [take_left,drop_append,drop_of_length_le (Nat.le_succ _),Nat.add_sub_cancel_left,reverse_append]
  split <;> rfl

theorem Filtered.other {result : Bool × List DeferredPacket} (h : Filtered (before++pkt::after) pfi priority result)
    (hpkt : pkt.pfInfo.sameAddr pfi=true) (hp : p∈before++after) : p∈result.2 := by
  obtain ⟨_,before',after',hsame,hresult⟩:=h.raised before pkt after rfl hpkt
  rw [← hsame] at hp
  rw [hresult]
  exact (mem_append.mp hp).elim (mem_append_left _) fun hin =>
    mem_append_right _ (mem_cons_of_mem _ hin)

theorem filtered_same (hsorted : Sorted (before++pkt::after)) (hdistinct : Distinct (before++pkt::after))
    (hpkt : pkt.pfInfo.sameAddr pfi=true) (hle : priority≤pkt.priority) :
    Filtered (before++pkt::after) pfi priority (true,before++pkt::after) := by
  refine ⟨?_,fun before' pkt' after' hq hpkt' => ⟨hsorted,before',after',rfl,?_⟩,fun hno => by cases hno⟩
  · exact (any_eq_true.mpr ⟨pkt,mem_append_right _ (mem_cons_self ..),hpkt⟩).symm
  · have hsame : pkt'=pkt := by
      have hin : pkt∈before'++pkt'::after' := hq ▸ mem_append_right _ (mem_cons_self ..)
      refine Decidable.byContradiction fun hne => ?_
      have hout : pkt∈before'++after' := by
        rcases mem_append.mp hin with hin | hin
        · exact mem_append_left _ hin
        · exact mem_append_right _ ((mem_cons.mp hin).resolve_left (Ne.symm hne))
      rw [hq] at hdistinct
      rw [hdistinct.others hpkt' pkt hout] at hpkt
      cases hpkt
    rw [hq,hsame,max_eq_left hle]

theorem filtered_iff_after (hsorted : Sorted (before++pkt::after)) (hdistinct : Distinct (before++pkt::after))
    (hpkt : pkt.pfInfo.sameAddr pfi=true) (priority : ℤ) :
    Filtered (before++pkt::after) pfi priority (alreadyInQueue (before++pkt::after) pfi priority) ↔
      priority≤(after.head?.getD pkt).priority := by
  have hothers:=hdistinct.others hpkt
  have hbefore : ∀ p∈before,p.pfInfo.sameAddr pfi=false := fun p hp => hothers p (mem_append_left _ hp)
  cases after with
  | nil =>
    rw [alreadyInQueue_last hbefore hpkt]
    refine ⟨fun h => ?_,fun hle => filtered_same hsorted hdistinct hpkt hle⟩
    obtain ⟨_,before',after',hsame,hresult⟩:=h.raised before pkt [] rfl hpkt
    have hin : {pkt with priority := max pkt.priority priority}∈before++[pkt] := by
      rw [show before++[pkt]=_ from hresult]
      exact mem_append_right _ (mem_cons_self ..)
    rcases mem_append.mp hin with hin | hin
    · rw [hothers _ (mem_append_left _ hin)] at hpkt
      cases hpkt
    · have hpriority:=congrArg DeferredPacket.priority (mem_singleton.mp hin)
      exact (le_max_right _ _).trans hpriority.le
  | cons p rest =>
    have hp : p∈before++p::rest := mem_append_right _ (mem_cons_self ..)
    have hnext : p.priority≤pkt.priority :=
      (pairwise_cons.mp (pairwise_append.mp hsorted).2.1).1 p (mem_cons_self ..)
    rw [alreadyInQueue_next hbefore hpkt]
    by_cases hlt : p.priority<priority
    · rw [if_pos hlt]
      refine ⟨fun h => absurd (h.other hpkt hp) fun hin => ?_,fun hle => absurd hle (not_le.mpr hlt)⟩
      have hmem:=(bubble_perm _ _ _ _).mem_iff.mp hin
      rw [append_nil,cons_append,mem_cons,mem_cons,mem_append,mem_reverse] at hmem
      obtain ⟨_,hpair,hcross⟩:=pairwise_append.mp hdistinct
      obtain ⟨hfirst,hpair⟩:=pairwise_cons.mp hpair
      rcases hmem with heq | heq | hin | hin
      · exact absurd (congrArg DeferredPacket.priority heq) hlt.ne
      · exact hfirst p (mem_cons_self ..) (congrArg DeferredPacket.pfInfo heq).symm
      · exact hcross p hin p (mem_cons_of_mem _ (mem_cons_self ..)) rfl
      · exact (pairwise_cons.mp hpair).1 p hin rfl
    · rw [if_neg hlt]
      exact ⟨fun _ => not_lt.mp hlt,fun _ => filtered_same hsorted hdistinct hpkt ((not_lt.mp hlt).trans hnext)⟩

/-- The filter does what it is for exactly if the packet behind that of the prefetch need not be raised. -/
theorem filtered_iff (hsorted : Sorted queue) (hdistinct : Distinct queue) :
    Filtered queue pfi priority (alreadyInQueue queue pfi priority) ↔ Harmless queue pfi priority := by
  by_cases hany : queue.any (·.pfInfo.sameAddr pfi)=true
  · obtain ⟨pkt,hin,hpkt⟩:=List.any_eq_true.mp hany
    obtain ⟨before,after,rfl⟩:=List.append_of_mem hin
    rw [filtered_iff_after hsorted hdistinct hpkt priority]
    refine ⟨fun hle before' pkt' after' hq hpkt' => ?_,fun h => h before pkt after rfl hpkt⟩
    have hiff:=filtered_iff_after hsorted hdistinct hpkt priority
    rw [hq] at hiff hsorted hdistinct
    exact (filtered_iff_after hsorted hdistinct hpkt' priority).mp (hiff.mpr hle)
  · have hnone : ∀ p∈queue,p.pfInfo.sameAddr pfi=false := fun p hp =>
      Bool.eq_false_iff.mpr fun hp' => hany (List.any_eq_true.mpr ⟨p,hp,hp'⟩)
    have hout : ∀ before pkt after,queue=before++pkt::after → ¬pkt.pfInfo.sameAddr pfi=true :=
      fun before pkt after hq hpkt => hany (List.any_eq_true.mpr
        ⟨pkt,hq ▸ List.mem_append_right _ (List.mem_cons_self ..),hpkt⟩)
    rw [alreadyInQueue_none hnone]
    refine ⟨fun _ before pkt after hq hpkt => absurd hpkt (hout before pkt after hq),fun _ => ?_⟩
    exact ⟨(Bool.eq_false_iff.mpr hany).symm,fun before pkt after hq hpkt => absurd hpkt (hout before pkt after hq),
      fun _ => rfl⟩

theorem filtered_iff_two : Filtered [prefetch 0 5,prefetch 1 4] ⟨0,false⟩ 4 (alreadyInQueue [prefetch 0 5,prefetch 1 4]
    ⟨0,false⟩ 4) := by
  refine (filtered_iff (by decide) (by decide)).mpr fun before pkt after hq hpkt => ?_
  cases before with
  | nil =>
    obtain ⟨rfl,rfl⟩:=List.cons.inj hq
    decide
  | cons p before =>
    have hin : pkt∈[prefetch 1 4] := (List.cons.inj hq).2 ▸ List.mem_append_right _ (List.mem_cons_self ..)
    rw [List.mem_singleton.mp hin] at hpkt
    cases hpkt

/-- The priority goes to the packet of another address. -/
theorem not_filtered_next : alreadyInQueue [prefetch 0 5,prefetch 1 3] ⟨0,false⟩ 4=(true,[prefetch 0 5,prefetch 1 4]) ∧
    ¬Filtered [prefetch 0 5,prefetch 1 3] ⟨0,false⟩ 4 (alreadyInQueue [prefetch 0 5,prefetch 1 3] ⟨0,false⟩ 4) := by
  refine ⟨by decide,fun h => ?_⟩
  have hsplit : Filtered ([]++prefetch 0 5::[prefetch 1 3]) ⟨0,false⟩ 4 _ := h
  exact absurd (hsplit.other rfl (List.mem_singleton_self _)) (by decide)

end AquaGem5.Cache.Queued
