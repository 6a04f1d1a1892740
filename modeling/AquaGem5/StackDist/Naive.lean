import AquaGem5.Lib.LruStack
import AquaGem5.StackDist.Calc

/-!
# The naive LRU stack

What the calculator is for: a stack of the addresses that are present, most recent first, with their
marks. The debug stack of the source is another one, which no removal reaches.
-/

namespace AquaGem5.StackDist
open List
open Address (Addr)
open StackDistCalc (stackDistance)
open LruStack

abbrev Naive := List (Addr × Bool)

def Call.addr : Call → Addr
  | .update a _ => a
  | .inspect a _ => a

namespace Naive

def result (xs : Naive) (a : Addr) : Result := ⟨stackDistance (xs.map Prod.fst) a,decide ((a,true)∈xs)⟩

def step (xs : Naive) : Call → Naive
  | .update a true => (a,false)::xs.filter fun e => e.1 != a
  | .update a false => xs.filter fun e => e.1 != a
  | .inspect a mark => xs.map fun e => if e.1=a then (a,mark) else e

def run (xs : Naive) : List Call → List Result
  | [] => []
  | c::cs => xs.result c.addr::run (xs.step c) cs

def after (t : List Call) : Naive := t.foldl step []

end Naive

def adds (t : List Call) : List Addr := t.filterMap fun c =>
  match c with
  | .update a true => some a
  | _ => none

/-- The calls after the last one that added `b`, latest first. -/
def since (b : Addr) (t : List Call) : List Call := t.reverse.takeWhile fun c => c ≠ .update b true

/-- Of `a`, if it was added, and the addresses added since, none was removed after it was last added. -/
def Settled (t : List Call) (a : Addr) : Prop :=
  .update a true∈t → ∀ b,b=a ∨ .update b true∈since a t → .update b false∉since b t

def Present (t : List Call) (a : Addr) : Prop := .update a true∈t ∧ .update a false∉since a t

instance (t : List Call) (a : Addr) : Decidable (Present t a) := inferInstanceAs (Decidable (_ ∧ _))

/-- The other addresses that were added since `a` was and are present still. -/
def distanceSince (t : List Call) (a : Addr) : ℕ :=
  if Present t a then ((adds (since a t)).toFinset.filter fun b => .update b false∉since b t).card else Infinity

/-- The last inspection of `a` since it was added set its mark. -/
def lastMark (a : Addr) (t : List Call) : Prop :=
  (since a t).find? (fun c => c = .inspect a true ∨ c = .inspect a false)=some (.inspect a true)

instance (a : Addr) (t : List Call) : Decidable (lastMark a t) := inferInstanceAs (Decidable (_=_))

/-- The calls that compare the distance with that of the debug stack. -/
def Call.verifies : Call → Bool
  | .update _ addNewNode => addNewNode
  | .inspect _ _ => true

section History

variable {t u : List Call} {a b : Addr} {c : Call}

theorem adds_append (t u : List Call) : adds (t++u)=adds t++adds u := List.filterMap_append

theorem mem_adds : a∈adds t ↔ .update a true∈t := by
  unfold adds
  rw [mem_filterMap]
  constructor
  · rintro ⟨c,hc,hsome⟩
    split at hsome
    · rw [← Option.some.inj hsome]
      exact hc
    · cases hsome
  · intro h
    exact ⟨_,h,rfl⟩

theorem since_snoc (b : Addr) (t : List Call) (c : Call) :
    since b (t++[c])=if c = .update b true then [] else c::since b t := by
  rw [since,reverse_append,reverse_singleton,singleton_append,takeWhile_cons]
  by_cases hc : c = .update b true <;> simp [hc,since]

theorem since_split (h : .update a true∉u) : since a (t ++ .update a true::u)=u.reverse := by
  induction u using reverseRecOn with
  | nil => simp [since]
  | append_singleton u c ih =>
    rw [mem_append,not_or,mem_singleton] at h
    have hassoc : t ++ .update a true::(u++[c])=t ++ .update a true::u++[c] := by simp
    have hne : c ≠ .update a true := fun hc => h.2 hc.symm
    rw [hassoc,since_snoc,if_neg hne,ih h.1,reverse_append,reverse_singleton,singleton_append]

theorem after_snoc (t : List Call) (c : Call) : Naive.after (t++[c])=(Naive.after t).step c := by
  rw [Naive.after,foldl_append]
  rfl

theorem mem_since_snoc (hadd : c ≠ .update b true) (hremove : c ≠ .update b false) :
    .update b false∈since b (t++[c]) ↔ .update b false∈since b t := by
  rw [since_snoc,if_neg hadd,mem_cons]
  constructor
  · intro h
    exact h.resolve_left fun heq => hremove heq.symm
  · exact .inr

theorem after_eq_filter (t : List Call) :
    (Naive.after t).map Prod.fst=(stack (adds t)).filter fun b => decide (.update b false∉since b t) := by
  induction t using reverseRecOn with
  | nil => rfl
  | append_singleton t c ih =>
    have hfilter : ∀ a,((Naive.after t).filter fun e => e.1 != a).map Prod.fst =
        ((stack (adds t)).filter fun b => decide (.update b false∉since b t)).filter (· != a) := by
      intro a
      rw [← ih,filter_map]
      rfl
    rw [after_snoc,adds_append]
    cases c with
    | update a addNewNode =>
      cases addNewNode with
      | true =>
        have hadds : adds [.update a true]=[a] := rfl
        have herase : (stack (adds t)).erase a=(stack (adds t)).filter (· != a) :=
          (stack_nodup _).erase_eq_filter a
        have hfresh : decide (.update a false∉since a (t++[.update a true]))=true := by
          rw [since_snoc,if_pos rfl]
          simp
        rw [Naive.step,map_cons,hfilter,hadds,stack_snoc,touch,herase,filter_cons,if_pos hfresh,
          filter_filter,filter_filter]
        congr 1
        apply filter_congr
        intro b _
        by_cases hb : b=a
        · simp [hb]
        · have hadd : Call.update a true ≠ .update b true := fun h => hb (Call.update.inj h).1.symm
          have hsame:=mem_since_snoc (t := t) hadd fun h => hb (Call.update.inj h).1.symm
          simp [hsame,Bool.and_comm]
      | false =>
        have hadds : adds [.update a false]=[] := rfl
        rw [Naive.step,hfilter,hadds,append_nil,filter_filter]
        apply filter_congr
        intro b _
        by_cases hb : b=a
        · have hgone : .update b false∈since b (t++[.update b false]) := by
            rw [since_snoc,if_neg fun h => (by cases h)]
            exact mem_cons_self
          subst hb
          simp [hgone]
        · have hadd : Call.update a false ≠ .update b true := fun h => (by cases h)
          have hsame:=mem_since_snoc (t := t) hadd fun h => hb (Call.update.inj h).1.symm
          simp [hb,hsame]
    | inspect a mark =>
      have hadds : adds [.inspect a mark]=[] := rfl
      have hmap : ((Naive.after t).step (.inspect a mark)).map Prod.fst=(Naive.after t).map Prod.fst := by
        rw [Naive.step,map_map]
        apply map_congr_left
        intro e _
        simp only [Function.comp_apply]
        split
        · rename_i he
          exact he.symm
        · rfl
      rw [hmap,hadds,append_nil,ih]
      apply filter_congr
      intro b _
      have hsame : .update b false∈since b (t++[.inspect a mark]) ↔ .update b false∈since b t :=
        mem_since_snoc (fun h => (by cases h)) fun h => (by cases h)
      simp [hsame]

theorem stackDistance_append {ys zs : List Addr} (h : a∉ys) : stackDistance (ys++a::zs) a=ys.length := by
  rw [stackDistance,if_pos (by simp),idxOf_append_of_notMem h,idxOf_cons_self,Nat.add_zero]

theorem stackDistance_filter {p : Addr → Bool} {ys zs : List Addr} (h : a∉ys) (hlen : ys.length<Infinity) :
    stackDistance ((ys++a::zs).filter p) a=stackDistance (ys++a::zs) a ↔ p a=true ∧ ∀ b∈ys,p b=true := by
  rw [stackDistance_append h,filter_append,filter_cons]
  by_cases ha : p a=true
  · have hnot : a∉ys.filter p := fun hmem => h (mem_filter.mp hmem).1
    rw [if_pos ha,stackDistance_append hnot,length_filter_eq_length_iff]
    simp [ha]
  · rw [if_neg ha,stackDistance]
    have hnot : a∉ys.filter p++zs.filter p := by
      rw [mem_append,mem_filter,mem_filter]
      simp [ha]
    rw [if_neg hnot]
    constructor
    · intro heq
      omega
    · intro hall
      exact (ha hall.1).elim

theorem exists_above (ha : .update a true∈t) : ∃ ys zs,stack (adds t)=ys++a::zs ∧ a∉ys ∧ ys.Nodup ∧
    ys.length≤(adds t).length ∧ ∀ b,b∈ys ↔ .update b true∈since a t := by
  obtain ⟨t1,u,rfl,hu⟩:=last_access ha
  have hnot : a∉adds u := fun hmem => hu (mem_adds.mp hmem)
  have hsplit : adds (t1 ++ .update a true::u)=adds t1++a::adds u := adds_append ..
  obtain ⟨ys,zs,hstack,hset⟩:=stack_since (adds t1) hnot
  have hys : ∀ b,b∈ys ↔ .update b true∈u := by
    intro b
    rw [← mem_toFinset,hset,mem_toFinset,mem_adds]
  have hnodup:=stack_nodup (adds t1++a::adds u)
  rw [hstack] at hnodup
  refine ⟨ys,zs,by rw [hsplit,hstack],fun hmem => hnot (mem_adds.mpr ((hys a).mp hmem)),hnodup.of_append_left,?_,?_⟩
  · have hcard:=toFinset_card_of_nodup hnodup.of_append_left
    have hle:=(adds u).toFinset_card_le
    rw [hset] at hcard
    rw [hsplit,length_append,length_cons]
    omega
  · intro b
    rw [since_split hu,mem_reverse]
    exact hys b

theorem settled_iff (hlen : (adds t).length<Infinity) (a : Addr) :
    stackDistance ((Naive.after t).map Prod.fst) a=stackDistance (stack (adds t)) a ↔ Settled t a := by
  rw [after_eq_filter]
  by_cases ha : .update a true∈t
  · obtain ⟨ys,zs,hstack,hnot,_,hle,hys⟩:=exists_above ha
    rw [hstack,stackDistance_filter hnot (Nat.lt_of_le_of_lt hle hlen)]
    unfold Settled
    simp only [decide_eq_true_eq]
    constructor
    · intro h _ b hb
      rcases hb with rfl | hb
      · exact h.1
      · exact h.2 b ((hys b).mpr hb)
    · intro h
      exact ⟨h ha a (.inl rfl),fun b hb => h ha b (.inr ((hys b).mp hb))⟩
  · have hnot : a∉stack (adds t) := fun hmem => ha (mem_adds.mp (mem_stack.mp hmem))
    have hnot' : a∉(stack (adds t)).filter fun b => decide (.update b false∉since b t) :=
      fun hmem => hnot (mem_filter.mp hmem).1
    rw [stackDistance,stackDistance,if_neg hnot,if_neg hnot']
    exact iff_of_true rfl fun h => (ha h).elim

theorem mem_after (t : List Call) (a : Addr) : a∈(Naive.after t).map Prod.fst ↔ Present t a := by
  rw [after_eq_filter,mem_filter,mem_stack,mem_adds,decide_eq_true_eq,Present]

theorem stackDistance_after (t : List Call) (a : Addr) :
    stackDistance ((Naive.after t).map Prod.fst) a=distanceSince t a := by
  unfold distanceSince
  by_cases ha : Present t a
  · obtain ⟨ys,zs,hstack,hnot,hnodup,_,hys⟩:=exists_above ha.1
    have hkept : decide (.update a false∉since a t)=true := decide_eq_true ha.2
    have habove : a∉ys.filter fun b => decide (.update b false∉since b t) :=
      fun hmem => hnot (mem_filter.mp hmem).1
    rw [if_pos ha,after_eq_filter,hstack,filter_append,filter_cons,if_pos hkept,
      stackDistance_append habove,← toFinset_card_of_nodup (hnodup.filter _)]
    congr 1
    ext b
    rw [mem_toFinset,mem_filter,Finset.mem_filter,mem_toFinset,mem_adds,hys,decide_eq_true_eq]
  · have hnot : a∉(Naive.after t).map Prod.fst := fun hmem => ha ((mem_after t a).mp hmem)
    rw [if_neg ha,stackDistance,if_neg hnot]

theorem present_snoc (hadd : c ≠ .update a true) (hremove : c ≠ .update a false) :
    Present (t++[c]) a ↔ Present t a := by
  rw [Present,Present,mem_since_snoc hadd hremove,mem_append,mem_singleton]
  simp [hadd.symm]

theorem lastMark_snoc (hadd : c ≠ .update a true) (hinspect : ∀ m,c ≠ .inspect a m) :
    lastMark a (t++[c])=lastMark a t := by
  rw [lastMark,since_snoc,if_neg hadd,find?_cons_of_neg]
  · rfl
  · simp [hinspect]

theorem marked_after (t : List Call) (a : Addr) : (a,true)∈Naive.after t ↔ Present t a ∧ lastMark a t := by
  induction t using reverseRecOn with
  | nil => simp [Naive.after,Present]
  | append_singleton t c ih =>
    rw [after_snoc]
    cases c with
    | update b addNewNode =>
      by_cases hb : b=a
      · subst hb
        cases addNewNode with
        | true =>
          have hempty : ¬lastMark b (t++[.update b true]) := by
            rw [lastMark,since_snoc,if_pos rfl]
            simp
          simp [Naive.step,hempty]
        | false =>
          have hgone : ¬Present (t++[.update b false]) b := by
            rw [Present,since_snoc,if_neg fun h => (by cases h)]
            simp
          simp [Naive.step,hgone]
      · have hne : ∀ m,Call.update b addNewNode ≠ .update a m := fun m h => hb (Call.update.inj h).1
        rw [present_snoc (hne true) (hne false),lastMark_snoc (hne true) fun m h => (by cases h),← ih]
        cases addNewNode with
        | true | false => simp [Naive.step,Ne.symm hb]
    | inspect b m =>
      have hupdate : ∀ m',Call.inspect b m ≠ .update a m' := fun m' h => (by cases h)
      rw [present_snoc (hupdate true) (hupdate false),Naive.step,mem_map]
      by_cases hb : b=a
      · subst hb
        have hlast : lastMark b (t++[.inspect b m]) ↔ m=true := by
          rw [lastMark,since_snoc,if_neg (hupdate true),find?_cons_of_pos (by cases m <;> simp)]
          simp
        rw [hlast,← mem_after,mem_map]
        constructor
        · rintro ⟨e,he,heq⟩
          split at heq
          · rename_i heb
            exact ⟨⟨e,he,heb⟩,(Prod.ext_iff.mp heq).2⟩
          · rename_i heb
            exact (heb (Prod.ext_iff.mp heq).1).elim
        · rintro ⟨⟨e,he,heb⟩,rfl⟩
          exact ⟨e,he,if_pos heb⟩
      · have hinspect : ∀ m',Call.inspect b m ≠ .inspect a m' := fun m' h => hb (Call.inspect.inj h).1
        rw [lastMark_snoc (hupdate true) hinspect,← ih]
        constructor
        · rintro ⟨e,he,heq⟩
          split at heq
          · exact (hb (Prod.ext_iff.mp heq).1).elim
          · rwa [heq] at he
        · intro hmem
          exact ⟨_,hmem,if_neg (Ne.symm hb)⟩

/-- The results of the calls `cs` after the calls `t`. -/
def expected (t : List Call) : List Call → List Result
  | [] => []
  | c::cs => ⟨distanceSince t c.addr,decide (Present t c.addr ∧ lastMark c.addr t)⟩::expected (t++[c]) cs

theorem run_after (cs : List Call) : ∀ t,Naive.run (Naive.after t) cs=expected t cs := by
  induction cs with
  | nil =>
    intro t
    rfl
  | cons c cs ih =>
    intro t
    have hresult : (Naive.after t).result c.addr =
        ⟨distanceSince t c.addr,decide (Present t c.addr ∧ lastMark c.addr t)⟩ := by
      rw [Naive.result,stackDistance_after,decide_eq_decide.mpr (marked_after t c.addr)]
    rw [Naive.run,hresult,← after_snoc,ih,expected]

end History

end AquaGem5.StackDist
