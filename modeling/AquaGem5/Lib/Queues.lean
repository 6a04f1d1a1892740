import Mathlib.Algebra.Order.Group.Multiset

/-!
# Queues by priority

`q i` is the queue of priority `i`, and the first `n` priorities are in use. What the queues hold
together is a multiset, whatever queue an element waits in.
-/

namespace Queues
open Function List Multiset

variable {α : Type} {n i : ℕ} {q : ℕ → List α} {a : α}

def queued (n : ℕ) (q : ℕ → List α) : List α := (List.range n).flatMap q

theorem mem_queued : a∈queued n q ↔ ∃ i<n,a∈q i := by
  simp [queued]

theorem queued_succ (n : ℕ) (q : ℕ → List α) : queued (n+1) q=queued n q++q n := by
  rw [queued,List.range_succ,flatMap_append,flatMap_singleton,queued]

theorem queued_update_of_le (h : n ≤ i) (l : List α) : queued n (update q i l)=queued n q := by
  rw [queued,queued]
  refine flatMap_congr fun j hj => update_of_ne ?_ ..
  have hlt:=List.mem_range.mp hj
  omega

theorem queued_update (h : i<n) (l : List α) : (queued n (update q i l) : Multiset α)+q i=queued n q+l := by
  induction n with
  | zero => omega
  | succ n ih =>
    rw [queued_succ,queued_succ,← coe_add,← coe_add]
    cases Nat.eq_or_lt_of_le (Nat.le_of_lt_succ h) with
    | inl heq =>
      rw [← heq,queued_update_of_le (le_refl i),update_self,add_assoc,add_assoc,add_comm (l : Multiset α)]
    | inr hlt =>
      rw [update_of_ne hlt.ne',add_right_comm,ih hlt,add_right_comm]

theorem queued_append (n : ℕ) (q q' : ℕ → List α) :
    (queued n fun i => q i++q' i : Multiset α)=queued n q+queued n q' := by
  induction n with
  | zero => rfl
  | succ n ih =>
    simp only [queued_succ,← coe_add]
    rw [ih,add_add_add_comm]

theorem queued_push (h : i<n) (a : α) :
    (queued n (update q i (q i++[a])) : Multiset α)=a ::ₘ queued n q := by
  have hq:=queued_update (q := q) h (q i++[a])
  rw [← coe_add,add_comm (q i : Multiset α),← add_assoc,coe_singleton] at hq
  rw [add_right_cancel hq,add_comm,singleton_add]

theorem queued_erase {k : ℕ} (h : i<n) (hk : (q i)[k]?=some a) :
    (queued n q : Multiset α)=a ::ₘ queued n (update q i ((q i).eraseIdx k)) := by
  obtain ⟨hlt,rfl⟩:=List.getElem?_eq_some_iff.mp hk
  have hq:=queued_update (q := q) h ((q i).eraseIdx k)
  have hperm : (q i : Multiset α)=(q i)[k] ::ₘ ((q i).eraseIdx k : Multiset α) :=
    (coe_eq_coe.mpr (getElem_cons_eraseIdx_perm hlt)).symm
  rw [hperm,← singleton_add,← add_assoc] at hq
  rw [← add_right_cancel hq,add_comm,singleton_add]

theorem any_le_countP (n : ℕ) (q : ℕ → List α) (p : α → Bool) :
    ((List.range n).filter fun i => (q i).any p).length≤(queued n q).countP p := by
  induction n with
  | zero => exact Nat.zero_le _
  | succ n ih =>
    rw [List.range_succ,filter_append,length_append,queued_succ,countP_append]
    refine Nat.add_le_add ih ?_
    by_cases hany : (q n).any p=true
    · obtain ⟨a,ha,hp⟩:=any_eq_true.mp hany
      rw [filter_cons,if_pos hany]
      exact countP_pos_iff.mpr ⟨a,ha,hp⟩
    · rw [filter_cons,if_neg hany]
      exact Nat.zero_le _

end Queues

/-!
## Insertion from the back of a list

`insertBack stop x l` scans `l` from its end and puts `x` behind the first element at which it
stops, or at the front if there is none.
-/

namespace BackInsert
open List

variable {α : Type} {stop : α → Bool} {x : α} {l : List α}

def scan (stop : α → Bool) (x : α) : List α → List α
  | [] => [x]
  | y::ys => if stop y then x::y::ys else y::scan stop x ys

def insertBack (stop : α → Bool) (x : α) (l : List α) : List α := (scan stop x l.reverse).reverse

theorem scan_eq (stop : α → Bool) (x : α) (l : List α) :
    ∃ passed ahead,l=passed++ahead ∧ scan stop x l=passed++x::ahead ∧
      (∀ y∈passed,stop y=false) ∧ ∀ y∈ahead.head?,stop y=true := by
  induction l with
  | nil => exact ⟨[],[],rfl,rfl,by simp,by simp⟩
  | cons y ys ih =>
    unfold scan
    split
    next hstop => exact ⟨[],y::ys,rfl,rfl,by simp,fun z hz => by cases hz; exact hstop⟩
    next hpass =>
      obtain ⟨passed,ahead,heq,hscan,hpassed,hahead⟩:=ih
      refine ⟨y::passed,ahead,by rw [heq,cons_append],by rw [hscan,cons_append],fun z hz => ?_,hahead⟩
      cases mem_cons.mp hz with
      | inl hy => rw [hy,eq_false_of_ne_true hpass]
      | inr hin => exact hpassed z hin

theorem insertBack_eq (stop : α → Bool) (x : α) (l : List α) :
    ∃ before after,l=before++after ∧ insertBack stop x l=before++x::after ∧
      (∀ y∈after,stop y=false) ∧ ∀ y∈before.getLast?,stop y=true := by
  obtain ⟨passed,ahead,heq,hscan,hpassed,hahead⟩:=scan_eq stop x l.reverse
  refine ⟨ahead.reverse,passed.reverse,?_,?_,fun y hy => hpassed y (mem_reverse.mp hy),fun y hy => hahead y ?_⟩
  · rw [← reverse_append,← heq,reverse_reverse]
  · rw [insertBack,hscan,reverse_append,reverse_cons,append_assoc,singleton_append]
  · rwa [← getLast?_reverse]

theorem insertBack_perm (stop : α → Bool) (x : α) (l : List α) : (insertBack stop x l).Perm (x::l) := by
  obtain ⟨before,after,heq,hinsert,_⟩:=insertBack_eq stop x l
  rw [hinsert,heq]
  exact perm_middle

theorem insertBack_filter {p : α → Bool} (hstop : ∀ y∈l,p y=true → stop y=true) (hx : p x=true) :
    (insertBack stop x l).filter p=l.filter p++[x] := by
  obtain ⟨before,after,heq,hinsert,hafter,_⟩:=insertBack_eq stop x l
  have hnone : after.filter p=[] := by
    rw [filter_eq_nil_iff]
    intro y hy hp
    have hs:=hstop y (heq ▸ mem_append_right _ hy) hp
    rw [hafter y hy] at hs
    cases hs
  rw [hinsert,heq,filter_append,filter_append,filter_cons_of_pos hx,hnone,append_nil]

theorem insertBack_filter_of_neg {p : α → Bool} (hx : p x=false) : (insertBack stop x l).filter p=l.filter p := by
  obtain ⟨before,after,heq,hinsert,_⟩:=insertBack_eq stop x l
  rw [hinsert,heq,filter_append,filter_append,filter_cons_of_neg (by rw [hx]; simp)]

theorem insertBack_sorted {key : α → ℕ} (hstop : ∀ y,stop y=true ↔ key y≤key x)
    (hsorted : l.Pairwise fun a b => key a≤key b) : (insertBack stop x l).Pairwise fun a b => key a≤key b := by
  obtain ⟨before,after,heq,hinsert,hafter,hbefore⟩:=insertBack_eq stop x l
  rw [heq,pairwise_append] at hsorted
  obtain ⟨hfirst,hsecond,hcross⟩:=hsorted
  rw [hinsert,pairwise_append,pairwise_cons]
  refine ⟨hfirst,⟨fun y hy => ?_,hsecond⟩,fun y hy z hz => ?_⟩
  · have hlate : ¬key y≤key x := fun hle => by
      have hs:=hafter y hy
      rw [(hstop y).mpr hle] at hs
      cases hs
    omega
  · cases mem_cons.mp hz with
    | inr hin => exact hcross y hy z hin
    | inl hx =>
      rw [hx]
      rcases eq_nil_or_concat before with rfl | ⟨front,last,rfl⟩
      · exact absurd hy not_mem_nil
      · rw [concat_eq_append] at hfirst hy hbefore
        have hlast:=(hstop last).mp (hbefore last (by rw [getLast?_concat]; rfl))
        cases mem_append.mp hy with
        | inl hin => exact Nat.le_trans ((pairwise_append.mp hfirst).2.2 y hin last (mem_singleton_self last)) hlast
        | inr hin => exact (mem_singleton.mp hin) ▸ hlast

theorem insertBack_head? (h : l.any stop=true) : (insertBack stop x l).head?=l.head? := by
  obtain ⟨before,after,heq,hinsert,hafter,_⟩:=insertBack_eq stop x l
  cases before with
  | nil =>
    obtain ⟨y,hy,hstop⟩:=any_eq_true.mp h
    rw [heq,nil_append] at hy
    rw [hafter y hy] at hstop
    cases hstop
  | cons b before =>
    rw [hinsert,heq]
    rfl

theorem insertBack_of_none (h : ¬l.any stop=true) : insertBack stop x l=x::l := by
  obtain ⟨before,after,heq,hinsert,_,hbefore⟩:=insertBack_eq stop x l
  rcases eq_nil_or_concat before with rfl | ⟨front,last,rfl⟩
  · rw [hinsert,heq]
    rfl
  · rw [concat_eq_append] at heq hbefore
    refine absurd (any_eq_true.mpr ⟨last,?_,hbefore last (by rw [getLast?_concat]; rfl)⟩) h
    rw [heq]
    simp

end BackInsert
