import Mathlib.Data.List.Basic

/-!
# Segments of linked lists

`Seg next p xs r` says that following `next` from the pointer `p` one visits `xs` and then stands
at `r`. A pointer is `none` or an element.
-/

namespace Segment

variable {E : Type} {next next' : E → Option E} {p r m : Option E} {x y : E} {xs ys : List E}

def Seg (next : E → Option E) : Option E → List E → Option E → Prop
  | p,[],r => p=r
  | p,x::xs,r => p=some x ∧ Seg next (next x) xs r

theorem seg_append : Seg next p (xs++ys) r ↔ ∃ m,Seg next p xs m ∧ Seg next m ys r := by
  induction xs generalizing p with
  | nil =>
    constructor
    · intro h
      exact ⟨p,rfl,h⟩
    · rintro ⟨m,rfl,h⟩
      exact h
  | cons x xs ih =>
    constructor
    · rintro ⟨hp,h⟩
      obtain ⟨m,h1,h2⟩:=ih.mp h
      exact ⟨m,⟨hp,h1⟩,h2⟩
    · rintro ⟨m,⟨hp,h1⟩,h2⟩
      exact ⟨hp,ih.mpr ⟨m,h1,h2⟩⟩

theorem seg_cut : Seg next p (xs++x::ys) r ↔ Seg next p xs (some x) ∧ Seg next (next x) ys r := by
  rw [seg_append]
  constructor
  · rintro ⟨m,h1,rfl,h2⟩
    exact ⟨h1,h2⟩
  · rintro ⟨h1,h2⟩
    exact ⟨some x,h1,rfl,h2⟩

theorem Seg.congr (h : Seg next p xs r) (hsame : ∀ x∈xs,next' x=next x) : Seg next' p xs r := by
  induction xs generalizing p with
  | nil => exact h
  | cons x xs ih =>
    obtain ⟨hp,h⟩:=h
    refine ⟨hp,?_⟩
    rw [hsame x List.mem_cons_self]
    exact ih h fun y hy => hsame y (List.mem_cons_of_mem _ hy)

theorem Seg.head? (h : Seg next p xs none) : p=xs.head? := by
  cases xs with
  | nil => exact h
  | cons x xs => exact h.1

variable [DecidableEq E]

theorem Seg.update (h : Seg next p xs r) (hx : x∉xs) : Seg (Function.update next x m) p xs r :=
  h.congr fun _ hy => Function.update_of_ne (ne_of_mem_of_not_mem hy hx) ..

theorem Seg.link (h : Seg next p xs (some x)) (hx : x∉xs) (hxs : x∉ys) (hrest : Seg next m ys r) :
    Seg (Function.update next x m) p (xs++x::ys) r := by
  refine seg_cut.mpr ⟨h.update hx,?_⟩
  rw [Function.update_self]
  exact hrest.update hxs

theorem Seg.skip {init after : List E} (h : Seg next p (init++x::y::after) r) (hnodup : (init++x::y::after).Nodup) :
    Seg (Function.update next x (next y)) p (init++x::after) r := by
  obtain ⟨hinit,_,hafter⟩:=seg_cut.mp h
  obtain ⟨_,hcons,hdisjoint⟩:=List.nodup_append.mp hnodup
  have hx:=(List.nodup_cons.mp hcons).1
  exact hinit.link (fun hin => hdisjoint _ hin x List.mem_cons_self rfl) (fun hin => hx (List.mem_cons_of_mem _ hin)) hafter

end Segment

/-!
## Doubly linked lists of nodes

The nodes carry their neighbours; `Linked next prev xs` says that the pointers thread the nodes of `xs` in order.
-/

namespace Links
open List Function

variable {α : Type} {next prev : α → Option α} {xs : List α} {a b : α} {i j q : ℕ}

def before (xs : List α) (i : ℕ) : Option α := if i=0 then none else xs[i-1]?

structure Linked (next prev : α → Option α) (xs : List α) : Prop where
  nodup : xs.Nodup
  next_eq : ∀ {i a},xs[i]?=some a → next a=xs[i+1]?
  prev_eq : ∀ {i a},xs[i]?=some a → prev a=before xs i

theorem position_unique (h : xs.Nodup) (hi : xs[i]?=some a) (hj : xs[j]?=some a) : i=j := by
  obtain ⟨hlt,_⟩:=List.getElem?_eq_some_iff.mp hi
  exact (getElem?_inj hlt h).mp (hi.trans hj.symm)

theorem position_ne (h : xs.Nodup) (hi : xs[i]?=some a) (hj : xs[j]?=some b) (hne : i≠j) : a≠b := by
  intro hab
  subst hab
  exact hne (position_unique h hi hj)

theorem position_of_mem (h : a∈xs) : ∃ i : ℕ,xs[i]?=some a := List.mem_iff_getElem?.mp h

theorem not_mem_eraseIdx (h : xs.Nodup) (hq : xs[q]?=some b) : b∉xs.eraseIdx q := by
  intro hmem
  obtain ⟨i,hi⟩:=position_of_mem hmem
  rw [getElem?_eraseIdx] at hi
  split_ifs at hi with hlt
  · exact position_ne h hi hq (by omega) rfl
  · exact position_ne h hi hq (by omega) rfl

section Unlink

variable [DecidableEq α]

def unlinkNext (next prev : α → Option α) (b : α) : α → Option α :=
  match prev b with
  | some a => Function.update next a (next b)
  | none => next

def unlinkPrev (next prev : α → Option α) (b : α) : α → Option α :=
  match next b with
  | some c => Function.update prev c (prev b)
  | none => prev

variable (h : Linked next prev xs) (hq : xs[q]?=some b)

include h hq

theorem unlinkNext_eq (hi : xs[i]?=some a) : unlinkNext next prev b a=if i+1=q then xs[q+1]? else xs[i+1]? := by
  have hprev:=h.prev_eq hq
  unfold unlinkNext
  by_cases hzero : q=0
  · have hne : i+1≠q := by omega
    rw [before,if_pos hzero] at hprev
    simp only [hprev]
    rw [if_neg hne,h.next_eq hi]
  · obtain ⟨hlt,_⟩:=List.getElem?_eq_some_iff.mp hq
    obtain ⟨c,hc⟩ : ∃ c,xs[q-1]?=some c := ⟨_,getElem?_eq_getElem (by omega)⟩
    rw [before,if_neg hzero,hc] at hprev
    simp only [hprev]
    by_cases hpre : i+1=q
    · have hac : a=c := by
        have hidx : q-1=i := by omega
        rw [hidx,hi] at hc
        exact Option.some.inj hc
      rw [if_pos hpre,hac,update_self,h.next_eq hq]
    · have hac : a≠c := position_ne h.nodup hi hc (by omega)
      rw [if_neg hpre,update_of_ne hac,h.next_eq hi]

theorem unlinkPrev_eq (hi : xs[i]?=some a) : unlinkPrev next prev b a=if i=q+1 then before xs q else before xs i := by
  have hnext:=h.next_eq hq
  unfold unlinkPrev
  cases hc : xs[q+1]? with
  | none =>
    have hne : i≠q+1 := by
      intro heq
      rw [heq,hc] at hi
      cases hi
    rw [hc] at hnext
    simp only [hnext]
    rw [if_neg hne,h.prev_eq hi]
  | some c =>
    rw [hc] at hnext
    simp only [hnext]
    by_cases hpost : i=q+1
    · have hac : a=c := by
        rw [hpost,hc] at hi
        exact (Option.some.inj hi).symm
      rw [if_pos hpost,hac,update_self,h.prev_eq hq]
    · have hac : a≠c := position_ne h.nodup hi hc hpost
      rw [if_neg hpost,update_of_ne hac,h.prev_eq hi]

theorem Linked.unlink : Linked (unlinkNext next prev b) (unlinkPrev next prev b) (xs.eraseIdx q) where
  nodup := h.nodup.sublist (List.eraseIdx_sublist xs q)
  next_eq := by
    intro i a hi
    rw [getElem?_eraseIdx] at hi ⊢
    split_ifs at hi with hlt
    · rw [unlinkNext_eq h hq hi]
      by_cases hpre : i+1=q
      · have hge : ¬i+1<q := by omega
        rw [if_pos hpre,if_neg hge,hpre]
      · have hlt' : i+1<q := by omega
        rw [if_neg hpre,if_pos hlt']
    · have hpre : i+1+1≠q := by omega
      have hge : ¬i+1<q := by omega
      rw [unlinkNext_eq h hq hi,if_neg hpre,if_neg hge]
  prev_eq := by
    intro i a hi
    have hbefore : before (xs.eraseIdx q) i=if i≤q then before xs i else xs[i]? := by
      unfold before
      by_cases hzero : i=0
      · rw [if_pos hzero,if_pos (by omega),if_pos hzero]
      · rw [if_neg hzero,getElem?_eraseIdx]
        by_cases hle : i≤q
        · rw [if_pos (by omega),if_pos hle,if_neg hzero]
        · have hback : i-1+1=i := by omega
          rw [if_neg (by omega),if_neg hle,hback]
    rw [getElem?_eraseIdx] at hi
    rw [hbefore]
    split_ifs at hi with hlt
    · have hpost : i≠q+1 := by omega
      rw [unlinkPrev_eq h hq hi,if_neg hpost,if_pos (by omega)]
    · rw [unlinkPrev_eq h hq hi]
      by_cases hpost : i+1=q+1
      · have hiq : i=q := by omega
        rw [if_pos hpost,if_pos (by omega),hiq]
      · rw [if_neg hpost,if_neg (by omega),before,if_neg (by omega),Nat.add_sub_cancel]

end Unlink

section Push

variable [DecidableEq α] {c : α} (h : Linked next prev xs) (hb : b∉xs)

include h hb

theorem Linked.pushFront (hhead : xs.head?=some c) :
    Linked (Function.update next b (some c)) (Function.update (Function.update prev b none) c (some b)) (b::xs) where
  nodup := nodup_cons.mpr ⟨hb,h.nodup⟩
  next_eq := by
    intro i a hi
    cases i with
    | zero =>
      obtain rfl : b=a := by simpa using hi
      rw [update_self,getElem?_cons_succ,← hhead,head?_eq_getElem?]
    | succ i =>
      rw [getElem?_cons_succ] at hi ⊢
      have hab : a≠b := fun hab => hb (hab ▸ mem_of_getElem? hi)
      rw [update_of_ne hab,h.next_eq hi]
  prev_eq := by
    have hcb : c≠b := fun hcb => hb (hcb ▸ mem_of_mem_head? hhead)
    intro i a hi
    cases i with
    | zero =>
      obtain rfl : b=a := by simpa using hi
      rw [update_of_ne hcb.symm,update_self,before,if_pos rfl]
    | succ i =>
      rw [getElem?_cons_succ] at hi
      have hab : a≠b := fun hab => hb (hab ▸ mem_of_getElem? hi)
      rw [head?_eq_getElem?] at hhead
      rw [before,if_neg (Nat.succ_ne_zero i),Nat.add_sub_cancel]
      cases i with
      | zero =>
        obtain rfl : c=a := Option.some.inj (hhead.symm.trans hi)
        rw [update_self]
        rfl
      | succ i =>
        have hac : a≠c := position_ne h.nodup hi hhead (Nat.succ_ne_zero i)
        rw [update_of_ne hac,update_of_ne hab,h.prev_eq hi,before,
          if_neg (Nat.succ_ne_zero i),Nat.add_sub_cancel,getElem?_cons_succ]

theorem Linked.pushBack (hlast : xs.getLast?=some c) :
    Linked (Function.update (Function.update next b none) c (some b)) (Function.update prev b (some c))
      (xs++[b]) where
  nodup := nodup_append.mpr ⟨h.nodup,by simp,by
    intro a ha a' ha' haa
    rw [mem_singleton] at ha'
    exact hb (ha' ▸ haa ▸ ha)⟩
  next_eq := by
    have hcb : c≠b := fun hcb => hb (hcb ▸ mem_of_mem_getLast? hlast)
    intro i a hi
    rw [getElem?_append] at hi ⊢
    split_ifs at hi with hlt
    · have hab : a≠b := fun hab => hb (hab ▸ mem_of_getElem? hi)
      rw [getLast?_eq_getElem?] at hlast
      by_cases hend : i+1<xs.length
      · have hac : a≠c := position_ne h.nodup hi hlast (by omega)
        rw [if_pos hend,update_of_ne hac,update_of_ne hab,h.next_eq hi]
      · have hidx : xs.length-1=i := by omega
        rw [hidx,hi] at hlast
        obtain rfl : a=c := Option.some.inj hlast
        have hzero : i+1-xs.length=0 := by omega
        rw [if_neg hend,update_self,hzero]
        rfl
    · have hidx : i-xs.length=0 := by
        by_contra hne
        obtain ⟨hbound,_⟩:=List.getElem?_eq_some_iff.mp hi
        rw [length_singleton] at hbound
        omega
      rw [hidx] at hi
      obtain rfl : b=a := by simpa using hi
      have hbig : ¬i+1<xs.length := by omega
      have hout : i+1-xs.length=1 := by omega
      rw [update_of_ne hcb.symm,update_self,if_neg hbig,hout]
      rfl
  prev_eq := by
    have hpos : 0<xs.length := length_pos_of_mem (mem_of_mem_getLast? hlast)
    intro i a hi
    have hbefore : i≤xs.length → before (xs++[b]) i=if i=0 then none else xs[i-1]? := by
      intro hle
      by_cases hzero : i=0
      · rw [before,if_pos hzero,if_pos hzero]
      · rw [before,if_neg hzero,if_neg hzero,getElem?_append_left (by omega)]
    rw [getElem?_append] at hi
    split_ifs at hi with hlt
    · have hab : a≠b := fun hab => hb (hab ▸ mem_of_getElem? hi)
      rw [update_of_ne hab,h.prev_eq hi,hbefore (by omega),before]
    · have hidx : i=xs.length := by
        obtain ⟨hbound,_⟩:=List.getElem?_eq_some_iff.mp hi
        rw [length_singleton] at hbound
        omega
      rw [hidx,Nat.sub_self] at hi
      obtain rfl : b=a := by simpa using hi
      rw [update_self,hbefore (by omega),hidx,if_neg (by omega),← hlast,getLast?_eq_getElem?]

end Push

end Links
