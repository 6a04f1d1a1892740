import Mathlib.Data.Finset.Card

/-!
# LRU caches of all sizes in one stack

The blocks of an access sequence, most recent first, form a stack of which a cache of `s` blocks always holds the
first `s`.
-/

namespace LruStack
open List

variable {α : Type} [DecidableEq α]

def lruStep (s : ℕ) (c : List α) (a : α) : List α := if a∈c then a::c.erase a else a::c.take (s-1)

def contents (s : ℕ) (trace : List α) : List α := trace.foldl (lruStep s) []

def hitsFrom (s : ℕ) : List α → List α → ℕ
  | _,[] => 0
  | c,a::trace => (if a∈c then 1 else 0)+hitsFrom s (lruStep s c a) trace

def hits (s : ℕ) (trace : List α) : ℕ := hitsFrom s [] trace

def touch (xs : List α) (a : α) : List α := a::xs.erase a

def stack (trace : List α) : List α := trace.foldl touch []

variable {s s' : ℕ} {trace t u : List α} {a x : α} {xs : List α}

theorem stack_snoc (trace : List α) (a : α) : stack (trace++[a])=touch (stack trace) a := by
  rw [stack,foldl_append]
  rfl

theorem contents_snoc (s : ℕ) (trace : List α) (a : α) : contents s (trace++[a])=lruStep s (contents s trace) a := by
  rw [contents,foldl_append]
  rfl

theorem hitsFrom_append (c : List α) (trace t : List α) :
    hitsFrom s c (trace++t)=hitsFrom s c trace+hitsFrom s (trace.foldl (lruStep s) c) t := by
  induction trace generalizing c with
  | nil => simp [hitsFrom]
  | cons b trace ih =>
    rw [cons_append,hitsFrom,hitsFrom,ih,foldl_cons]
    omega

theorem hits_snoc (s : ℕ) (trace : List α) (a : α) :
    hits s (trace++[a])=hits s trace+if a∈contents s trace then 1 else 0 := by
  rw [hits,hitsFrom_append]
  rfl

theorem stack_nodup (trace : List α) : (stack trace).Nodup := by
  induction trace using reverseRecOn with
  | nil => exact nodup_nil
  | append_singleton trace a ih =>
    rw [stack_snoc,touch,nodup_cons]
    exact ⟨fun hmem => ((Nodup.mem_erase_iff ih).mp hmem).1 rfl,ih.erase a⟩

theorem take_erase_of_mem (h : a∈xs.take s) : (xs.take s).erase a=(xs.erase a).take (s-1) := by
  induction xs generalizing s with
  | nil => simp at h
  | cons b xs ih =>
    cases s with
    | zero => simp at h
    | succ s =>
      rw [take_succ_cons] at h ⊢
      by_cases hb : b=a
      · subst hb
        simp
      · have hmem : a∈xs.take s := (mem_cons.mp h).resolve_left fun hab => hb hab.symm
        cases s with
        | zero => simp at hmem
        | succ s =>
          rw [erase_cons_tail (by simpa using hb),erase_cons_tail (by simpa using hb),ih hmem]
          rfl

theorem take_erase_of_not_mem (h : a∉xs.take s) : (xs.erase a).take (s-1)=xs.take (s-1) := by
  induction xs generalizing s with
  | nil => rfl
  | cons b xs ih =>
    cases s with
    | zero => simp
    | succ s =>
      rw [take_succ_cons,mem_cons,not_or] at h
      cases s with
      | zero => simp
      | succ s =>
        have hne : b≠a := fun hb => h.1 hb.symm
        rw [erase_cons_tail (by simpa using hne),Nat.add_sub_cancel,take_succ_cons,take_succ_cons]
        have hrest:=ih h.2
        rw [Nat.add_sub_cancel] at hrest
        rw [hrest]

theorem contents_eq (hs : 0<s) (trace : List α) : contents s trace=(stack trace).take s := by
  induction trace using reverseRecOn with
  | nil => simp [contents,stack]
  | append_singleton trace a ih =>
    have htop : (touch (stack trace) a).take s=a::((stack trace).erase a).take (s-1) := by
      obtain ⟨n,rfl⟩ : ∃ n,s=n+1 := ⟨s-1,by omega⟩
      rfl
    rw [contents_snoc,stack_snoc,htop,ih,lruStep]
    split_ifs with hmem
    · rw [take_erase_of_mem hmem]
    · rw [take_erase_of_not_mem hmem,take_take,Nat.min_eq_left (by omega)]

theorem touch_getElem? {q : ℕ} (hnodup : xs.Nodup) (h : xs[q]?=some a) : touch xs a=a::xs.eraseIdx q := by
  obtain ⟨hlt,hget⟩:=List.getElem?_eq_some_iff.mp h
  rw [touch,← hget,hnodup.erase_getElem]

theorem touch_take (h : a∉xs.take s) : (touch xs a).take s=(a::xs).take s := by
  cases s with
  | zero => rfl
  | succ s =>
    have hrest:=take_erase_of_not_mem h
    rw [Nat.add_sub_cancel] at hrest
    rw [touch,take_succ_cons,take_succ_cons,hrest]

theorem mem_stack : a∈stack trace ↔ a∈trace := by
  induction trace using reverseRecOn with
  | nil => simp [stack]
  | append_singleton trace x ih =>
    rw [stack_snoc,touch,mem_cons,mem_append,mem_singleton,← ih]
    constructor
    · intro h
      exact h.symm.imp_left mem_of_mem_erase
    · intro h
      by_cases hx : a=x
      · exact .inl hx
      · exact .inr ((mem_erase_of_ne hx).mpr (h.resolve_right hx))

theorem stack_since (t : List α) (h : a∉u) : ∃ ys zs,stack (t++a::u)=ys++a::zs ∧ ys.toFinset=u.toFinset := by
  induction u using reverseRecOn with
  | nil => exact ⟨[],(stack t).erase a,stack_snoc t a,rfl⟩
  | append_singleton u x ih =>
    rw [mem_append,not_or,mem_singleton] at h
    obtain ⟨ys,zs,hstack,hset⟩:=ih h.1
    have hsplit : t++a::(u++[x])=t++a::u++[x] := by simp
    rw [hsplit,stack_snoc,hstack,touch,toFinset_append,← hset]
    by_cases hx : x∈ys
    · refine ⟨x::ys.erase x,zs,by rw [erase_append_left _ hx]; rfl,?_⟩
      ext b
      by_cases hb : b=x
      · simp [hb]
      · simp [hb,mem_erase_of_ne hb]
    · have hne : ¬(a == x)=true := by simpa using h.2
      refine ⟨x::ys,zs.erase x,by rw [erase_append_right _ hx,erase_cons_tail hne]; rfl,?_⟩
      ext b
      simp

omit [DecidableEq α] in
theorem last_access (h : a∈trace) : ∃ t u,trace=t++a::u ∧ a∉u := by
  obtain ⟨u,t,hsplit,hu⟩:=eq_append_cons_of_mem (mem_reverse.mpr h)
  refine ⟨t.reverse,u.reverse,?_,fun hmem => hu (mem_reverse.mp hmem)⟩
  rw [← reverse_reverse trace,hsplit]
  simp

end LruStack
