import Mathlib.Algebra.Order.BigOperators.Group.List
import Mathlib.Algebra.Order.Ring.Nat

/-!
# Weighted walks and the relaxation of distances

A graph is a relation of weighted links. A matrix of distances is relaxed in place, one pair of nodes after the other,
by the least sum through a node.
-/

namespace Walks
open List

variable {V : Type} {Link : V → V → ℤ → Prop} {a b c : V} {x m n : ℤ}

inductive Walk (Link : V → V → ℤ → Prop) : V → V → ℤ → Prop
  | nil (a : V) : Walk Link a a 0
  | cons (a b c : V) (x n : ℤ) : Link a b x → Walk Link b c n → Walk Link a c (x+n)

theorem Walk.single (h : Link a b x) : Walk Link a b x := by
  have hw:=Walk.cons a b b x 0 h (.nil b)
  rwa [Int.add_zero] at hw

theorem Walk.append (h : Walk Link a b m) (h' : Walk Link b c n) : Walk Link a c (m+n) := by
  induction h with
  | nil a => rwa [Int.zero_add]
  | cons a d b x m hlink _ ih =>
    rw [Int.add_assoc]
    exact .cons a d c x _ hlink (ih h')

theorem Walk.nonneg (hpos : ∀ a b x,Link a b x → 0<x) (h : Walk Link a b n) : 0≤n := by
  induction h with
  | nil a => exact Int.le_refl 0
  | cons a b c x n hlink _ ih =>
    have hx:=hpos a b x hlink
    omega

theorem Walk.last_mem {nodes : List V} (hends : ∀ a b x,Link a b x → a∈nodes ∧ b∈nodes)
    (h : Walk Link a b n) (ha : a∈nodes) : b∈nodes := by
  induction h with
  | nil => exact ha
  | cons a b c x _ hlink _ ih => exact ih (hends a b x hlink).2

theorem Walk.first (h : Walk Link a c n) (hne : a≠c) : ∃ b x m,Link a b x ∧ Walk Link b c m ∧ n=x+m := by
  cases h with
  | nil => exact (hne rfl).elim
  | cons _ b _ x m hlink hrest => exact ⟨b,x,m,hlink,hrest,rfl⟩

def Shortest (Link : V → V → ℤ → Prop) (a b : V) (n : ℤ) : Prop :=
  Walk Link a b n ∧ ∀ m,Walk Link a b m → n ≤ m

theorem Shortest.unique (h : Shortest Link a b m) (h' : Shortest Link a b n) : m=n := by
  have hle:=h.2 n h'.1
  have hge:=h'.2 m h.1
  omega

theorem shortest_self (hpos : ∀ a b x,Link a b x → 0<x) (a : V) : Shortest Link a a 0 :=
  ⟨.nil a,fun _ h => h.nonneg hpos⟩

theorem exists_shortest (hpos : ∀ a b x,Link a b x → 0<x) (h : Walk Link a b n) : ∃ m,Shortest Link a b m := by
  have hlower : ∀ k : ℕ,∀ n : ℤ,n.toNat≤k → Walk Link a b n → ∃ m,Shortest Link a b m := by
    intro k
    induction k with
    | zero =>
      intro n hn h
      have hnonneg:=h.nonneg hpos
      exact ⟨n,h,fun m hm => by have := hm.nonneg hpos; omega⟩
    | succ k ih =>
      intro n hn h
      by_cases hmin : ∀ m,Walk Link a b m → n ≤ m
      · exact ⟨n,h,hmin⟩
      · simp only [not_forall] at hmin
        obtain ⟨m,hm,hlt⟩:=hmin
        have hnonneg:=hm.nonneg hpos
        exact ih m (by omega) hm
  exact hlower n.toNat n (Nat.le_refl _) h

section Relaxation

variable {nodes : List V} {d d' : V → V → ℤ} {l : List (V × V)} {p : V × V} {inf : ℤ}

def through (nodes : List V) (d : V → V → ℤ) (a b : V) : ℤ :=
  nodes.foldl (fun m k => min m (d a k+d k b)) (d a b)

theorem foldl_min_le (f : V → ℤ) (l : List V) (m : ℤ) : l.foldl (fun m k => min m (f k)) m ≤ m := by
  induction l generalizing m with
  | nil => exact Int.le_refl m
  | cons k l ih => exact Int.le_trans (ih _) (min_le_left _ _)

theorem foldl_min_le_of_mem (f : V → ℤ) {l : List V} {k : V} (hk : k∈l) (m : ℤ) :
    l.foldl (fun m k => min m (f k)) m≤f k := by
  induction l generalizing m with
  | nil => cases hk
  | cons k' l ih =>
    cases hk with
    | head => exact Int.le_trans (foldl_min_le f l _) (min_le_right _ _)
    | tail _ hk => exact ih hk _

theorem foldl_min_mem (f : V → ℤ) (l : List V) (m : ℤ) :
    l.foldl (fun m k => min m (f k)) m=m ∨ ∃ k∈l,l.foldl (fun m k => min m (f k)) m=f k := by
  induction l generalizing m with
  | nil => exact .inl rfl
  | cons k l ih =>
    rw [foldl_cons]
    cases ih (min m (f k)) with
    | inl h =>
      rw [h]
      by_cases hle : m≤f k
      · exact .inl (min_eq_left hle)
      · exact .inr ⟨k,mem_cons_self,min_eq_right (by omega)⟩
    | inr h =>
      obtain ⟨k',hk',h⟩:=h
      exact .inr ⟨k',mem_cons_of_mem _ hk',h⟩

theorem through_le (nodes : List V) (d : V → V → ℤ) (a b : V) : through nodes d a b≤d a b :=
  foldl_min_le _ nodes _

theorem through_le_sum {k : V} (hk : k∈nodes) (d : V → V → ℤ) (a b : V) : through nodes d a b≤d a k+d k b :=
  foldl_min_le_of_mem (fun k => d a k+d k b) hk _

theorem through_mem (nodes : List V) (d : V → V → ℤ) (a b : V) :
    through nodes d a b=d a b ∨ ∃ k∈nodes,through nodes d a b=d a k+d k b :=
  foldl_min_mem _ nodes _

theorem through_nonneg (hd : ∀ a b,0≤d a b) (nodes : List V) (a b : V) : 0≤through nodes d a b := by
  cases through_mem nodes d a b with
  | inl h =>
    rw [h]
    exact hd a b
  | inr h =>
    obtain ⟨k,_,h⟩:=h
    have hak:=hd a k
    have hkb:=hd k b
    omega

def potential (pairs : List (V × V)) (d : V → V → ℤ) : ℕ := (pairs.map fun p => (d p.1 p.2).toNat).sum

theorem potential_le (pairs : List (V × V)) (h : ∀ a b,d' a b≤d a b) : potential pairs d'≤potential pairs d := by
  apply sum_le_sum
  intro p _
  have hp:=h p.1 p.2
  omega

theorem potential_lt {pairs : List (V × V)} (h : ∀ a b,d' a b≤d a b) (hp : p∈pairs)
    (hnonneg : 0≤d' p.1 p.2) (hlt : d' p.1 p.2<d p.1 p.2) : potential pairs d'<potential pairs d := by
  apply sum_lt_sum
  · intro q _
    have hq:=h q.1 q.2
    omega
  · exact ⟨p,hp,by omega⟩

structure Estimate (Link : V → V → ℤ → Prop) (inf : ℤ) (d : V → V → ℤ) : Prop where
  nonneg : ∀ a b,0≤d a b
  positive : ∀ a b,a≠b ∨ (∃ x,Link a a x) → 0<d a b
  link : ∀ a b x,Link a b x → d a b≤x
  unlinked : ∀ a b,(∀ x,¬Link a b x) → d a b ≤ inf
  walk : ∀ a b,d a b < inf → Walk Link a b (d a b)

def Closed (nodes : List V) (d : V → V → ℤ) : Prop := ∀ a∈nodes,∀ b∈nodes,∀ k∈nodes,d a b≤d a k+d k b

theorem Estimate.le_walk (h : Estimate Link inf d) (hclosed : Closed nodes d)
    (hends : ∀ a b x,Link a b x → a∈nodes ∧ b∈nodes) (hlink : Link a b x) (hwalk : Walk Link b c n) : d a c≤x+n := by
  induction hwalk generalizing a x with
  | nil b =>
    have hab:=h.link a b x hlink
    omega
  | cons b e c y n hbe hrest ih =>
    have hab:=h.link a b x hlink
    have hbc:=ih hbe
    have hc:=hrest.last_mem hends (hends b e y hbe).2
    have hsum:=hclosed a (hends a b x hlink).1 c hc b (hends a b x hlink).2
    omega

theorem Estimate.exact (h : Estimate Link inf d) (hclosed : Closed nodes d)
    (hends : ∀ a b x,Link a b x → a∈nodes ∧ b∈nodes) (hne : a≠b) :
    (∀ n,Shortest Link a b n → n < inf → d a b=n) ∧ ((∀ n,¬Walk Link a b n) → d a b=inf) := by
  constructor
  · intro n hn hlt
    obtain ⟨e,x,m,hlink,hrest,hsum⟩:=hn.1.first hne
    have hle:=h.le_walk hclosed hends hlink hrest
    have hge:=hn.2 _ (h.walk a b (by omega))
    omega
  · intro hnone
    have hle:=h.unlinked a b fun x hx => hnone x (.single hx)
    by_cases hlt : d a b < inf
    · exact (hnone _ (h.walk a b hlt)).elim
    · omega

variable [DecidableEq V]

def assign (d : V → V → ℤ) (a b : V) (x : ℤ) : V → V → ℤ := fun a' b' => if a'=a ∧ b'=b then x else d a' b'

@[simp] theorem assign_same (d : V → V → ℤ) (a b : V) (x : ℤ) : assign d a b x a b=x := by simp [assign]

theorem assign_self (d : V → V → ℤ) (a b : V) : assign d a b (d a b)=d := by
  funext a' b'
  simp only [assign]
  split
  · rename_i h
    rw [h.1,h.2]
  · rfl

def relax (nodes : List V) (d : V → V → ℤ) (p : V × V) : V → V → ℤ :=
  assign d p.1 p.2 (through nodes d p.1 p.2)

theorem relax_le (nodes : List V) (d : V → V → ℤ) (p : V × V) (a b : V) : relax nodes d p a b≤d a b := by
  simp only [relax,assign]
  split
  · rename_i h
    rw [h.1,h.2]
    exact through_le nodes d p.1 p.2
  · exact Int.le_refl _

theorem relax_eq_iff : relax nodes d p=d ↔ through nodes d p.1 p.2=d p.1 p.2 := by
  constructor
  · intro h
    have hp:=congrFun (congrFun h p.1) p.2
    simpa [relax] using hp
  · intro h
    rw [relax,h,assign_self]

theorem foldl_relax_le (nodes : List V) (l : List (V × V)) (d : V → V → ℤ) (a b : V) :
    l.foldl (relax nodes) d a b≤d a b := by
  induction l generalizing d with
  | nil => exact Int.le_refl _
  | cons p l ih => exact Int.le_trans (ih _) (relax_le nodes d p a b)

theorem foldl_relax_eq_iff : l.foldl (relax nodes) d=d ↔ ∀ p∈l,through nodes d p.1 p.2=d p.1 p.2 := by
  induction l with
  | nil => simp
  | cons p l ih =>
    rw [foldl_cons,forall_mem_cons]
    by_cases hp : through nodes d p.1 p.2=d p.1 p.2
    · rw [relax_eq_iff.mpr hp,ih]
      simp [hp]
    · simp only [hp,false_and,iff_false]
      intro heq
      have hle:=foldl_relax_le nodes l (relax nodes d p) p.1 p.2
      have hrelax : relax nodes d p p.1 p.2=through nodes d p.1 p.2 := assign_same _ _ _ _
      have hthrough:=through_le nodes d p.1 p.2
      rw [heq,hrelax] at hle
      omega

theorem relax_nonneg (hd : ∀ a b,0≤d a b) (nodes : List V) (p : V × V) (a b : V) : 0≤relax nodes d p a b := by
  simp only [relax,assign]
  split
  · exact through_nonneg hd nodes _ _
  · exact hd a b

theorem potential_foldl_relax {pairs : List (V × V)} (hl : ∀ p∈l,p∈pairs) (hd : ∀ a b,0≤d a b)
    (hne : l.foldl (relax nodes) d≠d) : potential pairs (l.foldl (relax nodes) d)<potential pairs d := by
  induction l generalizing d with
  | nil => exact (hne rfl).elim
  | cons p l ih =>
    have hl' : ∀ q∈l,q∈pairs := fun q hq => hl q (mem_cons_of_mem p hq)
    rw [foldl_cons] at hne ⊢
    by_cases hp : relax nodes d p=d
    · rw [hp] at hne ⊢
      exact ih hl' hd hne
    · have hle : potential pairs (l.foldl (relax nodes) (relax nodes d p))≤potential pairs (relax nodes d p) :=
        potential_le pairs (foldl_relax_le nodes l _)
      have hrelax : relax nodes d p p.1 p.2=through nodes d p.1 p.2 := assign_same _ _ _ _
      have hlt : relax nodes d p p.1 p.2<d p.1 p.2 := by
        have hthrough:=through_le nodes d p.1 p.2
        rw [relax_eq_iff] at hp
        omega
      have hstep:=potential_lt (relax_le nodes d p) (hl p mem_cons_self)
        (relax_nonneg hd nodes p _ _) hlt
      omega

theorem Estimate.relax (h : Estimate Link inf d) (nodes : List V) (p : V × V) :
    Estimate Link inf (relax nodes d p) := by
  have hle:=relax_le nodes d p
  constructor
  · exact relax_nonneg h.nonneg nodes p
  · intro a b hne
    simp only [Walks.relax,assign]
    split
    · rename_i heq
      obtain ⟨rfl,rfl⟩:=heq
      cases through_mem nodes d p.1 p.2 with
      | inl hthrough =>
        rw [hthrough]
        exact h.positive _ _ hne
      | inr hthrough =>
        obtain ⟨k,_,hthrough⟩:=hthrough
        have hak:=h.nonneg p.1 k
        have hkb:=h.nonneg k p.2
        by_cases hk : p.1=k
        · have hpos:=h.positive p.1 p.2 hne
          rw [hthrough,← hk]
          have haa:=h.nonneg p.1 p.1
          omega
        · have hpos:=h.positive p.1 k (.inl hk)
          omega
    · exact h.positive a b hne
  · intro a b x hlink
    exact Int.le_trans (hle a b) (h.link a b x hlink)
  · intro a b hnone
    exact Int.le_trans (hle a b) (h.unlinked a b hnone)
  · intro a b hlt
    simp only [Walks.relax,assign] at hlt ⊢
    split
    · rename_i heq
      rw [if_pos heq] at hlt
      obtain ⟨rfl,rfl⟩:=heq
      cases through_mem nodes d p.1 p.2 with
      | inl hthrough =>
        rw [hthrough] at hlt ⊢
        exact h.walk _ _ hlt
      | inr hthrough =>
        obtain ⟨k,_,hthrough⟩:=hthrough
        have hak:=h.nonneg p.1 k
        have hkb:=h.nonneg k p.2
        rw [hthrough] at hlt ⊢
        exact (h.walk p.1 k (by omega)).append (h.walk k p.2 (by omega))
    · rename_i heq
      rw [if_neg heq] at hlt
      exact h.walk a b hlt

theorem Estimate.foldl (h : Estimate Link inf d) (nodes : List V) (l : List (V × V)) :
    Estimate Link inf (l.foldl (Walks.relax nodes) d) := by
  induction l generalizing d with
  | nil => exact h
  | cons p l ih => exact ih (h.relax nodes p)

theorem closed_of_foldl (h : (nodes.product nodes).foldl (relax nodes) d=d) : Closed nodes d := by
  intro a ha b hb k hk
  have hab:=foldl_relax_eq_iff.mp h (a,b) (pair_mem_product.mpr ⟨ha,hb⟩)
  have hle:=through_le_sum hk d a b
  simp only at hab
  omega

end Relaxation

end Walks
