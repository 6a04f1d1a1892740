import Mathlib.Algebra.Order.Group.Nat
import Mathlib.Data.Finset.Card
import Mathlib.Data.Nat.Find
import Mathlib.Data.Nat.Log
import Mathlib.Logic.Function.Basic

/-!
# Paths in a binary tree kept in an array

The nodes are numbered from the root, which is 1; the children of the node `m` are `2*m` and `2*m + 1`, so that its
ancestor `k` levels up is `m / 2^k`. Every inner node has a bit that points to its right child (`true`) or to its left.
-/

namespace AquaGem5.Ancestors

def ancestor (m k : ℕ) : ℕ := m/2^k

def isRight (m : ℕ) : Bool := decide (m%2=1)

def AtDepth (d m : ℕ) : Prop := ancestor m d=1

def Toward (bits : ℕ → Bool) (m k : ℕ) : Prop := bits (ancestor m (k+1))=isRight (ancestor m k)

instance (bits : ℕ → Bool) (m : ℕ) : DecidablePred (Toward bits m) :=
  fun k => inferInstanceAs (Decidable (bits (ancestor m (k+1))=isRight (ancestor m k)))

structure Marked (mark : Bool → Bool) (d m : ℕ) (bits bits' : ℕ → Bool) : Prop where
  path : ∀ k<d,bits' (ancestor m (k+1))=mark (isRight (ancestor m k))
  frame : ∀ j,(∀ k<d,ancestor m (k+1)≠j) → bits' j=bits j

def towards (bits : ℕ → Bool) (d m : ℕ) : Finset ℕ := (Finset.range d).filter (Toward bits m)

variable {bits bits' : ℕ → Bool} {d k l m n : ℕ}

@[simp] theorem ancestor_zero (m : ℕ) : ancestor m 0=m := Nat.div_one m

theorem ancestor_add (m k l : ℕ) : ancestor m (k+l)=ancestor (ancestor m k) l := by
  rw [ancestor,ancestor,ancestor,Nat.pow_add,Nat.div_div_eq_div_mul]

theorem ancestor_succ (m k : ℕ) : ancestor m (k+1)=ancestor m k/2 := by
  rw [ancestor_add]
  rfl

theorem ancestor_succ' (m k : ℕ) : ancestor m (k+1)=ancestor (m/2) k := by
  rw [Nat.add_comm,ancestor_add]
  rfl

theorem atDepth_iff : AtDepth d m ↔ 2^d ≤ m ∧ m<2^(d+1) := by
  rw [AtDepth,ancestor,Nat.div_eq_iff (Nat.two_pow_pos d),Nat.pow_succ,Nat.mul_comm]
  have := Nat.two_pow_pos d
  omega

theorem AtDepth.root (h : AtDepth 0 m) : m=1 := (ancestor_zero m).symm.trans h

theorem AtDepth.unique (h : AtDepth d m) (h' : AtDepth l m) : d=l := by
  obtain ⟨hlow,hhigh⟩:=atDepth_iff.mp h
  obtain ⟨hlow',hhigh'⟩:=atDepth_iff.mp h'
  have hle : d<l+1 := (Nat.pow_lt_pow_iff_right Nat.one_lt_two).mp (Nat.lt_of_le_of_lt hlow hhigh')
  have hge : l<d+1 := (Nat.pow_lt_pow_iff_right Nat.one_lt_two).mp (Nat.lt_of_le_of_lt hlow' hhigh)
  omega

theorem AtDepth.ancestor (h : AtDepth (d+k) m) : AtDepth d (ancestor m k) := by
  rw [AtDepth,← ancestor_add,Nat.add_comm]
  exact h

theorem AtDepth.level (hm : AtDepth d m) (hn : AtDepth d n) (hk : k≤d) (hl : l≤d)
    (h : Ancestors.ancestor m k=Ancestors.ancestor n l) : k=l := by
  have hdepth : AtDepth (d-k) (Ancestors.ancestor m k) :=
    AtDepth.ancestor (by rwa [Nat.sub_add_cancel hk])
  have hdepth' : AtDepth (d-l) (Ancestors.ancestor n l) :=
    AtDepth.ancestor (by rwa [Nat.sub_add_cancel hl])
  have := hdepth.unique (h ▸ hdepth')
  omega

theorem eq_of_isRight (hhalf : m/2=n/2) (hright : isRight m=isRight n) : m=n := by
  rw [isRight,isRight,decide_eq_decide] at hright
  omega

theorem eq_of_toward (hm : AtDepth d m) (hn : AtDepth d n) (htm : ∀ k<d,Toward bits m k)
    (htn : ∀ k<d,Toward bits n k) : m=n := by
  have hlevel : ∀ j≤d,ancestor m (d-j)=ancestor n (d-j) := by
    intro j
    induction j with
    | zero => exact fun _ => hm.trans hn.symm
    | succ j ih =>
      intro hj
      have hup:=ih (by omega)
      rw [show d-j=d-(j+1)+1 by omega] at hup
      have hright:=(htm (d-(j+1)) (by omega)).symm.trans
        ((congrArg bits hup).trans (htn (d-(j+1)) (by omega)))
      rw [ancestor_succ,ancestor_succ] at hup
      exact eq_of_isRight hup hright
  simpa using hlevel d (Nat.le_refl d)

theorem AtDepth.half (h : AtDepth (d+1) m) : AtDepth d (m/2) := by
  rwa [AtDepth,← ancestor_succ']

theorem AtDepth.pos (h : AtDepth d m) : 0 < m := Nat.lt_of_lt_of_le (Nat.two_pow_pos d) (atDepth_iff.mp h).1

theorem ancestor_lt (hm : 0 < m) (k : ℕ) : ancestor m (k+1) < m :=
  Nat.div_lt_self hm (Nat.one_lt_two_pow (Nat.succ_ne_zero k))

theorem Marked.zero (mark : Bool → Bool) (m : ℕ) (bits : ℕ → Bool) : Marked mark 0 m bits bits :=
  ⟨fun k hk => absurd hk (Nat.not_lt_zero k),fun _ _ => rfl⟩

theorem Marked.succ {mark : Bool → Bool} (hm : 0 < m/2)
    (h : Marked mark d (m/2) (Function.update bits (m/2) (mark (isRight m))) bits') :
    Marked mark (d+1) m bits bits' := by
  refine ⟨fun k hk => ?_,fun j hj => ?_⟩
  · cases k with
    | zero =>
      have hfirst:=h.frame (m/2) fun l _ => Nat.ne_of_lt (ancestor_lt hm l)
      rw [Function.update_self] at hfirst
      rw [ancestor_succ',ancestor_zero,ancestor_zero,hfirst]
    | succ k =>
      rw [ancestor_succ',ancestor_succ' m k]
      exact h.path k (by omega)
  · have hne : j≠m/2 := by
      have := hj 0 (Nat.succ_pos d)
      rw [ancestor_succ',ancestor_zero] at this
      exact this.symm
    rw [h.frame j fun k hk => ?_,Function.update_of_ne hne]
    rw [← ancestor_succ']
    exact hj (k+1) (by omega)

theorem Marked.toward (h : Marked id d m bits bits') : ∀ k<d,Toward bits' m k := h.path

theorem Marked.away (h : Marked (!·) d m bits bits') : ∀ k<d,¬Toward bits' m k := by
  intro k hk ht
  rw [Toward,h.path k hk] at ht
  exact Bool.not_ne_self _ ht

theorem Marked.turns (h : Marked (!·) d n bits bits') (hm : AtDepth d m) (hn : AtDepth d n) :
    ∃ turned,∀ k<d,Toward bits' m k → k=turned ∨ Toward bits m k := by
  cases d with
  | zero => exact ⟨0,fun k hk => absurd hk (Nat.not_lt_zero k)⟩
  | succ d =>
    have hmeet : ∃ k,ancestor m (k+1)=ancestor n (k+1) := ⟨d,hm.trans hn.symm⟩
    classical
    refine ⟨Nat.find hmeet,fun k hk ht => ?_⟩
    rcases Nat.lt_trichotomy k (Nat.find hmeet) with hlt | heq | hgt
    · -- below the meeting point the other walk leaves the path of `m` alone
      refine .inr ?_
      rw [Toward,← h.frame (ancestor m (k+1)) fun l hl heq => ?_]
      · exact ht
      · obtain rfl:=Nat.succ_inj.mp (hm.level hn hk hl heq.symm)
        exact Nat.find_min hmeet hlt heq.symm
    · exact .inl heq
    · -- above it both come from the same child
      have hsame : ancestor m k=ancestor n k := by
        obtain ⟨j,rfl⟩:=Nat.exists_eq_add_of_lt hgt
        rw [Nat.add_right_comm,ancestor_add,Nat.find_spec hmeet,← ancestor_add]
      have hpath:=h.path k hk
      rw [← hsame,ancestor_succ,← hsame,← ancestor_succ] at hpath
      rw [Toward,hpath] at ht
      exact absurd ht (Bool.not_ne_self _)

theorem mem_towards : k∈towards bits d m ↔ k<d ∧ Toward bits m k := by
  rw [towards,Finset.mem_filter,Finset.mem_range]

theorem Marked.towards_away (h : Marked (!·) d m bits bits') : (towards bits' d m).card=0 := by
  refine Finset.card_eq_zero.mpr (Finset.eq_empty_of_forall_notMem fun k hk => ?_)
  obtain ⟨hk,ht⟩:=mem_towards.mp hk
  exact h.away k hk ht

theorem Marked.towards_le (h : Marked (!·) d n bits bits') (hm : AtDepth d m) (hn : AtDepth d n) :
    (towards bits' d m).card≤(towards bits d m).card+1 := by
  obtain ⟨turned,hturned⟩:=h.turns hm hn
  have hsub : towards bits' d m ⊆ insert turned (towards bits d m) := by
    intro k hk
    obtain ⟨hk,ht⟩:=mem_towards.mp hk
    exact Finset.mem_insert.mpr ((hturned k hk ht).imp_right fun h => mem_towards.mpr ⟨hk,h⟩)
  exact (Finset.card_le_card hsub).trans (Finset.card_insert_le _ _)

theorem towards_of_all (h : ∀ k<d,Toward bits m k) : (towards bits d m).card=d := by
  rw [towards,Finset.filter_true_of_mem fun k hk => h k (Finset.mem_range.mp hk),Finset.card_range]

end AquaGem5.Ancestors
