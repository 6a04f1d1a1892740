import Mathlib.Algebra.BigOperators.Group.Multiset.Basic
import Mathlib.Algebra.Group.Action.Defs

/-!
# Elements that hash to several places

Each element of a multiset marks the places `s x 0`, …, `s x (n - 1)`, which may
coincide. `load` counts the marks on a place.
-/

namespace Hits

variable {α κ : Type} [DecidableEq κ] {s : α → ℕ → κ} {n : ℕ}

def hits (s : α → ℕ → κ) (n : ℕ) (x : α) (i : κ) : ℕ :=
  (List.range n).countP fun k => decide (s x k=i)

def load (s : α → ℕ → κ) (n : ℕ) (m : Multiset α) (i : κ) : ℕ :=
  (m.map fun x => hits s n x i).sum

theorem hits_pos {k : ℕ} (hk : k<n) (x : α) : 0<hits s n x (s x k) :=
  List.countP_pos_iff.mpr ⟨k,List.mem_range.mpr hk,decide_eq_true rfl⟩

@[simp] theorem load_zero (i : κ) : load s n 0 i=0 := rfl

@[simp] theorem load_cons (x : α) (m : Multiset α) (i : κ) : load s n (x ::ₘ m) i=hits s n x i+load s n m i := by
  simp only [load,Multiset.map_cons,Multiset.sum_cons]

theorem hits_le (x : α) (i : κ) : hits s n x i≤n := by
  have h:=List.countP_le_length (l := List.range n) (p := fun k => decide (s x k=i))
  rw [List.length_range] at h
  exact h

theorem load_le (m : Multiset α) (i : κ) : load s n m i ≤ m.card*n := by
  induction m using Multiset.induction_on with
  | empty => exact Nat.zero_le _
  | cons x m ih =>
    have hx:=hits_le (s := s) (n := n) x i
    rw [load_cons,Multiset.card_cons,Nat.succ_mul]
    omega

theorem load_replicate (k : ℕ) (x : α) (i : κ) : load s n (Multiset.replicate k x) i=k*hits s n x i := by
  simp only [load,Multiset.map_replicate,Multiset.sum_replicate,smul_eq_mul]

variable [DecidableEq α]

variable {m : Multiset α}

theorem load_erase {x : α} (h : x∈m) (i : κ) : hits s n x i+load s n (m.erase x) i=load s n m i := by
  rw [← load_cons,Multiset.cons_erase h]

theorem hits_le_load {x : α} (h : x∈m) (i : κ) : hits s n x i≤load s n m i := by
  rw [← load_erase h]
  exact Nat.le_add_right _ _

theorem load_pos {x : α} (h : x∈m) {k : ℕ} (hk : k<n) : 0<load s n m (s x k) :=
  Nat.lt_of_lt_of_le (hits_pos hk x) (hits_le_load h _)

end Hits
