import Mathlib.Algebra.BigOperators.Group.Finset.Piecewise
import AquaGem5.Lib.Checked

/-!
# Arrays of a C program

`Cells α` is an array of `size` cells. `read` and `write` are the checked accesses of a program; `get` and `set` are
the cells themselves, for specifications.
-/

namespace AquaGem5

open Checked Finset

structure Cells (α : Type) where
  size : ℕ
  get : ℕ → α

namespace Cells

variable {α ε : Type}

/-- `calloc(n, sizeof(α))` with the all-zero value of `α`. -/
def calloc (n : ℕ) (zero : α) : Cells α := ⟨n,fun _ => zero⟩

def set (c : Cells α) (i : ℕ) (a : α) : Cells α := ⟨c.size,fun j => if j=i then a else c.get j⟩

/-- `std::fill_n(c, n, a)`. -/
def fill (c : Cells α) (n : ℕ) (a : α) : Cells α := ⟨c.size,fun j => if j<n then a else c.get j⟩

def read [Undefined ε] (c : Cells α) (i : ℕ) : Except ε α :=
  if i<c.size then .ok (c.get i) else .error Undefined.outOfBounds

def write [Undefined ε] (c : Cells α) (i : ℕ) (a : α) : Except ε (Cells α) :=
  if i<c.size then .ok (c.set i a) else .error Undefined.outOfBounds

@[simp] theorem size_calloc (n : ℕ) (zero : α) : (calloc n zero).size=n := rfl
@[simp] theorem get_calloc (n : ℕ) (zero : α) (i : ℕ) : (calloc n zero).get i=zero := rfl
@[simp] theorem size_set (c : Cells α) (i : ℕ) (a : α) : (c.set i a).size=c.size := rfl
@[simp] theorem size_fill (c : Cells α) (n : ℕ) (a : α) : (c.fill n a).size=c.size := rfl

theorem get_set (c : Cells α) (i j : ℕ) (a : α) :
    (c.set i a).get j=if j=i then a else c.get j := rfl

@[simp] theorem get_set_self (c : Cells α) (i : ℕ) (a : α) : (c.set i a).get i=a := if_pos rfl

theorem get_set_ne (c : Cells α) {i j : ℕ} (a : α) (h : j≠i) : (c.set i a).get j=c.get j :=
  if_neg h

theorem get_fill_of_lt (c : Cells α) {n i : ℕ} (a : α) (h : i<n) : (c.fill n a).get i=a :=
  if_pos h

structure Swept (zero : α) (lo hi : ℕ) (c c' : Cells α) : Prop where
  size : c'.size=c.size
  swept : ∀ i,lo ≤ i → i<hi → c'.get i=zero
  kept : ∀ i,c.get i=zero → c'.get i=zero

theorem swept_none {lo hi : ℕ} (zero : α) (c : Cells α) (h : hi≤lo) : Swept zero lo hi c c :=
  ⟨rfl,fun i hle hlt => absurd hlt (by omega),fun _ hi => hi⟩

theorem Swept.next {zero : α} {lo hi : ℕ} {c c' : Cells α} (h : Swept zero (lo+1) hi (c.set lo zero) c') :
    Swept zero lo hi c c' := by
  refine ⟨h.size,fun i hle hlt => ?_,fun i hi => h.kept i ?_⟩
  · by_cases heq : i=lo
    · exact h.kept i (by rw [heq,get_set_self])
    · exact h.swept i (by omega) hlt
  · rw [get_set,hi,ite_self]

@[simp] theorem post_read [Undefined ε] (c : Cells α) (i : ℕ) (Q : α → Prop) (E : ε → Prop) :
    Post (c.read i) Q E ↔ (i<c.size → Q (c.get i)) ∧ (¬i<c.size → E Undefined.outOfBounds) := by
  unfold read
  rw [post_ite,post_ok,post_error]

@[simp] theorem post_write [Undefined ε] (c : Cells α) (i : ℕ) (a : α) (Q : Cells α → Prop) (E : ε → Prop) :
    Post (c.write i a) Q E ↔ (i<c.size → Q (c.set i a)) ∧ (¬i<c.size → E Undefined.outOfBounds) := by
  unfold write
  rw [post_ite,post_ok,post_error]

theorem read_of_lt [Undefined ε] (c : Cells α) {i : ℕ} (h : i<c.size) :
    c.read i=(.ok (c.get i) : Except ε α) := if_pos h

theorem sum_set (c : Cells α) (f : ℕ → α → ℕ) {n i : ℕ} (hi : i<n) (a : α) :
    ∑ j∈Finset.range n, f j ((c.set i a).get j)+f i (c.get i) = ∑ j∈Finset.range n, f j (c.get j)+f i a := by
  have hmem:=mem_range.mpr hi
  have hrest : ∑ j∈(range n).erase i, f j ((c.set i a).get j) =
      ∑ j∈(range n).erase i, f j (c.get j) :=
    sum_congr rfl fun j hj => by rw [get_set_ne c a (ne_of_mem_erase hj)]
  rw [← add_sum_erase _ (fun j => f j ((c.set i a).get j)) hmem,
    ← add_sum_erase _ (fun j => f j (c.get j)) hmem,hrest,get_set_self]
  omega

theorem card_set (c : Cells α) (p : ℕ → α → Prop) [∀ j, DecidablePred (p j)] {n i : ℕ} (hi : i<n) (a : α) :
    ((Finset.range n).filter fun j => p j ((c.set i a).get j)).card+(if p i (c.get i) then 1 else 0) =
      ((Finset.range n).filter fun j => p j (c.get j)).card+if p i a then 1 else 0 := by
  rw [card_filter,card_filter]
  exact sum_set c (fun j x => if p j x then 1 else 0) hi a

end Cells

end AquaGem5
