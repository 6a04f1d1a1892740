import Mathlib.Data.List.Basic

/-! # Greedy covers -/

namespace Covering
open List

variable {α : Type} (near : α → α → Bool)

def covered (centres : List α) (a : α) : Bool := centres.any fun c => near c a

def cover : List α → List α → List α
  | centres,[] => centres
  | centres,a::l => cover (if covered near centres a then centres else centres++[a]) l

variable {near} {centres l : List α} {a : α}

theorem covered_iff : covered near centres a=true ↔ ∃ c∈centres,near c a=true := List.any_eq_true

theorem cover_of_covered (h : covered near centres a=true) : cover near centres (a::l)=cover near centres l := by
  rw [cover,if_pos h]

theorem cover_of_not_covered (h : ¬covered near centres a=true) :
    cover near centres (a::l)=cover near (centres++[a]) l := by
  rw [cover,if_neg h]

theorem length_le_cover (near : α → α → Bool) (centres l : List α) : centres.length≤(cover near centres l).length := by
  induction l generalizing centres with
  | nil => exact Nat.le_refl _
  | cons a l ih =>
    by_cases h : covered near centres a=true
    · rw [cover_of_covered h]
      exact ih centres
    · rw [cover_of_not_covered h]
      have hle:=ih (centres++[a])
      rw [length_append] at hle
      omega

theorem cover_length_iff : (cover near centres l).length≤centres.length ↔ ∀ a∈l,covered near centres a=true := by
  induction l with
  | nil => exact iff_of_true (Nat.le_refl _) fun _ hin => absurd hin not_mem_nil
  | cons a l ih =>
    rw [forall_mem_cons]
    by_cases h : covered near centres a=true
    · rw [cover_of_covered h,ih,and_iff_right h]
    · have hle:=length_le_cover near (centres++[a]) l
      rw [length_append,length_singleton] at hle
      rw [cover_of_not_covered h]
      exact iff_of_false (by omega) fun hall => h hall.1

theorem cover_one_iff (centres l : List α) (hself : ∀ a,near a a=true) : (cover near centres l).length≤centres.length+1 ↔
    ∀ b∈l.find? fun a => !covered near centres a,∀ a∈l,covered near centres a=true ∨ near b a=true := by
  induction l with
  | nil => exact iff_of_true (Nat.le_succ _) fun _ hb => absurd hb (Option.not_mem_none _)
  | cons a l ih =>
    by_cases h : covered near centres a=true
    · rw [cover_of_covered h,ih,find?_cons_of_neg (by simpa using h)]
      refine forall_congr' fun b => forall_congr' fun _ => ?_
      rw [forall_mem_cons,and_iff_right (.inl h)]
    · have hmore : (cover near (centres++[a]) l).length≤centres.length+1 ↔
          ∀ x∈l,covered near (centres++[a]) x=true := by
        rw [← cover_length_iff,length_append,length_singleton]
      have hnew : ∀ x,covered near (centres++[a]) x=true ↔ covered near centres x=true ∨ near a x=true := fun x => by
        rw [covered,any_append,Bool.or_eq_true,any_cons,any_nil,Bool.or_false]
        exact Iff.rfl
      rw [cover_of_not_covered h,hmore,find?_cons_of_pos (by simpa using h)]
      constructor
      · intro hall b hb
        obtain rfl:=Option.mem_some_iff.mp hb
        rw [forall_mem_cons]
        exact ⟨.inr (hself a),fun x hx => (hnew x).mp (hall x hx)⟩
      · intro hall x hx
        exact (hnew x).mpr (hall a rfl x (mem_cons_of_mem a hx))

end Covering
