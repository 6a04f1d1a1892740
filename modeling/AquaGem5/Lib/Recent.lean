import Mathlib.Data.List.Basic

/-!
# The last entries of a sequence, and its cuts

`recent n l` is the deque of size `n` that holds the last entries of `l`, newest first, with zeros
for the ones that are missing.
-/

namespace Recent
open List

variable {α : Type} {n : ℕ} {l : List ℕ}

def recent (n : ℕ) (l : List ℕ) : List ℕ := (l.reverse++List.replicate n 0).take n

theorem recent_length (n : ℕ) (l : List ℕ) : (recent n l).length=n := by
  rw [recent,length_take,length_append,length_replicate]
  omega

theorem recent_nil (n : ℕ) : recent n []=List.replicate n 0 := by
  rw [recent,reverse_nil,nil_append,take_replicate,Nat.min_self]

theorem recent_snoc (hn : 0<n) (l : List ℕ) (t : ℕ) : recent n (l++[t])=t::(recent n l).dropLast := by
  obtain ⟨k,rfl⟩ : ∃ k,n=k+1 := ⟨n-1,by omega⟩
  have hlen:=recent_length (k+1) l
  rw [dropLast_eq_take,hlen,Nat.add_sub_cancel,recent,recent,take_take,Nat.min_eq_left (Nat.le_succ k),
    reverse_append,reverse_singleton,singleton_append,cons_append,take_succ_cons]

theorem recent_getLastD (hn : 0<n) (l : List ℕ) :
    (recent n l).getLastD 0=if n≤l.length then l.getD (l.length-n) 0 else 0 := by
  have hlen:=recent_length n l
  rw [getLastD_eq_getLast?,getLast?_eq_getElem?,hlen,recent,getElem?_take]
  simp only [show n-1<n by omega,if_true]
  split_ifs with hle
  · rw [getElem?_append_left (by rw [length_reverse]; omega),getElem?_reverse (by omega),
      getD_eq_getElem?_getD,show l.length-1-(n-1)=l.length-n by omega]
  · rw [getElem?_append_right (by rw [length_reverse]; omega),length_reverse,
      getElem?_replicate]
    split_ifs <;> rfl

theorem getElem?_snoc {l : List α} {a b : α} {i : ℕ} (h : (l++[a])[i]?=some b) :
    l[i]?=some b ∨ (i=l.length ∧ b=a) := by
  by_cases hi : i<l.length
  · rw [getElem?_append_left hi] at h
    exact .inl h
  · rw [getElem?_append_right (by omega)] at h
    obtain ⟨hlt,heq⟩:=List.getElem?_eq_some_iff.mp h
    simp only [length_singleton] at hlt
    refine .inr ⟨by omega,?_⟩
    have hz : i-l.length=0 := by omega
    simp only [hz,getElem_cons_zero] at heq
    exact heq.symm

theorem cut_snoc {l before after : List α} {a b : α} (h : l++[a]=before++b::after) :
    (l=before ∧ a=b) ∨ ∃ after',l=before++b::after' := by
  rcases eq_nil_or_concat after with rfl | ⟨after',c,rfl⟩
  · exact .inl ⟨(append_inj' h rfl).1,singleton_injective (append_inj' h rfl).2⟩
  · rw [concat_eq_append,← cons_append,← append_assoc] at h
    exact .inr ⟨after',(append_inj' h rfl).1⟩

end Recent
