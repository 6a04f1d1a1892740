import Mathlib.Data.List.Induction

/-!
# What has held since an event

`Since opens closes h` is the past operator of histories: an event of `h` opens, and no later one
closes. A new event opens by itself, or it leaves open what was open and it does not close.
-/

namespace History
open List

variable {ε : Type} {opens closes : ε → Prop}

def Since (opens closes : ε → Prop) (h : List ε) : Prop :=
  ∃ before e after, h=before++e::after ∧ opens e ∧ ∀ f∈after, ¬closes f

@[simp] theorem since_nil : ¬Since opens closes [] := by
  intro ⟨before,e,after,h,_⟩
  cases before <;> cases h

theorem since_snoc (h : List ε) (e : ε) :
    Since opens closes (h++[e]) ↔ opens e ∨ (Since opens closes h ∧ ¬closes e) := by
  constructor
  · intro ⟨before,x,after,heq,hx,hafter⟩
    cases after using reverseRecOn with
    | nil =>
      obtain ⟨-,he⟩:=append_inj' heq rfl
      cases he
      exact .inl hx
    | append_singleton after y =>
      rw [← cons_append,← append_assoc] at heq
      obtain ⟨rfl,hy⟩:=append_inj' heq rfl
      cases hy
      have hy:=hafter e (mem_append_right _ (mem_singleton_self e))
      exact .inr ⟨⟨before,x,after,rfl,hx,fun f hf => hafter f (mem_append_left _ hf)⟩,hy⟩
  · intro hs
    rcases hs with he | ⟨⟨before,x,after,rfl,hx,hafter⟩,he⟩
    · exact ⟨h,e,[],rfl,he,fun f hf => (not_mem_nil hf).elim⟩
    · refine ⟨before,x,after++[e],by rw [append_assoc,cons_append],hx,fun f hf => ?_⟩
      rcases mem_append.mp hf with hf | hf
      · exact hafter f hf
      · rw [mem_singleton.mp hf]
        exact he

end History
