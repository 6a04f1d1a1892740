import Mathlib.Order.WellFounded

/-!
# The free candidates of a list, or else the earliest

Of the elements that compete those are chosen that are free, and where none is free those with the least key.
-/

namespace Candidates
open List

variable {α : Type} {competes free : α → Prop} {key : α → ℕ} {l : List α} {x z : α}

def AnyFree (competes free : α → Prop) (l : List α) : Prop := ∃ y∈l,competes y ∧ free y

structure Chosen (competes free : α → Prop) (key : α → ℕ) (l : List α) (x : α) : Prop where
  mem : x∈l
  waits : competes x
  isFree : AnyFree competes free l → free x
  earliest : ¬AnyFree competes free l → ∀ y∈l,competes y → key x≤key y

theorem anyFree_snoc : AnyFree competes free (l++[x]) ↔ AnyFree competes free l ∨ competes x ∧ free x := by
  simp only [AnyFree,mem_append,mem_singleton,or_and_right,exists_or,exists_eq_left]

theorem not_chosen_nil : ¬Chosen competes free key [] z := fun h => absurd h.mem List.not_mem_nil

theorem chosen_skip (hx : ¬competes x) : Chosen competes free key (l++[x]) z ↔ Chosen competes free key l z := by
  have hany : AnyFree competes free (l++[x]) ↔ AnyFree competes free l := by
    rw [anyFree_snoc]
    exact or_iff_left fun h => hx h.1
  constructor
  · intro h
    have hmem : z∈l := by
      rcases mem_append.mp h.mem with hz | hz
      · exact hz
      · exact absurd (mem_singleton.mp hz ▸ h.waits) hx
    exact ⟨hmem,h.waits,fun hf => h.isFree (hany.mpr hf),
      fun hf y hy => h.earliest (mt hany.mp hf) y (mem_append_left _ hy)⟩
  · intro h
    refine ⟨mem_append_left _ h.mem,h.waits,fun hf => h.isFree (hany.mp hf),fun hf y hy hc => ?_⟩
    rcases mem_append.mp hy with hy | hy
    · exact h.earliest (mt hany.mpr hf) y hy hc
    · exact absurd (mem_singleton.mp hy ▸ hc) hx

theorem chosen_add_free (hx : competes x) (hfree : free x) (hany : AnyFree competes free l) :
    Chosen competes free key (l++[x]) z ↔ Chosen competes free key l z ∨ z=x := by
  have hany' : AnyFree competes free (l++[x]) := anyFree_snoc.mpr (.inl hany)
  constructor
  · intro h
    rcases mem_append.mp h.mem with hz | hz
    · exact .inl ⟨hz,h.waits,fun _ => h.isFree hany',fun hf => absurd hany hf⟩
    · exact .inr (mem_singleton.mp hz)
  · rintro (h | rfl)
    · exact ⟨mem_append_left _ h.mem,h.waits,fun _ => h.isFree hany,fun hf => absurd hany' hf⟩
    · exact ⟨mem_append_right _ mem_cons_self,hx,fun _ => hfree,fun hf => absurd hany' hf⟩

theorem chosen_first_free (hx : competes x) (hfree : free x) (hany : ¬AnyFree competes free l) :
    Chosen competes free key (l++[x]) z ↔ z=x := by
  have hany' : AnyFree competes free (l++[x]) := anyFree_snoc.mpr (.inr ⟨hx,hfree⟩)
  constructor
  · intro h
    rcases mem_append.mp h.mem with hz | hz
    · exact absurd ⟨z,hz,h.waits,h.isFree hany'⟩ hany
    · exact mem_singleton.mp hz
  · rintro rfl
    exact ⟨mem_append_right _ mem_cons_self,hx,fun _ => hfree,fun hf => absurd hany' hf⟩

theorem chosen_drop (hfree : ¬free x) (hany : AnyFree competes free l) :
    Chosen competes free key (l++[x]) z ↔ Chosen competes free key l z := by
  have hany' : AnyFree competes free (l++[x]) := anyFree_snoc.mpr (.inl hany)
  constructor
  · intro h
    rcases mem_append.mp h.mem with hz | hz
    · exact ⟨hz,h.waits,fun _ => h.isFree hany',fun hf => absurd hany hf⟩
    · exact absurd (mem_singleton.mp hz ▸ h.isFree hany') hfree
  · intro h
    exact ⟨mem_append_left _ h.mem,h.waits,fun _ => h.isFree hany,fun hf => absurd hany' hf⟩

section NoneFree

variable (hx : competes x) (hfree : ¬free x) (hany : ¬AnyFree competes free l)
include hfree hany

theorem not_anyFree_snoc : ¬AnyFree competes free (l++[x]) := by
  rw [anyFree_snoc]
  rintro (h | h)
  · exact hany h
  · exact hfree h.2

theorem chosen_late {y : α} (hy : y∈l) (hc : competes y) (hlt : key y<key x) :
    Chosen competes free key (l++[x]) z ↔ Chosen competes free key l z := by
  have hany':=not_anyFree_snoc hfree hany
  constructor
  · intro h
    have hle:=h.earliest hany' y (mem_append_left _ hy) hc
    rcases mem_append.mp h.mem with hz | hz
    · exact ⟨hz,h.waits,fun hf => absurd hf hany,fun _ w hw => h.earliest hany' w (mem_append_left _ hw)⟩
    · rw [mem_singleton.mp hz] at hle
      exact absurd hlt (Nat.not_lt.mpr hle)
  · intro h
    refine ⟨mem_append_left _ h.mem,h.waits,fun hf => absurd hf hany',fun _ w hw hcw => ?_⟩
    rcases mem_append.mp hw with hw | hw
    · exact h.earliest hany w hw hcw
    · rw [mem_singleton.mp hw]
      exact (h.earliest hany y hy hc).trans hlt.le

include hx

theorem chosen_earlier (hlt : ∀ y∈l,competes y → key x<key y) : Chosen competes free key (l++[x]) z ↔ z=x := by
  have hany':=not_anyFree_snoc hfree hany
  constructor
  · intro h
    rcases mem_append.mp h.mem with hz | hz
    · have hle:=h.earliest hany' x (mem_append_right _ mem_cons_self) hx
      exact absurd (hlt z hz h.waits) (Nat.not_lt.mpr hle)
    · exact mem_singleton.mp hz
  · rintro rfl
    refine ⟨mem_append_right _ mem_cons_self,hx,fun hf => absurd hf hany',fun _ w hw hcw => ?_⟩
    rcases mem_append.mp hw with hw | hw
    · exact (hlt w hw hcw).le
    · rw [mem_singleton.mp hw]

theorem chosen_tie (hle : ∀ y∈l,competes y → key x≤key y) {y : α} (hy : y∈l) (hc : competes y)
    (heq : key y=key x) : Chosen competes free key (l++[x]) z ↔ Chosen competes free key l z ∨ z=x := by
  have hany':=not_anyFree_snoc hfree hany
  constructor
  · intro h
    rcases mem_append.mp h.mem with hz | hz
    · exact .inl ⟨hz,h.waits,fun hf => absurd hf hany,
        fun _ w hw => h.earliest hany' w (mem_append_left _ hw)⟩
    · exact .inr (mem_singleton.mp hz)
  · have hall : ∀ w∈l++[x],competes w → key x≤key w := by
      intro w hw hcw
      rcases mem_append.mp hw with hw | hw
      · exact hle w hw hcw
      · rw [mem_singleton.mp hw]
    rintro (h | rfl)
    · refine ⟨mem_append_left _ h.mem,h.waits,fun hf => absurd hf hany',fun _ w hw hcw => ?_⟩
      exact (h.earliest hany y hy hc).trans (heq.le.trans (hall w hw hcw))
    · exact ⟨mem_append_right _ mem_cons_self,hx,fun hf => absurd hf hany',fun _ => hall⟩

end NoneFree

theorem exists_chosen (free : α → Prop) (key : α → ℕ) (h : ∃ y∈l,competes y) : ∃ x,Chosen competes free key l x := by
  by_cases hany : AnyFree competes free l
  · obtain ⟨y,hy,hc,hf⟩:=hany
    exact ⟨y,hy,hc,fun _ => hf,fun hnot => absurd ⟨y,hy,hc,hf⟩ hnot⟩
  · obtain ⟨y,hy,hc⟩:=h
    obtain ⟨m,⟨x,hx,hcx,rfl⟩,hmin⟩:=WellFounded.has_min (r := fun a b : ℕ => a<b) Nat.lt_wfRel.wf
      {m | ∃ w∈l,competes w ∧ key w=m} ⟨_,y,hy,hc,rfl⟩
    exact ⟨x,hx,hcx,fun hf => absurd hf hany,fun _ w hw hcw => Nat.le_of_not_lt (hmin _ ⟨w,hw,hcw,rfl⟩)⟩

end Candidates
