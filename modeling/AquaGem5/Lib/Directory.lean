import Mathlib.Logic.Basic

/-!
# Set-associative directories

A directory holds a key, or nothing, in each way of each set. It is placed when every key is in its home set, and in
one way of it only.
-/

namespace AquaGem5.Directory

variable {σ ω τ : Type} [DecidableEq σ] [DecidableEq ω]

def clear (d : σ → ω → Option τ) (s : σ) (w : ω) : σ → ω → Option τ :=
  fun s' w' => if s'=s ∧ w'=w then none else d s' w'

def put (d : σ → ω → Option τ) (s : σ) (w : ω) (t : τ) : σ → ω → Option τ :=
  fun s' w' => if s'=s ∧ w'=w then some t else d s' w'

def Member (d : σ → ω → Option τ) (t : τ) : Prop := ∃ s w, d s w=some t

structure Placed (home : τ → σ) (d : σ → ω → Option τ) : Prop where
  home : ∀ s w t, d s w=some t → s=home t
  unique : ∀ s w w' t, d s w=some t → d s w'=some t → w=w'

variable {home : τ → σ} {d : σ → ω → Option τ} {s : σ} {w : ω} {t u : τ}

theorem clear_eq_some {s' : σ} {w' : ω} (h : clear d s w s' w'=some u) : ¬(s'=s ∧ w'=w) ∧ d s' w'=some u := by
  unfold clear at h
  split at h
  · cases h
  · rename_i hne
    exact ⟨hne,h⟩

theorem put_eq_some {s' : σ} {w' : ω} (h : put d s w t s' w'=some u) : (s'=s ∧ w'=w ∧ u=t) ∨ d s' w'=some u := by
  unfold put at h
  split at h
  · rename_i heq
    exact .inl ⟨heq.1,heq.2,(Option.some.inj h).symm⟩
  · exact .inr h

omit [DecidableEq σ] [DecidableEq ω] in
theorem placed_empty (home : τ → σ) : Placed home fun (_ : σ) (_ : ω) => (none : Option τ) := by
  constructor
  · intro s w t h
    cases h
  · intro s w w' t h
    cases h

theorem clear_placed (h : Placed home d) (s : σ) (w : ω) : Placed home (clear d s w) := by
  constructor
  · intro s' w' u hu
    exact h.home s' w' u (clear_eq_some hu).2
  · intro s' w1 w2 u h1 h2
    exact h.unique s' w1 w2 u (clear_eq_some h1).2 (clear_eq_some h2).2

theorem clear_member (h : Member (clear d s w) u) : Member d u := by
  obtain ⟨s',w',hu⟩:=h
  exact ⟨s',w',(clear_eq_some hu).2⟩

theorem clear_not_member (h : Placed home d) (ht : d s w=some t) : ¬Member (clear d s w) t := by
  rintro ⟨s',w',hu⟩
  obtain ⟨hne,hd⟩:=clear_eq_some hu
  have hs : s'=s := (h.home s' w' t hd).trans (h.home s w t ht).symm
  subst hs
  exact hne ⟨rfl,h.unique s' w' w t hd ht⟩

theorem put_placed (h : Placed home d) (ht : ¬Member d t) (w : ω) : Placed home (put d (home t) w t) := by
  constructor
  · intro s' w' u hu
    rcases put_eq_some hu with ⟨rfl,_,rfl⟩ | hd
    · rfl
    · exact h.home s' w' u hd
  · intro s' w1 w2 u h1 h2
    rcases put_eq_some h1 with ⟨_,rfl,rfl⟩ | hd1 <;> rcases put_eq_some h2 with ⟨_,rfl,hu⟩ | hd2
    · rfl
    · exact (ht ⟨s',w2,hd2⟩).elim
    · exact (ht ⟨s',w1,hu ▸ hd1⟩).elim
    · exact h.unique s' w1 w2 u hd1 hd2

theorem put_member (h : Member (put d s w t) u) : u=t ∨ Member d u := by
  obtain ⟨s',w',hu⟩:=h
  rcases put_eq_some hu with ⟨_,_,heq⟩ | hd
  · exact .inl heq
  · exact .inr ⟨s',w',hd⟩

omit [DecidableEq σ] [DecidableEq ω] in
theorem member_iff (h : Placed home d) : Member d t ↔ ∃ w, d (home t) w=some t := by
  constructor
  · rintro ⟨s,w,hd⟩
    exact ⟨w,h.home s w t hd ▸ hd⟩
  · rintro ⟨w,hd⟩
    exact ⟨home t,w,hd⟩

end AquaGem5.Directory
