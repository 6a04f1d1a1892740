import Mathlib.Data.List.Nodup

/-!
# Successors in a queue

`successor l x` is the element that follows `x` in the queue `l`: the one to which `x` hands over
when its turn ends. A queue without duplicates grows at its end and loses its first element.
-/

namespace AquaGem5.Succession
open List

variable {α : Type} [DecidableEq α]

def successor : List α → α → Option α
  | a::b::l, x => if x=a then some b else successor (b::l) x
  | [_], _ => none
  | [], _ => none

@[simp] theorem successor_nil (x : α) : successor [] x=none := rfl

@[simp] theorem successor_singleton (a x : α) : successor [a] x=none := rfl

@[simp] theorem successor_head (a b : α) (l : List α) : successor (a::b::l) a=some b := by
  simp [successor]

@[simp] theorem successor_cons_of_ne {a x : α} (h : x≠a) (l : List α) : successor (a::l) x=successor l x := by
  cases l with
  | nil => rfl
  | cons b l => simp [successor,h]

variable {l : List α}

theorem successor_of_not_mem {x : α} (h : x∉l) : successor l x=none := by
  induction l with
  | nil => rfl
  | cons a l ih =>
    rw [mem_cons,not_or] at h
    rw [successor_cons_of_ne h.1,ih h.2]

theorem successor_getLast {x : α} (hn : l.Nodup) (h : l.getLast?=some x) : successor l x=none := by
  induction l with
  | nil => rfl
  | cons a l ih =>
    cases l with
    | nil => rfl
    | cons b l =>
      rw [getLast?_cons_cons] at h
      have hne : x≠a := by
        rintro rfl
        exact (nodup_cons.mp hn).1 (mem_of_getLast? h)
      rw [successor_cons_of_ne hne,ih (nodup_cons.mp hn).2 h]

theorem successor_ne_none {x : α} (hx : x∈l) (h : l.getLast?≠some x) : successor l x≠none := by
  induction l with
  | nil => cases hx
  | cons a l ih =>
    cases l with
    | nil =>
      obtain rfl:=mem_singleton.mp hx
      exact absurd rfl h
    | cons b l =>
      rw [getLast?_cons_cons] at h
      by_cases hxa : x=a
      · subst hxa
        simp
      · rw [successor_cons_of_ne hxa]
        exact ih ((mem_cons.mp hx).resolve_left hxa) h

theorem successor_append {c : α} (hn : (l++[c]).Nodup) (x : α) :
    successor (l++[c]) x=if l.getLast?=some x then some c else successor l x := by
  induction l with
  | nil => rfl
  | cons a l ih =>
    cases l with
    | nil =>
      have hac : a≠c := by simpa using hn
      by_cases hx : x=a
      · subst hx
        simp
      · simp [hx,Ne.symm hx]
    | cons b l =>
      rw [cons_append] at hn ⊢
      have hn':=nodup_cons.mp hn
      rw [getLast?_cons_cons]
      by_cases hx : x=a
      · subst hx
        have hlast : (b::l).getLast?≠some x := fun h =>
          hn'.1 (mem_append_left [c] (mem_of_getLast? h))
        rw [if_neg hlast,cons_append,successor_head,successor_head]
      · rw [successor_cons_of_ne hx,successor_cons_of_ne hx,ih hn'.2]

omit [DecidableEq α] in
theorem eq_singleton_of_getLast {x : α} (hn : (x::l).Nodup) (h : (x::l).getLast?=some x) : l=[] := by
  cases l with
  | nil => rfl
  | cons b l =>
    rw [getLast?_cons_cons] at h
    exact absurd (mem_of_getLast? h) (nodup_cons.mp hn).1

end AquaGem5.Succession

/-!
## Waiting lines

Each key has a line, and `name` says who an element of a line is. Lines are apart when nobody stands in two lines, or
twice in one.
-/

namespace Lines
open Function

variable {κ α τ : Type} [DecidableEq κ] {name : α → τ} {q : κ → List α} {k : κ} {l left rest : List α} {t : τ}

def Waits (name : α → τ) (q : κ → List α) (t : τ) : Prop := ∃ k,t∈(q k).map name

structure Apart (name : α → τ) (q : κ → List α) : Prop where
  once : ∀ k,((q k).map name).Nodup
  single : ∀ k k' t,t∈(q k).map name → t∈(q k').map name → k=k'

theorem waits_update : Waits name (Function.update q k l) t ↔ t∈l.map name ∨ ∃ k',k'≠k ∧ t∈(q k').map name := by
  constructor
  · intro ⟨k',h⟩
    by_cases hk : k'=k
    · subst hk
      rw [update_self] at h
      exact .inl h
    · rw [update_of_ne hk] at h
      exact .inr ⟨k',hk,h⟩
  · intro h
    cases h with
    | inl h => exact ⟨k,by rw [update_self]; exact h⟩
    | inr h =>
      obtain ⟨k',hk,h⟩:=h
      exact ⟨k',by rw [update_of_ne hk]; exact h⟩

theorem Apart.update (h : Apart name q) (hl : (l.map name).Nodup)
    (hother : ∀ k',k'≠k → ∀ t∈l.map name,t∉(q k').map name) : Apart name (Function.update q k l) := by
  constructor
  · intro k'
    by_cases hk : k'=k
    · subst hk
      rw [update_self]
      exact hl
    · rw [update_of_ne hk]
      exact h.once k'
  · intro k1 k2 t h1 h2
    by_cases hk1 : k1=k
    · by_cases hk2 : k2=k
      · rw [hk1,hk2]
      · subst hk1
        rw [update_self] at h1
        rw [update_of_ne hk2] at h2
        exact (hother k2 hk2 t h1 h2).elim
    · rw [update_of_ne hk1] at h1
      by_cases hk2 : k2=k
      · subst hk2
        rw [update_self] at h2
        exact (hother k1 hk1 t h2 h1).elim
      · rw [update_of_ne hk2] at h2
        exact h.single k1 k2 t h1 h2

theorem Apart.cut (h : Apart name q) (hl : l.Sublist (q k)) : Apart name (Function.update q k l) := by
  have hmap:=hl.map name
  apply h.update ((h.once k).sublist hmap)
  intro k' hk t ht ht'
  exact hk (h.single k' k t ht' (hmap.subset ht))

theorem Apart.waits_cut (h : Apart name q) (hl : (left++rest).Perm (q k)) :
    Waits name (Function.update q k rest) t ↔ Waits name q t ∧ t∉left.map name := by
  have hmap:=hl.map name
  rw [List.map_append] at hmap
  have hnodup:=hmap.nodup_iff.mpr (h.once k)
  have hmem : ∀ t,t∈(q k).map name ↔ t∈left.map name ∨ t∈rest.map name := by
    intro t
    rw [← hmap.mem_iff,List.mem_append]
  rw [waits_update]
  constructor
  · intro hw
    cases hw with
    | inl hw => exact ⟨⟨k,(hmem t).mpr (.inr hw)⟩,fun hleft => (List.nodup_append.mp hnodup).2.2 t hleft t hw rfl⟩
    | inr hw =>
      obtain ⟨k',hk,hw⟩:=hw
      exact ⟨⟨k',hw⟩,fun hleft => hk (h.single k' k t hw ((hmem t).mpr (.inl hleft)))⟩
  · intro ⟨⟨k',hw⟩,hnot⟩
    by_cases hk : k'=k
    · subst hk
      exact .inl (((hmem t).mp hw).resolve_left hnot)
    · exact .inr ⟨k',hk,hw⟩

theorem Apart.join (h : Apart name q) (hl : (l.map name).Nodup) (hnew : ∀ t∈l.map name,¬Waits name q t) :
    Apart name (Function.update q k (q k++l)) := by
  apply h.update
  · rw [List.map_append]
    refine List.Nodup.append (h.once k) hl fun t ht ht' => ?_
    exact hnew t ht' ⟨k,ht⟩
  · intro k' hk t ht ht'
    rw [List.map_append,List.mem_append] at ht
    cases ht with
    | inl ht => exact hk (h.single k' k t ht' ht)
    | inr ht => exact hnew t ht ⟨k',ht'⟩

theorem waits_join : Waits name (Function.update q k (q k++l)) t ↔ Waits name q t ∨ t∈l.map name := by
  rw [waits_update,List.map_append,List.mem_append]
  constructor
  · intro h
    rcases h with (h | h) | ⟨k',_,h⟩
    · exact .inl ⟨k,h⟩
    · exact .inr h
    · exact .inl ⟨k',h⟩
  · intro h
    rcases h with ⟨k',h⟩ | h
    · by_cases hk : k'=k
      · subst hk
        exact .inl (.inl h)
      · exact .inr ⟨k',hk,h⟩
    · exact .inl (.inr h)

end Lines
