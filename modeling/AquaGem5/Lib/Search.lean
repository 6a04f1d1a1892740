import Mathlib.Data.List.TakeWhile

/-!
# Searching a list with a test that may fail

`List.findM?` stops at the first entry that passes, or at the first test that fails. `chain`
is the part of a list that a walk along a relation visits.
-/

namespace Search
open List

variable {α ε : Type} {p : α → Except ε Bool} {q : α → Bool} {l l' : List α} {a : α}

theorem findM_cons (p : α → Except ε Bool) (a : α) (l : List α) :
    (a::l).findM? p=p a >>= fun b => if b then .ok (some a) else l.findM? p := by
  rw [findM?]
  congr 1
  funext b
  cases b <;> rfl

theorem findM_eq_find (h : ∀ a∈l,p a = .ok (q a)) : l.findM? p = .ok (l.find? q) := by
  induction l with
  | nil => rfl
  | cons a l ih =>
    have ih:=ih fun b hb => h b (mem_cons_of_mem _ hb)
    rw [findM_cons,h a mem_cons_self]
    cases hq : q a with
    | true =>
      rw [find?_cons_of_pos hq]
      rfl
    | false =>
      rw [find?_cons_of_neg (by simp [hq]),← ih]
      rfl

theorem findM_some (h : l.findM? p = .ok (some a)) : a∈l ∧ p a = .ok true := by
  induction l with
  | nil => cases h
  | cons b l ih =>
    rw [findM_cons] at h
    cases hb : p b with
    | error e =>
      rw [hb] at h
      cases h
    | ok c =>
      rw [hb] at h
      cases c with
      | true =>
        cases h
        exact ⟨mem_cons_self,hb⟩
      | false =>
        obtain ⟨hmem,htrue⟩:=ih h
        exact ⟨mem_cons_of_mem _ hmem,htrue⟩

theorem findM_none (h : l.findM? p = .ok none) : ∀ a∈l,p a = .ok false := by
  induction l with
  | nil => exact fun a ha => absurd ha not_mem_nil
  | cons b l ih =>
    rw [findM_cons] at h
    cases hb : p b with
    | error e =>
      rw [hb] at h
      cases h
    | ok c =>
      rw [hb] at h
      cases c with
      | true => cases h
      | false =>
        intro a ha
        rcases mem_cons.mp ha with rfl | ha
        · exact hb
        · exact ih h a ha

theorem findM_error (hnone : ∀ a∈l,p a ≠ .ok true) (ha : a∈l) (hfail : ∀ b,p a ≠ .ok b) :
    ∀ res,l.findM? p ≠ .ok res := by
  intro res h
  cases res with
  | none => exact hfail false (findM_none h a ha)
  | some b => exact hnone b (findM_some h).1 (findM_some h).2

theorem findM_append (p : α → Except ε Bool) (l l' : List α) :
    (l++l').findM? p=l.findM? p >>= fun res => res.elim (l'.findM? p) fun a => .ok (some a) := by
  induction l with
  | nil => rfl
  | cons b l ih =>
    rw [cons_append,findM_cons,findM_cons,ih]
    cases p b with
    | error e => rfl
    | ok c => cases c <;> rfl

def chain (rel : α → α → Bool) : List α → List α
  | [] => []
  | [a] => [a]
  | a::b::l => a::if rel b a then chain rel (b::l) else []

variable {rel : α → α → Bool}

theorem chain_subset : ∀ {l : List α},∀ a∈chain rel l,a∈l
  | [],_,ha => ha
  | [_],_,ha => ha
  | b::c::l,a,ha => by
    rw [chain] at ha
    rcases List.mem_cons.mp ha with rfl | ha
    · exact List.mem_cons_self
    · split_ifs at ha with hrel
      · exact List.mem_cons_of_mem _ (chain_subset a ha)
      · cases ha

variable {P : α → Prop}

theorem mem_chain (hrel : ∀ a b,P a → P b → rel b a=true) :
    ∀ {l l' : List α} {a : α},(∀ b∈l,P b) → P a → a∈chain rel (l++a::l')
  | [],[],_,_,_ => List.mem_singleton.mpr rfl
  | [],_::_,_,_,_ => by
    rw [List.nil_append,chain]
    exact List.mem_cons_self
  | b::l,l',a,hl,ha => by
    have hb:=hl b List.mem_cons_self
    have htail : a∈chain rel (l++a::l') := mem_chain hrel (fun c hc => hl c (List.mem_cons_of_mem _ hc)) ha
    cases l with
    | nil =>
      rw [List.singleton_append,chain,if_pos (hrel b a hb ha)]
      exact List.mem_cons_of_mem _ htail
    | cons c l =>
      rw [List.cons_append,List.cons_append,chain,if_pos (hrel b c hb (hl c (by simp)))]
      exact List.mem_cons_of_mem _ htail

theorem chain_forall (hrel : ∀ a b,rel b a=true → P a → P b) :
    ∀ {l : List α},(∀ a,l.head?=some a → P a) → ∀ a∈chain rel l,P a
  | [],_,a,ha => absurd ha List.not_mem_nil
  | [b],hl,a,ha => by
    rw [List.mem_singleton.mp ha]
    exact hl b rfl
  | b::c::l,hl,a,ha => by
    rw [chain] at ha
    rcases List.mem_cons.mp ha with rfl | ha
    · exact hl _ rfl
    · split_ifs at ha with hbc
      · refine chain_forall hrel (fun d hd => ?_) a ha
        cases hd
        exact hrel b c hbc (hl b rfl)
      · cases ha

theorem head_mem_chain (h : l.head?=some a) : a∈chain rel l := by
  cases l with
  | nil => cases h
  | cons b l =>
    cases h
    cases l with
    | nil => exact mem_cons_self
    | cons c l =>
      rw [chain]
      exact mem_cons_self

variable (key : α → ℕ) {k : ℕ}

theorem takeWhile_le {key : α → ℕ} (a : α) (ha : a∈l.takeWhile fun b => decide (key b≤k)) : key a≤k := by
  have hpass:=mem_takeWhile_imp ha
  exact of_decide_eq_true hpass

theorem dropWhile_gt {key : α → ℕ} (h : l.Pairwise fun a b => key a<key b) (a : α)
    (ha : a∈l.dropWhile fun b => decide (key b≤k)) : k<key a := by
  induction l with
  | nil => cases ha
  | cons b l ih =>
    by_cases hb : key b≤k
    · rw [dropWhile_cons_of_pos (by simpa using hb)] at ha
      exact ih h.of_cons ha
    · rw [dropWhile_cons_of_neg (by simpa using hb)] at ha
      rcases mem_cons.mp ha with rfl | ha
      · omega
      · have := rel_of_pairwise_cons h ha
        omega

theorem mem_takeWhile_iff {key : α → ℕ} (h : l.Pairwise fun a b => key a<key b) :
    a∈l.takeWhile (fun b => decide (key b≤k)) ↔ a∈l ∧ key a≤k := by
  constructor
  · intro ha
    exact ⟨( takeWhile_prefix _).subset ha,takeWhile_le a ha⟩
  · rintro ⟨ha,hle⟩
    rw [← takeWhile_append_dropWhile (p := fun b => decide (key b≤k)) (l := l)] at ha
    rcases mem_append.mp ha with ha | ha
    · exact ha
    · have := dropWhile_gt h a ha
      omega

theorem head_dropWhile (h : l.Pairwise fun a b => key a<key b)
    (ha : (l.dropWhile fun b => decide (key b≤k)).head?=some a) : a∈l ∧ k<key a ∧ ∀ b∈l,k<key b → key a≤key b := by
  obtain ⟨rest,hrest⟩ : ∃ rest,l.dropWhile (fun b => decide (key b≤k))=a::rest := by
    cases hd : l.dropWhile fun b => decide (key b≤k) with
    | nil =>
      rw [hd] at ha
      cases ha
    | cons c rest =>
      rw [hd] at ha
      cases ha
      exact ⟨rest,rfl⟩
  have hsuffix:=dropWhile_suffix (l := l) fun b => decide (key b≤k)
  have hmem : a∈l.dropWhile fun b => decide (key b≤k) := hrest ▸ mem_cons_self
  refine ⟨hsuffix.subset hmem,dropWhile_gt h a hmem,fun b hb hkb => ?_⟩
  rw [← takeWhile_append_dropWhile (p := fun b => decide (key b≤k)) (l := l)] at hb
  rcases mem_append.mp hb with hb | hb
  · have := takeWhile_le b hb
    omega
  · have hsorted:=h.sublist hsuffix.sublist
    rw [hrest] at hb hsorted
    rcases mem_cons.mp hb with rfl | hb
    · exact Nat.le_refl _
    · exact Nat.le_of_lt (rel_of_pairwise_cons hsorted hb)

theorem head_dropWhile_of_gt (h : l.Pairwise fun a b => key a<key b) (ha : a∈l) (hk : k<key a) :
    ∃ b,(l.dropWhile fun c => decide (key c≤k)).head?=some b ∧ b∈l ∧ k<key b ∧ key b≤key a := by
  rw [← takeWhile_append_dropWhile (p := fun b => decide (key b≤k)) (l := l)] at ha
  have hmem : a∈l.dropWhile fun b => decide (key b≤k) := by
    rcases mem_append.mp ha with ha | ha
    · have := takeWhile_le a ha
      omega
    · exact ha
  cases hb : (l.dropWhile fun c => decide (key c≤k)).head? with
  | none =>
    rw [head?_eq_none_iff.mp hb] at hmem
    cases hmem
  | some b =>
    obtain ⟨hbl,hkb,hmin⟩:=head_dropWhile key h hb
    exact ⟨b,rfl,hbl,hkb,hmin a ((dropWhile_suffix _).subset hmem) hk⟩

theorem mem_chain_below (hrel : ∀ a b,P a → P b → rel b a=true)
    (h : l.Pairwise fun a b => key a<key b) (ha : a∈l) (hk : key a≤k) (hPa : P a)
    (hP : ∀ b∈l,key a<key b → key b≤k → P b) : a∈chain rel (l.takeWhile fun b => decide (key b≤k)).reverse := by
  have hmem:=(mem_takeWhile_iff h).mpr ⟨ha,hk⟩
  have hsorted:=h.sublist (takeWhile_sublist fun b => decide (key b≤k))
  have hall : ∀ b∈l.takeWhile (fun b => decide (key b≤k)),key a<key b → P b := by
    intro b hb hlt
    obtain ⟨hbl,hbk⟩:=(mem_takeWhile_iff h).mp hb
    exact hP b hbl hlt hbk
  obtain ⟨before,after,hsplit⟩:=append_of_mem hmem
  rw [hsplit] at hsorted hall
  rw [hsplit,reverse_append,reverse_cons,append_assoc,singleton_append]
  refine mem_chain hrel (fun b hb => ?_) hPa
  have hb':=mem_reverse.mp hb
  have hlt:=rel_of_pairwise_cons (pairwise_append.mp hsorted).2.1 hb'
  exact hall b (by simp [hb']) hlt

end Search
