import Mathlib.Data.PEquiv
import Mathlib.Data.Finset.Card

/-!
# Keys that move between slots

A partial equivalence `ρ ≃. κ` says which key each slot holds. A slot is released, or a key is relocated to a slot: it
leaves its old slot, and the occupant of the new one goes.
-/

namespace AquaGem5.Relocation

variable {ρ κ : Type} [DecidableEq ρ] [DecidableEq κ]

def release (f : ρ ≃. κ) (q : κ) : ρ ≃. κ where
  toFun r := if f r=some q then none else f r
  invFun k := if k=q then none else f.symm k
  inv r k := by
    have hinv := f.eq_some_iff (a := r) (b := k)
    by_cases hk : k=q
    · subst hk
      by_cases hr : f r=some k <;> simp [hr]
    · rw [if_neg hk,hinv]
      by_cases hr : f r=some q
      · simp [hr,Ne.symm hk]
      · rw [if_neg hr]

def place (f : ρ ≃. κ) (a : ρ) (q : κ) : ρ ≃. κ where
  toFun r := if r=a then some q else if f r=some q then none else f r
  invFun k := if k=q then some a else if f a=some k then none else f.symm k
  inv r k := by
    have hinv := f.eq_some_iff (a := r) (b := k)
    by_cases hk : k=q
    · subst hk
      by_cases hra : r=a
      · simp [hra]
      · by_cases hr : f r=some k <;> simp [hr,hra,eq_comm (a := a)]
    · by_cases hra : r=a
      · subst hra
        by_cases hr : f r=some k
        · simp [hk,hr,Ne.symm hk]
        · simp [hk,hr,hinv,Ne.symm hk]
      · by_cases hak : f a=some k
        · have hrk : f r≠some k := fun h => hra (f.inj h hak)
          by_cases hr : f r=some q <;> simp [hk,hra,hak,hr,hrk]
        · rw [if_neg hk,if_neg hak,if_neg hra,hinv]
          by_cases hr : f r=some q
          · simp [hr,Ne.symm hk]
          · rw [if_neg hr]

def relocate (f : ρ ≃. κ) (a : ρ) (q : κ) : ρ ≃. κ :=
  if f a=some q then release f q else place f a q

omit [DecidableEq ρ] in
theorem release_apply (f : ρ ≃. κ) (q : κ) (r : ρ) :
    release f q r=if f r=some q then none else f r := rfl

omit [DecidableEq ρ] in
theorem release_symm (f : ρ ≃. κ) (q k : κ) :
    (release f q).symm k=if k=q then none else f.symm k := rfl

theorem relocate_apply (f : ρ ≃. κ) (a : ρ) (q : κ) (r : ρ) :
    relocate f a q r=if r=a then (if f a=some q then none else some q) else if f r=some q then none else f r := by
  unfold relocate
  by_cases ha : f a=some q
  · by_cases hr : r=a <;> simp [ha,hr,release_apply]
  · rw [if_neg ha,if_neg ha]
    rfl

theorem relocate_symm (f : ρ ≃. κ) (a : ρ) (q k : κ) :
    (relocate f a q).symm k=if k=q then (if f a=some q then none else some a)
      else if f a=some k then none else f.symm k := by
  unfold relocate
  by_cases ha : f a=some q
  · rw [if_pos ha,if_pos ha,release_symm]
    by_cases hk : k=q
    · rw [if_pos hk,if_pos hk]
    · have hak : f a≠some k := fun h => hk (Option.some.inj (h.symm.trans ha))
      rw [if_neg hk,if_neg hk,if_neg hak]
  · rw [if_neg ha,if_neg ha]
    rfl

inductive Move : (ρ ≃. κ) → Set κ → (ρ ≃. κ) → Set κ → Prop
  | stay (f : ρ ≃. κ) (used : Set κ) : Move f used f used
  | release (f : ρ ≃. κ) (used : Set κ) (q : κ) (hq : q∉used) : Move f used (release f q) used
  | relocate (f : ρ ≃. κ) (used : Set κ) (a : ρ) (q : κ) (hq : q∉used) :
      Move f used (relocate f a q) (insert q used)

def Settled (f : ρ ≃. κ) (used : Set κ) (a : ρ) : Prop := ∃ q∈used, f a=some q

theorem move_settled {f f' : ρ ≃. κ} {used used' : Set κ} {a : ρ} (h : Move f used f' used')
    (ha : Settled f used a) : Settled f' used' a := by
  obtain ⟨q,hq,hf⟩:=ha
  cases h with
  | stay => exact ⟨q,hq,hf⟩
  | release p hp =>
    have hpq : q≠p := fun h => hp (h ▸ hq)
    refine ⟨q,hq,?_⟩
    rw [release_apply,hf,if_neg (by simpa using hpq)]
  | relocate b p hp =>
    have hpq : q≠p := fun h => hp (h ▸ hq)
    by_cases hab : a=b
    · subst hab
      refine ⟨p,Set.mem_insert p used,?_⟩
      rw [relocate_apply,if_pos rfl,hf,if_neg (by simpa using hpq)]
    · refine ⟨q,Set.mem_insert_of_mem p hq,?_⟩
      rw [relocate_apply,if_neg hab,hf,if_neg (by simpa using hpq)]

theorem relocate_settled {f : ρ ≃. κ} {used : Set κ} {a : ρ} {q : κ}
    (h : (relocate f a q a).isSome) : Settled (relocate f a q) (insert q used) a := by
  rw [relocate_apply,if_pos rfl] at h
  split at h
  · cases h
  · rename_i hne
    refine ⟨q,Set.mem_insert q used,?_⟩
    rw [relocate_apply,if_pos rfl,if_neg hne]

/-!
## How many keys hold a slot

A release frees a slot, and a relocation changes the count by one at most.
-/

open Finset
variable {f : ρ ≃. κ} {keys : Finset ρ} {q : κ}

def placed (keys : Finset ρ) (f : ρ ≃. κ) : Finset ρ := keys.filter fun r => (f r).isSome=true

omit [DecidableEq ρ] [DecidableEq κ] in
theorem mem_placed {r : ρ} : r∈placed keys f ↔ r∈keys ∧ ∃ q,f r=some q := by
  rw [placed,mem_filter,Option.isSome_iff_exists]

theorem placed_release {r : ρ} (h : f r=some q) : placed keys (release f q)=(placed keys f).erase r := by
  ext k
  rw [mem_erase,mem_placed,mem_placed,release_apply]
  by_cases hk : f k=some q
  · have hkr : k=r := f.inj hk h
    subst hkr
    simp [h]
  · have hkr : k≠r := fun he => hk (he ▸ h)
    simp [hk,hkr]

omit [DecidableEq ρ] in
theorem placed_release_free (h : f.symm q=none) : placed keys (release f q)=placed keys f := by
  ext k
  have hk : f k≠some q := fun hk => by
    rw [f.eq_some_iff.mpr hk] at h
    cases h
  rw [mem_placed,mem_placed,release_apply,if_neg hk]

theorem card_release {r : ρ} (h : f r=some q) (hr : r∈keys) :
    (placed keys (release f q)).card+1=(placed keys f).card := by
  rw [placed_release h]
  exact card_erase_add_one (mem_placed.mpr ⟨hr,q,h⟩)

theorem placed_place {a : ρ} (ha : a∈keys) : placed keys (place f a q)=insert a (placed keys (release f q)) := by
  ext k
  rw [mem_insert,mem_placed,mem_placed]
  change (_ ∧ ∃ p,(if k=a then some q else if f k=some q then none else f k)=some p) ↔
    k=a ∨ (_ ∧ ∃ p,(if f k=some q then none else f k)=some p)
  by_cases hk : k=a
  · subst hk
    simp [ha]
  · simp [hk]

theorem card_relocate {a : ρ} (ha : a∈keys) (hkeys : ∀ r,f r=some q → r∈keys) :
    (placed keys (relocate f a q)).card+(if (f a).isSome ∧ (f.symm q).isSome then 1 else 0) =
      (placed keys f).card+if (f a).isSome=false ∧ (f.symm q).isSome=false then 1 else 0 := by
  have hfreed : (placed keys (release f q)).card+(if (f.symm q).isSome then 1 else 0) =
      (placed keys f).card := by
    cases hq : f.symm q with
    | none =>
      rw [placed_release_free hq]
      rfl
    | some r =>
      have hr:=f.eq_some_iff.mp hq
      exact card_release hr (hkeys r hr)
  unfold relocate
  by_cases hself : f a=some q
  · have hq : f.symm q=some a := f.eq_some_iff.mpr hself
    rw [if_pos hself]
    simp only [hself,hq,Option.isSome_some] at hfreed ⊢
    simpa using hfreed
  · rw [if_neg hself,placed_place ha]
    by_cases hmem : a∈placed keys (release f q)
    · have hsome : (f a).isSome=true := by
        obtain ⟨-,p,hp⟩:=mem_placed.mp hmem
        rw [release_apply,if_neg hself] at hp
        rw [hp]
        rfl
      rw [insert_eq_of_mem hmem]
      simp only [hsome,true_and,Bool.true_eq_false,false_and,if_false]
      exact hfreed
    · have hnone : (f a).isSome=false := by
        cases hfa : f a with
        | none => rfl
        | some p =>
          refine (hmem (mem_placed.mpr ⟨ha,p,?_⟩)).elim
          rw [release_apply,if_neg hself,hfa]
      rw [card_insert_of_notMem hmem]
      simp only [hnone,Bool.false_eq_true,false_and,if_false,true_and]
      cases hq : (f.symm q).isSome <;> simp only [hq] at hfreed ⊢ <;> simp at hfreed ⊢ <;> omega

omit [DecidableEq ρ] [DecidableEq κ] in
theorem card_placed_symm {slots : Finset κ} (hkeys : ∀ r q,f r=some q → r∈keys ∧ q∈slots) :
    (placed keys f).card=(placed slots f.symm).card := by
  have hsome : ∀ r∈placed keys f,(f r).isSome=true := fun r hr => (mem_filter.mp hr).2
  have hget : ∀ r hr,f r=some ((f r).get (hsome r hr)) := fun r hr => (Option.some_get _).symm
  refine card_bij (fun r hr => (f r).get (hsome r hr)) ?_ ?_ ?_
  · intro r hr
    exact mem_placed.mpr ⟨(hkeys r _ (hget r hr)).2,r,f.eq_some_iff.mpr (hget r hr)⟩
  · intro r hr r' hr' h
    have hr'':=hget r' hr'
    rw [← h] at hr''
    exact f.inj (hget r hr) hr''
  · intro q hq
    obtain ⟨-,r,hr⟩:=mem_placed.mp hq
    have hf:=f.eq_some_iff.mp hr
    exact ⟨r,mem_placed.mpr ⟨(hkeys r q hf).1,q,hf⟩,Option.get_of_eq_some _ hf⟩

end AquaGem5.Relocation
