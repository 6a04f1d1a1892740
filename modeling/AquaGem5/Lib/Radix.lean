import Mathlib.Data.Finset.Prod

/-!
# Numbers written in a mixed radix

The digits of a number, the lowest first, each with its radix. How many numbers have their digits
in given sets is the product of the sizes of the sets.
-/

namespace Radix
open Finset

abbrev Place := ℕ × Finset ℕ

def DigitsIn : List Place → ℕ → Prop
  | [],_ => True
  | (radix,allowed)::rest,n => n%radix∈allowed ∧ DigitsIn rest (n/radix)

instance DigitsIn.decidable : ∀ (places : List Place) (n : ℕ),Decidable (DigitsIn places n)
  | [],_ => inferInstanceAs (Decidable True)
  | (radix,allowed)::rest,n =>
    have := DigitsIn.decidable rest (n/radix)
    inferInstanceAs (Decidable (n%radix∈allowed ∧ DigitsIn rest (n/radix)))

def radices (places : List Place) : ℕ := (places.map (·.1)).prod

def choices (places : List Place) : ℕ := (places.map fun place => place.2.card).prod

theorem card_step (radix bound : ℕ) (p q : ℕ → Prop) [DecidablePred p] [DecidablePred q] :
    ((Finset.range (radix*bound)).filter fun n => p (n%radix) ∧ q (n/radix)).card =
      ((Finset.range radix).filter p).card*((Finset.range bound).filter q).card := by
  rw [← card_product]
  symm
  apply card_nbij' (fun d => d.1+radix*d.2) fun n => (n%radix,n/radix)
  · rintro ⟨d,m⟩ hd
    simp only [coe_product,coe_filter,mem_range,Set.mem_prod,Set.mem_ofPred_eq] at hd
    obtain ⟨⟨hlt,hp⟩,hbound,hq⟩:=hd
    simp only [coe_filter,mem_range,Set.mem_ofPred_eq]
    rw [Nat.add_mul_mod_self_left,Nat.mod_eq_of_lt hlt,Nat.add_mul_div_left _ _ (Nat.zero_lt_of_lt hlt),
      Nat.div_eq_of_lt hlt,Nat.zero_add]
    refine ⟨?_,hp,hq⟩
    calc d+radix*m<radix*(m+1) := by rw [Nat.mul_succ]; omega
      _≤radix*bound := Nat.mul_le_mul_left _ hbound
  · intro n hn
    simp only [coe_filter,mem_range,Set.mem_ofPred_eq] at hn
    obtain ⟨hlt,hp,hq⟩:=hn
    have hpos : 0<radix := Nat.pos_of_mul_pos_right (Nat.zero_lt_of_lt hlt)
    simp only [coe_product,coe_filter,mem_range,Set.mem_prod,Set.mem_ofPred_eq]
    exact ⟨⟨Nat.mod_lt _ hpos,hp⟩,Nat.div_lt_of_lt_mul hlt,hq⟩
  · rintro ⟨d,m⟩ hd
    simp only [coe_product,coe_filter,mem_range,Set.mem_prod,Set.mem_ofPred_eq] at hd
    have hlt:=hd.1.1
    simp only [Nat.add_mul_mod_self_left,Nat.mod_eq_of_lt hlt,Nat.add_mul_div_left _ _ (Nat.zero_lt_of_lt hlt),
      Nat.div_eq_of_lt hlt,Nat.zero_add]
  · intro n _
    exact Nat.mod_add_div n radix

theorem card_digitsIn (places : List Place) (h : ∀ place∈places,place.2 ⊆ Finset.range place.1) :
    ((Finset.range (radices places)).filter (DigitsIn places)).card=choices places := by
  induction places with
  | nil => rfl
  | cons place rest ih =>
    obtain ⟨radix,allowed⟩:=place
    have hallowed : (range radix).filter (·∈allowed)=allowed := by
      ext d
      rw [mem_filter]
      exact ⟨And.right,fun hd => ⟨h _ List.mem_cons_self hd,hd⟩⟩
    have hrest:=ih fun place hplace => h place (List.mem_cons_of_mem _ hplace)
    have hstep:=card_step radix (radices rest) (·∈allowed) (DigitsIn rest)
    rw [hallowed,hrest] at hstep
    exact hstep

end Radix
