import AquaGem5.Lib.Bits

/-!
# Parity equations whose masks have different lowest bits

An equation asks for the parity of the bits of a word under a mask. Where the lowest bits of the masks are all
different the other bits of the word determine them.
-/

namespace Bits
open List BitVec

variable {w : ℕ}

abbrev Equation (w : ℕ) := BitVec w × Bool

def lead (m : BitVec w) : ℕ := m.ctz.toNat

def Leads (eqs : List (Equation w)) (j : ℕ) : Prop := ∃ e∈eqs,lead e.1=j

def Solves (eqs : List (Equation w)) (a : BitVec w) : Prop := ∀ e∈eqs,parity (a &&& e.1)=e.2

structure Echelon (eqs : List (Equation w)) : Prop where
  nonzero : ∀ e∈eqs,e.1≠0#w
  sorted : eqs.Pairwise fun e e' => lead e.1<lead e'.1

variable {eqs eqs' : List (Equation w)} {e : Equation w} {a b : BitVec w} {m : BitVec w} {p : ℕ}

theorem Echelon.tail (h : Echelon (e::eqs)) : Echelon eqs :=
  ⟨fun e' he' => h.nonzero e' (mem_cons_of_mem _ he'),h.sorted.of_cons⟩

theorem Leads.cons {j : ℕ} (h : Leads eqs j) : Leads (e::eqs) j := by
  obtain ⟨e',he',hj⟩:=h
  exact ⟨e',mem_cons_of_mem _ he',hj⟩

theorem leads_cons {j : ℕ} : Leads (e::eqs) j ↔ j=lead e.1 ∨ Leads eqs j := by
  constructor
  · rintro ⟨e',he',rfl⟩
    rcases mem_cons.mp he' with rfl | he'
    · exact .inl rfl
    · exact .inr ⟨e',he',rfl⟩
  · rintro (rfl | h)
    · exact ⟨e,mem_cons_self,rfl⟩
    · exact h.cons

theorem and_eq_of_lt_lead (h : Agree (·=p) a b) (hp : p<lead m) : a &&& m=b &&& m := by
  apply eq_of_getLsbD_eq
  intro j _
  rw [getLsbD_and,getLsbD_and]
  by_cases hj : j=p
  · rw [hj,getLsbD_false_of_lt_ctz hp,Bool.and_false,Bool.and_false]
  · rw [h j hj]

theorem parity_lead (hm : m≠0#w) (h : Agree (·=lead m) a b) :
    (parity (a &&& m)=parity (b &&& m)) ↔ a.getLsbD (lead m)=b.getLsbD (lead m) := by
  have hbit : m.getLsbD (lead m)=true := getLsbD_ctz hm
  have hlt : lead m<w := lt_of_getLsbD hbit
  have hrest : (a &&& m) &&& ~~~(1#w <<< lead m)=(b &&& m) &&& ~~~(1#w <<< lead m) := by
    apply eq_of_getLsbD_eq
    intro j _
    rw [getLsbD_clear hlt,getLsbD_clear hlt,getLsbD_and,getLsbD_and]
    by_cases hj : j=lead m
    · simp [hj]
    · rw [h j hj]
  have hclear : ∀ v : BitVec w,∀ j,(v &&& ~~~(1#w <<< lead m)).getLsbD j=(v.getLsbD j&&decide (j≠lead m)) := by
    intro v j
    rw [getLsbD_clear hlt,decide_eq_decide.mpr (ne_comm (a := lead m) (b := j))]
  rw [parity_split (lead m) (hclear (a &&& m)),parity_split (lead m) (hclear (b &&& m)),hrest]
  simp only [getLsbD_and,hbit,Bool.and_true,Bool.xor_left_inj]

theorem exists_bit (hp : p<w) (a : BitVec w) (v : Bool) : ∃ b,Agree (·=p) b a ∧ b.getLsbD p=v := by
  cases v with
  | true =>
    refine ⟨a ||| 1#w <<< p,fun j hj => ?_,?_⟩
    · rw [getLsbD_set hp,decide_eq_false (Ne.symm hj),Bool.or_false]
    · rw [getLsbD_set hp,decide_eq_true rfl,Bool.or_true]
  | false =>
    refine ⟨a &&& ~~~(1#w <<< p),fun j hj => ?_,?_⟩
    · rw [getLsbD_clear hp,decide_eq_true (Ne.symm hj),Bool.and_true]
    · rw [getLsbD_clear hp,decide_eq_false (fun h => h rfl),Bool.and_false]

theorem Echelon.exists_solution (h : Echelon eqs) (a : BitVec w) : ∃ b,Agree (Leads eqs) b a ∧ Solves eqs b := by
  induction eqs with
  | nil => exact ⟨a,fun _ _ => rfl,fun e he => absurd he not_mem_nil⟩
  | cons e eqs ih =>
    obtain ⟨c,hagree,hsolves⟩:=ih h.tail
    have hne:=h.nonzero e mem_cons_self
    have hlt : lead e.1<w := lt_of_getLsbD (getLsbD_ctz hne)
    obtain ⟨b,hb,hbit⟩:=exists_bit hlt c (c.getLsbD (lead e.1) ^^ parity (c &&& e.1) ^^ e.2)
    refine ⟨b,?_,fun e' he' => ?_⟩
    · refine (hb.mono fun j hj => leads_cons.mpr (.inl hj)).trans (hagree.mono fun j hj => hj.cons)
    · rcases mem_cons.mp he' with rfl | he'
      · have hflip:=parity_lead hne hb
        rw [hbit] at hflip
        cases hc : c.getLsbD (lead e'.1) <;> cases hpar : parity (c &&& e'.1) <;>
          cases hv : e'.2 <;> simp_all
      · rw [and_eq_of_lt_lead hb (rel_of_pairwise_cons h.sorted he')]
        exact hsolves e' he'

theorem Echelon.unique (h : Echelon eqs) (hagree : Agree (Leads eqs) a b) (ha : Solves eqs a) (hb : Solves eqs b) :
    a=b := by
  induction eqs generalizing a b with
  | nil => exact hagree.eq fun j ⟨_,he,_⟩ => absurd he not_mem_nil
  | cons e eqs ih =>
    have hne:=h.nonzero e mem_cons_self
    have hlt : lead e.1<w := lt_of_getLsbD (getLsbD_ctz hne)
    -- with the lowest of all bits made equal the later equations settle the others
    obtain ⟨c,hc,hbit⟩:=exists_bit hlt a (b.getLsbD (lead e.1))
    have hcb : c=b := by
      refine ih h.tail (fun j hj => ?_) (fun e' he' => ?_) fun e' he' => hb e' (mem_cons_of_mem _ he')
      · by_cases hje : j=lead e.1
        · rw [hje,hbit]
        · rw [hc j hje,hagree j (mt leads_cons.mp (not_or.mpr ⟨hje,hj⟩))]
      · rw [and_eq_of_lt_lead hc (rel_of_pairwise_cons h.sorted he')]
        exact ha e' (mem_cons_of_mem _ he')
    subst hcb
    have hsame:=(parity_lead hne hc).mp ((hb e mem_cons_self).trans (ha e mem_cons_self).symm)
    exact (hc.eq fun j hj => by rw [hj,hsame]).symm

structure Distinct (eqs : List (Equation w)) : Prop where
  nonzero : ∀ e∈eqs,e.1≠0#w
  distinct : (eqs.map fun e => lead e.1).Nodup

theorem Distinct.exists_echelon (h : Distinct eqs) : ∃ eqs',eqs'.Perm eqs ∧ Echelon eqs' := by
  have hperm : (eqs.insertionSort fun e e' => lead e.1≤lead e'.1).Perm eqs := perm_insertionSort _ _
  have htotal : Std.Total fun e e' : Equation w => lead e.1≤lead e'.1 := ⟨fun _ _ => Nat.le_total _ _⟩
  have htrans : IsTrans (Equation w) fun e e' => lead e.1≤lead e'.1 := ⟨fun _ _ _ => Nat.le_trans⟩
  refine ⟨_,hperm,fun e he => h.nonzero e (hperm.mem_iff.mp he),?_⟩
  have hle:=pairwise_insertionSort (fun e e' : Equation w => lead e.1≤lead e'.1) eqs
  have hne:=pairwise_map.mp ((hperm.map fun e => lead e.1).nodup_iff.mpr h.distinct)
  exact (hle.and hne).imp fun hboth => Nat.lt_of_le_of_ne hboth.1 hboth.2

theorem leads_perm (h : eqs.Perm eqs') : Leads eqs=Leads eqs' := by
  funext j
  exact propext ⟨fun ⟨e,he,hj⟩ => ⟨e,h.mem_iff.mp he,hj⟩,fun ⟨e,he,hj⟩ => ⟨e,h.mem_iff.mpr he,hj⟩⟩

theorem solves_perm (h : eqs.Perm eqs') : Solves eqs a ↔ Solves eqs' a :=
  ⟨fun hs e he => hs e (h.mem_iff.mpr he),fun hs e he => hs e (h.mem_iff.mp he)⟩

theorem Distinct.existsUnique (h : Distinct eqs) (a : BitVec w) : ∃! b,Agree (Leads eqs) b a ∧ Solves eqs b := by
  obtain ⟨eqs',hperm,hech⟩:=h.exists_echelon
  simp only [← leads_perm hperm,← solves_perm hperm]
  obtain ⟨b,hb,hsolves⟩:=hech.exists_solution a
  refine ⟨b,⟨hb,hsolves⟩,fun c hc => ?_⟩
  exact hech.unique (hc.1.trans hb.symm) hc.2 hsolves

end Bits
