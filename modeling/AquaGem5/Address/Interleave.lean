import AquaGem5.Address.AddrRange
import Mathlib.Data.List.Pairwise

/-!
# Removing the interleaving bits and adding them again (addr_range.hh)
-/

namespace AquaGem5.Address
open Bits List Nat
namespace AddrRange

variable {r : AddrRange} {a b x y z : Addr} {ps : List ℕ} {ms : List Addr} {i p : ℕ}

theorem removeBit_ok (h : i<p ∨ p=0) (a : Addr) :
    ∃ y,removeBit i p a = .ok y ∧ ∀ k,y.getLsbD k=if k+i<p then a.getLsbD k else a.getLsbD (k+1) := by
  rcases Nat.eq_zero_or_pos p with rfl | hpos
  · refine ⟨a >>> 1,rfl,fun k => ?_⟩
    rw [BitVec.getLsbD_ushiftRight,if_neg (not_lt_zero _),add_comm]
  · obtain ⟨y,hy,hbits⟩:=insertBits_low (a >>> 1) a (show 0≤(p : ℤ)-i-1 by omega)
    refine ⟨y,by rw [removeBit,if_pos hpos,hy],fun k => ?_⟩
    rw [hbits,BitVec.getLsbD_ushiftRight,add_comm 1 k]
    exact if_congr (by omega) rfl rfl

theorem removeBit_fault (hpos : 0<p) (h : p ≤ i) (a : Addr) : removeBit i p a = .error .assertion := by
  rw [removeBit,if_pos hpos,insertBits,if_neg (by omega)]

theorem addBit_ok (h : 0<p ∨ i=0) (a : Addr) : ∃ z,addBit i p a = .ok z ∧
      ∀ j<64,z.getLsbD j=if j<p+i then a.getLsbD j else decide (0<j)&&a.getLsbD (j-1) := by
  have hshift : ∀ j<64,(a <<< 1).getLsbD j=(decide (0<j)&&a.getLsbD (j-1)) := by
    intro j hj
    rw [BitVec.getLsbD_shiftLeft]
    rcases Nat.eq_zero_or_pos j with rfl | hj0
    · simp
    · have hnot : ¬j<1 := by omega
      simp [hj,hj0,hnot]
  rcases Nat.eq_zero_or_pos p with rfl | hpos
  · refine ⟨a <<< 1,rfl,fun j hj => ?_⟩
    rw [hshift j hj,if_neg (by omega)]
  · obtain ⟨z,hz,hbits⟩:=insertBits_low (a <<< 1) a (show 0≤(p : ℤ)+i-1 by omega)
    refine ⟨z,by rw [addBit,if_pos hpos,hz],fun j hj => ?_⟩
    rw [hbits,hshift j hj]
    exact if_congr (by omega) rfl rfl

theorem addLoop_agree {Q : ℕ → Prop} (ps : List ℕ) (i : ℕ) (hlow : ∀ q,Q q → ∀ p∈ps,q+1<p+i) (hpos : ∀ p∈ps,0<p)
    (h : Agree Q a b) : ∃ a' b',addLoop i ps a = .ok a' ∧ addLoop i ps b = .ok b' ∧ Agree Q a' b' := by
  induction ps generalizing i a b with
  | nil => exact ⟨a,b,rfl,rfl,h⟩
  | cons p ps ih =>
    have hp:=hpos p mem_cons_self
    obtain ⟨a1,ha,habits⟩:=addBit_ok (i := i) (.inl hp) a
    obtain ⟨b1,hb,hbbits⟩:=addBit_ok (i := i) (.inl hp) b
    have hagree : Agree Q a1 b1 := by
      intro j hj
      by_cases hj64 : j<64
      · rw [habits j hj64,hbbits j hj64]
        split_ifs with hlt
        · exact h j hj
        · rw [h (j-1) fun hq => by
            have := hlow (j-1) hq p mem_cons_self
            omega]
      · rw [BitVec.getLsbD_of_ge a1 j (by omega),BitVec.getLsbD_of_ge b1 j (by omega)]
    have htail : ∀ q,Q q → ∀ p∈ps,q+1<p+(i+1) := fun q hq p hp => by
      have := hlow q hq p (mem_cons_of_mem _ hp)
      omega
    obtain ⟨a',b',ha',hb',h'⟩:=ih (i+1) htail (fun p hp => hpos p (mem_cons_of_mem _ hp)) hagree
    refine ⟨a',b',?_,?_,h'⟩
    · rw [addLoop,ha]
      exact ha'
    · rw [addLoop,hb]
      exact hb'

structure Inverse (ps : List ℕ) : Prop where
  remove_ok : ∀ a,∃ y,removeLoop 0 ps a = .ok y ∧ y.toNat<2^(64-ps.length)
  add_ok : ∀ x,∃ z,addLoop 0 ps x = .ok z
  add_remove : ∀ a y z,removeLoop 0 ps a = .ok y → addLoop 0 ps y = .ok z → Agree (·∈ps) z a
  remove_add : ∀ x z a,x.toNat<2^(64-ps.length) → addLoop 0 ps x = .ok z → Agree (·∈ps) a z →
    removeLoop 0 ps a = .ok x

theorem getLsbD_of_lt {n : ℕ} (h : x.toNat<2^n) {j : ℕ} (hj : n≤j) : x.getLsbD j=false := by
  rw [← BitVec.testBit_toNat]
  exact Nat.testBit_lt_two_pow (h.trans_le (Nat.pow_le_pow_right (by decide) hj))

theorem toNat_lt_of_bits {n : ℕ} (h : ∀ j,n≤j → x.getLsbD j=false) : x.toNat<2^n := by
  apply lt_pow_two_of_testBit
  intro j hj
  rw [BitVec.testBit_toNat]
  exact h j hj

theorem inverse_single (hp : p<64) : Inverse [p] := by
  have hremove:=fun a => removeBit_ok (i := 0) (p := p) (by omega) a
  have hadd:=fun a => addBit_ok (i := 0) (p := p) (.inr rfl) a
  have hrl : ∀ a,removeLoop 0 [p] a=removeBit 0 p a := fun a => by
    rw [removeLoop]
    cases removeBit 0 p a <;> rfl
  have hal : ∀ a,addLoop 0 [p] a=addBit 0 p a := fun a => by
    rw [addLoop]
    cases addBit 0 p a <;> rfl
  constructor
  · intro a
    obtain ⟨y,hy,hbits⟩:=hremove a
    refine ⟨y,by rw [hrl,hy],toNat_lt_of_bits fun j hj => ?_⟩
    simp only [length_singleton] at hj
    rw [hbits,if_neg (by omega)]
    exact BitVec.getLsbD_of_ge a _ (by omega)
  · intro x
    obtain ⟨z,hz,_⟩:=hadd x
    exact ⟨z,by rw [hal,hz]⟩
  · intro a y z hy hz j hj
    obtain ⟨y',hy',hybits⟩:=hremove a
    obtain ⟨z',hz',hzbits⟩:=hadd y
    rw [hrl,hy'] at hy
    rw [hal,hz'] at hz
    cases hy
    cases hz
    have hjp : j≠p := by simpa using hj
    by_cases hj64 : j<64
    · rw [hzbits j hj64]
      split_ifs with hlt
      · rw [hybits,if_pos (by omega)]
      · rw [hybits,if_neg (by omega),Nat.sub_add_cancel (by omega)]
        simp [show 0<j by omega]
    · rw [BitVec.getLsbD_of_ge _ j (by omega),BitVec.getLsbD_of_ge _ j (by omega)]
  · intro x z a hx hz hagree
    obtain ⟨y',hy',hybits⟩:=hremove a
    obtain ⟨z',hz',hzbits⟩:=hadd x
    rw [hal,hz'] at hz
    cases hz
    rw [hrl,hy']
    congr 1
    apply BitVec.eq_of_getLsbD_eq
    intro k hk
    rw [hybits]
    split_ifs with hlt
    · rw [hagree k (by simp; omega),hzbits k hk,if_pos (by omega)]
    · rw [hagree (k+1) (by simp; omega)]
      by_cases hk1 : k+1<64
      · rw [hzbits _ hk1,if_neg (by omega)]
        simp
      · rw [BitVec.getLsbD_of_ge _ _ (by omega)]
        exact (getLsbD_of_lt hx (by simp; omega)).symm

theorem inverse_pair {q : ℕ} (hpq : p<q) (hq2 : 2≤q) (hq : q<64) : Inverse [p,q] := by
  have hremove : ∀ a,∃ y,removeLoop 0 [p,q] a = .ok y ∧ ∀ k,y.getLsbD k =
      if k<p then a.getLsbD k else if k+1<q then a.getLsbD (k+1) else a.getLsbD (k+2) := by
    intro a
    obtain ⟨y1,hy1,hbits1⟩:=removeBit_ok (i := 0) (p := p) (by omega) a
    obtain ⟨y,hy,hbits⟩:=removeBit_ok (i := 1) (p := q) (.inl (by omega)) y1
    refine ⟨y,?_,fun k => ?_⟩
    · rw [removeLoop,hy1]
      change removeLoop 1 [q] y1=_
      rw [removeLoop,hy]
      rfl
    · rw [hbits,hbits1,hbits1]
      split_ifs <;> first | rfl | omega
  have hadd : ∀ x,∃ z,addLoop 0 [p,q] x = .ok z ∧ ∀ j<64,z.getLsbD j =
      if j<p then x.getLsbD j
      else if j≤q then decide (0<j)&&x.getLsbD (j-1)
      else x.getLsbD (j-2) := by
    intro x
    obtain ⟨z1,hz1,hbits1⟩:=addBit_ok (i := 0) (p := p) (.inr rfl) x
    obtain ⟨z,hz,hbits⟩:=addBit_ok (i := 1) (p := q) (.inl (by omega)) z1
    refine ⟨z,?_,fun j hj => ?_⟩
    · rw [addLoop,hz1]
      change addLoop 1 [q] z1=_
      rw [addLoop,hz]
      rfl
    · rw [hbits j hj]
      split_ifs with h₁ h2 h3 h3 h3
      · rw [hbits1 j hj,if_pos (by omega)]
      · rw [hbits1 j hj,if_neg (by omega)]
      · omega
      · omega
      · omega
      · rw [hbits1 (j-1) (by omega),if_neg (by omega),show j-1-1=j-2 by omega]
        simp [show 0<j by omega,show 0<j-1 by omega]
  constructor
  · intro a
    obtain ⟨y,hy,hbits⟩:=hremove a
    refine ⟨y,hy,toNat_lt_of_bits fun j hj => ?_⟩
    simp only [length_cons,length_nil] at hj
    rw [hbits,if_neg (by omega),if_neg (by omega)]
    exact BitVec.getLsbD_of_ge a _ (by omega)
  · intro x
    obtain ⟨z,hz,_⟩:=hadd x
    exact ⟨z,hz⟩
  · intro a y z hy hz j hj
    obtain ⟨y',hy',hybits⟩:=hremove a
    obtain ⟨z',hz',hzbits⟩:=hadd y
    cases hy'.symm.trans hy
    cases hz'.symm.trans hz
    have hjp : j≠p ∧ j≠q := by simpa using hj
    by_cases hj64 : j<64
    · rw [hzbits j hj64]
      split_ifs with h₁ h2
      · rw [hybits,if_pos h₁]
      · rw [hybits,if_neg (by omega),if_pos (by omega),Nat.sub_add_cancel (by omega)]
        simp [show 0<j by omega]
      · rw [hybits,if_neg (by omega),if_neg (by omega),Nat.sub_add_cancel (by omega)]
    · rw [BitVec.getLsbD_of_ge _ j (by omega),BitVec.getLsbD_of_ge _ j (by omega)]
  · intro x z a hx hz hagree
    obtain ⟨y',hy',hybits⟩:=hremove a
    obtain ⟨z',hz',hzbits⟩:=hadd x
    cases hz'.symm.trans hz
    rw [hy']
    congr 1
    apply BitVec.eq_of_getLsbD_eq
    intro k hk
    have hbeyond : ∀ j,64≤j+2 → x.getLsbD j=false := fun j hj =>
      getLsbD_of_lt hx (by simp; omega)
    rw [hybits]
    split_ifs with h₁ h2
    · rw [hagree k (by simp; omega),hzbits k hk,if_pos h₁]
    · rw [hagree (k+1) (by simp; omega),hzbits _ (by omega),if_neg (by omega),if_pos (by omega)]
      simp
    · rw [hagree (k+2) (by simp; omega)]
      by_cases hk2 : k+2<64
      · rw [hzbits _ hk2,if_neg (by omega),if_neg (by omega)]
        rfl
      · rw [BitVec.getLsbD_of_ge _ _ (by omega),hbeyond k (by omega)]

theorem addLoop_loses {q t : ℕ} {rest : List ℕ} (hsorted : (p::q::t::rest).Pairwise (·<·)) (ht : t<64) :
    ∃ z z',addLoop 0 (p::q::t::rest) (BitVec.twoPow 64 (t-2)) = .ok z ∧
      addLoop 0 (p::q::t::rest) 0#64 = .ok z' ∧ Agree (fun j => j=q ∨ j=t) z z' := by
  simp only [pairwise_cons,mem_cons,forall_eq_or_imp] at hsorted
  obtain ⟨⟨hpq,hpt,_⟩,⟨hqt,_⟩,hrest,_⟩:=hsorted
  have hstep : ∀ {Q : ℕ → Prop} (Q' : ℕ → Prop) {a b i p},(0<p ∨ i=0) → Agree Q a b →
      (∀ j<64,(if j<p+i then Q j else 0<j ∧ Q (j-1)) → Q' j) →
      ∃ a' b',addBit i p a = .ok a' ∧ addBit i p b = .ok b' ∧ Agree Q' a' b' := by
    intro Q Q' a b i p hp h hQ
    obtain ⟨a',ha,habits⟩:=addBit_ok hp a
    obtain ⟨b',hb,hbbits⟩:=addBit_ok hp b
    refine ⟨a',b',ha,hb,fun j hj => ?_⟩
    by_cases hj64 : j<64
    · have hnot:=mt (hQ j hj64) hj
      rw [habits j hj64,hbbits j hj64]
      split_ifs at hnot ⊢ with hlt
      · exact h j hnot
      · by_cases hj0 : 0<j
        · rw [h (j-1) fun hq => hnot ⟨hj0,hq⟩]
        · simp [hj0]
    · rw [BitVec.getLsbD_of_ge a' j (by omega),BitVec.getLsbD_of_ge b' j (by omega)]
  have hstart : Agree (·=t-2) (BitVec.twoPow 64 (t-2)) 0#64 := by
    intro j hj
    rw [BitVec.getLsbD_twoPow]
    simp [show ¬t-2=j from fun h => hj h.symm]
  obtain ⟨a1,b1,ha1,hb1,h₁⟩:=hstep (·=t-1) (.inr rfl) hstart (i := 0) (p := p) (by
    intro j _ hj
    split_ifs at hj <;> omega)
  obtain ⟨a2,b2,ha2,hb2,h2⟩:=hstep (fun j => j=q ∨ j=t) (.inl (by omega)) h₁ (i := 1) (p := q) (by
    intro j _ hj
    split_ifs at hj <;> omega)
  obtain ⟨a3,b3,ha3,hb3,h3⟩:=hstep (fun j => j=q ∨ j=t) (.inl (by omega)) h2 (i := 2) (p := t) (by
    intro j _ hj
    split_ifs at hj <;> omega)
  obtain ⟨z,z',hz,hz',hagree⟩:=addLoop_agree rest 3
    (fun q' hq' p' hp' => by have := hrest p' hp'; omega) (fun p' hp' => by have := hrest p' hp'; omega) h3
  refine ⟨z,z',?_,?_,hagree⟩
  · rw [addLoop,ha1]
    change addLoop 1 (q::t::rest) a1=_
    rw [addLoop,ha2]
    change addLoop 2 (t::rest) a2=_
    rw [addLoop,ha3]
    exact hz
  · rw [addLoop,hb1]
    change addLoop 1 (q::t::rest) b1=_
    rw [addLoop,hb2]
    change addLoop 2 (t::rest) b2=_
    rw [addLoop,hb3]
    exact hz'

variable {intlvMatch : BitVec 8} {m : Addr}

def partners (m a : Addr) : Addr := a &&& m &&& (~~~(1#32 <<< ctz64 m)).signExtend 64

theorem getLsbD_partners (hlsb : ctz64 m<32) (a : Addr) (j : ℕ) :
    (partners m a).getLsbD j=(a.getLsbD j&&m.getLsbD j&&decide (ctz64 m<31 ∧ j≠ctz64 m)) := by
  obtain ⟨k,hk,hbits⟩:=clearMask_ok hlsb
  rw [clearMask,if_pos hlsb] at hk
  cases hk
  simp only [partners,BitVec.getLsbD_and]
  by_cases hj : j<64
  · rw [hbits j hj]
    cases hm : m.getLsbD j with
    | false => simp
    | true =>
      have hle : ctz64 m≤j := ctz_le hm
      congr 1
      exact decide_eq_decide.mpr (by split_ifs <;> omega)
  · rw [BitVec.getLsbD_of_ge a j (by omega)]
    rfl

theorem fixBit_ok (intlvMatch : BitVec 8) (hi : i<32) (hlsb : ctz64 m<32) (a : Addr) :
    ∃ a',fixBit intlvMatch i m a = .ok a' ∧ ∀ j,a'.getLsbD j =
      if j=ctz64 m then intlvMatch.getLsbD i ^^ parity (partners m a) else a.getLsbD j := by
  obtain ⟨b,hb,hb0⟩:=bits8_ok intlvMatch hi
  obtain ⟨a',ha',hbits⟩:=insertBits_at a (b ^^^ BitVec.ofNat 64 (popCount (partners m a)))
    (show ctz64 m<64 by omega)
  refine ⟨a',?_,fun j => ?_⟩
  · simp only [fixBit,hb,clearMask,if_pos hlsb]
    exact ha'
  · rw [hbits,BitVec.getLsbD_xor,hb0,BitVec.getLsbD_ofNat,testBit_popCount]
    rfl

theorem fixBit_fault (h : ¬(i<32 ∧ ctz64 m<32)) (a : Addr) : fixBit intlvMatch i m a = .error .shift := by
  by_cases hi : i<32
  · have hlsb : ¬ctz64 m<32 := fun hlsb => h ⟨hi,hlsb⟩
    simp only [fixBit,bits8,clearMask,if_pos hi,if_neg hlsb]
    rfl
  · simp only [fixBit,bits8,if_neg hi]
    rfl

def IsLsb (ms : List Addr) (j : ℕ) : Prop := ∃ m∈ms,ctz64 m=j

/-- The masks of a range are sets of bits, pairwise disjoint. -/
structure Separate (ms : List Addr) : Prop where
  nonempty : ∀ m∈ms,m≠0#64
  disjoint : ms.Pairwise fun m m' => m &&& m'=0#64

theorem Separate.tail (h : Separate (m::ms)) : Separate ms :=
  ⟨fun m' hm' => h.nonempty m' (mem_cons_of_mem _ hm'),h.disjoint.of_cons⟩

theorem lsb_mem (h : m≠0#64) : m.getLsbD (ctz64 m)=true := getLsbD_ctz h

theorem Separate.not_isLsb (h : Separate (m::ms)) {j : ℕ} (hj : m.getLsbD j=true) : ¬IsLsb ms j := by
  rintro ⟨m',hm',rfl⟩
  have hfalse:=not_both (rel_of_pairwise_cons h.disjoint hm') hj
  rw [lsb_mem (h.nonempty m' (mem_cons_of_mem _ hm'))] at hfalse
  exact Bool.false_ne_true hfalse.symm

theorem Separate.isLsb_iff (h : Separate ms) (hm : m∈ms) {j : ℕ} (hj : m.getLsbD j=true) :
    IsLsb ms j ↔ j=ctz64 m := by
  constructor
  · rintro ⟨m',hm',rfl⟩
    by_contra hne
    have hmm : m≠m' := fun heq => hne (by rw [heq])
    have hsymm : Std.Symm fun m m' : Addr => m &&& m'=0#64 := ⟨fun a b hab => by rw [BitVec.and_comm,hab]⟩
    have hzero : m &&& m'=0#64 := h.disjoint.forall hm hm' hmm
    have hfalse:=not_both hzero hj
    rw [lsb_mem (h.nonempty m' hm')] at hfalse
    exact Bool.false_ne_true hfalse.symm
  · rintro rfl
    exact ⟨m,hm,rfl⟩

theorem partners_agree (hsep : Separate (m::ms)) (hlsb : ctz64 m<32) (h : Agree (IsLsb (m::ms)) a b) :
    partners m a=partners m b := by
  apply BitVec.eq_of_getLsbD_eq
  intro j _
  rw [getLsbD_partners hlsb,getLsbD_partners hlsb]
  cases hm : m.getLsbD j with
  | false => simp
  | true =>
    by_cases hj : j=ctz64 m
    · simp [hj]
    · rw [h j (mt (hsep.isLsb_iff mem_cons_self hm).mp hj)]

theorem fixLoop_congr (hsep : Separate ms) (h : Agree (IsLsb ms) a b) :
    fixLoop intlvMatch i ms a=fixLoop intlvMatch i ms b := by
  induction ms generalizing i a b with
  | nil =>
    have heq : a=b := h.eq fun j ⟨_,hm,_⟩ => absurd hm not_mem_nil
    rw [heq]
  | cons m ms ih =>
    by_cases hok : i<32 ∧ ctz64 m<32
    · obtain ⟨a',ha,habits⟩:=fixBit_ok intlvMatch hok.1 hok.2 a
      obtain ⟨b',hb,hbbits⟩:=fixBit_ok intlvMatch hok.1 hok.2 b
      rw [fixLoop,fixLoop,ha,hb]
      refine ih hsep.tail fun j hj => ?_
      rw [habits,hbbits,partners_agree hsep hok.2 h]
      split_ifs with hjm
      · rfl
      · refine h j fun ⟨m',hm',hlsb⟩ => ?_
        rcases mem_cons.mp hm' with rfl | hm'
        · exact hjm hlsb.symm
        · exact hj ⟨m',hm',hlsb⟩
    · rw [fixLoop,fixLoop,fixBit_fault hok,fixBit_fault hok]

def without (p : ℕ) (v : Addr) : Addr := v &&& ~~~BitVec.twoPow 64 p

theorem getLsbD_without (v : Addr) (p j : ℕ) : (without p v).getLsbD j=(v.getLsbD j&&decide (j≠p)) := by
  rw [without,BitVec.getLsbD_and,BitVec.getLsbD_not,BitVec.getLsbD_twoPow]
  by_cases hj : j<64
  · by_cases hjp : j=p
    · have : p<64 := by omega
      simp [hjp,this]
    · simp [hj,hjp,Ne.symm hjp]
  · rw [BitVec.getLsbD_of_ge v j (by omega)]
    rfl

def missed (m a : Addr) : Bool := decide (ctz64 m=31)&&parity (without (ctz64 m) (a &&& m))

theorem parity_partners (hlsb : ctz64 m<32) (a : Addr) :
    (parity (partners m a) ^^ parity (without (ctz64 m) (a &&& m)))=missed m a := by
  by_cases h31 : ctz64 m=31
  · have hzero : partners m a=0#64 := by
      apply BitVec.eq_of_getLsbD_eq
      intro j _
      rw [getLsbD_partners hlsb]
      simp [h31]
    rw [hzero,parity_zero,Bool.false_xor,missed,h31]
    rfl
  · have heq : partners m a=without (ctz64 m) (a &&& m) := by
      apply BitVec.eq_of_getLsbD_eq
      intro j _
      rw [getLsbD_partners hlsb,getLsbD_without,BitVec.getLsbD_and]
      simp [show ctz64 m<31 by omega]
    rw [heq,Bool.xor_self,missed]
    simp [h31]

theorem and_eq_of_agree {Q : ℕ → Prop} (h : Agree Q a b) (hQ : ∀ j,Q j → m.getLsbD j=false) : a &&& m=b &&& m := by
  apply BitVec.eq_of_getLsbD_eq
  intro j _
  rw [BitVec.getLsbD_and,BitVec.getLsbD_and]
  by_cases hj : Q j
  · rw [hQ j hj,Bool.and_false,Bool.and_false]
  · rw [h j hj]

theorem fixLoop_ok (intlvMatch : BitVec 8) (hsep : Separate ms) (hlsb : ∀ m∈ms,ctz64 m<32) (hi : i+ms.length≤32) (a : Addr) :
    ∃ a',fixLoop intlvMatch i ms a = .ok a' ∧ Agree (IsLsb ms) a' a ∧
      ∀ k m,ms[k]?=some m → parity (a' &&& m)=(intlvMatch.getLsbD (i+k) ^^ missed m a) := by
  induction ms generalizing i a with
  | nil => exact ⟨a,rfl,fun _ _ => rfl,fun k m hk => by simp at hk⟩
  | cons m ms ih =>
    have hm:=hlsb m mem_cons_self
    simp only [length_cons] at hi
    obtain ⟨a1,h₁,hbits1⟩:=fixBit_ok intlvMatch (show i<32 by omega) hm a
    obtain ⟨a',h',hagree,hpar⟩:=ih hsep.tail (fun m' hm' => hlsb m' (mem_cons_of_mem _ hm'))
      (i := i+1) (by omega) a1
    have hstep : Agree (·=ctz64 m) a1 a := fun j hj => by rw [hbits1,if_neg hj]
    refine ⟨a',by rw [fixLoop,h₁]; exact h',?_,fun k m' hk => ?_⟩
    · refine (hagree.mono fun j ⟨m',hm',hj⟩ => ⟨m',mem_cons_of_mem _ hm',hj⟩).trans ?_
      exact hstep.mono fun j hj => ⟨m,mem_cons_self,hj.symm⟩
    · cases k with
      | zero =>
        cases hk
        have hmask : a' &&& m=a1 &&& m := and_eq_of_agree hagree fun j hj => by
          by_contra hmj
          exact hsep.not_isLsb (Bool.eq_true_of_not_eq_false hmj) hj
        have hrest : without (ctz64 m) (a1 &&& m)=without (ctz64 m) (a &&& m) := by
          apply BitVec.eq_of_getLsbD_eq
          intro j _
          rw [getLsbD_without,getLsbD_without,BitVec.getLsbD_and,BitVec.getLsbD_and]
          by_cases hj : j=ctz64 m
          · simp [hj]
          · rw [hstep j hj]
        have hown : (a1 &&& m).getLsbD (ctz64 m)=(intlvMatch.getLsbD i ^^ parity (partners m a)) := by
          rw [BitVec.getLsbD_and,lsb_mem (hsep.nonempty m mem_cons_self),Bool.and_true,hbits1,if_pos rfl]
        rw [hmask,parity_split (ctz64 m) (getLsbD_without _ _),hown,hrest,Bool.xor_assoc,parity_partners hm]
        rfl
      | succ k =>
        have hmem : m'∈ms := mem_of_getElem? hk
        have hmiss : missed m' a1=missed m' a := by
          have hmask : a1 &&& m'=a &&& m' := and_eq_of_agree hstep fun j hj => by
            rw [hj]
            exact not_both (rel_of_pairwise_cons hsep.disjoint hmem) (lsb_mem (hsep.nonempty m mem_cons_self))
          rw [missed,missed,hmask]
        rw [hpar k m' hk,hmiss,show i+1+k=i+(k+1) by omega]

theorem lsb_lt_of_fixLoop (h : fixLoop intlvMatch i ms a = .ok b) : ∀ m∈ms,ctz64 m<32 := by
  induction ms generalizing i a with
  | nil => exact fun m hm => absurd hm not_mem_nil
  | cons m ms ih =>
    intro m' hm'
    by_cases hok : i<32 ∧ ctz64 m<32
    · obtain ⟨a1,h₁,_⟩:=fixBit_ok intlvMatch hok.1 hok.2 a
      rw [fixLoop,h₁] at h
      rcases mem_cons.mp hm' with rfl | hm'
      · exact hok.2
      · exact ih h m' hm'
    · rw [fixLoop,fixBit_fault hok] at h
      cases h

theorem eq_of_parity (hsep : Separate ms) (h : Agree (IsLsb ms) a b)
    (hpar : ∀ m∈ms,parity (a &&& m)=parity (b &&& m)) : a=b := by
  refine h.eq fun j ⟨m,hm,hj⟩ => ?_
  subst hj
  have hrest : without (ctz64 m) (a &&& m)=without (ctz64 m) (b &&& m) := by
    apply BitVec.eq_of_getLsbD_eq
    intro j _
    rw [getLsbD_without,getLsbD_without,BitVec.getLsbD_and,BitVec.getLsbD_and]
    cases hmj : m.getLsbD j with
    | false => simp
    | true =>
      by_cases hj : j=ctz64 m
      · simp [hj]
      · rw [h j (mt (hsep.isLsb_iff hm hmj).mp hj)]
  have hboth:=hpar m hm
  rw [parity_split (ctz64 m) (getLsbD_without (a &&& m) _),
    parity_split (ctz64 m) (getLsbD_without (b &&& m) _),hrest] at hboth
  have hbit:=Bool.xor_left_inj.mp hboth
  simpa only [BitVec.getLsbD_and,lsb_mem (hsep.nonempty m hm),Bool.and_true] using hbit

theorem selLoop_ok (a : Addr) (hi : i+ms.length≤32) (s : BitVec 32) :
    ∃ s',selLoop a i ms s = .ok s' ∧ ∀ j,s'.getLsbD j =
      (s.getLsbD j || (decide (i≤j)&&ms[j-i]?.elim false fun m => parity (a &&& m))) := by
  induction ms generalizing i s with
  | nil => exact ⟨s,rfl,fun j => by simp⟩
  | cons m ms ih =>
    simp only [length_cons] at hi
    obtain ⟨s',hs',hbits⟩:=ih (i := i+1) (by omega)
      (s ||| BitVec.ofNat 32 (popCount (a &&& m)%2) <<< i)
    refine ⟨s',by rw [selLoop,if_pos (by omega)]; exact hs',fun j => ?_⟩
    have hown : (BitVec.ofNat 32 (popCount (a &&& m)%2) <<< i).getLsbD j =
        (decide (j=i)&&parity (a &&& m)) := by
      rw [BitVec.getLsbD_shiftLeft,BitVec.getLsbD_ofNat]
      rcases lt_trichotomy j i with hlt | rfl | hlt
      · simp [hlt,show j≠i by omega]
      · rw [Nat.sub_self,Nat.testBit_zero]
        simp [parity,show j<32 by omega]
      · have hzero : (popCount (a &&& m)%2).testBit (j-i)=false := by
          apply Nat.testBit_lt_two_pow
          have := mod_lt (popCount (a &&& m)) (show 0<2 by decide)
          have := Nat.pow_le_pow_right (show 0<2 by decide) (show 1≤j-i by omega)
          omega
        simp [hzero,show j≠i by omega]
    rw [hbits,BitVec.getLsbD_or,hown]
    rcases lt_trichotomy j i with hlt | rfl | hlt
    · simp [show j≠i by omega,show ¬i≤j by omega,show ¬i+1≤j by omega]
    · simp
    · obtain ⟨k,rfl⟩ : ∃ k,j=i+1+k := ⟨j-(i+1),by omega⟩
      have hidx : i+1+k-i=k+1 := by omega
      simp [hidx,show ¬i+1+k=i by omega,show i ≤ i+1+k by omega]

theorem sel_eq_iff (hlen : r.masks.length≤32) (hmatch : r.intlvMatch.toNat<2^r.masks.length) :
    r.sel a = .ok (r.intlvMatch.setWidth 32) ↔
      ∀ k m,r.masks[k]?=some m → parity (a &&& m)=r.intlvMatch.getLsbD k := by
  obtain ⟨s,hs,hbits⟩:=selLoop_ok a (show 0+r.masks.length≤32 by omega) 0#32
  rw [sel,hs]
  constructor
  · intro h k m hk
    have hlt : k<r.masks.length := (List.getElem?_eq_some_iff.mp hk).1
    have hbit:=hbits k
    rw [Except.ok.inj h,Nat.sub_zero,hk] at hbit
    simpa [show k<32 by omega] using hbit.symm
  · intro h
    congr 1
    apply BitVec.eq_of_getLsbD_eq
    intro j hj
    rw [hbits,Nat.sub_zero,BitVec.getLsbD_setWidth]
    cases hk : r.masks[j]? with
    | none =>
      have hge : r.masks.length≤j := getElem?_eq_none_iff.mp hk
      have hzero : r.intlvMatch.getLsbD j=false := by
        rw [← BitVec.testBit_toNat]
        exact Nat.testBit_lt_two_pow (hmatch.trans_le (Nat.pow_le_pow_right (by decide) hge))
      simp [hzero]
    | some m =>
      rw [← h j m hk]
      simp [hj]

theorem masksLsb_length (r : AddrRange) : r.masksLsb.length=r.masks.length := by
  rw [masksLsb,length_insertionSort,length_map]

theorem mem_masksLsb {j : ℕ} : j∈r.masksLsb ↔ IsLsb r.masks j := by
  rw [masksLsb,mem_insertionSort,mem_map]
  rfl

theorem masksLsb_sorted (hsep : Separate r.masks) : r.masksLsb.Pairwise (·<·) := by
  have hnodup : r.masksLsb.Nodup := by
    rw [masksLsb,(perm_insertionSort (·≤·) _).nodup_iff]
    refine pairwise_map.mpr (hsep.disjoint.imp_of_mem fun {m m'} hm hm' hzero heq => ?_)
    have hfalse:=not_both hzero (lsb_mem (hsep.nonempty m hm))
    rw [heq,lsb_mem (hsep.nonempty m' hm')] at hfalse
    exact Bool.false_ne_true hfalse.symm
  have hle : r.masksLsb.Pairwise (·≤·) := pairwise_insertionSort (·≤·) _
  exact (hle.and hnodup).imp fun h => lt_of_le_of_ne h.1 h.2

/-- Removing the bits of an address of the range and adding them again restores it, and a dense
value survives the other way round, through an address that the selector accepts. -/
structure RoundTrip (r : AddrRange) : Prop where
  restores : ∀ a,r.contains a = .ok true → (r.removeIntlvBits a >>= r.addIntlvBits) = .ok a
  dense : ∀ x : Addr,x.toNat<2^(64-r.masks.length) → ∃ a,r.addIntlvBits x = .ok a ∧
    r.sel a = .ok (r.intlvMatch.setWidth 32) ∧ r.removeIntlvBits a = .ok x

/-- At most two masks, with their lowest bits in the lower half of an `int` and not both at
the bottom. -/
structure Supported (r : AddrRange) : Prop where
  length_le : r.masks.length≤2
  low : ∀ m∈r.masks,ctz64 m<31 ∨ m=BitVec.twoPow 64 31
  apart : ¬(0∈r.masksLsb ∧ 1∈r.masksLsb)

theorem ctz64_twoPow (hp : p<64) : ctz64 (BitVec.twoPow 64 p)=p := by
  have hne : BitVec.twoPow 64 p≠0#64 := by
    intro h
    have hbit:=congrArg (·.getLsbD p) h
    simp [hp] at hbit
  have hbit:=lsb_mem hne
  rw [BitVec.getLsbD_twoPow,Bool.and_eq_true,decide_eq_true_eq,decide_eq_true_eq] at hbit
  exact hbit.2.symm

theorem missed_eq_false (h : ctz64 m<31 ∨ m=BitVec.twoPow 64 31) : missed m a=false := by
  rcases h with hlt | rfl
  · simp [missed,show ctz64 m≠31 by omega]
  · have hzero : without 31 (a &&& BitVec.twoPow 64 31)=0#64 := by
      apply BitVec.eq_of_getLsbD_eq
      intro j _
      rw [getLsbD_without,BitVec.getLsbD_and,BitVec.getLsbD_twoPow]
      by_cases hj : j=31
      · simp [hj]
      · simp [hj,Ne.symm hj]
    rw [missed,ctz64_twoPow (by decide),hzero,parity_zero,Bool.and_false]

theorem Supported.lsb_lt (h : Supported r) : ∀ m∈r.masks,ctz64 m<32 := by
  intro m hm
  rcases h.low m hm with hlt | rfl
  · omega
  · rw [ctz64_twoPow (by decide)]
    decide

theorem inverse_of_short (hne : ps≠[]) (hsorted : ps.Pairwise (·<·)) (hlen : ps.length≤2)
    (hapart : ¬(0∈ps ∧ 1∈ps)) (hlt : ∀ p∈ps,p<64) : Inverse ps := by
  match ps with
  | [] => exact absurd rfl hne
  | [p] => exact inverse_single (hlt p mem_cons_self)
  | [p,q] =>
    have hpq : p<q := rel_of_pairwise_cons hsorted mem_cons_self
    refine inverse_pair hpq ?_ (hlt q (by simp))
    by_contra hq
    exact hapart ⟨by simp; omega,by simp; omega⟩
  | p::q::t::rest => simp at hlen

theorem Supported.inverse (h : Supported r) (hne : r.masks≠[]) (hsep : Separate r.masks) : Inverse r.masksLsb := by
  refine inverse_of_short ?_ (masksLsb_sorted hsep) ?_ h.apart fun p hp => ?_
  · intro hnil
    have hlen:=masksLsb_length r
    rw [hnil] at hlen
    exact hne (length_eq_zero_iff.mp hlen.symm)
  · rw [masksLsb_length]
    exact h.length_le
  · obtain ⟨m,hm,rfl⟩:=mem_masksLsb.mp hp
    have := h.lsb_lt m hm
    omega

structure WellFormed (r : AddrRange) : Prop where
  interleaved : r.masks≠[]
  separate : Separate r.masks
  fits : r.intlvMatch.toNat<2^r.masks.length

theorem wellFormed_of_ofMasks {start stop : Addr} {masks : List Addr}
    (h : AddrRange.ofMasks start stop masks intlvMatch = .ok r) (hne : masks≠[]) (hsep : Separate masks) :
    WellFormed r := by
  unfold ofMasks at h
  rw [if_neg hne] at h
  split_ifs at h with hlong hfit
  cases h
  exact ⟨hne,hsep,Nat.lt_of_not_le hfit⟩

theorem Supported.roundTrip (h : Supported r) (hr : WellFormed r) : RoundTrip r := by
  have hinv:=h.inverse hr.interleaved hr.separate
  have hlen : r.masks.length≤32 := h.length_le.trans (by decide)
  have hfix : ∀ z,∃ a,fixLoop r.intlvMatch 0 r.masks z = .ok a ∧ Agree (IsLsb r.masks) a z ∧
      ∀ k m,r.masks[k]?=some m → parity (a &&& m)=r.intlvMatch.getLsbD k := by
    intro z
    obtain ⟨a,ha,hagree,hpar⟩:=fixLoop_ok r.intlvMatch hr.separate h.lsb_lt (i := 0) (by omega) z
    refine ⟨a,ha,hagree,fun k m hk => ?_⟩
    rw [hpar k m hk,missed_eq_false (h.low m (mem_of_getElem? hk)),Bool.xor_false,zero_add]
  have hmem : ∀ {a z : Addr},Agree (·∈r.masksLsb) a z → Agree (IsLsb r.masks) a z :=
    fun hagree => hagree.mono fun j hj => mem_masksLsb.mp hj
  constructor
  · intro a ha
    have hsel : r.sel a = .ok (r.intlvMatch.setWidth 32) := by
      obtain ⟨s,hs,_⟩:=selLoop_ok a (show 0+r.masks.length≤32 by omega) 0#32
      unfold contains at ha
      split_ifs at ha with hin
      · rw [sel,hs] at ha ⊢
        have heq : decide (s=r.intlvMatch.setWidth 32)=true := Except.ok.inj ha
        rw [of_decide_eq_true heq]
      · cases ha
    have hpar:=(sel_eq_iff hlen hr.fits).mp hsel
    obtain ⟨y,hy,_⟩:=hinv.remove_ok a
    obtain ⟨z,hz⟩:=hinv.add_ok y
    obtain ⟨a',ha',hagree,hpar'⟩:=hfix a
    have hback : a'=a := by
      refine eq_of_parity hr.separate hagree fun m hm => ?_
      obtain ⟨k,hk⟩:=mem_iff_getElem?.mp hm
      rw [hpar' k m hk,hpar k m hk]
    have hza:=hmem (hinv.add_remove a y z hy hz)
    calc (r.removeIntlvBits a >>= r.addIntlvBits)=r.addIntlvBits y := by rw [removeIntlvBits,hy]; rfl
      _=fixLoop r.intlvMatch 0 r.masks z := by rw [addIntlvBits,hz]; rfl
      _=fixLoop r.intlvMatch 0 r.masks a := fixLoop_congr hr.separate hza
      _ = .ok a := by rw [ha',hback]
  · intro x hx
    obtain ⟨z,hz⟩:=hinv.add_ok x
    obtain ⟨a,ha,hagree,hpar⟩:=hfix z
    refine ⟨a,by rw [addIntlvBits,hz]; exact ha,(sel_eq_iff hlen hr.fits).mpr hpar,?_⟩
    refine hinv.remove_add x z a ?_ hz (hagree.mono fun j hj => mem_masksLsb.mpr hj)
    rw [masksLsb_length]
    exact hx

theorem toNat_twoPow_lt {n k : ℕ} (hk : k<n) (hn : n≤64) : (BitVec.twoPow 64 k).toNat<2^n := by
  rw [BitVec.toNat_twoPow_of_lt (by omega)]
  exact Nat.pow_lt_pow_right (by decide) hk

theorem RoundTrip.add_zero (h : RoundTrip r) : ∃ a,r.addIntlvBits 0#64 = .ok a ∧ r.removeIntlvBits a = .ok 0#64 := by
  obtain ⟨a,ha,_,hrem⟩:=h.dense 0#64 (Nat.two_pow_pos _)
  exact ⟨a,ha,hrem⟩

theorem addIntlvBits_eq_ok (h : r.addIntlvBits x = .ok a) :
    ∃ z,addLoop 0 r.masksLsb x = .ok z ∧ fixLoop r.intlvMatch 0 r.masks z = .ok a := by
  rw [addIntlvBits] at h
  cases hz : addLoop 0 r.masksLsb x with
  | error e =>
    rw [hz] at h
    cases h
  | ok z =>
    rw [hz] at h
    exact ⟨z,rfl,h⟩

theorem RoundTrip.lsb_lt (h : RoundTrip r) : ∀ m∈r.masks,ctz64 m<32 := by
  obtain ⟨a,ha,_⟩:=h.add_zero
  obtain ⟨z,_,hfix⟩:=addIntlvBits_eq_ok ha
  exact lsb_lt_of_fixLoop hfix

theorem length_le_of_lsb_lt (hsep : Separate r.masks) (hlsb : ∀ m∈r.masks,ctz64 m<32) : r.masks.length≤32 := by
  have hsub : r.masksLsb ⊆ range 32 := by
    intro p hp
    obtain ⟨m,hm,rfl⟩:=mem_masksLsb.mp hp
    exact mem_range.mpr (hlsb m hm)
  have hnodup : r.masksLsb.Nodup := (masksLsb_sorted hsep).imp fun hlt => ne_of_lt hlt
  have hle:=(subperm_of_subset hnodup hsub).length_le
  rwa [masksLsb_length,length_range] at hle

theorem RoundTrip.length_le (h : RoundTrip r) (hsep : Separate r.masks) : r.masks.length≤2 := by
  by_contra hlong
  have hsorted:=masksLsb_sorted hsep
  have hlen:=length_le_of_lsb_lt hsep h.lsb_lt
  have hmem : ∀ p∈r.masksLsb,p<32 := fun p hp => by
    obtain ⟨m,hm,rfl⟩:=mem_masksLsb.mp hp
    exact h.lsb_lt m hm
  have hcount:=masksLsb_length r
  obtain ⟨p,q,t,rest,hps⟩ : ∃ p q t rest,r.masksLsb=p::q::t::rest := by
    match hl : r.masksLsb with
    | p::q::t::rest => exact ⟨p,q,t,rest,rfl⟩
    | [] => simp [hl] at hcount; omega
    | [_] => simp [hl] at hcount; omega
    | [_,_] => simp [hl] at hcount; omega
  rw [hps] at hsorted hmem
  have ht : t<32 := hmem t (by simp)
  obtain ⟨z,z',hz,hz',hagree⟩:=addLoop_loses hsorted (by omega)
  have hsame : r.addIntlvBits (BitVec.twoPow 64 (t-2))=r.addIntlvBits 0#64 := by
    have hlsb : Agree (IsLsb r.masks) z z' := hagree.mono fun j hj => by
      refine mem_masksLsb.mp ?_
      rw [hps]
      rcases hj with rfl | rfl <;> simp
    rw [addIntlvBits,addIntlvBits,hps,hz,hz']
    exact fixLoop_congr hsep hlsb
  obtain ⟨a,ha,hrem⟩:=h.add_zero
  obtain ⟨a',ha',_,hrem'⟩:=h.dense (BitVec.twoPow 64 (t-2)) (toNat_twoPow_lt (by omega) (by omega))
  rw [hsame,ha] at ha'
  cases ha'
  rw [hrem] at hrem'
  have hbit:=congrArg (·.getLsbD (t-2)) (Except.ok.inj hrem')
  simp [show t-2<64 by omega] at hbit

theorem RoundTrip.apart (h : RoundTrip r) (hsep : Separate r.masks) : ¬(0∈r.masksLsb ∧ 1∈r.masksLsb) := by
  rintro ⟨h0,h1⟩
  have hsorted:=masksLsb_sorted hsep
  have hlen:=h.length_le hsep
  rw [← masksLsb_length] at hlen
  have hps : r.masksLsb=[0,1] := by
    match hl : r.masksLsb with
    | [] => simp [hl] at h0
    | [p] =>
      rw [hl] at h0 h1
      have := mem_singleton.mp h0
      have := mem_singleton.mp h1
      omega
    | [p,q] =>
      rw [hl] at h0 h1 hsorted
      have hpq : p<q := rel_of_pairwise_cons hsorted mem_cons_self
      simp only [mem_cons,not_mem_nil,or_false] at h0 h1
      rw [show p=0 by omega,show q=1 by omega]
    | _::_::_::_ => simp [hl] at hlen
  obtain ⟨a,_,hrem⟩:=h.add_zero
  have hfault : removeBit 1 1 (a >>> 1) = .error .assertion := removeBit_fault (by decide) (le_refl 1) _
  rw [removeIntlvBits,hps,removeLoop] at hrem
  change removeLoop 1 [1] (a >>> 1)=_ at hrem
  rw [removeLoop,hfault] at hrem
  cases hrem

theorem RoundTrip.low (h : RoundTrip r) (hr : WellFormed r) : ∀ m∈r.masks,ctz64 m<31 ∨ m=BitVec.twoPow 64 31 := by
  intro m hm
  by_contra hnot
  rw [not_or] at hnot
  have hsep:=hr.separate
  have hlen : r.masks.length≤2 := h.length_le hsep
  have h31 : ctz64 m=31 := by
    have := h.lsb_lt m hm
    omega
  obtain ⟨t,htm,ht⟩ : ∃ t,m.getLsbD t=true ∧ t≠31 := by
    by_contra hall
    push Not at hall
    refine hnot.2 (BitVec.eq_of_getLsbD_eq fun j _ => ?_)
    rw [BitVec.getLsbD_twoPow]
    by_cases hj : j=31
    · rw [hj,← h31,lsb_mem (hsep.nonempty m hm)]
      simp [h31]
    · rw [Bool.eq_false_of_not_eq_true fun hmj => hj (hall j hmj)]
      simp [Ne.symm hj]
  have hps : r.masksLsb≠[] := fun hnil => by
    have hcount:=masksLsb_length r
    rw [hnil] at hcount
    exact hr.interleaved (length_eq_zero_iff.mp hcount.symm)
  have hinv : Inverse r.masksLsb := by
    refine inverse_of_short hps (masksLsb_sorted hsep) (by rw [masksLsb_length]; exact hlen) (h.apart hsep) fun p hp => ?_
    obtain ⟨m',hm',rfl⟩:=mem_masksLsb.mp hp
    have := h.lsb_lt m' hm'
    omega
  -- the dense value whose address has the single partner `t` set
  obtain ⟨y,hy,hylt⟩:=hinv.remove_ok (BitVec.twoPow 64 t)
  rw [masksLsb_length] at hylt
  obtain ⟨a,ha,hsel,_⟩:=h.dense y hylt
  obtain ⟨z,hz,hfix⟩:=addIntlvBits_eq_ok ha
  have hza : Agree (IsLsb r.masks) z (BitVec.twoPow 64 t) :=
    (hinv.add_remove _ y z hy hz).mono fun j hj => mem_masksLsb.mp hj
  have hmiss : missed m z=true := by
    simp only [missed,h31,decide_true,Bool.true_and]
    refine parity_single (p := t) fun j => ?_
    rw [getLsbD_without,BitVec.getLsbD_and]
    cases hmj : m.getLsbD j with
    | false =>
      have hjt : j≠t := fun heq => by rw [heq,htm] at hmj; cases hmj
      simp [hjt]
    | true =>
      by_cases hj : j=31
      · simp [hj,Ne.symm ht]
      · rw [hza j (mt (hsep.isLsb_iff hm hmj).mp (by rw [h31]; exact hj)),BitVec.getLsbD_twoPow]
        have ht64 : t<64 := BitVec.lt_of_getLsbD htm
        simp [ht64,hj,eq_comm]
  obtain ⟨a',ha',_,hpar⟩:=fixLoop_ok r.intlvMatch hsep h.lsb_lt (i := 0) (by omega) z
  obtain ⟨k,hk⟩:=mem_iff_getElem?.mp hm
  have hwrong:=hpar k m hk
  rw [hfix] at ha'
  cases ha'
  rw [(sel_eq_iff (by omega) hr.fits).mp hsel k m hk,hmiss,zero_add] at hwrong
  simp at hwrong

/-- The round trip holds of exactly the supported ranges. -/
theorem roundTrip_iff (hr : WellFormed r) : RoundTrip r ↔ Supported r := by
  constructor
  · intro hround
    exact ⟨hround.length_le hr.separate,hround.low hr,hround.apart hr.separate⟩
  · intro hsup
    exact hsup.roundTrip hr

theorem roundTrip_hashed : RoundTrip ⟨0,0x4000,[0x100,0x1200],1⟩ := by
  have hmade : ofMasks 0 0x4000 [0x100,0x1200] 1 = .ok ⟨0,0x4000,[0x100,0x1200],1⟩ := by decide +kernel
  have hsep : Separate [0x100,0x1200] := ⟨by simp,by simp⟩
  have hlow : ∀ m∈[0x100,0x1200],ctz64 m<31 ∨ m=BitVec.twoPow 64 31 := by
    have hlsb : ctz64 0x100<31 ∧ ctz64 0x1200<31 := by decide +kernel
    rintro m hm
    rcases List.mem_pair.mp hm with rfl | rfl
    · exact .inl hlsb.1
    · exact .inl hlsb.2
  have hlsb : (⟨0,0x4000,[0x100,0x1200],1⟩ : AddrRange).masksLsb=[8,9] := by decide +kernel
  exact (roundTrip_iff (wellFormed_of_ofMasks hmade (by simp) hsep)).mpr ⟨by decide,hlow,by rw [hlsb]; decide⟩

/-- Eight ways on the bits 6 to 8: address 512 comes back as 0. -/
theorem not_roundTrip_eight_ways : ∃ r,ofHighBits 0 0x1000 8 0 3 0 = .ok r ∧ Separate r.masks ∧
    r.contains 512 = .ok true ∧ (r.removeIntlvBits 512 >>= r.addIntlvBits) = .ok 0 ∧ ¬RoundTrip r := by
  have hfail : ((⟨0,0x1000,[0x40,0x80,0x100],0⟩ : AddrRange).removeIntlvBits 512 >>=
      (⟨0,0x1000,[0x40,0x80,0x100],0⟩ : AddrRange).addIntlvBits) = .ok 0 := by decide +kernel
  have hin : (⟨0,0x1000,[0x40,0x80,0x100],0⟩ : AddrRange).contains 512 = .ok true := by decide +kernel
  have hmade : ofHighBits 0 0x1000 8 0 3 0 = .ok ⟨0,0x1000,[0x40,0x80,0x100],0⟩ := by decide +kernel
  have hsep : Separate [0x40,0x80,0x100] := ⟨by simp,by simp⟩
  refine ⟨_,hmade,hsep,hin,hfail,fun h => ?_⟩
  have heq:=h.restores 512 hin
  rw [hfail] at heq
  exact absurd (Except.ok.inj heq) (by decide)

end AddrRange
end AquaGem5.Address
