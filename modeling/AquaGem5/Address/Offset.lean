import AquaGem5.Address.Interleave
import AquaGem5.Lib.Echelon

/-!
# The offset of an address in an interleaved range (addr_range.hh)
-/

namespace AquaGem5.Address
open Bits List BitVec Nat
namespace AddrRange

variable {r : AddrRange} {a b x y : Addr} {ps : List ℕ} {i k h : ℕ}

def kept : ℕ → List ℕ → ℕ → ℕ
  | _,[],k => k
  | i,p::ps,k => if kept (i+1) ps k+i<p then kept (i+1) ps k else kept (i+1) ps k+1

structure Ascending (i : ℕ) (ps : List ℕ) : Prop where
  sorted : ps.Pairwise (·<·)
  above : ∀ p∈ps,i<p

theorem Ascending.tail {p : ℕ} (hp : Ascending i (p::ps)) : Ascending (i+1) ps := by
  refine ⟨hp.sorted.of_cons,fun q hq => ?_⟩
  have hip:=hp.above p mem_cons_self
  have hpq:=rel_of_pairwise_cons hp.sorted hq
  omega

theorem removeLoop_kept (hps : Ascending i ps) (a : Addr) :
    ∃ y,removeLoop i ps a = .ok y ∧ ∀ k,y.getLsbD k=a.getLsbD (kept i ps k) := by
  induction ps generalizing i a with
  | nil => exact ⟨a,rfl,fun _ => rfl⟩
  | cons p ps ih =>
    obtain ⟨b,hb,hbits⟩:=removeBit_ok (.inl (hps.above p mem_cons_self)) a
    obtain ⟨y,hy,hkept⟩:=ih hps.tail b
    refine ⟨y,by rw [removeLoop,hb]; exact hy,fun k => ?_⟩
    rw [hkept,hbits,kept]
    split_ifs <;> rfl

theorem kept_lt (i : ℕ) (ps : List ℕ) {k l : ℕ} (hkl : k<l) : kept i ps k<kept i ps l := by
  induction ps generalizing i with
  | nil => exact hkl
  | cons p ps ih =>
    have := ih (i+1)
    simp only [kept]
    split_ifs <;> omega

theorem kept_injective : Function.Injective (kept i ps) :=
  (strictMono_nat_of_lt_succ fun k => kept_lt i ps (lt_succ_self k)).injective

theorem kept_le (ps : List ℕ) (k : ℕ) : kept i ps k≤k+ps.length := by
  induction ps generalizing i with
  | nil => exact le_refl _
  | cons p ps ih =>
    have := ih (i := i+1)
    simp only [kept,length_cons]
    split_ifs <;> omega

theorem exists_kept_iff (hps : Ascending i ps) {q : ℕ} : (∃ k,kept i ps k=q) ↔ q+i∉ps := by
  induction ps generalizing i q with
  | nil => exact ⟨fun _ => not_mem_nil,fun _ => ⟨q,rfl⟩⟩
  | cons p ps ih =>
    have hip:=hps.above p mem_cons_self
    have hafter : ∀ {t},t∈ps → p<t := fun ht => rel_of_pairwise_cons hps.sorted ht
    constructor
    · rintro ⟨k,rfl⟩ hmem
      have hk:=(ih hps.tail).mp ⟨k,rfl⟩
      rw [kept] at hmem
      split_ifs at hmem with hlow
      · rcases mem_cons.mp hmem with heq | hmem
        · omega
        · have := hafter hmem
          omega
      · rcases mem_cons.mp hmem with heq | hmem
        · omega
        · exact hk (by rwa [show kept (i+1) ps k+(i+1)=kept (i+1) ps k+1+i by omega])
    · intro hq
      have hnp : q+i≠p := fun heq => hq (heq ▸ mem_cons_self)
      by_cases hlow : q+i<p
      · have hfree : q+(i+1)∉ps := fun hmem => by
          have := hafter hmem
          omega
        obtain ⟨k,hk⟩:=(ih hps.tail).mpr hfree
        exact ⟨k,by rw [kept,hk,if_pos hlow]⟩
      · obtain ⟨q,rfl⟩ : ∃ q',q=q'+1 := ⟨q-1,by omega⟩
        have hfree : q+(i+1)∉ps := fun hmem =>
          hq (mem_cons_of_mem _ (by rwa [show q+1+i=q+(i+1) by omega]))
        obtain ⟨k,hk⟩:=(ih hps.tail).mpr hfree
        exact ⟨k,by rw [kept,hk,if_neg (by omega)]⟩

theorem kept_high (hle : ∀ p∈ps,p≤h) (hk : h+1≤k+i+ps.length) : kept i ps k=k+ps.length := by
  induction ps generalizing i with
  | nil => rfl
  | cons p ps ih =>
    simp only [length_cons] at hk
    have hp:=hle p mem_cons_self
    have htail:=ih (fun q hq => hle q (mem_cons_of_mem _ hq)) (i := i+1) (by omega)
    rw [kept,htail,if_neg (by omega),length_cons]
    omega

theorem Ascending.length_le (hps : Ascending i ps) (hle : ∀ p∈ps,p≤h) (hi : i≤h) : i+ps.length≤h := by
  induction ps generalizing i with
  | nil => exact hi
  | cons p ps ih =>
    have hip:=hps.above p mem_cons_self
    have hph:=hle p mem_cons_self
    have := ih hps.tail (fun q hq => hle q (mem_cons_of_mem _ hq)) (by omega)
    simp only [length_cons]
    omega

def highestLsb (r : AddrRange) : ℕ := (r.masks.map ctz64).foldr max 0

/-- Distinct lowest bits, none of them bit 0, and an interval of whole blocks of the highest. -/
structure Striped (r : AddrRange) : Prop where
  interleaved : r.masks≠[]
  nonzero : ∀ m∈r.masks,m≠0#64
  distinct : (r.masks.map ctz64).Nodup
  above : ∀ m∈r.masks,1≤ctz64 m
  fits : r.intlvMatch.toNat<2^r.masks.length
  start_aligned : 2^(r.highestLsb+1)∣r._start.toNat
  end_aligned : 2^(r.highestLsb+1)∣r._end.toNat

theorem le_foldr_max {l : List ℕ} {p : ℕ} (hp : p∈l) : p≤l.foldr max 0 := by
  induction l with
  | nil => exact absurd hp not_mem_nil
  | cons q l ih =>
    rcases mem_cons.mp hp with rfl | hp
    · exact le_max_left _ _
    · exact (ih hp).trans (le_max_right _ _)

theorem foldr_max_mem {l : List ℕ} (hl : l≠[]) : l.foldr max 0∈l := by
  induction l with
  | nil => exact absurd rfl hl
  | cons q l ih =>
    rw [foldr_cons]
    rcases le_total (l.foldr max 0) q with hle | hle
    · rw [max_eq_left hle]
      exact mem_cons_self
    · rw [max_eq_right hle]
      by_cases hnil : l=[]
      · rw [hnil] at hle ⊢
        simp only [foldr_nil,le_zero] at hle ⊢
        rw [hle]
        exact mem_cons_self
      · exact mem_cons_of_mem _ (ih hnil)

def equations (r : AddrRange) : List (Equation 64) := r.masks.mapIdx fun k m => (m,r.intlvMatch.getLsbD k)

theorem mem_equations {e : Equation 64} :
    e∈r.equations ↔ ∃ k m,r.masks[k]?=some m ∧ e=(m,r.intlvMatch.getLsbD k) := by
  rw [equations,mem_mapIdx]
  constructor
  · rintro ⟨k,hlt,rfl⟩
    exact ⟨k,_,getElem?_eq_getElem hlt,rfl⟩
  · rintro ⟨k,m,hk,rfl⟩
    obtain ⟨hlt,rfl⟩:=List.getElem?_eq_some_iff.mp hk
    exact ⟨k,hlt,rfl⟩

theorem solves_equations {a : Addr} :
    Solves r.equations a ↔ ∀ k m,r.masks[k]?=some m → parity (a &&& m)=r.intlvMatch.getLsbD k := by
  constructor
  · intro h k m hk
    exact h (m,r.intlvMatch.getLsbD k) (mem_equations.mpr ⟨k,m,hk,rfl⟩)
  · intro h e he
    obtain ⟨k,m,hk,rfl⟩:=mem_equations.mp he
    exact h k m hk

theorem map_lead_equations : r.equations.map (fun e => lead e.1)=r.masks.map ctz64 := by
  apply ext_getElem
  · simp [equations]
  · intro k _ _
    simp [equations,lead,ctz64]

namespace Striped

theorem distinct_equations (hr : Striped r) : Distinct r.equations := by
  refine ⟨fun e he => ?_,by rw [map_lead_equations]; exact hr.distinct⟩
  obtain ⟨k,m,hk,rfl⟩:=mem_equations.mp he
  exact hr.nonzero m (mem_of_getElem? hk)

theorem leads_iff {j : ℕ} : Leads r.equations j ↔ j∈r.masksLsb := by
  rw [masksLsb,mem_insertionSort,← map_lead_equations,mem_map]
  rfl

theorem ascending (hr : Striped r) : Ascending 0 r.masksLsb := by
  have hnodup : r.masksLsb.Nodup := (perm_insertionSort (·≤·) _).nodup_iff.mpr hr.distinct
  have hle : r.masksLsb.Pairwise (·≤·) := pairwise_insertionSort (·≤·) _
  refine ⟨(hle.and hnodup).imp fun h => lt_of_le_of_ne h.1 h.2,fun p hp => ?_⟩
  obtain ⟨m,hm,rfl⟩:=mem_masksLsb.mp hp
  exact hr.above m hm

theorem le_highestLsb {p : ℕ} (hp : p∈r.masksLsb) : p≤r.highestLsb := by
  obtain ⟨m,hm,rfl⟩:=mem_masksLsb.mp hp
  exact le_foldr_max (mem_map_of_mem hm)

theorem highestLsb_lt (hr : Striped r) : r.highestLsb<64 := by
  have hmem : r.highestLsb∈r.masks.map ctz64 := foldr_max_mem (by simpa using hr.interleaved)
  obtain ⟨m,hm,heq⟩:=mem_map.mp hmem
  rw [← heq]
  exact lt_of_getLsbD (lsb_mem (hr.nonzero m hm))

theorem length_le (hr : Striped r) : r.masks.length≤r.highestLsb := by
  have hle:=hr.ascending.length_le (fun p hp => le_highestLsb hp) (zero_le _)
  rwa [zero_add,masksLsb_length] at hle

theorem kept_above (hr : Striped r) {k : ℕ} (hk : r.highestLsb+1-r.masks.length≤k) :
    kept 0 r.masksLsb k=k+r.masks.length := by
  rw [← masksLsb_length]
  have hle:=hr.length_le
  exact kept_high (fun p hp => le_highestLsb hp) (by rw [masksLsb_length]; omega)

theorem kept_below (hr : Striped r) {k : ℕ} (hk : k<r.highestLsb+1-r.masks.length) :
    kept 0 r.masksLsb k<r.highestLsb+1 := by
  have hlt:=kept_lt 0 r.masksLsb hk
  rw [hr.kept_above (le_refl _)] at hlt
  have hle:=hr.length_le
  omega

end Striped

def Removed (r : AddrRange) (a y : Addr) : Prop := ∀ k,y.getLsbD k=a.getLsbD (kept 0 r.masksLsb k)

namespace Striped

theorem removeIntlvBits_ok (hr : Striped r) (a : Addr) : ∃ y,r.removeIntlvBits a = .ok y ∧ Removed r a y :=
  removeLoop_kept hr.ascending a

theorem div_eq (hr : Striped r) (h : Removed r a y) :
    y.toNat/2^(r.highestLsb+1-r.masks.length)=a.toNat/2^(r.highestLsb+1) := by
  apply eq_of_testBit_eq
  intro j
  rw [testBit_div_two_pow,testBit_div_two_pow,testBit_toNat,testBit_toNat,h,
    hr.kept_above (le_add_left _ _)]
  have hle:=hr.length_le
  congr 1
  omega

theorem eq_of_aligned (hr : Striped r) {s : ℕ} (ha : a.toNat=2^(r.highestLsb+1)*s) (h : Removed r a y) :
    y.toNat=2^(r.highestLsb+1-r.masks.length)*s := by
  have hle:=hr.length_le
  apply eq_of_testBit_eq
  intro k
  rw [testBit_toNat,h,← testBit_toNat,ha,testBit_two_pow_mul,testBit_two_pow_mul]
  by_cases hk : r.highestLsb+1-r.masks.length≤k
  · rw [hr.kept_above hk,decide_eq_true hk,decide_eq_true (by omega)]
    congr 2
    omega
  · have hlow:=hr.kept_below (Nat.lt_of_not_le hk)
    rw [decide_eq_false hk,decide_eq_false (by omega),Bool.false_and,Bool.false_and]

theorem exists_blocks (hr : Striped r) : ∃ s e,r._start.toNat=2^(r.highestLsb+1)*s ∧
    r._end.toNat=2^(r.highestLsb+1)*e := by
  obtain ⟨s,hs⟩:=hr.start_aligned
  obtain ⟨e,he⟩:=hr.end_aligned
  exact ⟨s,e,hs,he⟩

theorem in_range_iff {s e : ℕ} (hs : r._start.toNat=2^(r.highestLsb+1)*s) (he : r._end.toNat=2^(r.highestLsb+1)*e) :
    (r._start≤a ∧ a<r._end) ↔ s≤a.toNat/2^(r.highestLsb+1) ∧ a.toNat/2^(r.highestLsb+1)<e := by
  have hpos:=Nat.two_pow_pos (r.highestLsb+1)
  rw [le_def,lt_def,hs,he,Nat.le_div_iff_mul_le hpos,div_lt_iff_lt_mul hpos,
    Nat.mul_comm s,Nat.mul_comm e]

theorem size_eq (hr : Striped r) (hvalid : r.valid=true) {s e : ℕ}
    (hs : r._start.toNat=2^(r.highestLsb+1)*s) (he : r._end.toNat=2^(r.highestLsb+1)*e) :
    r.size.toNat=2^(r.highestLsb+1-r.masks.length)*(e-s) := by
  have hle:=hr.length_le
  have hpow : 2^(r.highestLsb+1)=2^(r.highestLsb+1-r.masks.length)*2^r.masks.length := by
    rw [← pow_add]
    congr 1
    omega
  rw [size,toNat_ushiftRight,toNat_sub_of_le (of_decide_eq_true hvalid),hs,he,← Nat.mul_sub,
    shiftRight_eq_div_pow,hpow,mul_right_comm]
  exact Nat.mul_div_cancel _ (Nat.two_pow_pos _)

theorem getOffset_ok (hr : Striped r) {s e : ℕ} (hs : r._start.toNat=2^(r.highestLsb+1)*s)
    (he : r._end.toNat=2^(r.highestLsb+1)*e) (hy : Removed r a y) (hin : r._start≤a ∧ a<r._end) :
    ∃ x,r.getOffset a = .ok x ∧ y.toNat=x.toNat+2^(r.highestLsb+1-r.masks.length)*s := by
  obtain ⟨y',hremove,hy'⟩:=hr.removeIntlvBits_ok a
  have heq : y'=y := eq_of_getLsbD_eq fun k _ => by rw [hy',hy]
  subst heq
  obtain ⟨base,hbase,hstart⟩:=hr.removeIntlvBits_ok r._start
  have hbasenat:=hr.eq_of_aligned hs hstart
  have hle : base.toNat≤y'.toNat := by
    have hblock:=((in_range_iff hs he).mp hin).1
    rw [← hr.div_eq hy,Nat.le_div_iff_mul_le (Nat.two_pow_pos _),Nat.mul_comm] at hblock
    rwa [hbasenat]
  have hint : r.interleaved=true := decide_eq_true (length_pos_iff.mpr hr.interleaved)
  refine ⟨y'-base,?_,?_⟩
  · rw [getOffset,if_pos hin,if_pos hint,hremove,hbase]
    rfl
  · rw [toNat_sub_of_le hle,hbasenat]
    omega

end Striped

theorem contains_iff (hlen : r.masks.length≤32) (hfits : r.intlvMatch.toNat<2^r.masks.length) :
    r.contains a = .ok true ↔ (r._start≤a ∧ a<r._end) ∧ Solves r.equations a := by
  obtain ⟨s,hs,_⟩:=selLoop_ok a (show 0+r.masks.length≤32 by omega) 0#32
  rw [solves_equations,← sel_eq_iff hlen hfits,contains,sel,hs]
  by_cases hin : r._start≤a ∧ a<r._end
  · rw [if_pos hin]
    constructor
    · intro h
      exact ⟨hin,congrArg Except.ok (of_decide_eq_true (Except.ok.inj h))⟩
    · intro h
      exact congrArg Except.ok (decide_eq_true (Except.ok.inj h.2))
  · rw [if_neg hin]
    refine ⟨fun h => ?_,fun h => absurd h.1 hin⟩
    cases h

namespace Striped

theorem agree_of_removed (hr : Striped r) (ha : Removed r a y) (hb : Removed r b y) : Agree (Leads r.equations) a b := by
  intro j hj
  obtain ⟨k,rfl⟩:=(exists_kept_iff hr.ascending).mpr (mt leads_iff.mpr hj)
  rw [← ha,← hb]

theorem removed_of_agree (hr : Striped r) (h : Agree (Leads r.equations) b a) (ha : Removed r a y) : Removed r b y := by
  intro k
  have hfree : kept 0 r.masksLsb k∉r.masksLsb := (exists_kept_iff hr.ascending).mp ⟨k,rfl⟩
  rw [ha,h _ (mt leads_iff.mp hfree)]

theorem exists_removed (hy : y.toNat<2^(64-r.masks.length)) : ∃ a,Removed r a y := by
  obtain ⟨a,ha⟩:=exists_word (w := 64) fun j => ∃ k,kept 0 r.masksLsb k=j ∧ y.getLsbD k=true
  refine ⟨a,fun k => Bool.eq_iff_iff.mpr ?_⟩
  rw [ha]
  constructor
  · intro hk
    have hlt : k<64-r.masks.length := by
      by_contra hge
      rw [getLsbD_of_lt hy (Nat.le_of_not_lt hge)] at hk
      cases hk
    have hle:=kept_le (i := 0) r.masksLsb k
    rw [masksLsb_length] at hle
    exact ⟨by omega,k,rfl,hk⟩
  · rintro ⟨_,k',heq,hk'⟩
    rwa [← kept_injective heq]

theorem bijOn_getOffset (hr : Striped r) (hvalid : r.valid=true) (hlen : r.masks.length≤32) :
    Set.BijOn r.getOffset {a | r.contains a = .ok true} (.ok '' {x | x<r.size}) := by
  obtain ⟨s,e,hs,he⟩:=hr.exists_blocks
  have hsize:=hr.size_eq hvalid hs he
  have hpos:=Nat.two_pow_pos (r.highestLsb+1-r.masks.length)
  have hcontains : ∀ a,r.contains a = .ok true ↔ (r._start≤a ∧ a<r._end) ∧ Solves r.equations a :=
    fun a => contains_iff hlen hr.fits
  refine ⟨fun a ha => ?_,fun a ha b hb heq => ?_,?_⟩
  · obtain ⟨y,_,hy⟩:=hr.removeIntlvBits_ok a
    have hin:=((hcontains a).mp ha).1
    obtain ⟨x,hx,hxy⟩:=hr.getOffset_ok hs he hy hin
    refine ⟨x,?_,hx.symm⟩
    have hlt:=((in_range_iff hs he).mp hin).2
    rw [← hr.div_eq hy,div_lt_iff_lt_mul hpos,Nat.mul_comm e] at hlt
    rw [Set.mem_ofPred_eq,lt_def,hsize,Nat.mul_sub]
    omega
  · obtain ⟨y,_,hy⟩:=hr.removeIntlvBits_ok a
    obtain ⟨z,_,hz⟩:=hr.removeIntlvBits_ok b
    obtain ⟨hina,hsa⟩:=(hcontains a).mp ha
    obtain ⟨hinb,hsb⟩:=(hcontains b).mp hb
    obtain ⟨x,hx,hxy⟩:=hr.getOffset_ok hs he hy hina
    obtain ⟨x',hx',hxz⟩:=hr.getOffset_ok hs he hz hinb
    have hxx : x=x' := Except.ok.inj (hx.symm.trans (heq.trans hx'))
    have hyz : y=z := eq_of_toNat_eq (by rw [hxy,hxz,hxx])
    subst hyz
    obtain ⟨c,_,huniq⟩:=hr.distinct_equations.existsUnique a
    have hac:=huniq a ⟨fun _ _ => rfl,hsa⟩
    have hbc:=huniq b ⟨hr.agree_of_removed hz hy,hsb⟩
    rw [hac,hbc]
  · rintro _ ⟨x,hx,rfl⟩
    rw [Set.mem_ofPred_eq,lt_def,hsize,Nat.mul_sub] at hx
    -- the compressed address, below the compressed end
    have hbelow : x.toNat+2^(r.highestLsb+1-r.masks.length)*s <
        2^(r.highestLsb+1-r.masks.length)*e := by omega
    have hend : 2^(r.highestLsb+1-r.masks.length)*e≤2^(64-r.masks.length) := by
      have hlt:=r._end.isLt
      have hle:=hr.length_le
      have h64:=hr.highestLsb_lt
      have hsplit : 2^64=2^(r.highestLsb+1)*2^(63-r.highestLsb) := by
        rw [← pow_add]
        congr 1
        omega
      rw [he,hsplit] at hlt
      have hblocks:=Nat.lt_of_mul_lt_mul_left hlt
      calc 2^(r.highestLsb+1-r.masks.length)*e
          ≤ 2^(r.highestLsb+1-r.masks.length)*2^(63-r.highestLsb) := mul_le_mul_left _ hblocks.le
        _=2^(64-r.masks.length) := by rw [← pow_add]; congr 1; omega
    have hpow : 2^(64-r.masks.length)≤2^64 := Nat.pow_le_pow_right (by decide) (sub_le _ _)
    let y : Addr := BitVec.ofNat 64 (x.toNat+2^(r.highestLsb+1-r.masks.length)*s)
    have hynat : y.toNat=x.toNat+2^(r.highestLsb+1-r.masks.length)*s := by
      rw [BitVec.toNat_ofNat,mod_eq_of_lt (by omega)]
    obtain ⟨a0,ha0⟩:=exists_removed (r := r) (y := y) (by omega)
    obtain ⟨a,⟨hagree,hsolves⟩,_⟩:=hr.distinct_equations.existsUnique a0
    have hy:=hr.removed_of_agree hagree ha0
    have hin : r._start≤a ∧ a<r._end := by
      rw [in_range_iff hs he,← hr.div_eq hy,Nat.le_div_iff_mul_le hpos,div_lt_iff_lt_mul hpos,
        Nat.mul_comm s,Nat.mul_comm e]
      omega
    obtain ⟨x',hx',hxy⟩:=hr.getOffset_ok hs he hy hin
    refine ⟨a,(hcontains a).mpr ⟨hin,hsolves⟩,?_⟩
    rw [hx']
    exact congrArg Except.ok (eq_of_toNat_eq (by omega))

end Striped

def Selected (r : AddrRange) (a : Addr) (v : BitVec 8) : Prop :=
  ∃ s,ofMasks r._start r._end r.masks v = .ok s ∧ s.contains a = .ok true

theorem selected_iff (hne : r.masks≠[]) (hlen : r.masks.length≤32) {v : BitVec 8} :
    Selected r a v ↔ v.toNat<2^r.masks.length ∧ (r._start≤a ∧ a<r._end) ∧
      ∀ k m,r.masks[k]?=some m → parity (a &&& m)=v.getLsbD k := by
  have hmade : ofMasks r._start r._end r.masks v =
      if 2^r.masks.length≤v.toNat then .error .fatal else .ok ⟨r._start,r._end,r.masks,v⟩ := by
    rw [ofMasks,if_neg hne,if_neg (by omega)]
  rw [Selected,hmade]
  by_cases hfit : v.toNat<2^r.masks.length
  · rw [if_neg (not_le.mpr hfit)]
    have hiff:=contains_iff (r := ⟨r._start,r._end,r.masks,v⟩) (a := a) hlen hfit
    rw [solves_equations] at hiff
    constructor
    · rintro ⟨s,hs,hcontains⟩
      cases hs
      exact ⟨hfit,hiff.mp hcontains⟩
    · intro h
      exact ⟨_,rfl,hiff.mpr h.2⟩
  · rw [if_pos (Nat.le_of_not_lt hfit)]
    refine ⟨fun h => ?_,fun h => absurd h.1 hfit⟩
    obtain ⟨_,hs,_⟩:=h
    cases hs

theorem existsUnique_selected (hne : r.masks≠[]) (hlen : r.masks.length≤8) (hin : r._start≤a ∧ a<r._end) :
    ∃! v,Selected r a v := by
  simp only [selected_iff hne (show r.masks.length≤32 by omega)]
  obtain ⟨v,hv⟩:=exists_word (w := 8) fun k => ∃ m,r.masks[k]?=some m ∧ parity (a &&& m)=true
  have hhigh : ∀ {u : BitVec 8} {k},u.toNat<2^r.masks.length → r.masks.length≤k → u.getLsbD k=false := by
    intro u k hu hk
    rw [← testBit_toNat]
    exact Nat.testBit_lt_two_pow (hu.trans_le (Nat.pow_le_pow_right (by decide) hk))
  refine ⟨v,⟨?_,hin,fun k m hk => Bool.eq_iff_iff.mpr ?_⟩,fun u hu => eq_of_getLsbD_eq fun k hk8 => ?_⟩
  · apply lt_pow_two_of_testBit
    intro k hk
    rw [testBit_toNat,← Bool.not_eq_true,hv]
    rintro ⟨_,m,hm,_⟩
    have := (List.getElem?_eq_some_iff.mp hm).1
    omega
  · have hlt:=(List.getElem?_eq_some_iff.mp hk).1
    rw [hv]
    constructor
    · intro hpar
      exact ⟨by omega,m,hk,hpar⟩
    · rintro ⟨_,m',hm',hpar⟩
      rwa [Option.some.inj (hk.symm.trans hm')]
  · apply Bool.eq_iff_iff.mpr
    rw [hv]
    cases hk : r.masks[k]? with
    | none =>
      rw [hhigh hu.1 (getElem?_eq_none_iff.mp hk)]
      simp
    | some m =>
      rw [← hu.2.2 k m hk]
      simp [hk8]

/-- The offset numbers the addresses of a range, and siblings share out the interval. -/
theorem getOffset_partition (hr : Striped r) (hvalid : r.valid=true) :
    (r.masks.length≤32 → Set.BijOn r.getOffset {a | r.contains a = .ok true} (.ok '' {x | x<r.size})) ∧
      (r.masks.length≤8 → ∀ a,r._start≤a → a<r._end → ∃! v,Selected r a v) :=
  ⟨fun hlen => hr.bijOn_getOffset hvalid hlen,
    fun hlen _ hstart hend => existsUnique_selected hr.interleaved hlen ⟨hstart,hend⟩⟩

def hashed : AddrRange := ⟨0x2000,0x6000,[0x1100,0x1200],1⟩

theorem getOffset_partition_hashed :
    Striped hashed ∧ Set.BijOn hashed.getOffset {a | hashed.contains a = .ok true} (.ok '' {x | x<hashed.size}) ∧
      ∃! v,Selected hashed 0x2300 v := by
  have hlsb : ([0x1100,0x1200] : List Addr).map ctz64=[8,9] := by decide +kernel
  have habove : ∀ m∈([0x1100,0x1200] : List Addr),1≤ctz64 m := fun m hm => by
    have hall : ∀ p∈[8,9],1≤p := by decide
    exact hall _ (hlsb ▸ List.mem_map_of_mem hm)
  have hr : Striped hashed := by
    refine ⟨by simp [hashed],by simp [hashed],by rw [hashed,hlsb]; decide,habove,by decide,?_,?_⟩ <;>
      rw [highestLsb,hashed,hlsb] <;> decide
  have hboth:=getOffset_partition hr (by decide)
  exact ⟨hr,hboth.1 (by decide),hboth.2 (by decide) 0x2300 (by decide) (by decide)⟩

def nineMasks : AddrRange := ⟨0,0x400,[2,4,8,16,32,64,128,256,512],0⟩

/-- The upper half of the 512 match values has no sibling: the value is an 8-bit number. -/
theorem not_selected_nine_masks :
    Striped nineMasks ∧ nineMasks.valid=true ∧ nineMasks._start≤512 ∧ 512<nineMasks._end ∧
      ∀ v,¬Selected nineMasks 512 v := by
  have hlsb : ([2,4,8,16,32,64,128,256,512] : List Addr).map ctz64=[1,2,3,4,5,6,7,8,9] := by decide +kernel
  have habove : ∀ m∈([2,4,8,16,32,64,128,256,512] : List Addr),1≤ctz64 m := fun m hm => by
    have hall : ∀ p∈[1,2,3,4,5,6,7,8,9],1≤p := by decide
    exact hall _ (hlsb ▸ List.mem_map_of_mem hm)
  have hparity : parity (512 &&& 512 : Addr)=true := by decide +kernel
  refine ⟨?_,by decide,by decide,by decide,fun v hv => ?_⟩
  · refine ⟨by simp [nineMasks],by simp [nineMasks],by rw [nineMasks,hlsb]; decide,habove,by decide,?_,?_⟩ <;>
      rw [highestLsb,nineMasks,hlsb] <;> decide
  · have hbit:=((selected_iff (by simp [nineMasks]) (by decide)).mp hv).2.2 8 512 rfl
    rw [BitVec.getLsbD_of_ge v 8 (by decide),hparity] at hbit
    cases hbit

end AddrRange
end AquaGem5.Address
