import AquaGem5.Address.AddrRangeMap

/-!
# Decoding an address: the map against a scan of all its entries
-/

namespace AquaGem5.Address
open Bits Search AddrRange List BitVec
namespace AddrRangeMap

variable {V : Type} {n : ℕ} {t t' : AddrRangeMap V} {r : AddrRange} {a : Addr} {d : V}
  {e e0 : Entry V} {res : Option (Entry V)}

def scan (t : AddrRangeMap V) (a : Addr) : Option (Entry V) := t.tree.find? fun e => decide (e.1.Has a)

/-- When the lookup of an address is exact. -/
structure Reaches (t : AddrRangeMap V) (a : Addr) : Prop where
  top : a=maxAddr → (∀ e∈t.cache,e.1.interleaved=true) ∧
    ∀ e,t.tree.getLast?=some e → e.1.interleaved=true
  few : ∀ e∈t.tree,Covers e.1 a → e.1.masks.length≤32
  fine : ∀ e∈t.tree,e.1.Has a → e.1.interleaved=true → Fine e.1
  first : ∀ e∈t.tree,e.1.Has a → e∈t.cache ∨ a≠e.1._start ∨
    ∀ e'∈t.tree,Sibling e'.1 e.1 → e'.1.intlvMatch=0 ∨ e.1.intlvMatch≤e'.1.intlvMatch

theorem ne_maxAddr (h : Covers r a) : a≠maxAddr := by
  rintro rfl
  have hlt:=lt_def.mp h.2
  have := r._end.isLt
  simp only [maxAddr,toNat_allOnes] at hlt
  omega

theorem has_covers (h : r.Has a) : Covers r a := h.1

theorem toNat_succ (h : a≠maxAddr) : (a+1).toNat=a.toNat+1 := by
  have hlt:=a.isLt
  have hne : a.toNat≠2^64-1 := fun heq => h (eq_of_toNat_eq (by rw [heq]; rfl))
  rw [toNat_add]
  exact Nat.mod_eq_of_lt (by simp; omega)

theorem has_plain (hp : r.masks=[]) : r.Has a ↔ Covers r a := by
  simp [Has,Covers,hp]

theorem isSubset_plain_ok (hp : r.masks=[]) (ha : a≠maxAddr) :
    (rangeSize a 1).isSubset r = .ok (decide (r.Has a)) := by
  rw [isSubset_plain hp]
  congr 1
  rw [decide_eq_decide,has_plain hp,Covers,le_def,le_def,lt_def,toNat_succ ha]
  omega

theorem isSubset_plain_top (hp : r.masks=[]) : (rangeSize maxAddr 1).isSubset r = .ok true := by
  rw [isSubset_plain hp]
  congr 1
  have hzero : maxAddr+1=0 := by decide
  rw [decide_eq_true_eq,hzero,le_def,le_def,maxAddr,toNat_allOnes]
  have := r._start.isLt
  exact ⟨by omega,by simp⟩

theorem isSubset_outside (hi : r.interleaved=true) (h : ¬Covers r a) : (rangeSize a 1).isSubset r = .ok false := by
  rw [isSubset_interleaved hi,contains_outside h]
  rfl

theorem isSubset_fault (hlen : 32<r.masks.length) (h : Covers r a) : (rangeSize a 1).isSubset r = .error .shift := by
  have hi : r.interleaved=true := interleaved_iff.mpr fun hnil => by simp [hnil] at hlen
  rw [isSubset_interleaved hi,contains_fault hlen h]
  rfl

theorem isSubset_ok (hr : Valid r) (ha : a≠maxAddr) (hfew : Covers r a → r.masks.length≤32)
    (hfine : r.Has a → r.interleaved=true → Fine r) : (rangeSize a 1).isSubset r = .ok (decide (r.Has a)) := by
  cases hi : r.interleaved with
  | false =>
    have hp : r.masks=[] := by
      by_contra hne
      rw [interleaved_iff.mpr hne] at hi
      cases hi
    exact isSubset_plain_ok hp ha
  | true =>
    by_cases hc : Covers r a
    · rw [isSubset_interleaved hi,contains_ok (hfew hc) hr.fits]
      by_cases hhas : r.Has a
      · obtain ⟨g,hg⟩:=hfine hhas hi
        rw [decide_eq_true hhas,hg]
        exact congrArg Except.ok (decide_eq_true (granularity_pos hi hg))
      · rw [decide_eq_false hhas]
        rfl
    · rw [isSubset_outside hi hc,decide_eq_false fun h : r.Has a => hc h.1]

theorem fine_of_isSubset (hi : r.interleaved=true) (h : (rangeSize a 1).isSubset r = .ok true) : Fine r := by
  rw [isSubset_interleaved hi] at h
  cases hc : r.contains a with
  | error f =>
    rw [hc] at h
    cases h
  | ok b =>
    rw [hc] at h
    cases b with
    | false => cases h
    | true =>
      cases hg : r.granularity with
      | error f =>
        simp only [hg] at h
        cases h
      | ok g => exact ⟨g,hg⟩

theorem Family.unique (h : Family t) (he : e∈t.tree) (he0 : e0∈t.tree) (ha : e.1.Has a) (ha0 : e0.1.Has a) : e=e0 := by
  rcases h.eq_or he he0 with heq | hap | hsib
  · exact heq
  · exact absurd ⟨a,ha,ha0⟩ hap.not_meets
  · have heq:=hsib.eq_of_meets (h.valid e he) (h.valid e0 he0) ⟨a,ha,ha0⟩
    exact h.eq_of_key he he0 (by rw [heq])

theorem Family.find?_eq_scan (h : Family t) {l : List (Entry V)} (hl : ∀ e∈l,e∈t.tree)
    (hreach : ∀ e∈t.tree,e.1.Has a → e∈l) : l.find? (fun e => decide (e.1.Has a))=t.scan a := by
  cases hs : t.scan a with
  | none =>
    rw [find?_eq_none]
    intro e he
    exact find?_eq_none.mp hs e (hl e he)
  | some e =>
    have he:=mem_of_find?_eq_some hs
    have hpass:=find?_some hs
    have hhas : e.1.Has a := of_decide_eq_true hpass
    cases hf : l.find? fun e => decide (e.1.Has a) with
    | none =>
      have hnot:=find?_eq_none.mp hf e (hreach e he hhas)
      exact absurd (decide_eq_true hhas) hnot
    | some e' =>
      have he':=hl e' (mem_of_find?_eq_some hf)
      have hpass':=find?_some hf
      have hhas' : e'.1.Has a := of_decide_eq_true hpass'
      rw [h.unique he' he hhas' hhas]

theorem Family.scan_eq_some (h : Family t) (he : e∈t.tree) (ha : e.1.Has a) : t.scan a=some e := by
  have hone:=h.find?_eq_scan (l := [e]) (a := a) (fun e' he' => mem_singleton.mp he' ▸ he)
    (fun e' he' ha' => mem_singleton.mpr (h.unique he' he ha' ha))
  rw [← hone,find?_cons_of_pos (by exact decide_eq_true ha)]

theorem above_top (h : Family t) : t.above (rangeSize maxAddr 1)=[] := by
  rw [above_eq,dropWhile_eq_nil_iff]
  intro e he
  have hpos:=lt_def.mp (h.valid e he).start_lt
  have := e.1._end.isLt
  have hm:=e.1.intlvMatch.isLt
  simp only [decide_eq_true_eq,key,rangeSize,maxAddr,toNat_allOnes]
  simp
  omega

theorem below_top (h : Family t) : t.below (rangeSize maxAddr 1)=t.tree := by
  have hsplit:=takeWhile_append_dropWhile (p := fun e : Entry V => !(rangeSize maxAddr 1).lt e.1) (l := t.tree)
  have habove : t.tree.dropWhile (fun e => !(rangeSize maxAddr 1).lt e.1)=[] := above_top h
  rw [habove,append_nil] at hsplit
  exact hsplit

theorem scan_top : t.scan maxAddr=none := by
  rw [scan,find?_eq_none]
  intro e _ hhas
  exact ne_maxAddr (has_covers (of_decide_eq_true hhas)) rfl

theorem last_examined (h : Family t) (hl : t.tree.getLast?=some e) : e∈t.examined (rangeSize maxAddr 1) := by
  refine mem_examined_of_walk (head_mem_chain ?_)
  rw [below_top h,head?_reverse,hl]

theorem lookup_top (h : Family t) :
    (∃ t',t.contains n maxAddr = .ok (t.scan maxAddr,t')) ↔ (∀ e∈t.cache,e.1.interleaved=true) ∧
      ∀ e,t.tree.getLast?=some e → e.1.interleaved=true := by
  have hplain : ∀ e∈t.examined (rangeSize maxAddr 1),(rangeSize maxAddr 1).isSubset e.1 = .ok false →
      e.1.interleaved=true := by
    intro e _ hfalse
    by_contra hp
    have hnil : e.1.masks=[] := by
      by_contra hne
      exact hp (interleaved_iff.mpr hne)
    rw [isSubset_plain_top hnil] at hfalse
    cases hfalse
  constructor
  · rintro ⟨t',hfind⟩
    have hnone:=findM_none (scan_top (t := t) ▸ examined_of_find hfind)
    exact ⟨fun e he => hplain e (mem_append_left _ he) (hnone e (mem_append_left _ he)),
      fun e he => hplain e (last_examined h he) (hnone e (last_examined h he))⟩
  · rintro ⟨hcache,hlast⟩
    have hall : ∀ e∈t.examined (rangeSize maxAddr 1),e.1.interleaved=true := by
      intro e he
      rcases mem_append.mp he with he | he
      · exact hcache e he
      · rw [above_top h] at he
        refine chain_forall (P := fun e => e.1.interleaved=true) ?_ ?_ e he
        · intro i next hm hi
          rw [merges,mergesWith,decide_eq_true_eq] at hm
          rw [interleaved_iff] at hi ⊢
          rwa [← hm.2.2]
        · intro e he
          rw [below_top h,head?_reverse] at he
          exact hlast e he
    rw [scan_top]
    apply find_eq_ok
    rw [findM_eq_find (q := fun _ => false) fun e he => isSubset_outside (hall e he) fun hc => ne_maxAddr hc rfl]
    rw [find?_eq_none.mpr fun e _ => Bool.false_ne_true]

theorem Reaches.examined (h : Reaches t a) (hf : Family t) (he : e∈t.tree) (ha : e.1.Has a) :
    e∈t.examined (rangeSize a 1) := by
  have hstart:=le_def.mp ha.1.1
  have hm:=e.1.intlvMatch.isLt
  rcases h.first e he ha with hcached | hne | hmin
  · exact mem_append_left _ hcached
  · refine mem_examined_of_walk (hf.mem_walk he (has_covers ha) ?_)
    have hnat : e.1._start.toNat≠a.toNat := fun heq => hne (eq_of_toNat_eq heq.symm)
    simp only [key,rangeSize]
    omega
  · by_cases hkey : key e.1≤key (rangeSize a 1)
    · exact mem_examined_of_walk (hf.mem_walk he (has_covers ha) hkey)
    · obtain ⟨e',hhead,he',hlo,hhi⟩:=head_dropWhile_of_gt (fun e : Entry V => key e.1) hf.sorted he
        (show key (rangeSize a 1)<key e.1 by omega)
      rw [← above_eq] at hhead
      have hzero : (rangeSize a 1).intlvMatch.toNat=0 := rfl
      have hra : (rangeSize a 1)._start=a := rfl
      unfold key at hlo hhi hkey
      rw [hzero,hra] at hlo hkey
      have hcov : Covers e'.1 a := hf.covers_of_between he he' (has_covers ha)
        (by rw [le_def]; omega) (by rw [le_def]; omega)
      have hsame : e'=e := by
        rcases hf.eq_or_sibling he' he hcov (has_covers ha) with heq | hsib
        · exact heq
        · rcases hmin e' he' hsib with h0 | hle
          · have h0' : e'.1.intlvMatch.toNat=0 := by rw [h0]; rfl
            have hst:=congrArg BitVec.toNat hsib.2.1
            omega
          · have hle':=le_def.mp hle
            have hst:=congrArg BitVec.toNat hsib.2.1
            refine hf.eq_of_key he' he ?_
            unfold key
            omega
      exact mem_examined_of_head (hsame ▸ hhead)

theorem lookup_of_reaches (h : Reaches t a) (hf : Family t) (ha : a≠maxAddr) :
    ∃ t',t.contains n a = .ok (t.scan a,t') := by
  apply find_eq_ok
  rw [findM_eq_find (q := fun e => decide (e.1.Has a)) fun e he =>
    isSubset_ok (hf.valid e (hf.mem_tree he)) ha (h.few e (hf.mem_tree he)) (h.fine e (hf.mem_tree he))]
  rw [hf.find?_eq_scan (fun e he => hf.mem_tree he) fun e he hhas => h.examined hf he hhas]

theorem few_of_lookup (hf : Family t) (hfind : t.contains n a = .ok (res,t')) (he : e∈t.tree) (hc : Covers e.1 a) :
    e.1.masks.length≤32 := by
  by_contra hlong
  have hfault : ∀ e'∈t.tree,Covers e'.1 a → (rangeSize a 1).isSubset e'.1 = .error .shift := by
    intro e' he' hc'
    have hmasks : e'.1.masks=e.1.masks := by
      rcases hf.eq_or_sibling he' he hc' hc with rfl | hsib
      · rfl
      · exact hsib.2.2.2
    exact isSubset_fault (by rw [hmasks]; omega) hc'
  obtain ⟨e',he',hc'⟩:=hf.covering_examined (r := rangeSize a 1) he hc
  refine findM_error (l := t.examined (rangeSize a 1)) (p := fun e => (rangeSize a 1).isSubset e.1) ?_ he' ?_ res
    (examined_of_find hfind)
  · intro e'' he'' htrue
    by_cases hc'' : Covers e''.1 a
    · rw [hfault e'' (hf.mem_tree he'') hc''] at htrue
      cases htrue
    · cases hi : e''.1.interleaved with
      | true =>
        rw [isSubset_outside hi hc''] at htrue
        cases htrue
      | false =>
        have hp : e''.1.masks=[] := by
          by_contra hne
          rw [interleaved_iff.mpr hne] at hi
          cases hi
        rw [isSubset_plain_ok hp (ne_maxAddr hc)] at htrue
        exact hc'' (has_covers (of_decide_eq_true (Except.ok.inj htrue)))
  · intro b hb
    rw [hfault e' (hf.mem_tree he') hc'] at hb
    cases hb

theorem first_of_examined (hf : Family t) (he : e∈t.examined (rangeSize a 1)) : e∈t.cache ∨ a≠e.1._start ∨
      ∀ e'∈t.tree,Sibling e'.1 e.1 → e'.1.intlvMatch=0 ∨ e.1.intlvMatch≤e'.1.intlvMatch := by
  by_cases hstart : a=e.1._start
  · refine (mem_append.mp he).imp id fun he => .inr fun e' he' hsib => ?_
    have hzero : (rangeSize a 1).intlvMatch.toNat=0 := rfl
    have hra : (rangeSize a 1)._start=e.1._start := hstart
    have hst:=congrArg BitVec.toNat hsib.2.1
    rcases mem_append.mp he with hhead | hwalk
    · have hhead : (t.above (rangeSize a 1)).head?=some e := Option.mem_toList.mp hhead
      rw [above_eq] at hhead
      obtain ⟨_,_,hmin⟩:=head_dropWhile (fun e : Entry V => key e.1) hf.sorted hhead
      by_cases h0 : e'.1.intlvMatch=0
      · exact .inl h0
      · have hpos : e'.1.intlvMatch.toNat≠0 := fun h => h0 (eq_of_toNat_eq h)
        have hle:=hmin e' he' (by unfold key; rw [hzero,hra]; omega)
        unfold key at hle
        exact .inr (le_def.mpr (by omega))
    · have hbelow:=mem_reverse.mp (chain_subset e hwalk)
      rw [below_eq] at hbelow
      have hle : key e.1≤key (rangeSize a 1) := takeWhile_le e hbelow
      unfold key at hle
      rw [hzero,hra] at hle
      exact .inr (le_def.mpr (by omega))
  · exact .inr (.inl hstart)

theorem lookup_iff (hf : Family t) : (∃ t',t.contains n a = .ok (t.scan a,t')) ↔ Reaches t a := by
  constructor
  · intro hfind
    have htop : a=maxAddr → (∀ e∈t.cache,e.1.interleaved=true) ∧
        ∀ e,t.tree.getLast?=some e → e.1.interleaved=true := by
      rintro rfl
      exact (lookup_top hf).mp hfind
    obtain ⟨t',hfind⟩:=hfind
    have hhit : ∀ e∈t.tree,e.1.Has a → e∈t.examined (rangeSize a 1) ∧ (rangeSize a 1).isSubset e.1 = .ok true := by
      intro e he hhas
      rw [hf.scan_eq_some he hhas] at hfind
      exact findM_some (examined_of_find hfind)
    exact ⟨htop,fun e he hc => few_of_lookup hf hfind he hc,
      fun e he hhas hi => fine_of_isSubset hi (hhit e he hhas).2,
      fun e he hhas => first_of_examined hf (hhit e he hhas).1⟩
  · intro h
    by_cases ha : a=maxAddr
    · subst ha
      exact (lookup_top hf).mpr (h.top rfl)
    · exact lookup_of_reaches h hf ha

end AddrRangeMap
end AquaGem5.Address
