import AquaGem5.Address.Decode

/-!
# Inserting a range: what is refused, and the maps that insertion builds
-/

namespace AquaGem5.Address
open Bits Search AddrRange List
namespace AddrRangeMap

variable {V : Type} {n : ℕ} {t t' : AddrRangeMap V} {r : AddrRange} {a : Addr} {d : V}
  {e e0 : Entry V} {res : Option (Entry V)}

/-- A range that is apart from every entry, or in its group, or plain like it. The source panics
when it has to compare any other two overlapping ranges. -/
structure Fits (t : AddrRangeMap V) (r : AddrRange) : Prop where
  valid : Valid r
  comparable : ∀ e∈t.tree,Apart r e.1 ∨ Sibling r e.1 ∨ (r.masks=[] ∧ e.1.masks=[])

/-- When the test of an insertion is exact: a group of one-byte stripes is tested by the start
address alone. -/
def Tests (t : AddrRangeMap V) (r : AddrRange) : Prop :=
  r.interleaved=true → r.size=1 → (∃ e∈t.tree,Sibling r e.1) →
    ∃ b,r.contains r._start = .ok b ∧ (b=true ↔ ∃ e∈t.tree,e.1=r)

variable {r' : AddrRange}

theorem intersects_apart (h : Apart r r') : r.intersects r' = .ok false := by
  exact if_pos (Or.symm h)

theorem not_apart_of_sibling (hr : Valid r) (h : Sibling r r') : ¬Apart r r' := by
  have hlt:=BitVec.lt_def.mp hr.start_lt
  obtain ⟨_,hstart,hend,_⟩:=h
  intro hap
  rw [Apart,← hstart,← hend,BitVec.le_def,or_self] at hap
  omega

theorem intersects_plain (h : ¬Apart r r') (hp : r.masks=[]) (hp' : r'.masks=[]) : r.intersects r' = .ok true := by
  have hi : r.interleaved=false := by simp [interleaved,hp]
  have hi' : r'.interleaved=false := by simp [interleaved,hp']
  rw [AddrRange.intersects,if_neg fun hap => h (Or.symm hap),hi,hi']
  rfl

theorem Sibling.size_eq (h : Sibling r r') : r'.size=r.size := by
  obtain ⟨_,hstart,hend,hmasks⟩:=h
  rw [AddrRange.size,AddrRange.size,hstart,hend,hmasks]

theorem Sibling.eq_iff (h : Sibling r r') : r=r' ↔ r.intlvMatch=r'.intlvMatch := by
  obtain ⟨_,hstart,hend,hmasks⟩:=h
  cases r
  cases r'
  simp_all

theorem intersects_sibling (hr : Valid r) (h : Sibling r r') :
    r.intersects r'=if r.size=1 then r.contains r._start else .ok (decide (r=r')) := by
  have hi : r.interleaved=true := interleaved_iff.mpr h.1
  rw [AddrRange.intersects,if_neg fun hap => not_apart_of_sibling hr h (Or.symm hap),hi,Sibling.size_eq h,h.mergesWith,
    ← h.2.1]
  simp only [Bool.not_true,Bool.false_and,Bool.false_eq_true,if_false,if_true]
  split_ifs with hsize
  · rfl
  · exact congrArg Except.ok (decide_eq_decide.mpr (Sibling.eq_iff h).symm)

theorem meets_plain (hr : Valid r) (hr' : Valid r') (h : ¬Apart r r') (hp : r.masks=[])
    (hp' : r'.masks=[]) : Meets r r' := by
  rw [Apart,not_or,BitVec.le_def,BitVec.le_def] at h
  by_cases hle : r._start.toNat≤r'._start.toNat
  · refine ⟨r'._start,(has_plain hp).mpr ⟨BitVec.le_def.mpr hle,?_⟩,(has_plain hp').mpr ⟨BitVec.le_refl _,hr'.start_lt⟩⟩
    rw [BitVec.lt_def]
    omega
  · refine ⟨r._start,(has_plain hp).mpr ⟨BitVec.le_refl _,hr.start_lt⟩,(has_plain hp').mpr ⟨BitVec.le_def.mpr (by omega),?_⟩⟩
    rw [BitVec.lt_def]
    omega

open Classical in
theorem Fits.cond_ok (h : Fits t r) (hf : Family t) (he : e∈t.tree) (hsize : Sibling r e.1 → r.size≠1) :
    r.intersects e.1 = .ok (decide (Meets r e.1)) := by
  by_cases hap : Apart r e.1
  · rw [intersects_apart hap,decide_eq_false hap.not_meets]
  · rcases h.comparable e he with h' | hsib | ⟨hp,hp'⟩
    · exact absurd h' hap
    · rw [intersects_sibling h.valid hsib,if_neg (hsize hsib)]
      refine congrArg Except.ok (decide_eq_decide.mpr ⟨fun heq => ?_,fun hm => hsib.eq_of_meets h.valid (hf.valid e he) hm⟩)
      obtain ⟨a,ha⟩:=h.valid.inhabited
      exact ⟨a,ha,heq ▸ ha⟩
    · rw [intersects_plain hap hp hp',decide_eq_true (meets_plain h.valid (hf.valid e he) hap hp hp')]

theorem match_of_plain (hr : Valid r) (hp : r.masks=[]) : r.intlvMatch.toNat=0 := by
  have hfits:=hr.fits
  rw [hp] at hfits
  simpa using hfits

theorem covers_start (hr : Valid r) : Covers r r._start := ⟨BitVec.le_refl _,hr.start_lt⟩

theorem Fits.meets_examined (h : Fits t r) (hf : Family t) (he0 : e0∈t.tree) (hm : Meets r e0.1) :
    ∃ e∈t.examined r,Meets r e.1 := by
  have hap : ¬Apart r e0.1 := fun hap => hap.not_meets hm
  rcases h.comparable e0 he0 with h' | hsib | ⟨hp,hp0⟩
  · exact absurd h' hap
  · have heq:=hsib.eq_of_meets h.valid (hf.valid e0 he0) hm
    exact ⟨e0,mem_examined_of_walk (hf.mem_walk he0 (heq ▸ covers_start h.valid) (by rw [heq])),hm⟩
  · have hzero:=match_of_plain h.valid hp
    have hzero0:=match_of_plain (hf.valid e0 he0) hp0
    rw [Apart,not_or,BitVec.le_def,BitVec.le_def] at hap
    by_cases hle : e0.1._start.toNat≤r._start.toNat
    · refine ⟨e0,mem_examined_of_walk (hf.mem_walk he0 ⟨BitVec.le_def.mpr hle,?_⟩ ?_),hm⟩
      · rw [BitVec.lt_def]
        omega
      · unfold key
        omega
    · obtain ⟨e,hhead,he,hlo,hhi⟩:=head_dropWhile_of_gt (fun e : Entry V => key e.1) hf.sorted he0
        (show key r<key e0.1 by unfold key; omega)
      have hlt:=BitVec.lt_def.mp (hf.valid e he).start_lt
      unfold key at hlo hhi
      have hnot : ¬Apart r e.1 := by
        rw [Apart,not_or,BitVec.le_def,BitVec.le_def]
        omega
      refine ⟨e,mem_examined_of_head (by rw [above_eq]; exact hhead),?_⟩
      rcases h.comparable e he with h' | hsib | ⟨_,hp'⟩
      · exact absurd h' hnot
      · exact absurd hp hsib.1
      · exact meets_plain h.valid (hf.valid e he) hnot hp hp'

theorem Fits.sibling_examined (h : Fits t r) (hf : Family t) (he0 : e0∈t.tree) (hsib : Sibling r e0.1) :
    ∃ e∈t.examined r,Sibling r e.1 := by
  obtain ⟨e,he,hc⟩:=hf.covering_examined he0 (hsib.covers (covers_start h.valid))
  refine ⟨e,he,?_⟩
  rcases h.comparable e (hf.mem_tree he) with hap | hsib' | ⟨hp,_⟩
  · exact absurd hap ((covers_start h.valid).not_apart hc)
  · exact hsib'
  · exact absurd hp hsib.1

def Detects (n : ℕ) (t : AddrRangeMap V) (r : AddrRange) : Prop :=
  ∃ hit t',t.intersects n r = .ok (hit,t') ∧ (hit.isSome=true ↔ ∃ e∈t.tree,Meets r e.1)

open Classical in
theorem Fits.detects_of_sizes (h : Fits t r) (hf : Family t) (hsize : ∀ e∈t.tree,Sibling r e.1 → r.size≠1) :
    Detects n t r := by
  have hfind : (t.examined r).findM? (fun e => r.intersects e.1) =
      .ok ((t.examined r).find? fun e => decide (Meets r e.1)) :=
    findM_eq_find fun e he => h.cond_ok hf (hf.mem_tree he) (hsize e (hf.mem_tree he))
  obtain ⟨t',ht'⟩:=find_eq_ok (n := n) hfind
  refine ⟨_,t',ht',?_⟩
  rw [find?_isSome]
  constructor
  · rintro ⟨e,he,hm⟩
    exact ⟨e,hf.mem_tree he,of_decide_eq_true hm⟩
  · rintro ⟨e,he,hm⟩
    obtain ⟨e',he',hm'⟩:=h.meets_examined hf he hm
    exact ⟨e',he',decide_eq_true hm'⟩

theorem Fits.meets_iff (h : Fits t r) (hf : Family t) (hr : r.masks≠[]) :
    (∃ e∈t.tree,Meets r e.1) ↔ ∃ e∈t.tree,e.1=r := by
  constructor
  · rintro ⟨e,he,hm⟩
    rcases h.comparable e he with hap | hsib | ⟨hp,_⟩
    · exact absurd hm hap.not_meets
    · exact ⟨e,he,(hsib.eq_of_meets h.valid (hf.valid e he) hm).symm⟩
    · exact absurd hp hr
  · rintro ⟨e,he,rfl⟩
    obtain ⟨a,ha⟩:=h.valid.inhabited
    exact ⟨e,he,a,ha,ha⟩

theorem Fits.detects_of_size_one (h : Fits t r) (hf : Family t) (hsize : r.size=1) (he0 : e0∈t.tree)
    (hsib : Sibling r e0.1) : Detects n t r ↔ ∃ b,r.contains r._start = .ok b ∧ (b=true ↔ ∃ e∈t.tree,e.1=r) := by
  have hcond : ∀ e∈t.tree,(Apart r e.1 ∧ r.intersects e.1 = .ok false) ∨
      (Sibling r e.1 ∧ r.intersects e.1=r.contains r._start) := by
    intro e he
    rcases h.comparable e he with hap | hsib' | ⟨hp,_⟩
    · exact .inl ⟨hap,intersects_apart hap⟩
    · exact .inr ⟨hsib',by rw [intersects_sibling h.valid hsib',if_pos hsize]⟩
    · exact absurd hp hsib.1
  obtain ⟨e1,he1,hsib1⟩:=h.sibling_examined hf he0 hsib
  have hcond1 : r.intersects e1.1=r.contains r._start := by
    rcases hcond e1 (hf.mem_tree he1) with ⟨hap,_⟩ | ⟨_,heq⟩
    · exact absurd hap (not_apart_of_sibling h.valid hsib1)
    · exact heq
  rw [Detects,h.meets_iff hf hsib.1]
  cases hc : r.contains r._start with
  | error f =>
    rw [hc] at hcond hcond1
    constructor
    · rintro ⟨hit,t',hfind,_⟩
      refine absurd (examined_of_find hfind) (findM_error ?_ he1 (fun b hb => ?_) hit)
      · intro e he htrue
        rcases hcond e (hf.mem_tree he) with ⟨_,heq⟩ | ⟨_,heq⟩
        · rw [heq] at htrue
          cases htrue
        · rw [heq] at htrue
          cases htrue
      · rw [hcond1] at hb
        cases hb
    · rintro ⟨b,hb,_⟩
      cases hb
  | ok b =>
    rw [hc] at hcond hcond1
    have hb : ∃ hit t',t.intersects n r = .ok (hit,t') ∧ hit.isSome=b := by
      cases b with
      | false =>
        have hfind : (t.examined r).findM? (fun e => r.intersects e.1) = .ok none := by
          rw [findM_eq_find (q := fun _ => false) fun e he => by
            rcases hcond e (hf.mem_tree he) with ⟨_,heq⟩ | ⟨_,heq⟩ <;> exact heq]
          rw [find?_eq_none.mpr fun e _ => Bool.false_ne_true]
        obtain ⟨t',ht'⟩:=find_eq_ok (n := n) hfind
        exact ⟨none,t',ht',rfl⟩
      | true =>
        cases hfind : (t.examined r).findM? fun e => r.intersects e.1 with
        | error f =>
          have hpure : ∀ e∈t.examined r,r.intersects e.1 = .ok (!decide (e.1._end≤r._start ∨ r._end≤e.1._start)) := by
            intro e he
            rcases hcond e (hf.mem_tree he) with ⟨hap,heq⟩ | ⟨hs,heq⟩
            · rw [heq,decide_eq_true (Or.symm hap)]
              rfl
            · rw [heq,decide_eq_false fun hap => not_apart_of_sibling h.valid hs (Or.symm hap)]
              rfl
          rw [findM_eq_find hpure] at hfind
          cases hfind
        | ok hit =>
          obtain ⟨t',ht'⟩:=find_eq_ok (n := n) hfind
          cases hit with
          | none =>
            have hfalse:=findM_none hfind e1 he1
            rw [hcond1] at hfalse
            cases hfalse
          | some e => exact ⟨some e,t',ht',rfl⟩
    obtain ⟨hit,t',hfind,hhit⟩:=hb
    constructor
    · rintro ⟨hit',t'',hfind',hiff⟩
      cases hfind.symm.trans hfind'
      exact ⟨b,rfl,by rw [← hhit]; exact hiff⟩
    · rintro ⟨b',hb',hiff⟩
      cases hb'
      exact ⟨hit,t',hfind,by rw [hhit]; exact hiff⟩

theorem Fits.detects_iff (h : Fits t r) (hf : Family t) : Detects n t r ↔ Tests t r := by
  by_cases hone : r.size=1 ∧ ∃ e∈t.tree,Sibling r e.1
  · obtain ⟨hsize,e0,he0,hsib⟩:=hone
    rw [h.detects_of_size_one hf hsize he0 hsib]
    exact ⟨fun hb _ _ _ => hb,fun ht => ht (interleaved_iff.mpr hsib.1) hsize ⟨e0,he0,hsib⟩⟩
  · exact iff_of_true (h.detects_of_sizes hf fun e he hsib hsize => hone ⟨hsize,e,he,hsib⟩)
      fun _ hsize hsib => absurd ⟨hsize,hsib⟩ hone

variable {l : List (Entry V)}

theorem mem_treeInsert : ∀ e'∈(treeInsert e l).2,e'=e ∨ e'∈l := by
  induction l with
  | nil => exact fun e' he' => .inl (mem_singleton.mp he')
  | cons b l ih =>
    intro e' he'
    rw [treeInsert] at he'
    split_ifs at he' with h₁ h₂
    · exact mem_cons.mp he'
    · rcases mem_cons.mp he' with rfl | he'
      · exact .inr mem_cons_self
      · exact (ih e' he').imp id (mem_cons_of_mem b)
    · exact .inr he'

theorem treeInsert_keeps : ∀ e'∈l,e'∈(treeInsert e l).2 := by
  induction l with
  | nil => exact fun e' he' => absurd he' not_mem_nil
  | cons b l ih =>
    intro e' he'
    rw [treeInsert]
    split_ifs with h₁ h₂
    · exact mem_cons_of_mem _ he'
    · rcases mem_cons.mp he' with rfl | he'
      · exact mem_cons_self
      · exact mem_cons_of_mem _ (ih e' he')
    · exact he'

theorem treeInsert_existing (hs : l.Pairwise fun e e' => key e.1<key e'.1) (he0 : e0∈l)
    (hkey : key e0.1=key e.1) : (treeInsert e l).2=l := by
  induction l with
  | nil => cases he0
  | cons b l ih =>
    rw [treeInsert]
    have hle : key b.1≤key e.1 := by
      rcases mem_cons.mp he0 with rfl | he0
      · omega
      · have := rel_of_pairwise_cons hs he0
        omega
    rw [if_neg (by rw [lt_iff_key]; omega)]
    split_ifs with h₂
    · rw [lt_iff_key] at h₂
      rcases mem_cons.mp he0 with rfl | he0
      · omega
      · rw [ih hs.of_cons he0]
    · rfl

theorem treeInsert_sorted (hs : l.Pairwise fun e e' => key e.1<key e'.1)
    (hne : ∀ e'∈l,key e'.1≠key e.1) : (treeInsert e l).2.Pairwise fun e e' => key e.1<key e'.1 := by
  induction l with
  | nil => exact pairwise_singleton _ e
  | cons b l ih =>
    have hb:=hne b mem_cons_self
    rw [treeInsert]
    split_ifs with h₁ h₂
    · rw [lt_iff_key] at h₁
      refine pairwise_cons.mpr ⟨fun e' he' => ?_,hs⟩
      rcases mem_cons.mp he' with rfl | he'
      · exact h₁
      · exact h₁.trans (rel_of_pairwise_cons hs he')
    · rw [lt_iff_key] at h₂
      refine pairwise_cons.mpr ⟨fun e' he' => ?_,ih hs.of_cons fun e' he' => hne e' (mem_cons_of_mem b he')⟩
      rcases mem_treeInsert e' he' with rfl | he'
      · exact h₂
      · exact rel_of_pairwise_cons hs he'
    · exact hs

theorem treeInsert_pairwise {R : Entry V → Entry V → Prop} (hsymm : ∀ e e',R e e' → R e' e)
    (hl : l.Pairwise R) (he : ∀ e'∈l,R e e') : (treeInsert e l).2.Pairwise R := by
  induction l with
  | nil => exact pairwise_singleton _ e
  | cons b l ih =>
    rw [treeInsert]
    split_ifs with h₁ h₂
    · exact pairwise_cons.mpr ⟨he,hl⟩
    · refine pairwise_cons.mpr ⟨fun e' he' => ?_,ih hl.of_cons fun e' he' => he e' (mem_cons_of_mem b he')⟩
      rcases mem_treeInsert e' he' with rfl | he'
      · exact hsymm _ _ (he b mem_cons_self)
      · exact rel_of_pairwise_cons hl he'
    · exact hl

theorem insert_cases (h : t.insert n r d = .ok (res,t')) :
    ∃ hit t1,t.intersects n r = .ok (hit,t1) ∧ ((hit.isSome=true ∧ res=none ∧ t'=t1) ∨
      (hit=none ∧ res=some (treeInsert (r,d) t1.tree).1 ∧ t'={t1 with tree := (treeInsert (r,d) t1.tree).2})) := by
  rw [insert] at h
  cases hi : t.intersects n r with
  | error f =>
    rw [hi] at h
    cases h
  | ok p =>
    obtain ⟨hit,t1⟩:=p
    rw [hi] at h
    cases hit with
    | some e =>
      cases h
      exact ⟨some e,t',rfl,.inl ⟨rfl,rfl,rfl⟩⟩
    | none =>
      cases h
      exact ⟨none,t1,rfl,.inr ⟨rfl,rfl,rfl⟩⟩

theorem insert_of_intersects {hit : Option (Entry V)} (h : t.intersects n r = .ok (hit,t')) :
    ∃ res t'',t.insert n r d = .ok (res,t'') ∧ (res=none ↔ hit.isSome=true) := by
  rw [insert,h]
  cases hit with
  | some e => exact ⟨none,t',rfl,iff_of_true rfl rfl⟩
  | none => exact ⟨_,_,rfl,iff_of_false (by simp) (by simp)⟩

theorem insert_iff (h : Fits t r) (hf : Family t) :
    (∃ res t',t.insert n r d = .ok (res,t') ∧ (res=none ↔ ∃ e∈t.tree,Meets r e.1)) ↔ Tests t r := by
  rw [← h.detects_iff (n := n) hf]
  constructor
  · rintro ⟨res,t',hins,hiff⟩
    obtain ⟨hit,t1,hfind,hcase⟩:=insert_cases hins
    refine ⟨hit,t1,hfind,?_⟩
    rw [← hiff]
    rcases hcase with ⟨hsome,hres,_⟩ | ⟨hnone,hres,_⟩
    · simp [hsome,hres]
    · simp [hnone,hres]
  · rintro ⟨hit,t1,hfind,hiff⟩
    obtain ⟨res,t',hins,hres⟩:=insert_of_intersects (d := d) hfind
    exact ⟨res,t',hins,hres.trans hiff⟩

theorem key_ne_of_apart (hr : Valid r) (hr' : Valid r') (h : Apart r r') : key r'≠key r := by
  have hlt:=BitVec.lt_def.mp hr.start_lt
  have hlt':=BitVec.lt_def.mp hr'.start_lt
  have hm:=r.intlvMatch.isLt
  have hm':=r'.intlvMatch.isLt
  rw [Apart,BitVec.le_def,BitVec.le_def] at h
  unfold key
  omega

theorem key_ne_of_sibling (h : Sibling r r') (hne : r≠r') : key r'≠key r := by
  have hst:=congrArg BitVec.toNat h.2.1
  intro hkey
  unfold key at hkey
  refine hne ((Sibling.eq_iff h).mpr (BitVec.eq_of_toNat_eq ?_))
  omega

theorem Family.insert (hf : Family t) (h : Fits t r) (hins : t.insert n r d = .ok (res,t')) : Family t' := by
  obtain ⟨hit,t1,hfind,hcase⟩:=insert_cases hins
  obtain ⟨htree,hcached⟩:=find_frame hfind hf.cached
  rcases hcase with ⟨_,_,rfl⟩ | ⟨rfl,_,rfl⟩
  · exact ⟨htree ▸ hf.sorted,htree ▸ hf.valid,htree ▸ hf.apart,hcached⟩
  · by_cases hin : ∃ e∈t.tree,e.1=r
    · obtain ⟨e0,he0,heq⟩:=hin
      have hsame : (treeInsert (r,d) t1.tree).2=t.tree := by
        rw [htree]
        exact treeInsert_existing hf.sorted he0 (by rw [heq])
      refine ⟨hsame ▸ hf.sorted,hsame ▸ hf.valid,hsame ▸ hf.apart,fun e he => ?_⟩
      rw [hsame,← htree]
      exact hcached e he
    · have hrel : ∀ e∈t.tree,Apart r e.1 ∨ Sibling r e.1 := by
        intro e he
        rcases h.comparable e he with hap | hsib | ⟨hp,hp'⟩
        · exact .inl hap
        · exact .inr hsib
        · by_contra hnot
          obtain ⟨hit,t'',hfind',hiff⟩:=h.detects_of_sizes (n := n) hf fun e _ hsib => absurd hp hsib.1
          cases hfind.symm.trans hfind'
          have hmeets:=meets_plain h.valid (hf.valid e he) (fun hap => hnot (.inl hap)) hp hp'
          exact Bool.false_ne_true (hiff.mpr ⟨e,he,hmeets⟩)
      have hkey : ∀ e∈t.tree,key e.1≠key r := by
        intro e he
        rcases hrel e he with hap | hsib
        · exact key_ne_of_apart h.valid (hf.valid e he) hap
        · exact key_ne_of_sibling hsib fun heq => hin ⟨e,he,heq.symm⟩
      rw [← htree] at hrel hkey
      refine ⟨treeInsert_sorted (htree ▸ hf.sorted) hkey,fun e he => ?_,
        treeInsert_pairwise (fun _ _ => Or.imp Apart.symm Sibling.symm) (htree ▸ hf.apart) hrel,
        fun e he => treeInsert_keeps e (hcached e he)⟩
      rcases mem_treeInsert e he with rfl | he
      · exact h.valid
      · exact hf.valid e (htree ▸ he)

/-- The maps that insertions of comparable ranges build, with lookups in between. -/
inductive Built (n : ℕ) : AddrRangeMap V → Prop
  | empty : Built n empty
  | insert {t t' : AddrRangeMap V} {r : AddrRange} {d : V} {res : Option (Entry V)} (ht : Built n t) (hr : Fits t r)
      (h : t.insert n r d = .ok (res,t')) : Built n t'
  | lookup {t t' : AddrRangeMap V} {a : Addr} {res : Option (Entry V)} (ht : Built n t)
      (h : t.contains n a = .ok (res,t')) : Built n t'

theorem Built.family (h : Built n t) : Family t := by
  induction h with
  | empty => exact ⟨Pairwise.nil,fun _ he => absurd he not_mem_nil,Pairwise.nil,fun _ he => he⟩
  | insert _ hr hins ih => exact ih.insert hr hins
  | lookup _ hfind ih =>
    obtain ⟨htree,hcached⟩:=find_frame hfind ih.cached
    exact ⟨htree ▸ ih.sorted,htree ▸ ih.valid,htree ▸ ih.apart,hcached⟩

/-- Lookups and insertions are exact for the addresses the search reaches and the ranges its
test can tell apart. -/
theorem decoding_iff (h : Built n t) :
    (∀ a,(∃ t',t.contains n a = .ok (t.scan a,t')) ↔ Reaches t a) ∧
      ∀ r d,Fits t r → ((∃ res t',t.insert n r d = .ok (res,t') ∧ (res=none ↔ ∃ e∈t.tree,Meets r e.1)) ↔ Tests t r) := by
  constructor
  · intro a
    exact lookup_iff h.family
  · intro r d hr
    exact insert_iff hr h.family

def sides : AddrRangeMap ℕ := ⟨[(⟨0,16,[],0⟩,7),(⟨16,32,[],0⟩,8)],[]⟩

/-- Two plain ranges side by side, the upper one inserted first. -/
theorem decoding_halves : ∃ t' : AddrRangeMap ℕ,sides.contains 3 20 = .ok (some (⟨16,32,[],0⟩,8),t') := by
  have hupper : (empty : AddrRangeMap ℕ).insert 3 ⟨16,32,[],0⟩ 8 =
      .ok (some (⟨16,32,[],0⟩,8),⟨[(⟨16,32,[],0⟩,8)],[]⟩) := by decide +kernel
  have hlower : (⟨[(⟨16,32,[],0⟩,8)],[]⟩ : AddrRangeMap ℕ).insert 3 ⟨0,16,[],0⟩ 7 =
      .ok (some (⟨0,16,[],0⟩,7),sides) := by decide +kernel
  have hbuilt : Built 3 sides := .insert (.insert .empty ⟨⟨⟨16,by decide +kernel⟩,by decide⟩,
    fun e he => absurd he not_mem_nil⟩ hupper) ⟨⟨⟨0,by decide +kernel⟩,by decide⟩,
    fun e he => .inr (.inr ⟨rfl,mem_singleton.mp he ▸ rfl⟩)⟩ hlower
  have hplain : ∀ e∈sides.tree,e.1.interleaved=false ∧ e.1.masks=[] ∧ (20 : Addr)≠e.1._start := by decide
  have hscan : sides.scan 20=some (⟨16,32,[],0⟩,8) := by decide +kernel
  rw [← hscan]
  refine ((decoding_iff hbuilt).1 20).mpr ⟨fun h => absurd h (by decide),fun e he _ => ?_,fun e he _ hi => ?_,
    fun e he _ => .inr (.inl (hplain e he).2.2)⟩
  · rw [(hplain e he).2.1]
    decide
  · rw [(hplain e he).1] at hi
    cases hi

def way (intlvMatch : BitVec 8) : AddrRange := ⟨0x80000000,0x100000000,[0x40000040,0x80000080],intlvMatch⟩

theorem fits_way {intlvMatch : BitVec 8} (ha : (way intlvMatch).Has a) (hlt : intlvMatch.toNat<4)
    (ht : ∀ e∈t.tree,∃ m,e.1=way m) : Fits t (way intlvMatch) := by
  refine ⟨⟨⟨a,ha⟩,hlt⟩,fun e he => .inr (.inl ?_)⟩
  obtain ⟨m,hm⟩:=ht e he
  rw [hm]
  exact ⟨cons_ne_nil _ _,rfl,rfl,rfl⟩

/-- The first address belongs to way 2, and the lookup ends after the ways 1 and 0. -/
theorem not_decoding_four_ways : ∃ t : AddrRangeMap ℕ,Built 0 t ∧ (∃ e∈t.tree,e.1.Has 0x80000000) ∧
    t.contains 0 0x80000000 = .ok (none,t) ∧ ofHighBits 0x80000000 0x100000000 7 31 2 2 = .ok (way 2) := by
  have h0 : (empty : AddrRangeMap ℕ).insert 0 (way 0) 0 = .ok (some (way 0,0),⟨[(way 0,0)],[]⟩) := by decide +kernel
  have h1 : (⟨[(way 0,0)],[]⟩ : AddrRangeMap ℕ).insert 0 (way 1) 1 =
      .ok (some (way 1,1),⟨[(way 0,0),(way 1,1)],[]⟩) := by decide +kernel
  have h2 : (⟨[(way 0,0),(way 1,1)],[]⟩ : AddrRangeMap ℕ).insert 0 (way 2) 2 =
      .ok (some (way 2,2),⟨[(way 0,0),(way 1,1),(way 2,2)],[]⟩) := by decide +kernel
  have h3 : (⟨[(way 0,0),(way 1,1),(way 2,2)],[]⟩ : AddrRangeMap ℕ).insert 0 (way 3) 3 =
      .ok (some (way 3,3),⟨[(way 0,0),(way 1,1),(way 2,2),(way 3,3)],[]⟩) := by decide +kernel
  have a0 : (way 0).Has 0x80000080 := by decide +kernel
  have a1 : (way 1).Has 0x800000C0 := by decide +kernel
  have a2 : (way 2).Has 0x80000000 := by decide +kernel
  have a3 : (way 3).Has 0x80000040 := by decide +kernel
  have b1:=Built.insert .empty (fits_way a0 (by decide) fun e he => absurd he List.not_mem_nil) h0
  have b2:=Built.insert b1 (fits_way a1 (by decide) (by simp)) h1
  have b3:=Built.insert b2 (fits_way a2 (by decide) (by simp)) h2
  have b4:=Built.insert b3 (fits_way a3 (by decide) (by simp)) h3
  exact ⟨_,b4,⟨(way 2,2),by simp,a2⟩,by decide +kernel,by decide +kernel⟩

end AddrRangeMap
end AquaGem5.Address
