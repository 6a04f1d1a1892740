import AquaGem5.Address.Interleave
import AquaGem5.Lib.Search

/-!
# The address range map (addr_range_map.hh)

The tree is the list of its entries in the order of `operator<`, and an iterator is the entry it
stands at; `none` is `end()`. The capacity of the cache is a template argument.
-/

namespace AquaGem5.Address
open Bits Search

variable {V : Type}

abbrev Entry (V : Type) := AddrRange × V

structure AddrRangeMap (V : Type) where
  tree : List (Entry V)
  cache : List (Entry V)
  deriving DecidableEq

namespace AddrRangeMap
open AddrRange

def empty : AddrRangeMap V := ⟨[],[]⟩

def addNewEntryToCache (maxCacheSize : ℕ) (t : AddrRangeMap V) (e : Entry V) : AddrRangeMap V :=
  if maxCacheSize=0 then t
  else if maxCacheSize≤t.cache.length then
    if 1 < maxCacheSize then {t with cache := e::t.cache.dropLast}
    else {t with cache := t.cache.dropLast++[e]}
  else {t with cache := e::t.cache}

def promote (cond : AddrRange → Except Fault Bool) : List (Entry V) → Except Fault (Option (Entry V × List (Entry V)))
  | [] => .ok none
  | e::es => do
    if ← cond e.1 then return some (e,es)
    let hit ← promote cond es
    return hit.map fun (e',rest) => (e',e::rest)

def walkLeft (cond : AddrRange → Except Fault Bool) (i : Entry V) : List (Entry V) → Except Fault (Option (Entry V))
  | [] => do
    if ← cond i.1 then return some i
    return none
  | next::rest => do
    if ← cond i.1 then return some i
    if next.1.mergesWith i.1 then walkLeft cond next rest else return none

/-- `tree.upper_bound(r)` splits the tree here. -/
def below (t : AddrRangeMap V) (r : AddrRange) : List (Entry V) := t.tree.takeWhile fun e => !r.lt e.1

def above (t : AddrRangeMap V) (r : AddrRange) : List (Entry V) := t.tree.dropWhile fun e => !r.lt e.1

def findLeft (maxCacheSize : ℕ) (cond : AddrRange → Except Fault Bool) (t : AddrRangeMap V) :
    List (Entry V) → Except Fault (Option (Entry V) × AddrRangeMap V)
  | [] => .ok (none,t)
  | i::rest => do
    let hit ← walkLeft cond i rest
    return (hit,hit.elim t (t.addNewEntryToCache maxCacheSize))

def findTree (maxCacheSize : ℕ) (cond : AddrRange → Except Fault Bool) (t : AddrRangeMap V) (r : AddrRange) :
    Except Fault (Option (Entry V) × AddrRangeMap V) :=
  match t.above r with
  | [] => t.findLeft maxCacheSize cond (t.below r).reverse
  | next::_ => do
    if ← cond next.1 then return (some next,t.addNewEntryToCache maxCacheSize next)
    t.findLeft maxCacheSize cond (t.below r).reverse

def find (maxCacheSize : ℕ) (cond : AddrRange → Except Fault Bool) (t : AddrRangeMap V) (r : AddrRange) :
    Except Fault (Option (Entry V) × AddrRangeMap V) := do
  match ← promote cond t.cache with
  | some (e,rest) => return (some e,{t with cache := e::rest})
  | none => t.findTree maxCacheSize cond r

def contains (maxCacheSize : ℕ) (t : AddrRangeMap V) (a : Addr) : Except Fault (Option (Entry V) × AddrRangeMap V) :=
  t.find maxCacheSize (rangeSize a 1).isSubset (rangeSize a 1)

def intersects (maxCacheSize : ℕ) (t : AddrRangeMap V) (r : AddrRange) :
    Except Fault (Option (Entry V) × AddrRangeMap V) :=
  t.find maxCacheSize r.intersects r

def treeInsert (e : Entry V) : List (Entry V) → Entry V × List (Entry V)
  | [] => (e,[e])
  | e'::es =>
    if e.1.lt e'.1 then (e,e::e'::es)
    else if e'.1.lt e.1 then ((treeInsert e es).1,e'::(treeInsert e es).2)
    else (e',e'::es)

def insert (maxCacheSize : ℕ) (t : AddrRangeMap V) (r : AddrRange) (d : V) :
    Except Fault (Option (Entry V) × AddrRangeMap V) := do
  let (hit,t') ← t.intersects maxCacheSize r
  if hit.isSome then return (none,t')
  else return (some (treeInsert (r,d) t'.tree).1,{t' with tree := (treeInsert (r,d) t'.tree).2})

variable [DecidableEq V]

def cacheRemove (p : Option (Entry V)) (cache : List (Entry V)) : List (Entry V) := cache.filter fun e => some e≠p

def erase (t : AddrRangeMap V) (p : Entry V) : AddrRangeMap V :=
  ⟨t.tree.filter fun e => e≠p,cacheRemove (some p) t.cache⟩

def segment (t : AddrRangeMap V) (p q : Option (Entry V)) : List (Entry V) :=
  (t.tree.dropWhile fun e => some e≠p).takeWhile fun e => some e≠q

/-- `erase(p, q)`: the loop over the entries removes `p` each time. -/
def eraseRange (t : AddrRangeMap V) (p q : Option (Entry V)) : AddrRangeMap V :=
  ⟨t.tree.filter fun e => e∉t.segment p q,(t.segment p q).foldl (fun cache _ => cacheRemove p cache) t.cache⟩

def clear (_ : AddrRangeMap V) : AddrRangeMap V := ⟨[],[]⟩

end AddrRangeMap
/-!
## What the lookup examines, and when that is exact
-/

open AddrRange List BitVec
variable {n : ℕ} {t t' : AddrRangeMap V} {r : AddrRange} {a : Addr} {d : V} {e e0 : Entry V} {res : Option (Entry V)}
  {cond : AddrRange → Except Fault Bool}

namespace AddrRange

def Has (r : AddrRange) (a : Addr) : Prop :=
  (r._start≤a ∧ a<r._end) ∧ ∀ p∈r.masks.zipIdx,parity (a &&& p.1)=r.intlvMatch.getLsbD p.2

instance (r : AddrRange) (a : Addr) : Decidable (r.Has a) := inferInstanceAs (Decidable (_ ∧ _))

structure Valid (r : AddrRange) : Prop where
  inhabited : ∃ a,r.Has a
  fits : r.intlvMatch.toNat<2^r.masks.length

theorem Valid.start_lt (h : Valid r) : r._start<r._end := by
  obtain ⟨a,⟨hle,hlt⟩,_⟩:=h.inhabited
  rw [lt_def] at hlt ⊢
  exact Nat.lt_of_le_of_lt (le_def.mp hle) hlt

def Meets (r r' : AddrRange) : Prop := ∃ a,r.Has a ∧ r'.Has a

def Apart (r r' : AddrRange) : Prop := r._end≤r'._start ∨ r'._end≤r._start

def Sibling (r r' : AddrRange) : Prop :=
  r.masks≠[] ∧ r._start=r'._start ∧ r._end=r'._end ∧ r.masks=r'.masks

variable {r' : AddrRange}

theorem Apart.symm (h : Apart r r') : Apart r' r := Or.symm h

theorem Sibling.symm (h : Sibling r r') : Sibling r' r :=
  ⟨h.2.2.2 ▸ h.1,h.2.1.symm,h.2.2.1.symm,h.2.2.2.symm⟩

theorem Sibling.trans {r' r'' : AddrRange} (h : Sibling r r') (h' : Sibling r' r'') : Sibling r r'' :=
  ⟨h.1,h.2.1.trans h'.2.1,h.2.2.1.trans h'.2.2.1,h.2.2.2.trans h'.2.2.2⟩

theorem Sibling.mergesWith (h : Sibling r r') : r.mergesWith r'=true :=
  decide_eq_true ⟨h.2.1.symm,h.2.2.1.symm,h.2.2.2.symm⟩

theorem Apart.not_meets (h : Apart r r') : ¬Meets r r' := by
  rintro ⟨a,⟨⟨hle,hlt⟩,_⟩,⟨⟨hle',hlt'⟩,_⟩⟩
  simp only [le_def,lt_def] at hle hlt hle' hlt'
  rcases h with h | h
  · rw [le_def] at h
    omega
  · rw [le_def] at h
    omega

theorem Sibling.eq_of_meets (h : Sibling r r') (hr : Valid r) (hr' : Valid r') (hm : Meets r r') : r=r' := by
  obtain ⟨a,⟨_,hpar⟩,⟨_,hpar'⟩⟩:=hm
  obtain ⟨_,hstart,hend,hmasks⟩:=h
  have hfits:=hr.fits
  have hfits':=hr'.fits
  have hmatch : r.intlvMatch=r'.intlvMatch := by
    apply eq_of_getLsbD_eq
    intro j _
    by_cases hj : j<r.masks.length
    · have hmem : (r.masks[j],j)∈r.masks.zipIdx := mem_zipIdx_iff_getElem?.mpr (getElem?_eq_getElem hj)
      have hmem' : (r.masks[j],j)∈r'.masks.zipIdx := by
        rw [← hmasks]
        exact hmem
      exact (hpar _ hmem).symm.trans (hpar' _ hmem')
    · have hpow : 2^r.masks.length≤2^j := Nat.pow_le_pow_right (by decide) (by omega)
      rw [← testBit_toNat,← testBit_toNat,Nat.testBit_lt_two_pow (hfits.trans_le hpow),
        Nat.testBit_lt_two_pow ((hmasks ▸ hfits').trans_le hpow)]
  cases r
  cases r'
  simp_all

def Covers (r : AddrRange) (a : Addr) : Prop := r._start≤a ∧ a<r._end

instance (r : AddrRange) (a : Addr) : Decidable (Covers r a) := inferInstanceAs (Decidable (_ ∧ _))

theorem Covers.not_apart (h : Covers r a) (h' : Covers r' a) : ¬Apart r r' := by
  obtain ⟨hle,hlt⟩:=h
  obtain ⟨hle',hlt'⟩:=h'
  simp only [le_def,lt_def] at hle hlt hle' hlt'
  intro hap
  rcases hap with hap | hap
  · rw [le_def] at hap
    omega
  · rw [le_def] at hap
    omega

theorem Sibling.covers (h : Sibling r r') (hc : Covers r a) : Covers r' a := by
  rw [Covers,← h.2.1,← h.2.2.1]
  exact hc

theorem interleaved_iff : r.interleaved=true ↔ r.masks≠[] := by
  rw [interleaved,decide_eq_true_eq,length_pos_iff]

theorem has_iff (hlen : r.masks.length≤32) (hr : r.intlvMatch.toNat<2^r.masks.length) :
    r.Has a ↔ (r._start≤a ∧ a<r._end) ∧ r.sel a = .ok (r.intlvMatch.setWidth 32) := by
  rw [Has,sel_eq_iff hlen hr]
  refine and_congr_right fun _ => ?_
  constructor
  · intro h k m hk
    exact h (m,k) (mem_zipIdx_iff_getElem?.mpr hk)
  · intro h p hp
    exact h p.2 p.1 (mem_zipIdx_iff_getElem?.mp hp)

theorem contains_ok (hlen : r.masks.length≤32) (hr : r.intlvMatch.toNat<2^r.masks.length) (a : Addr) :
    r.contains a = .ok (decide (r.Has a)) := by
  unfold AddrRange.contains
  split_ifs with hin
  · obtain ⟨s,hs,_⟩:=selLoop_ok a (show 0+r.masks.length≤32 by omega) 0#32
    have hsel : r.sel a = .ok s := hs
    have hiff : r.Has a ↔ s=r.intlvMatch.setWidth 32 := by
      rw [has_iff hlen hr,hsel]
      exact ⟨fun h => Except.ok.inj h.2,fun h => ⟨hin,by rw [h]⟩⟩
    rw [hsel]
    exact congrArg Except.ok (decide_eq_decide.mpr hiff.symm)
  · rw [decide_eq_false fun h : r.Has a => hin h.1]

theorem contains_outside (h : ¬(r._start≤a ∧ a<r._end)) : r.contains a = .ok false := if_neg h

theorem selLoop_fault {ms : List Addr} {i : ℕ} (hi : 32 < i+ms.length) (hi' : i≤32) (s : BitVec 32) :
    selLoop a i ms s = .error .shift := by
  induction ms generalizing i s with
  | nil =>
    simp only [length_nil] at hi
    omega
  | cons m ms ih =>
    simp only [length_cons] at hi
    rw [selLoop]
    split_ifs with hlt
    · exact ih (by omega) (by omega) _
    · rfl

theorem contains_fault (hlen : 32<r.masks.length) (hin : r._start≤a ∧ a<r._end) : r.contains a = .error .shift := by
  have hsel : r.sel a = .error .shift := selLoop_fault (by omega) (by omega) _
  rw [AddrRange.contains,if_pos hin,hsel]
  rfl

def Fine (r : AddrRange) : Prop := ∃ g,r.granularity = .ok g

theorem granularity_pos {g : Addr} (hi : r.interleaved=true) (h : r.granularity = .ok g) : 1#64≤g := by
  unfold granularity at h
  rw [if_pos hi] at h
  dsimp only at h
  split_ifs at h with hlow
  cases h
  have htwo : 1#64 <<< ctz64 ((combinedMask r.masks).signExtend 64) =
      twoPow 64 (ctz64 ((combinedMask r.masks).signExtend 64)) := by rw [twoPow]
  rw [le_def,htwo,toNat_twoPow_of_lt hlow]
  exact Nat.one_le_two_pow

theorem plain_rangeSize (a : Addr) : (rangeSize a 1).interleaved=false := rfl

theorem rangeSize_size (a : Addr) : (rangeSize a 1).size=1#64 := by
  simp only [size,rangeSize,length_nil,ushiftRight_zero]
  rw [add_comm,add_sub_cancel]
  rfl

theorem isSubset_plain (hp : r.masks=[]) : (rangeSize a 1).isSubset r = .ok (decide (r._start≤a ∧ a+1≤r._end)) := by
  have hnot : r.interleaved=false := by simp [interleaved,hp]
  rw [isSubset,plain_rangeSize,hnot]
  rfl

theorem isSubset_interleaved (hi : r.interleaved=true) :
    (rangeSize a 1).isSubset r=(r.contains a >>= fun b => if b then
      r.granularity >>= fun g => .ok (decide (1#64≤g)) else .ok false) := by
  have hback : (rangeSize a 1)._end-1=a := by simp [rangeSize]
  have hstart : (rangeSize a 1)._start=a := rfl
  rw [isSubset,plain_rangeSize,hi,hback,hstart,rangeSize_size]
  cases r.contains a with
  | error f => rfl
  | ok b =>
    cases b with
    | false | true => rfl

end AddrRange

namespace AddrRangeMap

def merges (next i : Entry V) : Bool := next.1.mergesWith i.1

def examined (t : AddrRangeMap V) (r : AddrRange) : List (Entry V) :=
  t.cache++((t.above r).head?.toList++chain merges (t.below r).reverse)

theorem promote_result (cond : AddrRange → Except Fault Bool) (l : List (Entry V)) :
    (promote cond l >>= fun hit => .ok (hit.map Prod.fst))=l.findM? fun e => cond e.1 := by
  induction l with
  | nil => rfl
  | cons e l ih =>
    rw [findM_cons,← ih,promote]
    cases cond e.1 with
    | error f => rfl
    | ok b =>
      cases b with
      | true => rfl
      | false =>
        cases promote cond l with
        | error f => rfl
        | ok hit => cases hit <;> rfl

theorem walkLeft_result (cond : AddrRange → Except Fault Bool) (i : Entry V) (l : List (Entry V)) :
    walkLeft cond i l=(chain merges (i::l)).findM? fun e => cond e.1 := by
  induction l generalizing i with
  | nil =>
    rw [walkLeft,chain,findM_cons]
    cases cond i.1 with
    | error f => rfl
    | ok b => cases b <;> rfl
  | cons next l ih =>
    rw [walkLeft,chain,findM_cons,ih]
    cases cond i.1 with
    | error f => rfl
    | ok b =>
      cases b with
      | true => rfl
      | false =>
        rw [merges]
        cases next.1.mergesWith i.1 <;> rfl

theorem findLeft_result (n : ℕ) (cond : AddrRange → Except Fault Bool) (t : AddrRangeMap V) (l : List (Entry V)) :
    (findLeft n cond t l >>= fun hit => .ok hit.1)=(chain merges l).findM? fun e => cond e.1 := by
  cases l with
  | nil => rfl
  | cons i l =>
    rw [← walkLeft_result,findLeft]
    cases walkLeft cond i l <;> rfl

theorem find_result (n : ℕ) (cond : AddrRange → Except Fault Bool) (t : AddrRangeMap V) (r : AddrRange) :
    (t.find n cond r >>= fun hit => .ok hit.1)=(t.examined r).findM? fun e => cond e.1 := by
  have hleft:=findLeft_result n cond t (t.below r).reverse
  have htree : (t.findTree n cond r >>= fun hit => .ok hit.1) =
      ((t.above r).head?.toList++chain merges (t.below r).reverse).findM? fun e => cond e.1 := by
    unfold findTree
    cases t.above r with
    | nil => exact hleft
    | cons next rest =>
      rw [head?_cons,Option.toList_some,singleton_append,findM_cons,← hleft]
      dsimp only
      cases cond next.1 with
      | error f => rfl
      | ok b => cases b <;> rfl
  rw [examined,findM_append,← promote_result,← htree,find]
  cases promote cond t.cache with
  | error f => rfl
  | ok hit =>
    cases hit <;> rfl

theorem addNewEntryToCache_tree (n : ℕ) (t : AddrRangeMap V) (e : Entry V) :
    (t.addNewEntryToCache n e).tree=t.tree := by
  unfold addNewEntryToCache
  split_ifs <;> rfl

theorem addNewEntryToCache_cache (n : ℕ) (t : AddrRangeMap V) (e : Entry V) :
    ∀ e'∈(t.addNewEntryToCache n e).cache,e'=e ∨ e'∈t.cache := by
  intro e' he'
  have hlast : e'∈t.cache.dropLast → e'∈t.cache := fun h => (dropLast_sublist _).subset h
  unfold addNewEntryToCache at he'
  split_ifs at he' with h0 hfull h1
  · exact .inr he'
  · exact (mem_cons.mp he').imp id hlast
  · exact (mem_append.mp he').symm.imp mem_singleton.mp hlast
  · exact mem_cons.mp he'

theorem mem_of_promote {l rest : List (Entry V)} (h : promote cond l = .ok (some (e,rest))) : e∈l ∧ ∀ e'∈rest,e'∈l := by
  induction l generalizing e rest with
  | nil => cases h
  | cons e' l ih =>
    rw [promote] at h
    cases hc : cond e'.1 with
    | error f =>
      rw [hc] at h
      cases h
    | ok b =>
      rw [hc] at h
      cases b with
      | true =>
        cases h
        exact ⟨mem_cons_self,fun e hmem => mem_cons_of_mem _ hmem⟩
      | false =>
        cases hp : promote cond l with
        | error f =>
          rw [hp] at h
          cases h
        | ok hit =>
          rw [hp] at h
          cases hit with
          | none => cases h
          | some p =>
            cases h
            obtain ⟨hmem,hrest⟩:=ih hp
            refine ⟨mem_cons_of_mem _ hmem,fun e hmem => ?_⟩
            rcases mem_cons.mp hmem with rfl | hmem
            · exact mem_cons_self
            · exact mem_cons_of_mem _ (hrest e hmem)

theorem find_frame (h : t.find n cond r = .ok (res,t')) (hcache : ∀ e∈t.cache,e∈t.tree) :
    t'.tree=t.tree ∧ ∀ e∈t'.cache,e∈t'.tree := by
  have hadd : ∀ e∈t.tree,(t.addNewEntryToCache n e).tree=t.tree ∧
      ∀ e'∈(t.addNewEntryToCache n e).cache,e'∈(t.addNewEntryToCache n e).tree := by
    intro e he
    refine ⟨addNewEntryToCache_tree n t e,fun e' he' => ?_⟩
    rw [addNewEntryToCache_tree]
    rcases addNewEntryToCache_cache n t e e' he' with rfl | hmem
    · exact he
    · exact hcache e' hmem
  have hleft : ∀ l,(∀ e∈l,e∈t.tree) → findLeft n cond t l = .ok (res,t') →
      t'.tree=t.tree ∧ ∀ e∈t'.cache,e∈t'.tree := by
    intro l hl hfind
    cases l with
    | nil =>
      cases hfind
      exact ⟨rfl,hcache⟩
    | cons i l =>
      rw [findLeft] at hfind
      cases hw : walkLeft cond i l with
      | error f =>
        rw [hw] at hfind
        cases hfind
      | ok hit =>
        rw [hw] at hfind
        cases hit with
        | none =>
          cases hfind
          exact ⟨rfl,hcache⟩
        | some e =>
          cases hfind
          rw [walkLeft_result] at hw
          exact hadd e (hl e (chain_subset e (findM_some hw).1))
  have hbelow : ∀ e∈(t.below r).reverse,e∈t.tree := fun e he =>
    (takeWhile_sublist _).subset (mem_reverse.mp he)
  rw [find] at h
  cases hp : promote cond t.cache with
  | error f =>
    rw [hp] at h
    cases h
  | ok hit =>
    rw [hp] at h
    cases hit with
    | some p =>
      obtain ⟨e,rest⟩:=p
      cases h
      obtain ⟨he,hrest⟩:=mem_of_promote hp
      refine ⟨rfl,fun e' he' => ?_⟩
      rcases mem_cons.mp he' with rfl | hmem
      · exact hcache _ he
      · exact hcache _ (hrest _ hmem)
    | none =>
      change t.findTree n cond r=_ at h
      unfold findTree at h
      cases ha : t.above r with
      | nil =>
        rw [ha] at h
        exact hleft _ hbelow h
      | cons next rest =>
        have hnext : next∈t.tree :=
          (dropWhile_sublist _).subset (show next∈t.above r from ha ▸ mem_cons_self)
        rw [ha] at h
        dsimp only at h
        cases hc : cond next.1 with
        | error f =>
          rw [hc] at h
          cases h
        | ok b =>
          rw [hc] at h
          cases b with
          | true =>
            cases h
            exact hadd next hnext
          | false => exact hleft _ hbelow h

theorem find_eq_ok (h : (t.examined r).findM? (fun e => cond e.1) = .ok res) : ∃ t',t.find n cond r = .ok (res,t') := by
  rw [← find_result n] at h
  cases hf : t.find n cond r with
  | error f =>
    rw [hf] at h
    cases h
  | ok hit =>
    rw [hf] at h
    cases h
    exact ⟨hit.2,rfl⟩

theorem examined_of_find (h : t.find n cond r = .ok (res,t')) : (t.examined r).findM? (fun e => cond e.1) = .ok res := by
  rw [← find_result n,h]
  rfl

def key (r : AddrRange) : ℕ := r._start.toNat*256+r.intlvMatch.toNat

theorem lt_iff_key (r r' : AddrRange) : r.lt r'=true ↔ key r<key r' := by
  have hm:=r.intlvMatch.isLt
  have hm':=r'.intlvMatch.isLt
  unfold AddrRange.lt key
  split_ifs with hne
  · have hnat : r._start.toNat≠r'._start.toNat := fun h => hne (eq_of_toNat_eq h)
    rw [decide_eq_true_eq,lt_def]
    omega
  · rw [not_not.mp hne,decide_eq_true_eq,lt_def]
    omega

theorem not_lt_eq (r r' : AddrRange) : (!r.lt r')=decide (key r'≤key r) := by
  rw [Bool.eq_iff_iff,Bool.not_eq_true',← Bool.not_eq_true,lt_iff_key,decide_eq_true_eq,Nat.not_lt]

theorem below_eq (t : AddrRangeMap V) (r : AddrRange) :
    t.below r=t.tree.takeWhile fun e => decide (key e.1≤key r) := by
  simp only [below,not_lt_eq]

theorem above_eq (t : AddrRangeMap V) (r : AddrRange) :
    t.above r=t.tree.dropWhile fun e => decide (key e.1≤key r) := by
  simp only [above,not_lt_eq]

structure Family (t : AddrRangeMap V) : Prop where
  sorted : t.tree.Pairwise fun e e' => key e.1<key e'.1
  valid : ∀ e∈t.tree,Valid e.1
  apart : t.tree.Pairwise fun e e' => Apart e.1 e'.1 ∨ Sibling e.1 e'.1
  cached : ∀ e∈t.cache,e∈t.tree

theorem Family.eq_or (h : Family t) {e e' : Entry V} (he : e∈t.tree) (he' : e'∈t.tree) :
    e=e' ∨ Apart e.1 e'.1 ∨ Sibling e.1 e'.1 := by
  by_cases heq : e=e'
  · exact .inl heq
  · have hsymm : Std.Symm fun e e' : Entry V => Apart e.1 e'.1 ∨ Sibling e.1 e'.1 :=
      ⟨fun _ _ => Or.imp Apart.symm Sibling.symm⟩
    exact .inr (h.apart.forall he he' heq)

theorem Family.eq_of_key (h : Family t) {e e' : Entry V} (he : e∈t.tree) (he' : e'∈t.tree)
    (hkey : key e.1=key e'.1) : e=e' := by
  by_contra hne
  have hsymm : Std.Symm fun e e' : Entry V => key e.1≠key e'.1 := ⟨fun _ _ => Ne.symm⟩
  exact (h.sorted.imp fun hlt => Nat.ne_of_lt hlt).forall he he' hne hkey

theorem Family.eq_or_sibling (h : Family t) {e e' : Entry V} (he : e∈t.tree) (he' : e'∈t.tree)
    (hc : Covers e.1 a) (hc' : Covers e'.1 a) : e=e' ∨ Sibling e.1 e'.1 := by
  rcases h.eq_or he he' with heq | hap | hsib
  · exact .inl heq
  · exact absurd hap (hc.not_apart hc')
  · exact .inr hsib

theorem Family.covers_of_between (h : Family t) (he0 : e0∈t.tree) (he : e∈t.tree) (hc : Covers e0.1 a)
    (hlo : e0.1._start≤e.1._start) (hhi : e.1._start≤a) : Covers e.1 a := by
  rcases h.eq_or he0 he with rfl | hap | hsib
  · exact hc
  · have hpos:=(h.valid e he).start_lt
    obtain ⟨_,hlt⟩:=hc
    simp only [le_def,lt_def] at hlo hhi hlt hpos
    rcases hap with hap | hap
    · rw [le_def] at hap
      omega
    · rw [le_def] at hap
      omega
  · exact hsib.covers hc

theorem Family.mem_walk (h : Family t) (he0 : e0∈t.tree) (hc : Covers e0.1 r._start) (hkey : key e0.1≤key r) :
    e0∈chain merges (t.below r).reverse := by
  rw [below_eq]
  refine mem_chain_below (fun e : Entry V => key e.1) (P := fun e => e=e0 ∨ Sibling e.1 e0.1)
    ?_ h.sorted he0 hkey (.inl rfl) fun e he hlt hle => ?_
  · rintro e e' he he'
    rcases he with rfl | he
    · rcases he' with rfl | he'
      · exact decide_eq_true ⟨rfl,rfl,rfl⟩
      · exact he'.mergesWith
    · rcases he' with rfl | he'
      · exact he.symm.mergesWith
      · exact (he'.trans he.symm).mergesWith
  · have hm:=e.1.intlvMatch.isLt
    unfold key at hlt hle
    refine h.eq_or_sibling he he0 (h.covers_of_between he0 he hc ?_ ?_) hc
    · rw [le_def]
      omega
    · rw [le_def]
      omega

theorem mem_examined_of_walk (h : e∈chain merges (t.below r).reverse) : e∈t.examined r :=
  mem_append_right _ (mem_append_right _ h)

theorem mem_examined_of_head (h : (t.above r).head?=some e) : e∈t.examined r :=
  mem_append_right _ (mem_append_left _ (Option.mem_toList.mpr h))

theorem Family.mem_tree (h : Family t) (he : e∈t.examined r) : e∈t.tree := by
  rcases mem_append.mp he with he | he
  · exact h.cached e he
  · rcases mem_append.mp he with he | he
    · have hhead : (t.above r).head?=some e := Option.mem_toList.mp he
      rw [above_eq] at hhead
      exact (head_dropWhile (fun e : Entry V => key e.1) h.sorted hhead).1
    · exact (takeWhile_sublist _).subset (mem_reverse.mp (chain_subset e he))

theorem Family.covering_examined (h : Family t) (he0 : e0∈t.tree) (hc : Covers e0.1 r._start) :
    ∃ e∈t.examined r,Covers e.1 r._start := by
  by_cases hkey : key e0.1≤key r
  · exact ⟨e0,mem_examined_of_walk (h.mem_walk he0 hc hkey),hc⟩
  · obtain ⟨e,hhead,he,hlo,hhi⟩:=head_dropWhile_of_gt (fun e : Entry V => key e.1) h.sorted he0
      (show key r<key e0.1 by omega)
    refine ⟨e,mem_examined_of_head (by rw [above_eq]; exact hhead),?_⟩
    have hle:=le_def.mp hc.1
    unfold key at hlo hhi hkey
    refine h.covers_of_between he0 he hc ?_ ?_
    · rw [le_def]
      omega
    · rw [le_def]
      omega

end AddrRangeMap

end AquaGem5.Address
