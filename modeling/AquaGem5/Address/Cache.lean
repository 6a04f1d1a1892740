import AquaGem5.Address.Insertion

/-!
# The lookup cache of an address range map

An iterator in the cache is good for as long as its entry is in the tree.
-/

namespace AquaGem5.Address
open Search AddrRange List
namespace AddrRangeMap

variable {V : Type} {n : ℕ} {t t' : AddrRangeMap V} {r : AddrRange} {a : Addr} {d : V}
  {e : Entry V} {res : Option (Entry V)} {cond : AddrRange → Except Fault Bool} {p q : Option (Entry V)}

section
variable [DecidableEq V]

/-- Any calls from an empty map. `contains` and `intersects` are `find` with their conditions;
`Allowed` is what is asked of an `erase(p, q)`. -/
inductive Run (n : ℕ) (Allowed : AddrRangeMap V → Option (Entry V) → Option (Entry V) → Prop) : AddrRangeMap V → Prop
  | empty : Run n Allowed empty
  | insert {t t' : AddrRangeMap V} {r : AddrRange} {d : V} {res : Option (Entry V)} (ht : Run n Allowed t)
      (h : t.insert n r d = .ok (res,t')) : Run n Allowed t'
  | find {t t' : AddrRangeMap V} {cond : AddrRange → Except Fault Bool} {r : AddrRange} {res : Option (Entry V)}
      (ht : Run n Allowed t) (h : t.find n cond r = .ok (res,t')) : Run n Allowed t'
  | erase {t : AddrRangeMap V} {e : Entry V} (ht : Run n Allowed t) (he : e∈t.tree) : Run n Allowed (t.erase e)
  | eraseRange {t : AddrRangeMap V} {p q : Option (Entry V)} (ht : Run n Allowed t) (h : Allowed t p q) :
      Run n Allowed (t.eraseRange p q)
  | clear {t : AddrRangeMap V} (ht : Run n Allowed t) : Run n Allowed t.clear

/-- What an `erase(p, q)` forgets: only `p` leaves the cache. -/
def OnlyFirst (t : AddrRangeMap V) (p q : Option (Entry V)) : Prop :=
  ∀ e∈t.segment p q,some e≠p → e∉t.cache

end

structure Cached (n : ℕ) (t : AddrRangeMap V) : Prop where
  mem : ∀ e∈t.cache,e∈t.tree
  nodup : t.cache.Nodup
  size : t.cache.length≤n

theorem promote_perm {l rest : List (Entry V)} (h : promote cond l = .ok (some (e,rest))) : l.Perm (e::rest) := by
  induction l generalizing e rest with
  | nil => cases h
  | cons b l ih =>
    rw [promote] at h
    cases hc : cond b.1 with
    | error f =>
      rw [hc] at h
      cases h
    | ok c =>
      rw [hc] at h
      cases c with
      | true =>
        cases h
        exact .refl _
      | false =>
        cases hp : promote cond l with
        | error f =>
          rw [hp] at h
          cases h
        | ok hit =>
          rw [hp] at h
          cases hit with
          | none => cases h
          | some first =>
            cases h
            exact ((ih hp).cons b).trans (.swap _ _ _)

variable {l : List (Entry V)}

theorem not_mem_of_promote (h : promote cond l = .ok none) (he : cond e.1 = .ok true) : e∉l := by
  intro hmem
  have hfind:=promote_result cond l
  rw [h] at hfind
  have hfalse:=findM_none hfind.symm e hmem
  rw [he] at hfalse
  cases hfalse

theorem Cached.addNewEntryToCache (h : Cached n t) (he : e∈t.tree) (hnew : e∉t.cache) :
    Cached n (t.addNewEntryToCache n e) := by
  have hlast:=dropLast_sublist t.cache
  have hsize:=h.size
  unfold AddrRangeMap.addNewEntryToCache
  split_ifs with h0 hfull h1
  · exact h
  · refine ⟨fun x hx => ?_,nodup_cons.mpr ⟨fun hin => hnew (hlast.subset hin),h.nodup.sublist hlast⟩,?_⟩
    · cases mem_cons.mp hx with
      | inl hxe => exact hxe ▸ he
      | inr hin => exact h.mem x (hlast.subset hin)
    · rw [length_cons,length_dropLast]
      omega
  · have hone : t.cache.dropLast=[] := length_eq_zero_iff.mp (by rw [length_dropLast]; omega)
    rw [hone,nil_append]
    refine ⟨fun x hx => ?_,nodup_singleton e,by rw [length_singleton]; omega⟩
    rw [mem_singleton.mp hx]
    exact he
  · refine ⟨fun x hx => ?_,nodup_cons.mpr ⟨hnew,h.nodup⟩,by rw [length_cons]; omega⟩
    cases mem_cons.mp hx with
    | inl hxe => exact hxe ▸ he
    | inr hin => exact h.mem x hin

theorem Cached.findLeft (h : Cached n t) (hl : ∀ e∈l,e∈t.tree)
    (hmiss : promote cond t.cache = .ok none) (hfind : t.findLeft n cond l = .ok (res,t')) : Cached n t' := by
  cases l with
  | nil =>
    cases hfind
    exact h
  | cons i l =>
    rw [AddrRangeMap.findLeft] at hfind
    cases hw : walkLeft cond i l with
    | error f =>
      rw [hw] at hfind
      cases hfind
    | ok hit =>
      rw [hw] at hfind
      cases hit with
      | none =>
        cases hfind
        exact h
      | some e =>
        cases hfind
        rw [walkLeft_result] at hw
        obtain ⟨hin,hpass⟩:=findM_some hw
        exact h.addNewEntryToCache (hl e (chain_subset e hin)) (not_mem_of_promote hmiss hpass)

theorem Cached.find (h : Cached n t) (hfind : t.find n cond r = .ok (res,t')) : Cached n t' := by
  have hbelow : ∀ e∈(t.below r).reverse,e∈t.tree := fun e he =>
    (takeWhile_sublist _).subset (mem_reverse.mp he)
  rw [AddrRangeMap.find] at hfind
  cases hp : promote cond t.cache with
  | error f =>
    rw [hp] at hfind
    cases hfind
  | ok hit =>
    rw [hp] at hfind
    cases hit with
    | some first =>
      cases hfind
      have hperm:=promote_perm hp
      exact ⟨fun e he => h.mem e (hperm.symm.subset he),hperm.nodup_iff.mp h.nodup,hperm.length_eq ▸ h.size⟩
    | none =>
      change t.findTree n cond r=_ at hfind
      unfold findTree at hfind
      cases ha : t.above r with
      | nil =>
        rw [ha] at hfind
        exact h.findLeft hbelow hp hfind
      | cons next rest =>
        have hnext : next∈t.tree :=
          (dropWhile_sublist _).subset (show next∈t.above r from ha ▸ mem_cons_self)
        rw [ha] at hfind
        dsimp only at hfind
        cases hc : cond next.1 with
        | error f =>
          rw [hc] at hfind
          cases hfind
        | ok b =>
          rw [hc] at hfind
          cases b with
          | true =>
            cases hfind
            exact h.addNewEntryToCache hnext (not_mem_of_promote hp hc)
          | false => exact h.findLeft hbelow hp hfind

section
variable [DecidableEq V]

theorem mem_cacheRemove {cache : List (Entry V)} : e∈cacheRemove p cache ↔ e∈cache ∧ some e≠p := by
  rw [cacheRemove,mem_filter,decide_eq_true_eq]

theorem Cached.erase (h : Cached n t) (e : Entry V) : Cached n (t.erase e) := by
  refine ⟨fun x hx => ?_,h.nodup.filter _,Nat.le_trans (length_filter_le _ _) h.size⟩
  obtain ⟨hin,hne⟩:=mem_cacheRemove.mp hx
  exact mem_filter.mpr ⟨h.mem x hin,decide_eq_true fun heq => hne (congrArg some heq)⟩

theorem foldl_cacheRemove (l : List (Entry V)) (cache : List (Entry V)) :
    l.foldl (fun cache _ => cacheRemove p cache) cache=if l=[] then cache else cacheRemove p cache := by
  induction l generalizing cache with
  | nil => rfl
  | cons e l ih =>
    rw [foldl_cons,ih,if_neg (cons_ne_nil e l)]
    split
    next => rfl
    next => rw [cacheRemove,cacheRemove,filter_filter]; simp

theorem Cached.eraseRange_iff (h : Cached n t) : Cached n (t.eraseRange p q) ↔ OnlyFirst t p q := by
  have hcache : (t.eraseRange p q).cache=if t.segment p q=[] then t.cache else cacheRemove p t.cache :=
    foldl_cacheRemove _ _
  constructor
  · intro hc e he hne hin
    have hleft : e∈(t.eraseRange p q).cache := by
      rw [hcache]
      split
      next => exact hin
      next => exact mem_cacheRemove.mpr ⟨hin,hne⟩
    have hgone:=(mem_filter.mp (hc.mem e hleft)).2
    exact of_decide_eq_true hgone he
  · intro honly
    have hsub : (t.eraseRange p q).cache.Sublist t.cache := by
      rw [hcache]
      split
      next => exact .refl _
      next => exact filter_sublist
    refine ⟨fun x hx => ?_,h.nodup.sublist hsub,Nat.le_trans hsub.length_le h.size⟩
    refine mem_filter.mpr ⟨h.mem x (hsub.subset hx),decide_eq_true fun hin => ?_⟩
    rw [hcache] at hx
    split at hx
    next hempty =>
      rw [hempty] at hin
      cases hin
    next =>
      obtain ⟨hin',hne⟩:=mem_cacheRemove.mp hx
      exact honly x hin hne hin'

end

theorem insert_tree (h : t.insert n r d = .ok (res,t')) : ∃ hit t1,t.find n r.intersects r = .ok (hit,t1) ∧
    t'.cache=t1.cache ∧ (t'.tree=t1.tree ∨ t'.tree=(treeInsert (r,d) t1.tree).2) := by
  obtain ⟨hit,t1,hfind,hcase⟩:=insert_cases h
  refine ⟨hit,t1,hfind,?_⟩
  rcases hcase with ⟨_,_,rfl⟩ | ⟨_,_,rfl⟩
  · exact ⟨rfl,.inl rfl⟩
  · exact ⟨rfl,.inr rfl⟩

theorem sorted_treeInsert (hs : l.Pairwise fun e e' => key e.1<key e'.1) :
    (treeInsert e l).2.Pairwise fun e e' => key e.1<key e'.1 := by
  by_cases hkey : ∃ e0∈l,key e0.1=key e.1
  · obtain ⟨e0,he0,hsame⟩:=hkey
    rw [treeInsert_existing hs he0 hsame]
    exact hs
  · exact treeInsert_sorted hs fun e' he' hsame => hkey ⟨e',he',hsame⟩

theorem find_tree (hc : Cached n t) (h : t.find n cond r = .ok (res,t')) : t'.tree=t.tree := (find_frame h hc.mem).1

theorem Cached.insert (h : Cached n t) (hins : t.insert n r d = .ok (res,t')) : Cached n t' := by
  obtain ⟨hit,t1,hfind,hcache,htree⟩:=insert_tree hins
  have h₁:=h.find hfind
  refine ⟨fun e he => ?_,hcache ▸ h₁.nodup,hcache ▸ h₁.size⟩
  have hmem:=h₁.mem e (hcache ▸ he)
  cases htree with
  | inl hsame => exact hsame ▸ hmem
  | inr hnew =>
    rw [hnew]
    exact treeInsert_keeps e hmem

theorem Run.inv [DecidableEq V] (h : Run n OnlyFirst t) : Cached n t ∧ t.tree.Pairwise fun e e' => key e.1<key e'.1 := by
  induction h with
  | empty | clear _ _ => exact ⟨⟨fun e he => (by cases he),.nil,Nat.zero_le n⟩,.nil⟩
  | insert _ hins ih =>
    refine ⟨ih.1.insert hins,?_⟩
    obtain ⟨hit,t1,hfind,_,htree⟩:=insert_tree hins
    have hsame:=find_tree ih.1 hfind
    cases htree with
    | inl hold =>
      rw [hold,hsame]
      exact ih.2
    | inr hnew =>
      rw [hnew,hsame]
      exact sorted_treeInsert ih.2
  | find _ hfind ih => exact ⟨ih.1.find hfind,(find_tree ih.1 hfind) ▸ ih.2⟩
  | erase _ _ ih => exact ⟨ih.1.erase _,ih.2.filter _⟩
  | eraseRange _ honly ih => exact ⟨ih.1.eraseRange_iff.mpr honly,ih.2.filter _⟩

structure Settled (t : AddrRangeMap V) (a : Addr) : Prop where
  testable : ∀ e∈t.tree,∃ b,(rangeSize a 1).isSubset e.1 = .ok b
  alone : ∀ e∈t.cache,(rangeSize a 1).isSubset e.1 = .ok true → ∀ e'∈t.tree,(rangeSize a 1).isSubset e'.1 = .ok true → e'=e
  siblings : ∀ e∈t.cache,(rangeSize a 1).isSubset e.1 = .ok true → ∀ e'∈t.tree,e.1.lt e'.1=true →
    (rangeSize a 1).lt e'.1=false → e'.1.mergesWith e.1=true
  first : ∀ e∈t.cache,(rangeSize a 1).isSubset e.1 = .ok true → (rangeSize a 1).lt e.1=true →
    ∀ e'∈t.tree,(rangeSize a 1).lt e'.1=true → e'.1.lt e.1=false

theorem Settled.examined (h : Settled t a) (hs : t.tree.Pairwise fun e e' => key e.1<key e'.1) (hc : Cached n t)
    (he : e∈t.cache) (hpass : (rangeSize a 1).isSubset e.1 = .ok true) :
    e∈(⟨t.tree,[]⟩ : AddrRangeMap V).examined (rangeSize a 1) := by
  have hmem:=hc.mem e he
  by_cases hkey : key e.1≤key (rangeSize a 1)
  · refine mem_examined_of_walk ?_
    rw [below_eq]
    refine mem_chain_below (fun e : Entry V => key e.1) (P := fun e' => e'.1.mergesWith e.1=true) ?_ hs hmem hkey ?_
      fun e' he' hlt hle => ?_
    · intro x y hx hy
      have hx':=of_decide_eq_true hx
      have hy':=of_decide_eq_true hy
      exact decide_eq_true ⟨hx'.1.symm.trans hy'.1,hx'.2.1.symm.trans hy'.2.1,hx'.2.2.symm.trans hy'.2.2⟩
    · exact decide_eq_true ⟨rfl,rfl,rfl⟩
    · refine h.siblings e he hpass e' he' ((lt_iff_key _ _).mpr hlt) ?_
      rw [Bool.eq_false_iff,ne_eq,lt_iff_key]
      omega
  · have hafter : (rangeSize a 1).lt e.1=true := (lt_iff_key _ _).mpr (by omega)
    obtain ⟨b,hhead,hb,hlow,hhigh⟩:=head_dropWhile_of_gt (fun e : Entry V => key e.1) hs hmem (Nat.lt_of_not_le hkey)
    have hfirst:=h.first e he hpass hafter b hb ((lt_iff_key _ _).mpr hlow)
    rw [Bool.eq_false_iff,ne_eq,lt_iff_key] at hfirst
    have hsame : b=e := by
      by_contra hne
      have hsymm : Std.Symm fun e e' : Entry V => key e.1≠key e'.1 := ⟨fun _ _ => Ne.symm⟩
      exact (hs.imp fun hlt => Nat.ne_of_lt hlt).forall hb hmem hne (by omega)
    refine mem_examined_of_head ?_
    rw [above_eq,← hsame]
    exact hhead

theorem mem_tree_of_examined (he : e∈(⟨t.tree,[]⟩ : AddrRangeMap V).examined r) : e∈t.tree := by
  rw [AddrRangeMap.examined,nil_append] at he
  cases mem_append.mp he with
  | inl hhead => exact (dropWhile_sublist _).subset (mem_of_mem_head? (Option.mem_toList.mp hhead))
  | inr hwalk => exact (takeWhile_sublist _).subset (mem_reverse.mp (chain_subset e hwalk))

theorem Settled.contains (h : Settled t a) (hs : t.tree.Pairwise fun e e' => key e.1<key e'.1) (hc : Cached n t) :
    ∃ res t' t'',t.contains n a = .ok (res,t') ∧ (⟨t.tree,[]⟩ : AddrRangeMap V).contains 0 a = .ok (res,t'') := by
  let passes : Entry V → Bool := fun e => ((rangeSize a 1).isSubset e.1).toOption.getD false
  have htest : ∀ e∈t.tree,(rangeSize a 1).isSubset e.1 = .ok (passes e) := fun e he => by
    obtain ⟨b,hb⟩:=h.testable e he
    show _=Except.ok (((rangeSize a 1).isSubset e.1).toOption.getD false)
    rw [hb]
    rfl
  have hbare:=findM_eq_find fun e he => htest e (mem_tree_of_examined (r := rangeSize a 1) he)
  have hfull : (t.examined (rangeSize a 1)).findM? (fun e => (rangeSize a 1).isSubset e.1) =
      .ok ((t.cache++(⟨t.tree,[]⟩ : AddrRangeMap V).examined (rangeSize a 1)).find? passes) :=
    findM_eq_find fun e he => htest e <| by
      cases mem_append.mp he with
      | inl hin => exact hc.mem e hin
      | inr hin => exact mem_tree_of_examined (r := rangeSize a 1) hin
  have hsame : (t.cache++(⟨t.tree,[]⟩ : AddrRangeMap V).examined (rangeSize a 1)).find? passes =
      ((⟨t.tree,[]⟩ : AddrRangeMap V).examined (rangeSize a 1)).find? passes := by
    rw [find?_append]
    cases hhit : t.cache.find? passes with
    | none => rfl
    | some e =>
      have hin:=mem_of_find?_eq_some hhit
      have hpass : (rangeSize a 1).isSubset e.1 = .ok true := (htest e (hc.mem e hin)).trans (congrArg _ (find?_some hhit))
      have hexamined:=h.examined hs hc hin hpass
      cases hfind : ((⟨t.tree,[]⟩ : AddrRangeMap V).examined (rangeSize a 1)).find? passes with
      | none => exact absurd (find?_some hhit) (find?_eq_none.mp hfind e hexamined)
      | some e' =>
        have hin':=mem_tree_of_examined (mem_of_find?_eq_some hfind)
        rw [h.alone e hin hpass e' hin' ((htest e' hin').trans (congrArg _ (find?_some hfind)))]
        rfl
  obtain ⟨t',ht'⟩:=find_eq_ok (n := n) (hfull.trans (congrArg _ hsame))
  obtain ⟨t'',ht''⟩:=find_eq_ok (n := 0) hbare
  exact ⟨_,t',t'',ht',ht''⟩

/-- In a run whose `erase(p, q)` calls have only `p` to forget, the cache is right, and it stays right
after an `erase(p, q)` exactly then; a lookup it settles does not depend on it. -/
theorem cache_valid [DecidableEq V] (h : Run n OnlyFirst t) :
    ((∀ e∈t.cache,e∈t.tree) ∧ t.cache.Nodup ∧ t.cache.length≤n) ∧
      (∀ p q,Cached n (t.eraseRange p q) ↔ OnlyFirst t p q) ∧
      ∀ a,Settled t a → ∃ res t' t'',t.contains n a = .ok (res,t') ∧
        (⟨t.tree,[]⟩ : AddrRangeMap V).contains 0 a = .ok (res,t'') := by
  obtain ⟨hc,hs⟩:=h.inv
  exact ⟨⟨hc.mem,hc.nodup,hc.size⟩,fun p q => hc.eraseRange_iff,fun a hsettled => hsettled.contains hs hc⟩

def halves : AddrRangeMap ℕ := ⟨[(⟨0,16,[],0⟩,1),(⟨16,32,[],0⟩,2)],[(⟨16,32,[],0⟩,2)]⟩

theorem run_halves {Allowed : AddrRangeMap ℕ → Option (Entry ℕ) → Option (Entry ℕ) → Prop} : Run 2 Allowed halves := by
  have hfirst : (empty : AddrRangeMap ℕ).insert 2 ⟨0,16,[],0⟩ 1 = .ok (some (⟨0,16,[],0⟩,1),⟨[(⟨0,16,[],0⟩,1)],[]⟩) := by
    decide +kernel
  have hsecond : (⟨[(⟨0,16,[],0⟩,1)],[]⟩ : AddrRangeMap ℕ).insert 2 ⟨16,32,[],0⟩ 2 =
      .ok (some (⟨16,32,[],0⟩,2),⟨[(⟨0,16,[],0⟩,1),(⟨16,32,[],0⟩,2)],[]⟩) := by decide +kernel
  have hlookup : (⟨[(⟨0,16,[],0⟩,1),(⟨16,32,[],0⟩,2)],[]⟩ : AddrRangeMap ℕ).contains 2 20 =
      .ok (some (⟨16,32,[],0⟩,2),halves) := by decide +kernel
  exact .find (.insert (.insert .empty hfirst) hsecond) hlookup

theorem cache_valid_halves : (∀ e∈halves.cache,e∈halves.tree) ∧ OnlyFirst halves halves.tree.getLast? none := by
  have hvalid:=cache_valid run_halves
  refine ⟨hvalid.1.1,(hvalid.2.1 _ _).mp ⟨?_,?_,?_⟩⟩
  · decide +kernel
  · decide +kernel
  · decide +kernel

/-- Erasing both ranges leaves the second one in the cache, where a lookup finds it; and a way that only
the cache knows is found with the cache alone. -/
theorem not_cache_valid :
    (∃ (t : AddrRangeMap ℕ) (e : Entry ℕ),Run 2 (fun _ _ _ => True) t ∧ e∈t.cache ∧ e∉t.tree ∧
      t.contains 2 20 = .ok (some e,t) ∧ (⟨t.tree,[]⟩ : AddrRangeMap ℕ).contains 0 20 = .ok (none,⟨[],[]⟩)) ∧
    ∃ t : AddrRangeMap ℕ,Run 1 OnlyFirst t ∧ t.contains 1 0x80000000 = .ok (some (way 2,2),t) ∧
      (⟨t.tree,[]⟩ : AddrRangeMap ℕ).contains 0 0x80000000 = .ok (none,⟨t.tree,[]⟩) := by
  refine ⟨⟨halves.eraseRange halves.tree.head? none,(⟨16,32,[],0⟩,2),.eraseRange run_halves trivial,?_⟩,
    ⟨⟨[(way 1,1),(way 2,2)],[(way 2,2)]⟩,?_,?_⟩⟩
  · decide +kernel
  · have hfirst : (empty : AddrRangeMap ℕ).insert 1 (way 1) 1 = .ok (some (way 1,1),⟨[(way 1,1)],[]⟩) := by decide +kernel
    have hsecond : (⟨[(way 1,1)],[]⟩ : AddrRangeMap ℕ).insert 1 (way 2) 2 =
        .ok (some (way 2,2),⟨[(way 1,1),(way 2,2)],[]⟩) := by decide +kernel
    have hlookup : (⟨[(way 1,1),(way 2,2)],[]⟩ : AddrRangeMap ℕ).contains 1 0x80000001 =
        .ok (some (way 2,2),⟨[(way 1,1),(way 2,2)],[(way 2,2)]⟩) := by decide +kernel
    exact .find (.insert (.insert .empty hfirst) hsecond) hlookup
  · decide +kernel

end AddrRangeMap
end AquaGem5.Address
