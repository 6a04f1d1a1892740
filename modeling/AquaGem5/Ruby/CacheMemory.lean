import AquaGem5.Lib.Checked
import Mathlib.Algebra.Order.Group.Nat

/-!
# The cache of a Ruby controller (structures/CacheMemory.cc)

The index gives the way of an address. The entries of a set are found by it alone.
-/

namespace AquaGem5.Ruby
open Checked Function Option

namespace CacheMemory

inductive AccessPermission where
  | Read_Only
  | Read_Write
  | Maybe_Stale
  | Backing_Store
  | Invalid
  | NotPresent
  | Busy
  deriving DecidableEq

/-- The entry has the position it was given when it was allocated. -/
structure AbstractCacheEntry where
  m_Address : ℕ
  m_Permission : AccessPermission
  set : ℕ
  way : ℕ

structure Params where
  m_cache_size : ℕ
  m_cache_assoc : ℕ
  m_start_index_bit : ℕ
  m_block_size : ℕ
  blockSizeBits : ℕ
  sets : 1 < m_cache_size/m_cache_assoc/m_block_size

inductive Fault where
  | assertion
  /-- The permission of an empty way is read. -/
  | emptyWay
  | panic
  deriving DecidableEq

end CacheMemory

open CacheMemory

structure CacheMemory where
  m_cache : ℕ → ℕ → Option AbstractCacheEntry
  m_tag_index : ℕ → Option ℕ

namespace CacheMemory

variable (P : Params)

def Params.m_cache_num_sets : ℕ := P.m_cache_size/P.m_cache_assoc/P.m_block_size

def Params.m_cache_num_set_bits : ℕ := P.m_cache_num_sets.log2

def makeLineAddress (addr : ℕ) : ℕ := addr-addr%2^P.blockSizeBits

def addressToCacheSet (address : ℕ) : ℕ := address/2^P.m_start_index_bit%2^P.m_cache_num_set_bits

def findTagInSet (s : CacheMemory) (cacheSet tag : ℕ) : Except Fault (Option ℕ) :=
  match s.m_tag_index tag with
  | none => .ok none
  | some way =>
    match s.m_cache cacheSet way with
    | none => .error .emptyWay
    | some entry => .ok (if entry.m_Permission ≠ .NotPresent then some way else none)

def lookup (s : CacheMemory) (address : ℕ) : Except Fault (Option AbstractCacheEntry) := do
  check (address=makeLineAddress P address) .assertion
  let loc ← s.findTagInSet (addressToCacheSet P address) address
  return loc.bind (s.m_cache (addressToCacheSet P address))

def free (s : CacheMemory) (cacheSet way : ℕ) : Bool :=
  (s.m_cache cacheSet way).all fun entry => decide (entry.m_Permission = .NotPresent)

def cacheAvail (s : CacheMemory) (address : ℕ) : Bool :=
  (List.range P.m_cache_assoc).any fun way => (s.m_cache (addressToCacheSet P address) way).all fun entry =>
    decide (entry.m_Address=address ∨ entry.m_Permission = .NotPresent)

def firstFree (s : CacheMemory) (address : ℕ) : Option ℕ :=
  (List.range P.m_cache_assoc).find? (s.free (addressToCacheSet P address))

def setEntry (s : CacheMemory) (cacheSet way : ℕ) (entry : Option AbstractCacheEntry) : CacheMemory :=
  {s with m_cache := Function.update s.m_cache cacheSet (Function.update (s.m_cache cacheSet) way entry)}

def setIndex (s : CacheMemory) (address : ℕ) (way : Option ℕ) : CacheMemory :=
  {s with m_tag_index := Function.update s.m_tag_index address way}

def allocate (s : CacheMemory) (address : ℕ) : Except Fault CacheMemory := do
  let present ← s.lookup P address
  check (present=none) .assertion
  check (s.cacheAvail P address=true) .assertion
  match s.firstFree P address with
  | none => .error .panic
  | some way => return (s.setEntry (addressToCacheSet P address) way
      (some ⟨address,.Invalid,addressToCacheSet P address,way⟩)).setIndex address (some way)

def deallocate (s : CacheMemory) (address : ℕ) : Except Fault CacheMemory := do
  match ← s.lookup P address with
  | none => .error .assertion
  | some entry => return (s.setEntry entry.set entry.way none).setIndex address none

/-- The controller changes the permission of a stored entry. -/
def changePermission (s : CacheMemory) (cacheSet way : ℕ) (new_perm : AccessPermission) : Except Fault CacheMemory :=
  match s.m_cache cacheSet way with
  | none => .error .emptyWay
  | some entry => .ok (s.setEntry cacheSet way (some {entry with m_Permission := new_perm}))

inductive Call where
  | allocate (address : ℕ)
  | deallocate (address : ℕ)
  | changePermission (cacheSet way : ℕ) (new_perm : AccessPermission)

def call (s : CacheMemory) : Call → Except Fault CacheMemory
  | .allocate address => s.allocate P address
  | .deallocate address => s.deallocate P address
  | .changePermission cacheSet way new_perm => s.changePermission cacheSet way new_perm

inductive Run (P : Params) (ok : CacheMemory → Call → Prop) : CacheMemory → Prop
  | init : Run P ok ⟨fun _ _ => none,fun _ => none⟩
  | call (s s' : CacheMemory) (c : Call) : Run P ok s → ok s c → s.call P c = .ok s' → Run P ok s'

/-- A way is not taken from a line whose index names it, and an entry that becomes present is the one its index names. -/
def Careful (s : CacheMemory) : Call → Prop
  | .allocate address => ∀ way∈s.firstFree P address,∀ entry∈s.m_cache (addressToCacheSet P address) way,
      entry.m_Address=address ∨ s.m_tag_index entry.m_Address≠some way
  | .deallocate _ => True
  | .changePermission cacheSet way new_perm => ∀ entry∈s.m_cache cacheSet way,new_perm ≠ .NotPresent →
      s.m_tag_index entry.m_Address=some way

variable {P} {s s' : CacheMemory} {address cacheSet way : ℕ} {entry : AbstractCacheEntry}

theorem addressToCacheSet_lt (P : Params) (address : ℕ) : addressToCacheSet P address<P.m_cache_num_sets := by
  have hsets : P.m_cache_num_sets≠0 := (Nat.zero_lt_one.trans P.sets).ne'
  exact (Nat.mod_lt _ (Nat.two_pow_pos _)).trans_le (Nat.log2_self_le hsets)

def Stored (s : CacheMemory) (cacheSet way : ℕ) (entry : AbstractCacheEntry) : Prop := s.m_cache cacheSet way=some entry

structure Indexed (P : Params) (s : CacheMemory) : Prop where
  entry : ∀ address way,s.m_tag_index address=some way →
    ∃ entry,s.Stored (addressToCacheSet P address) way entry ∧ entry.m_Address=address
  position : ∀ cacheSet way entry,s.Stored cacheSet way entry →
    entry.set=cacheSet ∧ entry.way=way ∧ cacheSet=addressToCacheSet P entry.m_Address ∧ way<P.m_cache_assoc
  present : ∀ cacheSet way entry,s.Stored cacheSet way entry → entry.m_Permission ≠ .NotPresent →
    s.m_tag_index entry.m_Address=some way

theorem setIndex_self (s : CacheMemory) (address : ℕ) (way : Option ℕ) : (s.setIndex address way).m_tag_index address=way :=
  update_self ..

theorem setIndex_of_ne {address' : ℕ} (h : address'≠address) (way : Option ℕ) :
    (s.setIndex address way).m_tag_index address'=s.m_tag_index address' := update_of_ne h ..

theorem setEntry_cases {e : Option AbstractCacheEntry} {cacheSet' way' : ℕ}
    (h : (s.setEntry cacheSet way e).Stored cacheSet' way' entry) : (cacheSet'=cacheSet ∧ way'=way ∧ e=some entry) ∨
      ((cacheSet'=cacheSet → way'≠way) ∧ s.Stored cacheSet' way' entry) := by
  rw [Stored,setEntry] at h
  dsimp only at h
  by_cases hset : cacheSet'=cacheSet
  · subst hset
    rw [update_self] at h
    by_cases hway : way'=way
    · subst hway
      rw [update_self] at h
      exact .inl ⟨rfl,rfl,h⟩
    · rw [update_of_ne hway] at h
      exact .inr ⟨fun _ => hway,h⟩
  · rw [update_of_ne hset] at h
    exact .inr ⟨fun heq => absurd heq hset,h⟩

theorem setEntry_self (s : CacheMemory) (cacheSet way : ℕ) (entry : AbstractCacheEntry) :
    (s.setEntry cacheSet way (some entry)).Stored cacheSet way entry := by
  rw [Stored,setEntry]
  dsimp only
  rw [update_self,update_self]

theorem setEntry_other {e : Option AbstractCacheEntry} {cacheSet' way' : ℕ} (h : cacheSet'=cacheSet → way'≠way)
    (hstored : s.Stored cacheSet' way' entry) : (s.setEntry cacheSet way e).Stored cacheSet' way' entry := by
  rw [Stored,setEntry]
  dsimp only
  by_cases hset : cacheSet'=cacheSet
  · subst hset
    rw [update_self,update_of_ne (h rfl)]
    exact hstored
  · rw [update_of_ne hset]
    exact hstored

theorem Indexed.lookup (h : Indexed P s) (hline : address=makeLineAddress P address) :
    ∃ found,s.lookup P address = .ok found ∧
      (∀ entry∈found,∃ way,s.m_tag_index address=some way ∧ s.Stored (addressToCacheSet P address) way entry ∧
        entry.m_Address=address ∧ entry.m_Permission ≠ .NotPresent) ∧
      (found=none → ∀ cacheSet way entry,s.Stored cacheSet way entry → entry.m_Address=address →
        entry.m_Permission = .NotPresent) := by
  have hcheck : check (address=makeLineAddress P address) Fault.assertion = .ok () := if_pos hline
  rw [CacheMemory.lookup,hcheck]
  cases hindex : s.m_tag_index address with
  | none =>
    refine ⟨none,?_,fun entry hno => absurd hno (not_mem_none entry),fun _ cacheSet way entry hstored haddr => ?_⟩
    · rw [findTagInSet,hindex]
      rfl
    · by_contra hpresent
      have hsome:=h.present cacheSet way entry hstored hpresent
      rw [haddr,hindex] at hsome
      cases hsome
  | some way =>
    obtain ⟨entry,hstored,haddr⟩:=h.entry address way hindex
    rw [findTagInSet,hindex]
    simp only [show s.m_cache (addressToCacheSet P address) way=some entry from hstored]
    by_cases hpresent : entry.m_Permission = .NotPresent
    · refine ⟨none,?_,fun entry hno => absurd hno (not_mem_none entry),fun _ cacheSet way' entry' hstored' haddr' => ?_⟩
      · rw [if_neg (not_not.mpr hpresent)]
        rfl
      · by_contra hpresent'
        have hsome:=h.present cacheSet way' entry' hstored' hpresent'
        have hset:=(h.position cacheSet way' entry' hstored').2.2.1
        rw [haddr',hindex] at hsome
        rw [hset,haddr',← Option.some.inj hsome] at hstored'
        exact hpresent' ((Option.some.inj (hstored.symm.trans hstored')) ▸ hpresent)
    · refine ⟨some entry,?_,fun entry' hin => ?_,fun hno => by cases hno⟩
      · rw [if_pos hpresent]
        exact congrArg Except.ok hstored
      · rw [← Option.some.inj hin]
        exact ⟨way,rfl,hstored,haddr,hpresent⟩

theorem Indexed.allocate (h : Indexed P s) (hok : Careful P s (.allocate address)) :
    Post (s.allocate P address) (Indexed P) fun e => e ≠ .panic := by
  rw [CacheMemory.allocate]
  by_cases hline : address=makeLineAddress P address
  · obtain ⟨found,hlookup,_,hnone⟩:=h.lookup hline
    rw [hlookup,post_bind,post_ok,post_bind,post_check]
    refine ⟨fun hfound => ?_,fun _ => by decide⟩
    rw [post_bind,post_check]
    refine ⟨fun havail => ?_,fun _ => by decide⟩
    have habsent:=hnone hfound
    cases hfree : s.firstFree P address with
    | none =>
      obtain ⟨way,hway,hany⟩:=List.any_eq_true.mp havail
      have hbusy:=List.find?_eq_none.mp hfree way hway
      cases hstored : s.m_cache (addressToCacheSet P address) way with
      | none =>
        rw [free,hstored] at hbusy
        exact absurd rfl hbusy
      | some entry =>
        rw [hstored] at hany
        rw [free,hstored] at hbusy
        have hmatch : entry.m_Address=address ∨ entry.m_Permission = .NotPresent := of_decide_eq_true hany
        exact absurd (decide_eq_true (hmatch.elim (habsent _ way entry hstored) id)) hbusy
    | some way =>
      have hlt:=List.mem_range.mp (List.mem_of_find?_eq_some hfree)
      refine ⟨fun address' way' hindex => ?_,fun cacheSet way' entry hstored => ?_,fun cacheSet way' entry hstored hpresent => ?_⟩
      · by_cases haddr : address'=address
        · rw [haddr,setIndex_self] at hindex
          rw [haddr,← Option.some.inj hindex]
          exact ⟨_,setEntry_self _ _ _ _,rfl⟩
        · rw [setIndex_of_ne haddr] at hindex
          obtain ⟨entry,hstored,hentry⟩:=h.entry address' way' hindex
          refine ⟨entry,setEntry_other (fun hset hway => ?_) hstored,hentry⟩
          rw [hset,hway] at hstored
          rcases hok way hfree entry hstored with hsame | hother
          · exact haddr (hentry.symm.trans hsame)
          · exact hother (by rw [hentry,← hway]; exact hindex)
      · rcases setEntry_cases hstored with ⟨rfl,rfl,heq⟩ | ⟨_,hstored⟩
        · rw [← Option.some.inj heq]
          exact ⟨rfl,rfl,rfl,hlt⟩
        · exact h.position cacheSet way' entry hstored
      · rcases setEntry_cases hstored with ⟨rfl,rfl,heq⟩ | ⟨_,hstored⟩
        · rw [← Option.some.inj heq,setIndex_self]
        · rw [setIndex_of_ne fun haddr => hpresent (habsent cacheSet way' entry hstored haddr)]
          exact h.present cacheSet way' entry hstored hpresent
  · rw [CacheMemory.lookup]
    simp only [post_bind,post_check]
    exact ⟨fun hyes => absurd hyes hline,fun _ => by decide⟩

theorem Indexed.deallocate (h : Indexed P s) : Post (s.deallocate P address) (Indexed P) := by
  rw [CacheMemory.deallocate]
  by_cases hline : address=makeLineAddress P address
  · obtain ⟨found,hlookup,hsome,_⟩:=h.lookup hline
    rw [hlookup,post_bind,post_ok]
    cases found with
    | none => trivial
    | some entry =>
      obtain ⟨way,hindex,hstored,haddr,_⟩:=hsome entry rfl
      obtain ⟨hset,hway,_⟩:=h.position _ way entry hstored
      dsimp only
      rw [post_pure,hset,hway]
      refine ⟨fun address' way' hindex' => ?_,fun cacheSet way' entry' hstored' => ?_,fun cacheSet way' entry' hstored' hpresent => ?_⟩
      · have hne : address'≠address := fun heq => by
          rw [heq,setIndex_self] at hindex'
          cases hindex'
        rw [setIndex_of_ne hne] at hindex'
        obtain ⟨entry',hstored',haddr'⟩:=h.entry address' way' hindex'
        refine ⟨entry',setEntry_other (fun hset' hway' => hne ?_) hstored',haddr'⟩
        rw [hset',hway'] at hstored'
        rw [← haddr',← haddr,Option.some.inj (hstored.symm.trans hstored')]
      · rcases setEntry_cases hstored' with ⟨_,_,hno⟩ | ⟨_,hstored'⟩
        · cases hno
        · exact h.position cacheSet way' entry' hstored'
      · rcases setEntry_cases hstored' with ⟨_,_,hno⟩ | ⟨hother,hstored'⟩
        · cases hno
        · have hindex':=h.present cacheSet way' entry' hstored' hpresent
          have hne : entry'.m_Address≠address := fun haddr' => by
            have hset':=(h.position cacheSet way' entry' hstored').2.2.1
            rw [haddr'] at hindex' hset'
            exact hother hset' (Option.some.inj (hindex'.symm.trans hindex))
          rw [setIndex_of_ne hne]
          exact hindex'
  · rw [CacheMemory.lookup]
    simp only [post_bind,post_check,implies_true,and_true]
    exact fun hyes => absurd hyes hline

theorem Indexed.changePermission {new_perm : AccessPermission} (h : Indexed P s)
    (hok : Careful P s (.changePermission cacheSet way new_perm)) :
    Post (s.changePermission cacheSet way new_perm) (Indexed P) := by
  rw [CacheMemory.changePermission]
  cases hold : s.m_cache cacheSet way with
  | none => trivial
  | some entry =>
    refine ⟨fun address' way' hindex => ?_,fun cacheSet' way' entry' hstored => ?_,fun cacheSet' way' entry' hstored hpresent => ?_⟩
    · obtain ⟨entry',hstored,haddr⟩:=h.entry address' way' hindex
      by_cases hhere : addressToCacheSet P address'=cacheSet ∧ way'=way
      · rw [hhere.1,hhere.2] at hstored ⊢
        rw [Option.some.inj (hstored.symm.trans hold)] at haddr
        exact ⟨_,setEntry_self _ _ _ _,haddr⟩
      · exact ⟨entry',setEntry_other (fun hset hway => hhere ⟨hset,hway⟩) hstored,haddr⟩
    · rcases setEntry_cases hstored with ⟨rfl,rfl,heq⟩ | ⟨_,hstored⟩
      · rw [← Option.some.inj heq]
        exact h.position cacheSet' way' entry hold
      · exact h.position cacheSet' way' entry' hstored
    · rcases setEntry_cases hstored with ⟨rfl,rfl,heq⟩ | ⟨_,hstored⟩
      · rw [← Option.some.inj heq] at hpresent ⊢
        exact hok entry hold hpresent
      · exact h.present cacheSet' way' entry' hstored hpresent

theorem run_indexed (h : Run P (Careful P) s) : Indexed P s := by
  induction h with
  | init => exact ⟨fun _ _ hno => absurd hno.symm (some_ne_none _),fun _ _ _ hno => absurd hno.symm (some_ne_none _),
    fun _ _ _ hno => absurd hno.symm (some_ne_none _)⟩
  | call s s' c _ hok hcall ih =>
    cases c with
    | allocate address => exact (ih.allocate hok).of_ok hcall
    | deallocate address => exact ih.deallocate.of_ok hcall
    | changePermission cacheSet way new_perm => exact (ih.changePermission hok).of_ok hcall

/-- The index finds what the sets hold. -/
structure Agrees (P : Params) (s : CacheMemory) : Prop where
  lookup : ∀ address,address=makeLineAddress P address → addressToCacheSet P address<P.m_cache_num_sets ∧
    ∃ found,s.lookup P address = .ok found ∧
      (∀ entry∈found,entry.m_Address=address ∧ entry.m_Permission ≠ .NotPresent ∧
        ∃ way<P.m_cache_assoc,s.Stored (addressToCacheSet P address) way entry) ∧
      (found=none → ∀ cacheSet way entry,s.Stored cacheSet way entry → entry.m_Address=address →
        entry.m_Permission = .NotPresent)
  unique : ∀ cacheSet way entry cacheSet' way' entry',s.Stored cacheSet way entry → s.Stored cacheSet' way' entry' →
    entry.m_Permission ≠ .NotPresent → entry'.m_Permission ≠ .NotPresent → entry.m_Address=entry'.m_Address →
    cacheSet=cacheSet' ∧ way=way'
  allocate : ∀ address,Careful P s (.allocate address) → s.allocate P address ≠ .error .panic

theorem tag_index (h : Run P (Careful P) s) : Agrees P s := by
  have hs:=run_indexed h
  refine ⟨fun address hline => ⟨addressToCacheSet_lt P address,?_⟩,?_,fun address hok hpanic => ?_⟩
  · obtain ⟨found,hlookup,hsome,hnone⟩:=hs.lookup hline
    refine ⟨found,hlookup,fun entry hin => ?_,hnone⟩
    obtain ⟨way,_,hstored,haddr,hpresent⟩:=hsome entry hin
    exact ⟨haddr,hpresent,way,(hs.position _ way entry hstored).2.2.2,hstored⟩
  · intro cacheSet way entry cacheSet' way' entry' hstored hstored' hpresent hpresent' haddr
    have hindex:=hs.present cacheSet way entry hstored hpresent
    have hindex':=hs.present cacheSet' way' entry' hstored' hpresent'
    have hset:=(hs.position cacheSet way entry hstored).2.2.1
    have hset':=(hs.position cacheSet' way' entry' hstored').2.2.1
    rw [haddr] at hindex hset
    exact ⟨hset.trans hset'.symm,Option.some.inj (hindex.symm.trans hindex')⟩
  · exact (hs.allocate hok).of_error hpanic rfl

theorem two_ways_two_sets : 1<256/2/64 := by decide

def fourLines : Params := ⟨256,2,6,64,6,two_ways_two_sets⟩

/-- Line 128 is made absent, allocated again in its own way and made readable; line 256 gets the way that line 0 left. -/
theorem tag_index_reallocated : ∃ s,Run fourLines (Careful fourLines) s ∧
    s.lookup fourLines 0 = .ok none ∧ s.lookup fourLines 128 = .ok (some ⟨128,.Read_Only,0,1⟩) ∧
    s.lookup fourLines 256 = .ok (some ⟨256,.Invalid,0,0⟩) ∧ Agrees fourLines s := by
  have hrun : ∃ s,Run fourLines (Careful fourLines) s ∧ s.lookup fourLines 0 = .ok none ∧
      s.lookup fourLines 128 = .ok (some ⟨128,.Read_Only,0,1⟩) ∧ s.lookup fourLines 256 = .ok (some ⟨256,.Invalid,0,0⟩) := by
    have h1 : Run fourLines (Careful fourLines) _ := .call _ _ (.allocate 0) .init (by rintro _ ⟨⟩ _ ⟨⟩) rfl
    have h2 : Run fourLines (Careful fourLines) _ :=
      .call _ _ (.changePermission 0 0 .Read_Write) h1 (by rintro _ ⟨⟩ _; rfl) rfl
    have h3 : Run fourLines (Careful fourLines) _ := .call _ _ (.allocate 128) h2 (by rintro _ ⟨⟩ _ ⟨⟩) rfl
    have h4 : Run fourLines (Careful fourLines) _ :=
      .call _ _ (.changePermission 0 1 .NotPresent) h3 (fun _ _ hpresent => absurd rfl hpresent) rfl
    have h5 : Run fourLines (Careful fourLines) _ :=
      .call _ _ (.allocate 128) h4 (by rintro _ ⟨⟩ _ ⟨⟩; exact .inl rfl) rfl
    have h6 : Run fourLines (Careful fourLines) _ :=
      .call _ _ (.changePermission 0 1 .Read_Only) h5 (by rintro _ ⟨⟩ _; rfl) rfl
    have h7 : Run fourLines (Careful fourLines) _ := .call _ _ (.deallocate 0) h6 trivial rfl
    have h8 : Run fourLines (Careful fourLines) _ := .call _ _ (.allocate 256) h7 (by rintro _ ⟨⟩ _ ⟨⟩) rfl
    exact ⟨_,h8,rfl,rfl,rfl⟩
  obtain ⟨s,hrun,h0,h128,h256⟩:=hrun
  exact ⟨s,hrun,h0,h128,h256,tag_index hrun⟩

theorem two_sets : 1<128/1/64 := by decide

def twoLines : Params := ⟨128,1,6,64,6,two_sets⟩

/-- Line 128 takes the way of line 0, which is not present. A lookup of line 0 finds line 128. -/
theorem not_tag_index : ∃ s entry,Run twoLines (fun _ _ => True) s ∧ s.lookup twoLines 0 = .ok (some entry) ∧
    entry.m_Address=128 := by
  have h1 : Run twoLines (fun _ _ => True) _ := .call _ _ (.allocate 0) .init trivial rfl
  have h2 : Run twoLines (fun _ _ => True) _ := .call _ _ (.changePermission 0 0 .NotPresent) h1 trivial rfl
  have h3 : Run twoLines (fun _ _ => True) _ := .call _ _ (.allocate 128) h2 trivial rfl
  exact ⟨_,_,h3,rfl,rfl⟩

end CacheMemory

end AquaGem5.Ruby
