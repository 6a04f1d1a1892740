import AquaGem5.Lib.Checked
import Mathlib.Algebra.Order.Ring.Int
import Mathlib.Data.List.Basic

/-!
# The store set predictor (o3/store_set.cc, o3/store_set.hh)

The map of the stores, ordered by `ltseqnum`, is the list of its entries from the largest number down.
-/

namespace AquaGem5.O3
open Checked Function List

structure StoreSetParams where
  clearPeriod : ℕ
  SSITSize : ℕ
  LFSTSize : ℕ
  SSITSize_pow : SSITSize.isPowerOfTwo
  LFSTSize_pow : LFSTSize.isPowerOfTwo

namespace StoreSetParams

def calcIndex (c : StoreSetParams) (PC : ℕ) : ℕ := PC >>> 2 &&& (c.SSITSize-1)

def calcSSID (c : StoreSetParams) (PC : ℕ) : ℕ := (PC ^^^ (PC >>> 10))%c.LFSTSize

end StoreSetParams

structure StoreSet where
  SSIT : ℕ → ℕ
  validSSIT : ℕ → Bool
  LFST : ℕ → ℕ
  validLFST : ℕ → Bool
  storeList : List (ℕ × ℕ)
  memOpsPred : ℤ

namespace StoreSet

def init : StoreSet := ⟨fun _ => 0,fun _ => false,fun _ => 0,fun _ => false,[],0⟩

inductive Fault where
  | assertion
  deriving DecidableEq

def violation (c : StoreSetParams) (s : StoreSet) (store_PC load_PC : ℕ) : Except Fault StoreSet := do
  let load_index := c.calcIndex load_PC
  let store_index := c.calcIndex store_PC
  check (load_index<c.SSITSize ∧ store_index<c.SSITSize) .assertion
  match s.validSSIT load_index,s.validSSIT store_index with
  | false,false =>
    let new_set := c.calcSSID load_PC
    check (new_set<c.LFSTSize) .assertion
    return {s with
      validSSIT := update (update s.validSSIT load_index true) store_index true
      SSIT := update (update s.SSIT load_index new_set) store_index new_set}
  | true,false =>
    check (s.SSIT load_index<c.LFSTSize) .assertion
    return {s with
      validSSIT := update s.validSSIT store_index true
      SSIT := update s.SSIT store_index (s.SSIT load_index)}
  | false,true =>
    return {s with
      validSSIT := update s.validSSIT load_index true
      SSIT := update s.SSIT load_index (s.SSIT store_index)}
  | true,true =>
    check (s.SSIT load_index<c.LFSTSize ∧ s.SSIT store_index<c.LFSTSize) .assertion
    if s.SSIT store_index>s.SSIT load_index then return {s with SSIT := update s.SSIT store_index (s.SSIT load_index)}
    else return {s with SSIT := update s.SSIT load_index (s.SSIT store_index)}

def clear (s : StoreSet) : StoreSet := {s with validSSIT := fun _ => false, validLFST := fun _ => false, storeList := []}

/-- The count is an `int`, and is compared as a 64-bit number. -/
def checkClear (c : StoreSetParams) (s : StoreSet) : StoreSet :=
  let memOpsPred := (s.memOpsPred+1).bmod (2^32)
  if memOpsPred%2^64>c.clearPeriod then {s with memOpsPred := 0}.clear else {s with memOpsPred := memOpsPred}

def insertLoad (c : StoreSetParams) (s : StoreSet) : StoreSet := s.checkClear c

/-- `storeList[n] = id`. -/
def setStore (n id : ℕ) : List (ℕ × ℕ) → List (ℕ × ℕ)
  | [] => [(n,id)]
  | e::rest => if n>e.1 then (n,id)::e::rest else if n=e.1 then (n,id)::rest else e::setStore n id rest

def insertStore (c : StoreSetParams) (s : StoreSet) (store_PC store_seq_num : ℕ) : Except Fault StoreSet := do
  let index := c.calcIndex store_PC
  let s := s.checkClear c
  check (index<c.SSITSize) .assertion
  if s.validSSIT index then
    let store_SSID := s.SSIT index
    check (store_SSID<c.LFSTSize) .assertion
    return {s with
      LFST := update s.LFST store_SSID store_seq_num
      validLFST := update s.validLFST store_SSID true
      storeList := setStore store_seq_num store_SSID s.storeList}
  else return s

def checkInst (c : StoreSetParams) (s : StoreSet) (PC : ℕ) : Except Fault ℕ := do
  let index := c.calcIndex PC
  check (index<c.SSITSize) .assertion
  if s.validSSIT index then
    let inst_SSID := s.SSIT index
    check (inst_SSID<c.LFSTSize) .assertion
    return if s.validLFST inst_SSID then s.LFST inst_SSID else 0
  else return 0

def issued (c : StoreSetParams) (s : StoreSet) (issued_PC issued_seq_num : ℕ) (is_store : Bool) :
    Except Fault StoreSet := do
  if is_store then
    let index := c.calcIndex issued_PC
    check (index<c.SSITSize) .assertion
    let s := {s with storeList := s.storeList.filter (·.1≠issued_seq_num)}
    if s.validSSIT index then
      let store_SSID := s.SSIT index
      check (store_SSID<c.LFSTSize) .assertion
      if s.validLFST store_SSID ∧ s.LFST store_SSID=issued_seq_num then
        return {s with validLFST := update s.validLFST store_SSID false}
      else return s
    else return s
  else return s

/-- The loop of `squash`, whose iterator is always at the front; a round without an erasure is made again. -/
def squashLoop (squashed_num : ℕ) : ℕ → StoreSet → Option StoreSet
  | 0,_ => none
  | fuel+1,s =>
    match s.storeList with
    | [] => some s
    | (n,idx)::rest =>
      if n ≤ squashed_num then some s
      else
        let younger : Bool := s.LFST idx>squashed_num
        if s.validLFST idx&&younger then
          squashLoop squashed_num fuel {s with validLFST := Function.update s.validLFST idx false, storeList := rest}
        else if !s.validLFST idx&&younger then squashLoop squashed_num fuel {s with storeList := rest}
        else squashLoop squashed_num fuel s

/-- `none` when the loop never ends: every round of one that ends, but for the last, erases an entry. -/
def squash (s : StoreSet) (squashed_num : ℕ) : Option StoreSet := squashLoop squashed_num (s.storeList.length+1) s

/-- Beside the predictor a run keeps the stores inserted so far, with their PC, and those of them
that are neither issued nor squashed; `P` restricts the steps that issue one. -/
inductive Run (c : StoreSetParams) (P : StoreSet → ℕ → ℕ → Prop) : List (ℕ × ℕ) → List ℕ → StoreSet → Prop
  | init : Run c P [] [] init
  | violation (inserted : List (ℕ × ℕ)) (live : List ℕ) (s s' : StoreSet) (store_PC load_PC : ℕ) :
      Run c P inserted live s → s.violation c store_PC load_PC = .ok s' → Run c P inserted live s'
  | insertLoad (inserted : List (ℕ × ℕ)) (live : List ℕ) (s : StoreSet) : Run c P inserted live s →
      Run c P inserted live (s.insertLoad c)
  | insertStore (inserted : List (ℕ × ℕ)) (live : List ℕ) (s s' : StoreSet) (PC n : ℕ) : Run c P inserted live s →
      (∀ e∈inserted,e.2<n) → s.insertStore c PC n = .ok s' → Run c P ((PC,n)::inserted) (n::live) s'
  | issued (inserted : List (ℕ × ℕ)) (live : List ℕ) (s s' : StoreSet) (PC n : ℕ) : Run c P inserted live s →
      (PC,n)∈inserted → P s PC n → s.issued c PC n true = .ok s' → Run c P inserted (live.filter (·≠n)) s'
  | squash (inserted : List (ℕ × ℕ)) (live : List ℕ) (s s' : StoreSet) (n : ℕ) : Run c P inserted live s →
      s.squash n=some s' → Run c P inserted (live.filter (·≤n)) s'
  | clear (inserted : List (ℕ × ℕ)) (live : List ℕ) (s : StoreSet) : Run c P inserted live s → Run c P inserted live s.clear

/-- A store that is the last of a set is issued while its PC is still in that set. -/
def Careful (c : StoreSetParams) (s : StoreSet) (PC n : ℕ) : Prop :=
  ∀ i,s.validLFST i=true → s.LFST i=n → s.validSSIT (c.calcIndex PC)=true ∧ s.SSIT (c.calcIndex PC)=i

structure Squashed (n : ℕ) (s s' : StoreSet) : Prop where
  sublist : s'.storeList.Sublist s.storeList
  storeList : ∀ e,e∈s'.storeList ↔ e∈s.storeList ∧ e.1≤n
  SSIT : s'.SSIT=s.SSIT
  LFST : s'.LFST=s.LFST
  validLFST : ∀ i,s'.validLFST i=true ↔ s.validLFST i=true ∧ ∀ m,(m,i)∈s.storeList → m≤n

def Sized (c : StoreSetParams) (s : StoreSet) : Prop := ∀ i,s.SSIT i<c.LFSTSize

/-- No assertion of a call fails. -/
structure Returns (c : StoreSetParams) (s : StoreSet) : Prop where
  violation : ∀ store_PC load_PC,∃ s',s.violation c store_PC load_PC = .ok s'
  insertStore : ∀ PC n,∃ s',s.insertStore c PC n = .ok s'
  checkInst : ∀ PC,∃ n,s.checkInst c PC = .ok n
  issued : ∀ PC n is_store,∃ s',s.issued c PC n is_store = .ok s'

/-- The stores of the list are inserted ones, and none is younger than the last of its set. -/
structure Inv (c : StoreSetParams) (inserted : List (ℕ × ℕ)) (s : StoreSet) : Prop where
  sized : s.Sized c
  sorted : s.storeList.Pairwise (·.1>·.1)
  younger : ∀ e∈s.storeList,e.1 ≤ s.LFST e.2
  inserted : ∀ e∈s.storeList,∃ PC,(PC,e.1)∈inserted

structure Live (live : List ℕ) (s : StoreSet) : Prop where
  stored : ∀ i,s.validLFST i=true → (s.LFST i,i)∈s.storeList
  live : ∀ e∈s.storeList,e.1∈live

variable {c : StoreSetParams} {P : StoreSet → ℕ → ℕ → Prop} {inserted : List (ℕ × ℕ)} {live : List ℕ} {s s' : StoreSet}
  {PC n : ℕ}

theorem squashLoop_round {idx : ℕ} {rest : List (ℕ × ℕ)} {m : ℕ} (hs : s.storeList=(m,idx)::rest) (hm : n < m)
    (hidx : m ≤ s.LFST idx) (fuel : ℕ) : squashLoop n (fuel+1) s =
      squashLoop n fuel {s with validLFST := update s.validLFST idx false, storeList := rest} := by
  have hyounger : decide (s.LFST idx>n)=true := decide_eq_true (hm.trans_le hidx)
  rw [squashLoop,hs]
  simp only [if_neg (Nat.not_le.mpr hm),hyounger,Bool.and_true]
  cases hvalid : s.validLFST idx with
  | true => simp
  | false =>
    have hsame : update s.validLFST idx false=s.validLFST := update_eq_self_iff.mpr hvalid.symm
    simp [hsame]

theorem squashLoop_spec (l : List (ℕ × ℕ)) (s : StoreSet) (hs : s.storeList=l) (hsorted : l.Pairwise (·.1>·.1))
    (hidx : ∀ e∈l,e.1 ≤ s.LFST e.2) : ∃ s',squashLoop n (l.length+1) s=some s' ∧ Squashed n s s' := by
  induction l generalizing s with
  | nil =>
    refine ⟨s,by rw [squashLoop,hs],.refl _,?_,rfl,rfl,?_⟩
    · simp [hs]
    · simp [hs]
  | cons e rest ih =>
    obtain ⟨hhead,hrest⟩:=pairwise_cons.mp hsorted
    by_cases hm : e.1≤n
    · have hall : ∀ e'∈s.storeList,e'.1≤n := by
        intro e' he'
        rw [hs] at he'
        rcases mem_cons.mp he' with rfl | hin
        · exact hm
        · exact (hhead e' hin).le.trans hm
      refine ⟨s,by rw [squashLoop,hs]; simp [hm],.refl _,?_,rfl,rfl,?_⟩
      · exact fun e' => ⟨fun he' => ⟨he',hall e' he'⟩,And.left⟩
      · exact fun i => ⟨fun hi => ⟨hi,fun m hin => hall (m,i) hin⟩,And.left⟩
    · rw [length_cons,squashLoop_round hs (Nat.lt_of_not_le hm) (hidx e (mem_cons_self ..))]
      obtain ⟨s',hs',h⟩:=ih {s with validLFST := update s.validLFST e.2 false, storeList := rest} rfl hrest
        fun e' he' => hidx e' (mem_cons_of_mem _ he')
      refine ⟨s',hs',?_,?_,h.SSIT,h.LFST,?_⟩
      · exact hs ▸ h.sublist.trans (sublist_cons_self ..)
      · intro e'
        rw [h.storeList,hs,mem_cons]
        constructor
        · exact fun he' => ⟨.inr he'.1,he'.2⟩
        · rintro ⟨rfl | hin,hle⟩
          · exact absurd hle hm
          · exact ⟨hin,hle⟩
      · -- The set of the erased entry is invalid from here on.
        intro i
        rw [h.validLFST,hs]
        by_cases hi : i=e.2
        · subst hi
          simp only [update_self,Bool.false_eq_true,false_and,false_iff,not_and]
          exact fun _ hle => hm (hle e.1 (mem_cons_self ..))
        · simp only [update_of_ne hi,mem_cons]
          refine and_congr_right fun _ => forall_congr' fun m => ?_
          constructor
          · rintro hle (heq | hin)
            · exact absurd (congrArg Prod.snd heq) hi
            · exact hle hin
          · exact fun hle hin => hle (.inr hin)

theorem Inv.squash (h : Inv c inserted s) (n : ℕ) : ∃ s',s.squash n=some s' ∧ Squashed n s s' :=
  squashLoop_spec s.storeList s rfl h.sorted h.younger

theorem setStore_eq {id : ℕ} {l : List (ℕ × ℕ)} (h : ∀ e∈l,e.1<n) : setStore n id l=(n,id)::l := by
  cases l with
  | nil => rfl
  | cons e rest => rw [setStore,if_pos (h e (mem_cons_self ..))]

theorem calcIndex_lt (c : StoreSetParams) (PC : ℕ) : c.calcIndex PC<c.SSITSize :=
  Nat.and_le_right.trans_lt (Nat.sub_lt (Nat.pos_of_isPowerOfTwo c.SSITSize_pow) Nat.one_pos)

theorem update_lt {t : ℕ → ℕ} (ht : ∀ i,t i<c.LFSTSize) (k : ℕ) {v : ℕ} (hv : v<c.LFSTSize) (i : ℕ) :
    update t k v i<c.LFSTSize := by
  rw [update_apply]
  split
  · exact hv
  · exact ht i

theorem violation_spec (h : s.Sized c) (store_PC load_PC : ℕ) : Post (s.violation c store_PC load_PC)
    (fun s' => s'.Sized c ∧ ∃ t v,s'={s with SSIT := t, validSSIT := v}) fun _ => False := by
  unfold violation
  simp only [post_bind,post_check]
  refine ⟨fun _ => ?_,fun hout => hout ⟨calcIndex_lt c _,calcIndex_lt c _⟩⟩
  split
  · simp only [post_bind,post_check]
    have hnew : c.calcSSID load_PC<c.LFSTSize := Nat.mod_lt _ (Nat.pos_of_isPowerOfTwo c.LFSTSize_pow)
    exact ⟨fun _ => ⟨update_lt (update_lt h _ hnew) _ hnew,_,_,rfl⟩,fun hout => hout hnew⟩
  · simp only [post_bind,post_check]
    exact ⟨fun _ => ⟨update_lt h _ (h _),_,_,rfl⟩,fun hout => hout (h _)⟩
  · exact ⟨update_lt h _ (h _),_,_,rfl⟩
  · simp only [post_bind,post_check]
    refine ⟨fun _ => ?_,fun hout => hout ⟨h _,h _⟩⟩
    split
    · exact ⟨update_lt h _ (h _),_,_,rfl⟩
    · exact ⟨update_lt h _ (h _),_,_,rfl⟩

theorem checkClear_SSIT (c : StoreSetParams) (s : StoreSet) : (s.checkClear c).SSIT=s.SSIT := by
  unfold checkClear
  simp only
  split
  · rfl
  · rfl

theorem Inv.checkClear (h : Inv c inserted s) : Inv c inserted (s.checkClear c) := by
  unfold StoreSet.checkClear
  simp only
  split
  · exact ⟨h.sized,Pairwise.nil,fun _ he => absurd he not_mem_nil,fun _ he => absurd he not_mem_nil⟩
  · exact ⟨h.sized,h.sorted,h.younger,h.inserted⟩

theorem Live.checkClear (h : Live live s) : Live live (s.checkClear c) := by
  unfold StoreSet.checkClear
  simp only
  split
  · exact ⟨fun _ hi => absurd hi Bool.false_ne_true,fun _ he => absurd he not_mem_nil⟩
  · exact ⟨h.stored,h.live⟩

/-- The store joins the set `id`, as the last one. -/
def Joins (n id : ℕ) (s s' : StoreSet) : Prop :=
  s'={s with
    LFST := update s.LFST id n
    validLFST := update s.validLFST id true
    storeList := setStore n id s.storeList}

theorem insertStore_spec (h : s.Sized c) (PC n : ℕ) : Post (s.insertStore c PC n)
    (fun s' => s'=s.checkClear c ∨ ∃ id,Joins n id (s.checkClear c) s') fun _ => False := by
  unfold insertStore
  simp only [post_bind,post_check]
  refine ⟨fun _ => ?_,fun hout => hout (calcIndex_lt c _)⟩
  split
  · simp only [post_bind,post_check]
    exact ⟨fun _ => .inr ⟨_,rfl⟩,fun hout => hout (checkClear_SSIT c s ▸ h _)⟩
  · exact .inl rfl

theorem Inv.joins {id : ℕ} (h : Inv c inserted s) (hn : ∀ e∈inserted,e.2<n) (hs' : Joins n id s s') (PC : ℕ) :
    Inv c ((PC,n)::inserted) s' := by
  have hlt : ∀ e∈s.storeList,e.1<n := fun e he => (h.inserted e he).elim fun PC' hin => hn (PC',e.1) hin
  rw [Joins,setStore_eq hlt] at hs'
  subst hs'
  refine ⟨h.sized,pairwise_cons.mpr ⟨hlt,h.sorted⟩,?_,?_⟩
  · intro e he
    by_cases hset : e.2=id
    · simp only [hset,update_self]
      rcases mem_cons.mp he with rfl | hin
      · exact le_rfl
      · exact (hlt e hin).le
    · simp only [update_of_ne hset]
      rcases mem_cons.mp he with rfl | hin
      · exact absurd rfl hset
      · exact h.younger e hin
  · intro e he
    rcases mem_cons.mp he with rfl | hin
    · exact ⟨PC,mem_cons_self ..⟩
    · exact (h.inserted e hin).imp fun _ hin => mem_cons_of_mem _ hin

theorem Live.joins {id : ℕ} (h : Live live s) (hs' : Joins n id s s') (hlt : ∀ e∈s.storeList,e.1<n) :
    Live (n::live) s' := by
  rw [Joins,setStore_eq hlt] at hs'
  subst hs'
  refine ⟨?_,?_⟩
  · intro i hi
    by_cases hset : i=id
    · simp only [hset,update_self]
      exact mem_cons_self ..
    · simp only [update_of_ne hset] at hi ⊢
      exact mem_cons_of_mem _ (h.stored i hi)
  · intro e he
    rcases mem_cons.mp he with rfl | hin
    · exact mem_cons_self ..
    · exact mem_cons_of_mem _ (h.live e hin)

theorem Inv.insertStore (h : Inv c inserted s) (hn : ∀ e∈inserted,e.2<n) (hcall : s.insertStore c PC n = .ok s') :
    Inv c ((PC,n)::inserted) s' := by
  have hclear:=h.checkClear
  rcases (insertStore_spec h.sized PC n).of_ok hcall with rfl | ⟨id,hs'⟩
  · exact ⟨hclear.sized,hclear.sorted,hclear.younger,fun e he =>
      (hclear.inserted e he).imp fun _ hin => mem_cons_of_mem _ hin⟩
  · exact hclear.joins hn hs' PC

theorem Live.insertStore (h : Live live s) (hinv : Inv c inserted s) (hn : ∀ e∈inserted,e.2<n)
    (hcall : s.insertStore c PC n = .ok s') : Live (n::live) s' := by
  have hclear:=h.checkClear (c := c)
  rcases (insertStore_spec hinv.sized PC n).of_ok hcall with rfl | ⟨id,hs'⟩
  · exact ⟨hclear.stored,fun e he => mem_cons_of_mem _ (hclear.live e he)⟩
  · exact hclear.joins hs' fun e he => (hinv.checkClear.inserted e he).elim fun PC' hin => hn (PC',e.1) hin

/-- The store leaves the list, and the set `id` that its PC has now if it is the last one of it. -/
structure Leaves (c : StoreSetParams) (PC n : ℕ) (s s' : StoreSet) : Prop where
  storeList : s'.storeList=s.storeList.filter (·.1≠n)
  SSIT : s'.SSIT=s.SSIT
  LFST : s'.LFST=s.LFST
  validLFST : ∀ i,s'.validLFST i=true → s.validLFST i=true ∧
    ¬(s.validSSIT (c.calcIndex PC)=true ∧ s.SSIT (c.calcIndex PC)=i ∧ s.LFST i=n)

theorem issued_spec (h : s.Sized c) (PC n : ℕ) (is_store : Bool) : Post (s.issued c PC n is_store)
    (fun s' => is_store=true → Leaves c PC n s s') fun _ => False := by
  cases is_store with
  | false => exact fun hstore => absurd hstore Bool.false_ne_true
  | true =>
    unfold issued
    simp only [if_true,post_bind,post_check]
    refine ⟨fun _ => ?_,fun hout => hout (calcIndex_lt c _)⟩
    split
    next hvalid =>
      simp only [post_bind,post_check]
      refine ⟨fun _ => ?_,fun hout => hout (h _)⟩
      split
      next hlast =>
        refine fun _ => ⟨rfl,rfl,rfl,fun i hi => ?_⟩
        by_cases hset : i=s.SSIT (c.calcIndex PC)
        · simp [hset] at hi
        · simp only [update_of_ne hset] at hi
          exact ⟨hi,fun hset' => hset hset'.2.1.symm⟩
      next hlast => exact fun _ => ⟨rfl,rfl,rfl,fun i hi =>
        ⟨hi,fun hset => hlast (hset.2.1 ▸ ⟨hi,hset.2.2⟩)⟩⟩
    next hvalid => exact fun _ => ⟨rfl,rfl,rfl,fun i hi => ⟨hi,fun hset => hvalid hset.1⟩⟩

theorem Inv.leaves (h : Inv c inserted s) (hs' : Leaves c PC n s s') : Inv c inserted s' where
  sized i := hs'.SSIT ▸ h.sized i
  sorted := hs'.storeList ▸ h.sorted.filter _
  younger e he := hs'.LFST ▸ h.younger e (mem_of_mem_filter (hs'.storeList ▸ he))
  inserted e he := h.inserted e (mem_of_mem_filter (hs'.storeList ▸ he))

theorem Live.leaves (h : Live live s) (hs' : Leaves c PC n s s') (hcareful : Careful c s PC n) :
    Live (live.filter (·≠n)) s' := by
  refine ⟨fun i hi => ?_,fun e he => ?_⟩
  · obtain ⟨hvalid,hleft⟩:=hs'.validLFST i hi
    have hne : s.LFST i ≠ n := fun heq => hleft ((hcareful i hvalid heq).imp_right fun hset => ⟨hset,heq⟩)
    rw [hs'.storeList,hs'.LFST]
    exact mem_filter.mpr ⟨h.stored i hvalid,decide_eq_true hne⟩
  · rw [hs'.storeList] at he
    obtain ⟨hin,hne⟩:=mem_filter.mp he
    exact mem_filter.mpr ⟨h.live e hin,hne⟩

theorem Inv.squashed (h : Inv c inserted s) (hs' : Squashed n s s') : Inv c inserted s' where
  sized i := hs'.SSIT ▸ h.sized i
  sorted := h.sorted.sublist hs'.sublist
  younger e he := hs'.LFST ▸ h.younger e ((hs'.storeList e).mp he).1
  inserted e he := h.inserted e ((hs'.storeList e).mp he).1

theorem Live.squashed (h : Live live s) (hs' : Squashed n s s') : Live (live.filter (·≤n)) s' where
  stored i hi := by
    obtain ⟨hvalid,hle⟩:=(hs'.validLFST i).mp hi
    have hin:=h.stored i hvalid
    rw [hs'.LFST]
    exact (hs'.storeList _).mpr ⟨hin,hle _ hin⟩
  live e he := by
    obtain ⟨hin,hle⟩:=(hs'.storeList e).mp he
    exact mem_filter.mpr ⟨h.live e hin,decide_eq_true hle⟩

theorem run_inv (h : Run c P inserted live s) : Inv c inserted s := by
  induction h with
  | init =>
    have hpos:=Nat.pos_of_isPowerOfTwo c.LFSTSize_pow
    exact ⟨fun _ => hpos,Pairwise.nil,fun _ he => absurd he not_mem_nil,fun _ he => absurd he not_mem_nil⟩
  | violation inserted live s s' store_PC load_PC _ hcall ih =>
    obtain ⟨hsized,t,v,rfl⟩:=(violation_spec ih.sized store_PC load_PC).of_ok hcall
    exact ⟨hsized,ih.sorted,ih.younger,ih.inserted⟩
  | insertLoad inserted live s _ ih => exact ih.checkClear
  | insertStore inserted live s s' PC n _ hn hcall ih => exact ih.insertStore hn hcall
  | issued inserted live s s' PC n _ _ _ hcall ih => exact ih.leaves ((issued_spec ih.sized PC n true).of_ok hcall rfl)
  | squash inserted live s s' n _ hcall ih =>
    obtain ⟨s1,hs1,h⟩:=ih.squash n
    cases hcall.symm.trans hs1
    exact ih.squashed h
  | clear inserted live s _ ih =>
    exact ⟨ih.sized,Pairwise.nil,fun _ he => absurd he not_mem_nil,fun _ he => absurd he not_mem_nil⟩

theorem run_live (h : Run c (Careful c) inserted live s) : Live live s := by
  induction h with
  | init | clear inserted live s _ ih =>
    exact ⟨fun _ hi => absurd hi Bool.false_ne_true,fun _ he => absurd he not_mem_nil⟩
  | violation inserted live s s' store_PC load_PC hrun hcall ih =>
    obtain ⟨-,t,v,rfl⟩:=(violation_spec (run_inv hrun).sized store_PC load_PC).of_ok hcall
    exact ⟨ih.stored,ih.live⟩
  | insertLoad inserted live s _ ih => exact ih.checkClear
  | insertStore inserted live s s' PC n hrun hn hcall ih => exact ih.insertStore (run_inv hrun) hn hcall
  | issued inserted live s s' PC n hrun _ hcareful hcall ih =>
    exact ih.leaves ((issued_spec (run_inv hrun).sized PC n true).of_ok hcall rfl) hcareful
  | squash inserted live s s' n hrun hcall ih =>
    obtain ⟨s1,hs1,h⟩:=(run_inv hrun).squash n
    cases hcall.symm.trans hs1
    exact ih.squashed h

theorem run_squash (h : Run c P inserted live s) (n : ℕ) : ∃ s',s.squash n=some s' ∧ ∀ e∈s'.storeList,e.1≤n := by
  obtain ⟨s',hs',hsq⟩:=(run_inv h).squash n
  exact ⟨s',hs',fun e he => ((hsq.storeList e).mp he).2⟩

theorem checkInst_spec (h : s.Sized c) (PC : ℕ) :
    Post (s.checkInst c PC) (fun n => n=0 ∨ ∃ i,s.validLFST i=true ∧ s.LFST i=n) fun _ => False := by
  unfold checkInst
  simp only [post_bind,post_check]
  refine ⟨fun _ => ?_,fun hout => hout (calcIndex_lt c _)⟩
  split
  · simp only [post_bind,post_check,post_pure]
    refine ⟨fun _ => ?_,fun hout => hout (h _)⟩
    split
    next hvalid => exact .inr ⟨_,hvalid,rfl⟩
    next => exact .inl rfl
  · exact .inl rfl

theorem checkInst_live (h : Live live s) (hsized : s.Sized c) (PC : ℕ) :
    ∃ n,s.checkInst c PC = .ok n ∧ (n=0 ∨ n∈live) := by
  refine ((checkInst_spec hsized PC).imp fun n hn => ?_).returns
  rcases hn with hzero | ⟨i,hvalid,rfl⟩
  · exact .inl hzero
  · exact .inr (h.live _ (h.stored i hvalid))

theorem Sized.returns (h : s.Sized c) : Returns c s where
  violation store_PC load_PC := (violation_spec h store_PC load_PC).returns.imp fun _ hs => hs.1
  insertStore PC n := (insertStore_spec h PC n).returns.imp fun _ hs => hs.1
  checkInst PC := (checkInst_spec h PC).returns.imp fun _ hn => hn.1
  issued PC n is_store := (issued_spec h PC n is_store).returns.imp fun _ hs => hs.1

def smallStoreSet : StoreSetParams := ⟨100,16,8,⟨4,rfl⟩,⟨3,rfl⟩⟩

theorem run_moved : ∃ s,Run smallStoreSet (fun _ _ _ => True) [(0,1)] [] s ∧ s.checkInst smallStoreSet 4 = .ok 1 :=
  ⟨_,.issued _ _ _ _ 0 1 (.violation _ _ _ _ 0 8 (.insertStore _ _ _ _ 0 1
    (.violation _ _ _ _ 12 8 (.violation _ _ _ _ 0 4 .init rfl) rfl) (by decide) rfl) rfl)
    (List.mem_cons_self ..) trivial rfl,rfl⟩

/-- No assertion fails and every squash ends, also in the runs that name a store no longer in flight. -/
theorem run_keeps_asserts (h : Run c P inserted live s) : Returns c s ∧ ∀ n,∃ s',s.squash n=some s' :=
  ⟨(run_inv h).sized.returns,fun n => (run_squash h n).imp fun _ hs => hs.1⟩

theorem run_keeps_asserts_moved : ∃ s,Run smallStoreSet (fun _ _ _ => True) [(0,1)] [] s ∧ Returns smallStoreSet s ∧
    ∀ n,∃ s',s.squash n=some s' :=
  run_moved.imp fun _ hs => ⟨hs.1,run_keeps_asserts hs.1⟩

/-- Where every store is issued from the set it was inserted into, the predictor names only stores in flight. -/
theorem store_set (h : Run c (Careful c) inserted live s) :
    (∀ n,∃ s',s.squash n=some s' ∧ ∀ e∈s'.storeList,e.1≤n) ∧
      (∀ PC,∃ n,s.checkInst c PC = .ok n ∧ (n=0 ∨ n∈live)) ∧ Returns c s :=
  ⟨run_squash h,checkInst_live (run_live h) (run_inv h).sized,(run_inv h).sized.returns⟩

/-- The store at 0 and the load at 4 share the set 4, the store at 12 and the load at 8 the set 0. The store 2 is the last
of the set 0 when it is issued. -/
theorem store_set_issued : ∃ s,Run smallStoreSet (Careful smallStoreSet) [(0,3),(12,2),(0,1)] [3,1] s ∧
    s.checkInst smallStoreSet 4 = .ok 3 ∧ s.checkInst smallStoreSet 8 = .ok 0 ∧
    (∀ n,∃ s',s.squash n=some s' ∧ ∀ e∈s'.storeList,e.1≤n) ∧
      (∀ PC,∃ n,s.checkInst smallStoreSet PC = .ok n ∧ (n=0 ∨ n∈[3,1])) ∧ Returns smallStoreSet s := by
  have hlast : ∀ i,update (update (update (fun _ => 0) 4 1) 0 2) 4 3 i=2 → i=0 := by
    intro i h
    by_contra hne
    by_cases hfour : i=4
    · subst hfour
      exact absurd h (by decide)
    · rw [update_of_ne hfour,update_of_ne hne,update_of_ne hfour] at h
      exact absurd h (by decide)
  have hsets : ∃ s,Run smallStoreSet (Careful smallStoreSet) [(0,3),(12,2),(0,1)] [3,1] s ∧
      s.checkInst smallStoreSet 4 = .ok 3 ∧ s.checkInst smallStoreSet 8 = .ok 0 :=
    ⟨_,.issued _ _ _ _ 12 2 (.insertStore _ _ _ _ 0 3 (.insertStore _ _ _ _ 12 2 (.insertStore _ _ _ _ 0 1
      (.violation _ _ _ _ 12 8 (.violation _ _ _ _ 0 4 .init rfl) rfl) (by decide) rfl) (by decide) rfl) (by decide) rfl)
      (by decide) (fun i _ h => by cases hlast i h; exact ⟨rfl,rfl⟩) rfl,rfl,rfl⟩
  obtain ⟨s,hrun,h4,h8⟩:=hsets
  exact ⟨s,hrun,h4,h8,store_set hrun⟩

/-- The store moves to the set 0 before it is issued, and the set 4 keeps its number. -/
theorem not_store_set : ∃ s,Run smallStoreSet (fun _ _ _ => True) [(0,1)] [] s ∧
    ∃ PC n,s.checkInst smallStoreSet PC = .ok n ∧ ¬(n=0 ∨ n∈([] : List ℕ)) :=
  run_moved.imp fun _ hs => ⟨hs.1,4,1,hs.2,by decide⟩

end StoreSet

end AquaGem5.O3
