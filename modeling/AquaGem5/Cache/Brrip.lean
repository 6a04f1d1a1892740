import Mathlib.Algebra.Order.Group.Nat

/-!
# Victims by re-reference prediction (brrip_rp.cc, sat_counter.hh)

A candidate is known by its place in the list, and has replacement data of its own. Its RRPV is a counter of the
policy's number of bits.
-/

namespace AquaGem5.Cache.Brrip
open List Nat

/-- A saturating counter of `bits` bits. -/
structure SatCounter (bits : ℕ) where
  counter : ℕ
  le : counter≤2^bits-1
  deriving DecidableEq

/-- The policy, whose counters are `uint8_t`. -/
structure BRRIPRP where
  numRRPVBits : ℕ
  bits_pos : 0<numRRPVBits
  bits_le : numRRPVBits≤8

namespace SatCounter

variable {bits : ℕ} (c : SatCounter bits)

def maxVal (_ : SatCounter bits) : ℕ := 2^bits-1

def isSaturated : Bool := decide (c.counter=c.maxVal)

def incr : SatCounter bits := if h : c.counter<c.maxVal then ⟨c.counter+1,h⟩ else c

def plus (value : ℕ) : SatCounter bits :=
  if h : value≤c.maxVal-c.counter then ⟨c.counter+value,by have := c.le; rw [maxVal] at h; omega⟩
  else ⟨c.maxVal,Nat.le_refl _⟩

def saturate : ℕ × SatCounter bits := (c.maxVal-c.counter,⟨c.maxVal,Nat.le_refl _⟩)

variable {c}

@[ext] theorem ext {c c' : SatCounter bits} (h : c.counter=c'.counter) : c=c' := by
  cases c
  cases c'
  cases h
  rfl

@[simp] theorem incr_counter : c.incr.counter=min (c.counter+1) (2^bits-1) := by
  have hle:=c.le
  rw [incr]
  split
  next h => exact (min_eq_left h).symm
  next h =>
    have hmax : ¬c.counter<2^bits-1 := h
    omega

@[simp] theorem plus_counter (value : ℕ) : (c.plus value).counter=min (c.counter+value) (2^bits-1) := by
  have hle:=c.le
  rw [plus]
  split
  next h =>
    have hfits : value≤2^bits-1-c.counter := h
    change c.counter+value=_
    omega
  next h =>
    have hover : ¬value≤2^bits-1-c.counter := h
    change 2^bits-1=_
    omega

theorem saturate_counter : c.saturate.2.counter=2^bits-1 := rfl

theorem saturate_diff : c.saturate.1=2^bits-1-c.counter := rfl

theorem incr_plus (value : ℕ) : c.incr.plus value=c.plus (value+1) := by
  ext
  simp only [plus_counter,incr_counter]
  omega

theorem plus_zero : c.plus 0=c := by
  ext
  have hle:=c.le
  simp only [plus_counter]
  omega

theorem plus_saturate : c.plus c.saturate.1=c.saturate.2 := by
  ext
  have hle:=c.le
  rw [plus_counter,saturate_counter,saturate_diff]
  omega

theorem saturate_plus (value : ℕ) : c.saturate.2.plus value=c.saturate.2 := by
  ext
  rw [plus_counter,saturate_counter]
  omega

end SatCounter

structure BRRIPReplData (bits : ℕ) where
  rrpv : SatCounter bits
  valid : Bool
  deriving DecidableEq

def BRRIPRP.instantiateEntry (p : BRRIPRP) : BRRIPReplData p.numRRPVBits := ⟨⟨0,Nat.zero_le _⟩,false⟩

inductive Fault where
  | assertion
  deriving DecidableEq

variable {bits : ℕ}

/-- The loop over the candidates from the place `i` on, with the victim so far: it stops at an invalid one (`inl`) or
ends with the victim (`inr`). -/
def search (i victim victimRRPV : ℕ) : List (BRRIPReplData bits) → ℕ ⊕ ℕ
  | [] => .inr victim
  | candidate::candidates =>
    if candidate.valid=false then .inl i
    else if victimRRPV<candidate.rrpv.counter then search (i+1) i candidate.rrpv.counter candidates
    else search (i+1) victim victimRRPV candidates

def plusAll (diff : ℕ) (candidates : List (BRRIPReplData bits)) : List (BRRIPReplData bits) :=
  candidates.map fun c => {c with rrpv := c.rrpv.plus diff}

def getVictim (candidates : List (BRRIPReplData bits)) : Except Fault (ℕ × List (BRRIPReplData bits)) :=
  match candidates with
  | [] => .error .assertion
  | first::_ =>
    match search 0 0 first.rrpv.counter candidates with
    | .inl i => .ok (i,candidates)
    | .inr victim =>
      match candidates[victim]? with
      | none => .error .assertion
      | some d =>
        let (diff,rrpv) := d.rrpv.saturate
        let candidates := candidates.set victim {d with rrpv := rrpv}
        if 0<diff then .ok (victim,plusAll diff candidates) else .ok (victim,candidates)

def age (candidates : List (BRRIPReplData bits)) : List (BRRIPReplData bits) :=
  candidates.map fun c => {c with rrpv := c.rrpv.incr}

/-- The candidates age until one of them is saturated; the first such is the victim. -/
def ageUntil : ℕ → List (BRRIPReplData bits) → Option (ℕ × List (BRRIPReplData bits))
  | 0,candidates => (candidates.findIdx? (·.rrpv.isSaturated)).map (·,candidates)
  | fuel+1,candidates =>
    match candidates.findIdx? (·.rrpv.isSaturated) with
    | some victim => some (victim,candidates)
    | none => ageUntil fuel (age candidates)

structure Shifted (diff : ℕ) (candidates aged : List (BRRIPReplData bits)) : Prop where
  length : aged.length=candidates.length
  rrpv : ∀ (i : ℕ) (c c' : BRRIPReplData bits),candidates[i]?=some c → aged[i]?=some c' → c'.rrpv.counter=c.rrpv.counter+diff
  valid : ∀ (i : ℕ) (c c' : BRRIPReplData bits),candidates[i]?=some c → aged[i]?=some c' → c'.valid=c.valid

variable {candidates aged : List (BRRIPReplData bits)} {victim diff : ℕ} {d : BRRIPReplData bits}

structure FirstHighest (candidates : List (BRRIPReplData bits)) (victim : ℕ) (d : BRRIPReplData bits) : Prop where
  at_victim : candidates[victim]?=some d
  le : ∀ c∈candidates,c.rrpv.counter≤d.rrpv.counter
  before : ∀ i<victim,∀ c,candidates[i]?=some c → c.rrpv.counter<d.rrpv.counter

theorem search_invalid {i : ℕ} (h : candidates.findIdx? (!·.valid)=some i) (k v r : ℕ) :
    search k v r candidates = .inl (k+i) := by
  induction candidates generalizing i k v r with
  | nil => cases h
  | cons c cs ih =>
    rw [findIdx?_cons] at h
    rw [search]
    cases hvalid : c.valid with
    | false =>
      rw [hvalid] at h
      cases h
      rfl
    | true =>
      simp only [hvalid,Bool.not_true,Bool.false_eq_true,if_false,Option.map_eq_some_iff] at h
      obtain ⟨j,hj,rfl⟩:=h
      rw [if_neg Bool.true_eq_false.mp,← add_assoc,add_right_comm]
      split
      · exact ih hj (k+1) k c.rrpv.counter
      · exact ih hj (k+1) v r

variable {rest : List (BRRIPReplData bits)}

theorem search_valid (hvalid : ∀ c∈candidates,c.valid=true) :
    ∀ done v d,candidates=done++rest → candidates[v]?=some d → v≤done.length →
      (∀ c∈done,c.rrpv.counter≤d.rrpv.counter) → (∀ i<v,∀ c,candidates[i]?=some c → c.rrpv.counter<d.rrpv.counter) →
      ∃ w e,search done.length v d.rrpv.counter rest = .inr w ∧ FirstHighest candidates w e := by
  induction rest with
  | nil =>
    intro done v d hsplit hv _ hle hbefore
    rw [append_nil] at hsplit
    exact ⟨v,d,rfl,hv,by rwa [hsplit],hbefore⟩
  | cons c rest ih =>
    intro done v d hsplit hv hin hle hbefore
    have hat : candidates[done.length]?=some c := by simp [hsplit]
    have hsplit' : candidates=(done++[c])++rest := hsplit.trans (append_cons ..)
    have hlen : (done++[c]).length=done.length+1 := by rw [length_append,length_singleton]
    rw [search,if_neg (by rw [hvalid c (mem_of_getElem? hat)]; exact Bool.true_eq_false.mp),← hlen]
    split
    next hlt =>
      -- a higher counter than all before
      refine ih (done++[c]) done.length c hsplit' hat (by omega) (fun c' hc' => ?_) fun i hi c' hc' => ?_
      · rcases mem_append.mp hc' with hc' | hc'
        · exact le_trans (hle c' hc') (le_of_lt hlt)
        · have heq:=mem_singleton.mp hc'
          exact le_of_eq (congrArg (fun c : BRRIPReplData bits => c.rrpv.counter) heq)
      · rw [hsplit,getElem?_append_left hi] at hc'
        exact Nat.lt_of_le_of_lt (hle c' (mem_of_getElem? hc')) hlt
    next hge =>
      refine ih (done++[c]) v d hsplit' hv (by omega) (fun c' hc' => ?_) hbefore
      rcases mem_append.mp hc' with hc' | hc'
      · exact hle c' hc'
      · rw [mem_singleton.mp hc']
        exact Nat.le_of_not_lt hge

theorem exists_firstHighest {first : BRRIPReplData bits} (hvalid : ∀ c∈first::rest,c.valid=true) :
    ∃ w e,search 0 0 first.rrpv.counter (first::rest) = .inr w ∧ FirstHighest (first::rest) w e :=
  search_valid hvalid [] 0 first rfl rfl (le_refl 0) (fun _ hc => absurd hc not_mem_nil)
    fun _ hi => absurd hi (not_lt_zero _)

theorem plusAll_zero : plusAll 0 candidates=candidates := by
  refine (map_congr_left fun c _ => ?_).trans (map_id candidates)
  rw [SatCounter.plus_zero]
  rfl

theorem plusAll_set (h : candidates[victim]?=some d) :
    plusAll d.rrpv.saturate.1 (candidates.set victim {d with rrpv := d.rrpv.saturate.2}) =
      plusAll d.rrpv.saturate.1 candidates := by
  rw [plusAll,plusAll,map_set,SatCounter.saturate_plus]
  refine ext_getElem? fun i => ?_
  by_cases hi : victim=i
  · subst hi
    rw [getElem?_set_self',getElem?_map,h,Option.map_some,SatCounter.plus_saturate]
    rfl
  · rw [getElem?_set_ne hi]

theorem getVictim_of_search {first : BRRIPReplData bits}
    (hsearch : search 0 0 first.rrpv.counter (first::rest) = .inr victim) (hat : (first::rest)[victim]?=some d) :
    getVictim (first::rest) = .ok (victim,plusAll d.rrpv.saturate.1 (first::rest)) := by
  simp only [getVictim,hsearch,hat,plusAll_set hat]
  split
  next => rfl
  next hzero =>
    -- no difference, so the saturated victim is as it was
    have hdiff : d.rrpv.saturate.1=0 := Nat.eq_zero_of_not_pos hzero
    have hset:=plusAll_set hat
    rw [hdiff,plusAll_zero,plusAll_zero] at hset
    rw [hdiff,plusAll_zero,hset]

theorem getElem?_age (i : ℕ) : (age candidates)[i]?=candidates[i]?.map fun c => {c with rrpv := c.rrpv.incr} :=
  getElem?_map

theorem age_plusAll (k : ℕ) : plusAll k (age candidates)=plusAll (k+1) candidates := by
  rw [plusAll,age,map_map]
  refine map_congr_left fun c _ => ?_
  rw [Function.comp_apply,SatCounter.incr_plus]

namespace FirstHighest

variable (h : FirstHighest candidates victim d)
include h

theorem findIdx?_of_saturated (hd : d.rrpv.isSaturated) : candidates.findIdx? (·.rrpv.isSaturated)=some victim := by
  obtain ⟨hin,hat⟩:=List.getElem?_eq_some_iff.mp h.at_victim
  refine findIdx?_eq_some_iff_getElem.mpr ⟨hin,by rwa [hat],fun i hi => ?_⟩
  have hlt:=h.before i hi _ (getElem?_eq_getElem (by omega))
  have hle:=d.rrpv.le
  rw [SatCounter.isSaturated,decide_eq_true_eq]
  intro heq
  rw [heq] at hlt
  exact absurd hlt (not_lt.mpr hle)

theorem findIdx?_of_not_saturated (hd : d.rrpv.counter<2^bits-1) : candidates.findIdx? (·.rrpv.isSaturated)=none := by
  refine findIdx?_eq_none_iff.mpr fun c hc => ?_
  rw [SatCounter.isSaturated,decide_eq_false_iff_not]
  exact Nat.ne_of_lt (Nat.lt_of_le_of_lt (h.le c hc) hd)

theorem round (hd : d.rrpv.counter<2^bits-1) :
    FirstHighest (age candidates) victim {d with rrpv := d.rrpv.incr} := by
  refine ⟨by rw [getElem?_age,h.at_victim]; rfl,fun c hc => ?_,fun i hi c hc => ?_⟩
  · obtain ⟨b,hb,rfl⟩:=mem_map.mp hc
    have := h.le b hb
    simp only [SatCounter.incr_counter]
    omega
  · rw [getElem?_age,Option.map_eq_some_iff] at hc
    obtain ⟨b,hb,rfl⟩:=hc
    have := h.before i hi b hb
    simp only [SatCounter.incr_counter]
    omega

end FirstHighest

theorem FirstHighest.ageUntil_eq {fuel k : ℕ} (h : FirstHighest candidates victim d)
    (hk : d.rrpv.counter+k=2^bits-1) (hfuel : k≤fuel) :
    ageUntil fuel candidates=some (victim,plusAll k candidates) := by
  induction k generalizing fuel candidates d with
  | zero =>
    have hfound:=h.findIdx?_of_saturated (decide_eq_true hk)
    rw [plusAll_zero]
    cases fuel with
    | zero => rw [ageUntil,hfound]; rfl
    | succ fuel => rw [ageUntil,hfound]
  | succ k ih =>
    obtain ⟨fuel,rfl⟩ : ∃ m,fuel=m+1 := ⟨fuel-1,by omega⟩
    have hd : d.rrpv.counter<2^bits-1 := by omega
    have hround : d.rrpv.incr.counter+k=2^bits-1 := by
      rw [SatCounter.incr_counter]
      omega
    rw [ageUntil,h.findIdx?_of_not_saturated hd,ih (h.round hd) hround (by omega),age_plusAll]

theorem FirstHighest.shifted {k : ℕ} (h : FirstHighest candidates victim d) (hk : d.rrpv.counter+k=2^bits-1) :
    Shifted k candidates (plusAll k candidates) := by
  refine ⟨length_map _,fun i c c' hc hc' => ?_,fun i c c' hc hc' => ?_⟩
  all_goals
    rw [plusAll,getElem?_map,hc,Option.map_some,Option.some_inj] at hc'
    subst hc'
  · have hle:=h.le c (mem_of_getElem? hc)
    simp only [SatCounter.plus_counter]
    omega
  · rfl

/-- With an invalid candidate, the first such is the victim and no counter changes. Otherwise the victim and the
counters are those of aging in rounds, of which `2^bits - 1` are enough, and all counters grow by the same value. -/
theorem getVictim_eq_ageUntil (p : BRRIPRP) (candidates : List (BRRIPReplData p.numRRPVBits)) (hne : candidates≠[]) :
    (∀ i,candidates.findIdx? (!·.valid)=some i → getVictim candidates = .ok (i,candidates)) ∧
      ((∀ c∈candidates,c.valid=true) → ∃ victim aged diff,getVictim candidates = .ok (victim,aged) ∧
        (∀ fuel,2^p.numRRPVBits-1≤fuel → ageUntil fuel candidates=some (victim,aged)) ∧
        Shifted diff candidates aged) := by
  obtain ⟨first,rest,rfl⟩:=List.exists_cons_of_ne_nil hne
  refine ⟨fun i hi => ?_,fun hvalid => ?_⟩
  · rw [getVictim,search_invalid hi,Nat.zero_add]
  · obtain ⟨victim,d,hsearch,h⟩:=exists_firstHighest hvalid
    have hle:=d.rrpv.le
    have hk : d.rrpv.counter+d.rrpv.saturate.1=2^p.numRRPVBits-1 := by
      rw [SatCounter.saturate_diff]
      omega
    exact ⟨victim,_,_,getVictim_of_search hsearch h.at_victim,
      fun fuel hfuel => h.ageUntil_eq hk (by omega),h.shifted hk⟩

def twoBits : BRRIPRP := ⟨2,Nat.two_pos,Nat.le_add_left 2 6⟩

def threeCandidates : List (BRRIPReplData twoBits.numRRPVBits) :=
  [0,2,1].map fun v => ⟨twoBits.instantiateEntry.rrpv.plus v,true⟩

theorem getVictim_eq_ageUntil_three :
    ∃ victim aged diff,getVictim threeCandidates = .ok (victim,aged) ∧
      (∀ fuel,2^2-1≤fuel → ageUntil fuel threeCandidates=some (victim,aged)) ∧
      Shifted diff threeCandidates aged :=
  (getVictim_eq_ageUntil twoBits threeCandidates (List.cons_ne_nil _ _)).2
    (List.forall_mem_map.mpr fun _ _ => rfl)

end AquaGem5.Cache.Brrip
