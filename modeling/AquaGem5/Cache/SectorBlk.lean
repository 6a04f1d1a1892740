import AquaGem5.Address.Decode
import AquaGem5.Lib.Checked
import AquaGem5.Lib.Tally

/-!
# Cache blocks and sectors of them (cache_blk.hh, sector_blk.cc)

A sub-block is known by its offset in the sector.
-/

namespace AquaGem5.Cache
open Address Checked Tally Function

inductive Fault where
  | assertion
  | panic
  | null
  | bounds
  | endless
  | dangling
  deriving DecidableEq

structure Status where
  valid : Bool
  writable : Bool
  readable : Bool
  dirty : Bool
  hwPrefetched : Bool
  secure : Bool
  compressed : Bool
  deriving DecidableEq

def Status.zero : Status := ⟨false,false,false,false,false,false,false⟩

structure CacheBlk where
  tag : Addr
  status : Status
  refCount : BitVec 32
  deriving DecidableEq

namespace CacheBlk

def isValid (b : CacheBlk) : Bool := b.status.valid

def isSecure (b : CacheBlk) : Bool := b.status.secure

def isWritable (b : CacheBlk) : Bool := b.status.writable&&b.status.valid

def invalidated : CacheBlk := ⟨maxAddr,Status.zero,0⟩

def inserted (tag : Addr) (secure : Bool) : CacheBlk :=
  ⟨tag,{Status.zero with valid := true, secure := secure},1⟩

@[simp] theorem isValid_invalidated : invalidated.isValid=false := rfl

@[simp] theorem isValid_inserted (tag : Addr) (secure : Bool) : (inserted tag secure).isValid=true := rfl

end CacheBlk

structure SectorBlk (n : ℕ) where
  tag : Addr
  secureBit : Bool
  validCounter : BitVec 8
  blks : Fin n → CacheBlk

namespace SectorBlk

variable {n : ℕ} (s : SectorBlk n) (k : Fin n)

def init : SectorBlk n := ⟨maxAddr,false,0,fun _ => CacheBlk.invalidated⟩

def isValid : Bool := decide (0#8<s.validCounter)

def setBlk (b : CacheBlk) : SectorBlk n := {s with blks := Function.update s.blks k b}

def setSecure : SectorBlk n :=
  let b := s.blks k
  {s.setBlk k {b with status := {b.status with secure := true} } with secureBit := true}

def setValid : Except Fault (SectorBlk n) :=
  let b := s.blks k
  if b.isValid then .error .assertion
  else .ok {s.setBlk k {b with status := {b.status with valid := true} } with
    validCounter := s.validCounter+1}

def invalidate : SectorBlk n :=
  let counter := s.validCounter-1
  {s.setBlk k CacheBlk.invalidated with
    validCounter := counter
    secureBit := if counter=0 then false else s.secureBit}

def insert (tag : Addr) (isSecure : Bool) : Except Fault (SectorBlk n) :=
  if s.isValid ∧ (s.tag≠tag ∨ s.secureBit≠isSecure) then .error .panic
  else if (s.blks k).status≠Status.zero then .error .assertion
  else do
    let s := s.setBlk k {s.blks k with tag := tag, refCount := 1}
    let s := if isSecure then s.setSecure k else s
    let s ← s.setValid k
    return {s with tag := tag}

def filled (tag : Addr) (isSecure : Bool) : SectorBlk n :=
  { tag := tag
    secureBit := isSecure || s.secureBit
    validCounter := s.validCounter+1
    blks := Function.update s.blks k (CacheBlk.inserted tag isSecure)}

variable {s k}

theorem insert_ok {tag : Addr} {isSecure : Bool} (hfits : s.isValid=true → s.tag=tag ∧ s.secureBit=isSecure)
    (hclear : (s.blks k).status=Status.zero) : s.insert k tag isSecure = .ok (s.filled k tag isSecure) := by
  have hpanic : ¬(s.isValid=true ∧ (s.tag≠tag ∨ s.secureBit≠isSecure)) := by
    intro h
    obtain ⟨htag,hsecure⟩:=hfits h.1
    exact h.2.elim (fun hne => hne htag) fun hne => hne hsecure
  rw [insert,if_neg hpanic,if_neg (not_not_intro hclear)]
  cases isSecure with
  | false =>
    simp [setBlk,setValid,filled,CacheBlk.inserted,CacheBlk.isValid,hclear,Status.zero,bind,Except.bind,pure,
      Except.pure]
  | true =>
    simp [setBlk,setSecure,setValid,filled,CacheBlk.inserted,CacheBlk.isValid,hclear,Status.zero,bind,
      Except.bind,pure,Except.pure]

def numValid (s : SectorBlk n) : ℕ := tally CacheBlk.isValid s.blks

structure Coherent (s : SectorBlk n) : Prop where
  counter : s.validCounter.toNat=s.numValid
  tags : ∀ k,(s.blks k).isValid=true → (s.blks k).tag=s.tag
  secures : ∀ k,(s.blks k).isValid=true → (s.blks k).isSecure=s.secureBit
  idle : s.numValid=0 → s.secureBit=false
  cleared : ∀ k,(s.blks k).isValid=false → (s.blks k).status=Status.zero

namespace Coherent

theorem init : Coherent (init : SectorBlk n) where
  counter := by
    have hzero : (SectorBlk.init : SectorBlk n).numValid=0 := tally_eq_zero.mpr fun _ => rfl
    rw [hzero]
    rfl
  tags := fun k h => by cases h
  secures := fun k h => by cases h
  idle := fun _ => rfl
  cleared := fun _ _ => rfl

theorem isValid_iff (h : Coherent s) : s.isValid=true ↔ ∃ k,(s.blks k).isValid=true := by
  rw [isValid,decide_eq_true_iff,BitVec.lt_def,h.counter]
  exact tally_pos

theorem isValid_eq_false (h : Coherent s) : s.isValid=false ↔ ∀ k,(s.blks k).isValid=false := by
  rw [Bool.eq_false_iff,ne_eq,h.isValid_iff,not_exists]
  simp only [Bool.not_eq_true]

theorem filled (h : Coherent s) {tag : Addr} {isSecure : Bool}
    (hfits : s.isValid=true → s.tag=tag ∧ s.secureBit=isSecure)
    (hfree : (s.blks k).isValid=false) (hroom : s.numValid<255) : Coherent (s.filled k tag isSecure) := by
  have hcount : (s.filled k tag isSecure).numValid=s.numValid+1 := tally_gain hfree rfl
  have hsecure : (isSecure || s.secureBit)=isSecure := by
    cases hv : s.isValid with
    | true => rw [(hfits hv).2,Bool.or_self]
    | false => rw [h.idle (tally_eq_zero.mpr (h.isValid_eq_false.mp hv)),Bool.or_false]
  have hother : ∀ j,j≠k → (s.blks j).isValid=true → s.tag=tag ∧ s.secureBit=isSecure :=
    fun j _ hj => hfits (h.isValid_iff.mpr ⟨j,hj⟩)
  refine ⟨?_,?_,?_,?_,?_⟩
  · have hcounter:=h.counter
    rw [hcount]
    change (s.validCounter+1#8).toNat=_
    rw [BitVec.toNat_add,hcounter,BitVec.toNat_ofNat]
    omega
  · intro j hj
    by_cases hjk : j=k
    · subst hjk
      simp [SectorBlk.filled,CacheBlk.inserted]
    · simp only [SectorBlk.filled,update_of_ne hjk] at hj ⊢
      rw [h.tags j hj,(hother j hjk hj).1]
  · intro j hj
    by_cases hjk : j=k
    · subst hjk
      simp only [SectorBlk.filled,update_self,CacheBlk.inserted,CacheBlk.isSecure]
      exact hsecure.symm
    · simp only [SectorBlk.filled,update_of_ne hjk] at hj ⊢
      rw [h.secures j hj,hsecure,(hother j hjk hj).2]
  · intro hzero
    omega
  · intro j hj
    by_cases hjk : j=k
    · subst hjk
      simp [SectorBlk.filled] at hj
    · simp only [SectorBlk.filled,update_of_ne hjk] at hj ⊢
      exact h.cleared j hj

theorem numValid_invalidate (hk : (s.blks k).isValid=true) :
    (s.invalidate k).numValid+1=s.numValid := tally_loss hk rfl

theorem invalidate (h : Coherent s) (hk : (s.blks k).isValid=true) : Coherent (s.invalidate k) := by
  have hcount:=numValid_invalidate hk
  have hcounter : (s.validCounter-1).toNat=(s.invalidate k).numValid := by
    have hself:=h.counter
    change (s.validCounter-1#8).toNat=_
    rw [BitVec.toNat_sub,hself]
    change (2^8-1+s.numValid)%2^8=_
    omega
  have hzero : s.validCounter-1=0 ↔ (s.invalidate k).numValid=0 := by
    rw [← hcounter,← BitVec.toNat_inj]
    rfl
  have hkeep : ∀ j,(((s.invalidate k).blks j).isValid=true) → j≠k ∧ (s.blks j).isValid=true ∧
      (s.invalidate k).blks j=s.blks j := by
    intro j hj
    by_cases hjk : j=k
    · subst hjk
      simp [SectorBlk.invalidate,setBlk] at hj
    · simp only [SectorBlk.invalidate,setBlk,update_of_ne hjk] at hj ⊢
      exact ⟨hjk,hj,trivial⟩
  refine ⟨hcounter,?_,?_,?_,?_⟩
  · intro j hj
    obtain ⟨_,hv,heq⟩:=hkeep j hj
    rw [heq]
    exact h.tags j hv
  · intro j hj
    obtain ⟨_,hv,heq⟩:=hkeep j hj
    have hne : s.validCounter-1≠0 := by
      rw [ne_eq,hzero]
      have hpos : 0<(s.invalidate k).numValid := tally_pos.mpr ⟨j,hj⟩
      omega
    rw [heq,h.secures j hv]
    simp only [SectorBlk.invalidate]
    rw [if_neg hne]
  · intro hnone
    simp only [SectorBlk.invalidate]
    rw [if_pos (hzero.mpr hnone)]
  · intro j hj
    by_cases hjk : j=k
    · subst hjk
      simp [SectorBlk.invalidate,setBlk,CacheBlk.invalidated]
    · simp only [SectorBlk.invalidate,setBlk,update_of_ne hjk] at hj ⊢
      exact h.cleared j hj

theorem setBlk (h : Coherent s) {b : CacheBlk} (htag : b.tag=(s.blks k).tag)
    (hstatus : b.status=(s.blks k).status) : Coherent (s.setBlk k b) := by
  have hsame : ∀ j,((s.setBlk k b).blks j).tag=(s.blks j).tag ∧
      ((s.setBlk k b).blks j).status=(s.blks j).status := by
    intro j
    by_cases hjk : j=k
    · subst hjk
      simp [SectorBlk.setBlk,htag,hstatus]
    · simp [SectorBlk.setBlk,hjk]
  have hvalid : ∀ j,((s.setBlk k b).blks j).isValid=(s.blks j).isValid :=
    fun j => congrArg Status.valid (hsame j).2
  have hcount : (s.setBlk k b).numValid=s.numValid := tally_congr hvalid
  refine ⟨h.counter.trans hcount.symm,?_,?_,?_,?_⟩
  · intro j hj
    rw [(hsame j).1]
    exact h.tags j (hvalid j ▸ hj)
  · intro j hj
    rw [CacheBlk.isSecure,(hsame j).2]
    exact h.secures j (hvalid j ▸ hj)
  · intro hzero
    exact h.idle (hcount ▸ hzero)
  · intro j hj
    rw [(hsame j).2]
    exact h.cleared j (hvalid j ▸ hj)

end Coherent

end SectorBlk

end AquaGem5.Cache
