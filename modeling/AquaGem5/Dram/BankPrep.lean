import AquaGem5.Dram.BurstAccess
import AquaGem5.Lib.Bits
import AquaGem5.Lib.Candidates
import Mathlib.Data.List.ProdSigma
import Mathlib.Order.WithBot

/-!
# Which banks can be prepared first (mem_interface.cc)

A mask of the banks of a rank is a 32-bit word and a bank id a 16-bit number, whatever the number of
banks. Setting or reading a bit above the word is undefined.
-/

namespace AquaGem5.Dram
open Ticks Controller Checked Bits Candidates List Nat Bool

namespace Scheduler

inductive Fault where
  | assertion
  | shift
  | outOfBounds
  deriving DecidableEq

structure View where
  ranksPerChannel : ℕ
  ranks : ℕ → Rank
  inRefIdleState : ℕ → Bool
  inReadBusState : Bool
  curTick : ℕ

variable (P : Params) (v : View) (queue : List MemPacket) (minColAt : ℕ)

def View.bank (v : View) (x : ℕ × ℕ) : Bank := (v.ranks x.1).banks x.2

def actAt (x : ℕ × ℕ) : ℕ :=
  if (v.bank x).openRow=none then max (v.bank x).actAllowedAt v.curTick
  else max (v.bank x).preAllowedAt v.curTick+P.tRP

def colAt (x : ℕ × ℕ) : ℕ :=
  max (if v.inReadBusState then (v.bank x).rdAllowedAt else (v.bank x).wrAllowedAt) (actAt P v x+P.tRCD)

def hiddenActMax : ℕ := max (tickSub minColAt P.tRCD) v.curTick

/-- The state of the scan. `minActAt` is `⊤` for `MaxTick`, which is past every tick. -/
structure Prep where
  minActAt : WithTop ℕ
  bankMask : ℕ → BitVec 32
  foundSeamlessBank : Bool
  hiddenBankPrep : Bool

def gotWaiting (id : ℕ) : Bool :=
  queue.any fun p => p.dram&&v.inRefIdleState p.rank&&decide (p.bankId=id)

def replaceBit (val : BitVec 32) (bit : ℕ) : Except Fault (BitVec 32) :=
  if bit<32 then .ok (val ||| 1#32 <<< bit) else .error .shift

def prepBank (st : Prep) (x : ℕ × ℕ) : Except Fault Prep :=
  if gotWaiting v queue ((x.1*P.banksPerRank+x.2)%2^16) then do
    check (v.inRefIdleState x.1=true) .assertion
    let newSeamlessBank := decide (colAt P v x ≤ minColAt)
    if newSeamlessBank || (!st.foundSeamlessBank&&decide (WithTop.some (actAt P v x) ≤ st.minActAt)) then do
      let bankMask := if !st.foundSeamlessBank&&(newSeamlessBank || decide (WithTop.some (actAt P v x)<st.minActAt)) then
        fun _ => 0#32 else st.bankMask
      let bits ← replaceBit (bankMask x.1) x.2
      return ⟨WithTop.some (actAt P v x),Function.update bankMask x.1 bits,st.foundSeamlessBank || newSeamlessBank,
        decide (actAt P v x≤hiddenActMax P v minColAt)⟩
    else pure st
  else pure st

def allBanks : List (ℕ × ℕ) := List.range v.ranksPerChannel ×ˢ List.range P.banksPerRank

def minBankPrep : Except Fault ((ℕ → BitVec 32) × Bool) := do
  check (∀ p∈queue,p.dram=true → p.rank<v.ranksPerChannel) .outOfBounds
  check (∀ p∈queue,p.dram=true → v.inRefIdleState p.rank=true →
    p.bankId<v.ranksPerChannel*P.banksPerRank%2^32) .outOfBounds
  let st ← (allBanks P v).foldlM (prepBank P v queue minColAt) ⟨⊤,fun _ => 0#32,false,false⟩
  return (st.bankMask,st.hiddenBankPrep)

def Waits (x : ℕ × ℕ) : Prop := ∃ p∈queue,p.dram=true ∧ v.inRefIdleState p.rank=true ∧ p.rank=x.1 ∧ p.bank=x.2

def Seamless (x : ℕ × ℕ) : Prop := colAt P v x ≤ minColAt

/-- The seamless banks that are waited for or, without any, those with the earliest activate. -/
def Best (x : ℕ × ℕ) : Prop :=
  Waits v queue x ∧ ((∃ y,Waits v queue y ∧ Seamless P v minColAt y) → Seamless P v minColAt x) ∧
    ((¬∃ y,Waits v queue y ∧ Seamless P v minColAt y) → ∀ y,Waits v queue y → actAt P v x≤actAt P v y)

structure Prepares (r : (ℕ → BitVec 32) × Bool) : Prop where
  mask : ∀ i j,(r.1 i).getLsbD j=true ↔ Best P v queue minColAt (i,j)
  hidden : r.2=true ↔ (∃ x,Waits v queue x) ∧
    ∀ x,Best P v queue minColAt x → actAt P v x ≤ max (minColAt-P.tRCD) v.curTick

/-- The packets come from the decoder: 8-bit ranks and banks, and a 16-bit bank id. -/
structure Decoded (p : MemPacket) : Prop where
  rank_lt : p.rank < min v.ranksPerChannel (2^8)
  bank_lt : p.bank < min P.banksPerRank (2^8)
  bankId_eq : p.bankId=(P.banksPerRank*p.rank+p.bank)%2^16

def AllDecoded : Prop := ∀ p∈queue,p.dram=true → Decoded P v p

variable {P : Params} {v : View} {queue : List MemPacket} {minColAt : ℕ} {done : List (ℕ × ℕ)} {st : Prep} {x : ℕ × ℕ}

theorem mem_allBanks : x∈allBanks P v ↔ x.1<v.ranksPerChannel ∧ x.2<P.banksPerRank := by
  rw [allBanks,mem_product,mem_range,mem_range]

theorem waits_mem (hq : AllDecoded P v queue) (h : Waits v queue x) : x∈allBanks P v := by
  obtain ⟨p,hp,hdram,_,hrank,hbank⟩:=h
  have hd:=hq p hp hdram
  have hr:=hd.rank_lt
  have hb:=hd.bank_lt
  rw [mem_allBanks]
  omega

theorem bankId_lt (hx : x∈allBanks P v) : x.1*P.banksPerRank+x.2<v.ranksPerChannel*P.banksPerRank := by
  obtain ⟨hrank,hbank⟩:=mem_allBanks.mp hx
  calc x.1*P.banksPerRank+x.2<(x.1+1)*P.banksPerRank := by rw [succ_mul]; omega
    _≤v.ranksPerChannel*P.banksPerRank := mul_le_mul_right _ hrank

theorem bankId_injective {y : ℕ × ℕ} (hx : x.2<P.banksPerRank) (hy : y.2<P.banksPerRank)
    (h : x.1*P.banksPerRank+x.2=y.1*P.banksPerRank+y.2) : x=y := by
  have hpos:=Nat.zero_lt_of_lt hx
  have hdiv:=congrArg (·/P.banksPerRank) h
  simp only [add_comm _ x.2,add_comm _ y.2,add_mul_div_right _ _ hpos,div_eq_of_lt hx,
    div_eq_of_lt hy,zero_add] at hdiv
  rw [hdiv] at h
  exact Prod.ext hdiv (by omega)

structure Fits (P : Params) (v : View) : Prop where
  banks_le : P.banksPerRank≤32
  ids_le : v.ranksPerChannel*P.banksPerRank≤2^16

theorem Decoded.bankId (hfits : Fits P v) {p : MemPacket} (hp : Decoded P v p) :
    p.bankId=p.rank*P.banksPerRank+p.bank ∧ p.bankId<v.ranksPerChannel*P.banksPerRank := by
  have hrank:=hp.rank_lt
  have hbank:=hp.bank_lt
  have hids:=hfits.ids_le
  have hlt:=bankId_lt (P := P) (v := v) (x := (p.rank,p.bank)) (mem_allBanks.mpr ⟨by omega,by omega⟩)
  have hid:=hp.bankId_eq
  rw [Nat.mul_comm,mod_eq_of_lt (hlt.trans_le hids)] at hid
  exact ⟨hid,hid ▸ hlt⟩

theorem AllDecoded.inBounds (hfits : Fits P v) (hq : AllDecoded P v queue) :
    (∀ p∈queue,p.dram=true → p.rank<v.ranksPerChannel) ∧ ∀ p∈queue,p.dram=true → v.inRefIdleState p.rank=true →
        p.bankId<v.ranksPerChannel*P.banksPerRank%2^32 := by
  refine ⟨fun p hp hdram => ?_,fun p hp hdram _ => ?_⟩
  · have := (hq p hp hdram).rank_lt
    omega
  · have hlt:=((hq p hp hdram).bankId hfits).2
    have hle:=hfits.ids_le
    rwa [mod_eq_of_lt (by omega)]

theorem gotWaiting_iff (hfits : Fits P v) (hq : AllDecoded P v queue) (hx : x∈allBanks P v) :
    gotWaiting v queue ((x.1*P.banksPerRank+x.2)%2^16)=true ↔ Waits v queue x := by
  have hlt:=bankId_lt hx
  have hids:=hfits.ids_le
  rw [mod_eq_of_lt (hlt.trans_le hids),gotWaiting,any_eq_true]
  constructor
  · rintro ⟨p,hp,hwaits⟩
    simp only [and_eq_true,decide_eq_true_eq] at hwaits
    obtain ⟨⟨hdram,hidle⟩,hid⟩:=hwaits
    have hd:=hq p hp hdram
    have hbank:=hd.bank_lt
    have hsame : (p.rank,p.bank)=x := by
      refine bankId_injective (P := P) (by simp only; omega) (mem_allBanks.mp hx).2 ?_
      rw [← hid,(hd.bankId hfits).1]
    exact ⟨p,hp,hdram,hidle,congrArg Prod.fst hsame,congrArg Prod.snd hsame⟩
  · rintro ⟨p,hp,hdram,hidle,hrank,hbank⟩
    refine ⟨p,hp,?_⟩
    simp only [and_eq_true,decide_eq_true_eq]
    exact ⟨⟨hdram,hidle⟩,by rw [((hq p hp hdram).bankId hfits).1,hrank,hbank]⟩

structure Scanned (P : Params) (v : View) (queue : List MemPacket) (minColAt : ℕ) (done : List (ℕ × ℕ)) (st : Prep) :
    Prop where
  mask : ∀ i j,(st.bankMask i).getLsbD j=true ↔
    Chosen (Waits v queue) (Seamless P v minColAt) (actAt P v) done (i,j)
  found : st.foundSeamlessBank=true ↔ AnyFree (Waits v queue) (Seamless P v minColAt) done
  le : st.foundSeamlessBank=false → ∀ y∈done,Waits v queue y → st.minActAt≤WithTop.some (actAt P v y)
  reached : st.foundSeamlessBank=false → st.minActAt = ⊤ ∨ ∃ y∈done,Waits v queue y ∧ WithTop.some (actAt P v y)=st.minActAt
  hidden : (∀ y,Seamless P v minColAt y → actAt P v y≤hiddenActMax P v minColAt) →
    (st.hiddenBankPrep=true ↔ (∃ y∈done,Waits v queue y) ∧
      ∀ y,Chosen (Waits v queue) (Seamless P v minColAt) (actAt P v) done y → actAt P v y≤hiddenActMax P v minColAt)

theorem exists_snoc_iff {α : Type} {Q : α → Prop} {l : List α} {a : α} : (∃ y∈l++[a],Q y) ↔ (∃ y∈l,Q y) ∨ Q a := by
  simp only [mem_append,mem_singleton,or_and_right,exists_or,exists_eq_left]

theorem Scanned.keep (h : Scanned P v queue minColAt done st)
    (hchosen : ∀ z,Chosen (Waits v queue) (Seamless P v minColAt) (actAt P v) (done++[x]) z ↔
      Chosen (Waits v queue) (Seamless P v minColAt) (actAt P v) done z)
    (hfree : ¬(Waits v queue x ∧ Seamless P v minColAt x)) (hwaits : Waits v queue x → ∃ y∈done,Waits v queue y)
    (hle : st.foundSeamlessBank=false → Waits v queue x → st.minActAt≤WithTop.some (actAt P v x)) :
    Scanned P v queue minColAt (done++[x]) st := by
  refine ⟨fun i j => (h.mask i j).trans (hchosen _).symm,?_,fun hf y hy hw => ?_,fun hf => ?_,fun hs => ?_⟩
  · rw [h.found,anyFree_snoc,or_iff_left hfree]
  · rcases mem_append.mp hy with hy | hy
    · exact h.le hf y hy hw
    · obtain rfl:=mem_singleton.mp hy
      exact hle hf hw
  · refine (h.reached hf).imp_right ?_
    rintro ⟨y,hy,hw⟩
    exact ⟨y,mem_append_left _ hy,hw⟩
  · rw [h.hidden hs,exists_snoc_iff,or_iff_left_of_imp hwaits]
    simp only [hchosen]

theorem replaceBit_ok (val : BitVec 32) {bit : ℕ} (hbit : bit<32) :
    ∃ b,replaceBit val bit = .ok b ∧ ∀ j,b.getLsbD j=(val.getLsbD j || decide (bit=j)) :=
  ⟨_,if_pos hbit,fun j => getLsbD_set hbit j⟩

theorem Scanned.enter (mask : ℕ → BitVec 32) {b : BitVec 32} {found : Bool} (hx : Waits v queue x)
    (hfound : found=true ↔ AnyFree (Waits v queue) (Seamless P v minColAt) (done++[x]))
    (hbits : ∀ j,b.getLsbD j=((mask x.1).getLsbD j || decide (x.2=j)))
    (hmask : ∀ i j,Chosen (Waits v queue) (Seamless P v minColAt) (actAt P v) (done++[x]) (i,j) ↔
      (mask i).getLsbD j=true ∨ (i,j)=x) (hle : found=false → ∀ y∈done,Waits v queue y → actAt P v x≤actAt P v y) :
    Scanned P v queue minColAt (done++[x]) ⟨WithTop.some (actAt P v x),Function.update mask x.1 b,found,
      decide (actAt P v x≤hiddenActMax P v minColAt)⟩ := by
  have hself : Chosen (Waits v queue) (Seamless P v minColAt) (actAt P v) (done++[x]) x := (hmask x.1 x.2).mpr (.inr rfl)
  refine ⟨fun i j => ?_,hfound,fun hf y hy hw => ?_,fun _ => .inr ⟨x,mem_append_right _ mem_cons_self,hx,rfl⟩,
    fun hs => ?_⟩
  · rw [hmask]
    simp only [Function.update_apply]
    by_cases hi : i=x.1
    · subst hi
      rw [if_pos rfl,hbits,or_eq_true,decide_eq_true_eq]
      refine or_congr_right ⟨fun hj => ?_,fun hj => congrArg Prod.snd hj.symm⟩
      rw [← hj]
    · rw [if_neg hi]
      exact (or_iff_left fun h => hi (congrArg Prod.fst h)).symm
  · rcases mem_append.mp hy with hy | hy
    · exact WithTop.coe_le_coe.mpr (hle hf y hy hw)
    · rw [mem_singleton.mp hy]
  · rw [decide_eq_true_eq,exists_snoc_iff]
    constructor
    · intro hact
      refine ⟨.inr hx,fun z hz => ?_⟩
      by_cases hany : AnyFree (Waits v queue) (Seamless P v minColAt) (done++[x])
      · exact hs z (hz.isFree hany)
      · exact (hz.earliest hany x hself.mem hx).trans hact
    · intro h
      exact h.2 x hself

theorem prepBank_skip (hgot : gotWaiting v queue ((x.1*P.banksPerRank+x.2)%2^16)=false) :
    prepBank P v queue minColAt st x = .ok st := by
  simp only [prepBank,hgot,false_eq_true,if_false]
  rfl

theorem prepBank_pass (hgot : gotWaiting v queue ((x.1*P.banksPerRank+x.2)%2^16)=true)
    (hidle : v.inRefIdleState x.1=true) (hpass : (decide (colAt P v x ≤ minColAt) ||
      (!st.foundSeamlessBank&&decide (WithTop.some (actAt P v x) ≤ st.minActAt)))=false) :
    prepBank P v queue minColAt st x = .ok st := by
  simp only [prepBank,hgot,if_true,check,if_pos hidle,hpass,false_eq_true,if_false]
  rfl

theorem prepBank_enter (mask : ℕ → BitVec 32) (hbit : x.2<32)
    (hgot : gotWaiting v queue ((x.1*P.banksPerRank+x.2)%2^16)=true) (hidle : v.inRefIdleState x.1=true)
    (henter : (decide (colAt P v x ≤ minColAt) ||
      (!st.foundSeamlessBank&&decide (WithTop.some (actAt P v x) ≤ st.minActAt)))=true)
    (hmask : (if !st.foundSeamlessBank&&(decide (colAt P v x ≤ minColAt) ||
      decide (WithTop.some (actAt P v x)<st.minActAt)) then fun _ => 0#32 else st.bankMask)=mask) :
    ∃ b : BitVec 32,prepBank P v queue minColAt st x = .ok ⟨WithTop.some (actAt P v x),Function.update mask x.1 b,
        st.foundSeamlessBank || decide (colAt P v x ≤ minColAt),decide (actAt P v x≤hiddenActMax P v minColAt)⟩ ∧
      ∀ j,b.getLsbD j=((mask x.1).getLsbD j || decide (x.2=j)) := by
  obtain ⟨b,hb,hbits⟩:=replaceBit_ok (mask x.1) hbit
  refine ⟨b,?_,hbits⟩
  simp only [prepBank,hgot,if_true,check,if_pos hidle,henter,hmask,hb]
  rfl

theorem Scanned.not_anyFree (h : Scanned P v queue minColAt done st) (hf : st.foundSeamlessBank=false) :
    ¬AnyFree (Waits v queue) (Seamless P v minColAt) done := by
  rw [← h.found,hf]
  exact false_ne_true

theorem scanned_seamless (hbit : x.2<32) (hw : Waits v queue x) (hs : Seamless P v minColAt x)
    (hgot : gotWaiting v queue ((x.1*P.banksPerRank+x.2)%2^16)=true) (hidle : v.inRefIdleState x.1=true)
    (h : Scanned P v queue minColAt done st) :
    ∃ st',prepBank P v queue minColAt st x = .ok st' ∧ Scanned P v queue minColAt (done++[x]) st' := by
  have hs' : decide (colAt P v x ≤ minColAt)=true := decide_eq_true hs
  have hfound : (st.foundSeamlessBank || decide (colAt P v x ≤ minColAt))=true := by rw [hs',Bool.or_true]
  have hany' : AnyFree (Waits v queue) (Seamless P v minColAt) (done++[x]) := anyFree_snoc.mpr (.inr ⟨hw,hs⟩)
  have henter : (decide (colAt P v x ≤ minColAt) ||
      (!st.foundSeamlessBank&&decide (WithTop.some (actAt P v x) ≤ st.minActAt)))=true := by rw [hs',Bool.true_or]
  obtain ⟨b,hb,hbits⟩:=prepBank_enter _ hbit hgot hidle henter rfl
  refine ⟨_,hb,Scanned.enter _ hw (iff_of_true hfound hany') hbits (fun i j => ?_)
    fun hf => absurd (hf.symm.trans hfound) false_ne_true⟩
  rw [hs',Bool.true_or,Bool.and_true]
  cases hf : st.foundSeamlessBank with
  | true =>
    rw [chosen_add_free hw hs (h.found.mp hf)]
    exact or_congr_left (h.mask i j).symm
  | false =>
    rw [chosen_first_free hw hs (h.not_anyFree hf)]
    simp

theorem scanned_gap (hbit : x.2<32) (hw : Waits v queue x) (hs : ¬Seamless P v minColAt x)
    (hgot : gotWaiting v queue ((x.1*P.banksPerRank+x.2)%2^16)=true) (hidle : v.inRefIdleState x.1=true)
    (h : Scanned P v queue minColAt done st) (hf : st.foundSeamlessBank=false) :
    ∃ st',prepBank P v queue minColAt st x = .ok st' ∧ Scanned P v queue minColAt (done++[x]) st' := by
  have hs' : decide (colAt P v x ≤ minColAt)=false := decide_eq_false hs
  have hany:=h.not_anyFree hf
  have hfound : (st.foundSeamlessBank || decide (colAt P v x ≤ minColAt))=true ↔
      AnyFree (Waits v queue) (Seamless P v minColAt) (done++[x]) := by
    rw [hf,hs',Bool.or_false]
    exact iff_of_false false_ne_true (not_anyFree_snoc hs hany)
  have hattained : st.minActAt ≠ ⊤ → ∃ y∈done,Waits v queue y ∧ WithTop.some (actAt P v y)=st.minActAt :=
    (h.reached hf).resolve_left
  rcases lt_trichotomy (WithTop.some (actAt P v x)) st.minActAt with hlt | heq | hgt
  · -- an earlier activate clears the mask
    have hall : ∀ y∈done,Waits v queue y → actAt P v x<actAt P v y := fun y hy hc =>
      WithTop.coe_lt_coe.mp (hlt.trans_le (h.le hf y hy hc))
    obtain ⟨b,hb,hbits⟩:=prepBank_enter (fun _ => 0#32) hbit hgot hidle
      (by rw [hf,decide_eq_true hlt.le]; simp) (by rw [hf,decide_eq_true hlt]; simp)
    refine ⟨_,hb,Scanned.enter _ hw hfound hbits (fun i j => ?_) fun _ y hy hc => (hall y hy hc).le⟩
    rw [chosen_earlier hw hs hany hall]
    simp
  · obtain ⟨y,hy,hc,hact⟩:=hattained (heq ▸ WithTop.coe_ne_top)
    have hall : ∀ w∈done,Waits v queue w → actAt P v x≤actAt P v w := fun w hw' hc' =>
      WithTop.coe_le_coe.mp (heq.le.trans (h.le hf w hw' hc'))
    obtain ⟨b,hb,hbits⟩:=prepBank_enter st.bankMask hbit hgot hidle
      (by rw [hf,decide_eq_true heq.le]; simp) (by rw [hf,hs',decide_eq_false heq.not_lt]; simp)
    refine ⟨_,hb,Scanned.enter _ hw hfound hbits (fun i j => ?_) fun _ => hall⟩
    rw [chosen_tie hw hs hany hall hy hc (WithTop.coe_inj.mp (hact.trans heq.symm)),h.mask]
  · obtain ⟨y,hy,hc,hact⟩:=hattained hgt.ne_top
    have hlt : actAt P v y<actAt P v x := WithTop.coe_lt_coe.mp (hact.le.trans_lt hgt)
    refine ⟨st,prepBank_pass hgot hidle ?_,h.keep (fun z => chosen_late hs hany hy hc hlt) (fun hboth => hs hboth.2)
      (fun _ => ⟨y,hy,hc⟩) fun _ _ => hgt.le⟩
    rw [hs',decide_eq_false (not_le.mpr hgt),Bool.and_false,Bool.or_false]

theorem scanned_step (hfits : Fits P v) (hq : AllDecoded P v queue) (hx : x∈allBanks P v)
    (h : Scanned P v queue minColAt done st) :
    ∃ st',prepBank P v queue minColAt st x = .ok st' ∧ Scanned P v queue minColAt (done++[x]) st' := by
  have hbit : x.2<32 := (mem_allBanks.mp hx).2.trans_le hfits.banks_le
  by_cases hw : Waits v queue x
  · have hgot:=(gotWaiting_iff hfits hq hx).mpr hw
    have hidle : v.inRefIdleState x.1=true := by
      obtain ⟨p,_,_,hidle,hrank,_⟩:=hw
      rwa [hrank] at hidle
    by_cases hs : Seamless P v minColAt x
    · exact scanned_seamless hbit hw hs hgot hidle h
    · cases hf : st.foundSeamlessBank with
      | true =>
        have hany:=h.found.mp hf
        refine ⟨st,prepBank_pass hgot hidle ?_,h.keep (fun z => chosen_drop hs hany) (fun hboth => hs hboth.2)
          (fun _ => hany.imp fun y hy => ⟨hy.1,hy.2.1⟩) fun hf' => absurd (hf'.symm.trans hf) false_ne_true⟩
        rw [decide_eq_false (p := colAt P v x ≤ minColAt) hs,hf,Bool.not_true,Bool.false_and,Bool.or_false]
      | false => exact scanned_gap hbit hw hs hgot hidle h hf
  · have hgot:=eq_false_of_not_eq_true (mt (gotWaiting_iff hfits hq hx).mp hw)
    exact ⟨st,prepBank_skip hgot,h.keep (fun z => chosen_skip hw) (fun hboth => hw hboth.1) (fun hw' => absurd hw' hw)
      fun _ hw' => absurd hw' hw⟩

theorem chosen_iff_best (hq : AllDecoded P v queue) : Chosen (Waits v queue) (Seamless P v minColAt) (actAt P v)
    (allBanks P v) x ↔ Best P v queue minColAt x := by
  have hany : AnyFree (Waits v queue) (Seamless P v minColAt) (allBanks P v) ↔
      ∃ y,Waits v queue y ∧ Seamless P v minColAt y := by
    constructor
    · rintro ⟨y,_,hy⟩
      exact ⟨y,hy⟩
    · rintro ⟨y,hy⟩
      exact ⟨y,waits_mem hq hy.1,hy⟩
  constructor
  · intro h
    exact ⟨h.waits,fun hs => h.isFree (hany.mpr hs),fun hs y hy => h.earliest (mt hany.mp hs) y (waits_mem hq hy) hy⟩
  · rintro ⟨hw,hfree,hearliest⟩
    exact ⟨waits_mem hq hw,hw,fun hs => hfree (hany.mp hs),fun hs y _ hy => hearliest (mt hany.mpr hs) y hy⟩

theorem exists_best (minColAt : ℕ) (hq : AllDecoded P v queue) (h : ∃ x,Waits v queue x) : ∃ x,Best P v queue minColAt x := by
  obtain ⟨y,hy⟩:=h
  obtain ⟨x,hx⟩:=exists_chosen (Seamless P v minColAt) (actAt P v) ⟨y,waits_mem hq hy,hy⟩
  exact ⟨x,(chosen_iff_best hq).mp hx⟩

theorem minBankPrep_ok (minColAt : ℕ) (hfits : Fits P v) (hq : AllDecoded P v queue) :
    ∃ r,minBankPrep P v queue minColAt = .ok r ∧ (∀ i j,(r.1 i).getLsbD j=true ↔ Best P v queue minColAt (i,j)) ∧
      ((∀ y,Seamless P v minColAt y → actAt P v y≤hiddenActMax P v minColAt) →
        (r.2=true ↔ (∃ x,Waits v queue x) ∧ ∀ x,Best P v queue minColAt x → actAt P v x≤hiddenActMax P v minColAt)) := by
  obtain ⟨hranks,hids⟩:=hq.inBounds hfits
  have hnew : Scanned P v queue minColAt [] ⟨⊤,fun _ => 0#32,false,false⟩ :=
    ⟨fun i j => by simp [not_chosen_nil],by simp [AnyFree],fun _ y hy => absurd hy not_mem_nil,
      fun _ => .inl rfl,fun _ => by simp⟩
  obtain ⟨st,hrun,hst⟩:= foldlM_prefix (P := Scanned P v queue minColAt) (l := allBanks P v) hnew
    fun done x rest hl st h => scanned_step hfits hq (by rw [hl]; simp) h
  refine ⟨(st.bankMask,st.hiddenBankPrep),?_,fun i j => (hst.mask i j).trans (chosen_iff_best hq),fun hs => ?_⟩
  · simp only [minBankPrep,check,if_pos hranks,if_pos hids,hrun]
    rfl
  · rw [hst.hidden hs]
    simp only [chosen_iff_best hq]
    refine and_congr_left fun _ => exists_congr fun y => ?_
    exact and_iff_right_of_imp fun hy => waits_mem hq hy

theorem hiddenActMax_eq (h : P.tRCD ≤ minColAt) : hiddenActMax P v minColAt=max (minColAt-P.tRCD) v.curTick := by
  rw [hiddenActMax,tickSub_of_le h]

theorem minBankPrep_prepares (hfits : Fits P v) (hq : AllDecoded P v queue) (hcol : P.tRCD ≤ minColAt) :
    ∃ r,minBankPrep P v queue minColAt = .ok r ∧ Prepares P v queue minColAt r := by
  obtain ⟨r,hr,hmask,hhidden⟩:=minBankPrep_ok minColAt hfits hq
  refine ⟨r,hr,hmask,?_⟩
  rw [← hiddenActMax_eq hcol]
  apply hhidden
  intro y hy
  have hle : actAt P v y+P.tRCD ≤ minColAt := (le_max_right _ _).trans hy
  rw [hiddenActMax_eq hcol]
  omega

/-- Right for every state of so many ranks. -/
def PrepCorrect (P : Params) (ranksPerChannel : ℕ) : Prop :=
  ∀ v : View,v.ranksPerChannel=ranksPerChannel → ∀ queue minColAt,AllDecoded P v queue → P.tRCD ≤ minColAt →
    ∃ r,minBankPrep P v queue minColAt = .ok r ∧ Prepares P v queue minColAt r

def soleRank (P : Params) (ranksPerChannel : ℕ) : View := ⟨ranksPerChannel,fun _ => Rank.new P,(decide <| ·=0),true,0⟩

def packetFor (bank : ℕ) : MemPacket := ⟨0,0,0,true,true,0,bank,0,bank,0,64,none,0,0,0,false,0,0⟩

variable {ranksPerChannel bank : ℕ}

theorem allDecoded_packetFor (hranks : 0<ranksPerChannel) (hbank : bank < min P.banksPerRank (2^8)) :
    AllDecoded P (soleRank P ranksPerChannel) [packetFor bank] := by
  intro p hp _
  obtain rfl:=mem_singleton.mp hp
  refine ⟨?_,hbank,?_⟩
  · simp only [packetFor,soleRank]
    omega
  · simp only [packetFor]
    omega

theorem waits_packetFor {x : ℕ × ℕ} : Waits (soleRank P ranksPerChannel) [packetFor bank] x ↔ x=(0,bank) := by
  constructor
  · rintro ⟨p,hp,_,_,hrank,hbank⟩
    obtain rfl:=mem_singleton.mp hp
    exact Prod.ext hrank.symm hbank.symm
  · rintro rfl
    exact ⟨packetFor bank,mem_cons_self,rfl,rfl,rfl,rfl⟩

theorem not_prepares_of_wide (hbank : 32≤bank) (r : (ℕ → BitVec 32) × Bool) :
    ¬Prepares P (soleRank P ranksPerChannel) [packetFor bank] minColAt r := by
  intro h
  have hbest : Best P (soleRank P ranksPerChannel) [packetFor bank] minColAt (0,bank) := by
    refine ⟨waits_packetFor.mpr rfl,?_,fun _ y hy => ?_⟩
    · rintro ⟨y,hy,hs⟩
      rwa [waits_packetFor.mp hy] at hs
    · rw [waits_packetFor.mp hy]
  have hbit:=(h.mask 0 bank).mpr hbest
  rw [BitVec.getLsbD_of_ge _ _ hbank] at hbit
  cases hbit

theorem minBankPrep_wraps (hranks : 2^16<ranksPerChannel*P.banksPerRank) (hbanks : P.banksPerRank≤2^16)
    (r : (ℕ → BitVec 32) × Bool) : minBankPrep P (soleRank P ranksPerChannel) [packetFor 0] minColAt ≠ .ok r := by
  intro h
  have hpos : 0<P.banksPerRank := Nat.pos_of_mul_pos_left (Nat.zero_lt_of_lt hranks)
  have hmem : (2^16/P.banksPerRank,2^16%P.banksPerRank)∈allBanks P (soleRank P ranksPerChannel) := by
    refine mem_allBanks.mpr ⟨Nat.div_lt_of_lt_mul ?_,Nat.mod_lt _ hpos⟩
    rwa [Nat.mul_comm]
  rw [minBankPrep] at h
  obtain ⟨_,_,h⟩:=bind_ok h
  obtain ⟨_,_,h⟩:=bind_ok h
  obtain ⟨st,hrun,_⟩:=bind_ok h
  obtain ⟨st1,st2,hstep⟩:=foldlM_step hrun hmem
  have hrank : 2^16/P.banksPerRank≠0 := (div_pos hbanks hpos).ne'
  have hgot : gotWaiting (soleRank P ranksPerChannel) [packetFor 0]
      ((2^16/P.banksPerRank*P.banksPerRank+2^16%P.banksPerRank)%2^16)=true := by
    rw [div_add_mod']
    rfl
  have hbusy : (soleRank P ranksPerChannel).inRefIdleState (2^16/P.banksPerRank)≠true := by
    simpa [soleRank] using hrank
  simp only [prepBank,hgot,if_true,check,if_neg hbusy] at hstep
  cases hstep

theorem fits_of_prepCorrect (hranks : 0<ranksPerChannel) (h : PrepCorrect P ranksPerChannel) :
    P.banksPerRank≤32 ∧ ranksPerChannel*P.banksPerRank≤2^16 := by
  have hbanks : P.banksPerRank≤32 := by
    by_contra hwide
    obtain ⟨r,_,hprep⟩:=h (soleRank P ranksPerChannel) rfl [packetFor 32] P.tRCD
      (allDecoded_packetFor hranks (by omega)) (le_refl _)
    exact not_prepares_of_wide (le_refl 32) r hprep
  refine ⟨hbanks,?_⟩
  by_contra hwide
  have hpos : 0<P.banksPerRank := Nat.pos_of_ne_zero fun hzero => hwide (by rw [hzero]; exact Nat.zero_le _)
  obtain ⟨r,hr,_⟩:=h (soleRank P ranksPerChannel) rfl [packetFor 0] P.tRCD
    (allDecoded_packetFor hranks (by omega)) (le_refl _)
  exact minBankPrep_wraps (Nat.lt_of_not_le hwide) (by omega) r hr

/-- The bank set is right, in every state, for exactly those numbers of banks and ranks whose masks
and ids fit. -/
theorem prepCorrect_iff (hranks : 0<ranksPerChannel) :
    PrepCorrect P ranksPerChannel ↔ P.banksPerRank≤32 ∧ ranksPerChannel*P.banksPerRank≤2^16 := by
  constructor
  · exact fits_of_prepCorrect hranks
  · rintro ⟨hbanks,hids⟩ v rfl queue minColAt hq hcol
    exact minBankPrep_prepares ⟨hbanks,hids⟩ hq hcol

theorem prepCorrect_ddr3 : PrepCorrect ddr3 2 := (prepCorrect_iff (by decide)).mpr ⟨by decide,by decide⟩

def ddr3Wide : Params := {ddr3 with banksPerRank := 64}

/-- Of 64 banks the upper half has no bit in the mask. -/
theorem not_prepCorrect_64_banks : ¬PrepCorrect ddr3Wide 1 ∧ AllDecoded ddr3Wide (soleRank ddr3Wide 1) [packetFor 40] ∧
    Post (minBankPrep ddr3Wide (soleRank ddr3Wide 1) [packetFor 40] 13750) (fun _ => False) fun e => e = .shift := by
  have hq : AllDecoded ddr3Wide (soleRank ddr3Wide 1) [packetFor 40] := allDecoded_packetFor (by decide) (by decide)
  refine ⟨fun h => ?_,hq,by decide +kernel⟩
  obtain ⟨r,_,hprep⟩:=h (soleRank ddr3Wide 1) rfl [packetFor 40] 13750 hq (by decide)
  exact not_prepares_of_wide (by decide) r hprep

end Scheduler

end AquaGem5.Dram
