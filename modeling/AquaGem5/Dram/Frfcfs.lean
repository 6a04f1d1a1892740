import AquaGem5.Dram.BankPrep

/-!
# First-ready, first-come first-served selection (mem_interface.cc)
-/

namespace AquaGem5.Dram
open Controller Checked List

namespace Scheduler

variable (P : Params) (v : View) (queue : List MemPacket) (minColAt : ℕ)

def burstReady (pkt : MemPacket) : Bool := v.inRefIdleState pkt.rank

def colAllowedAt (pkt : MemPacket) : ℕ :=
  if pkt.read then (v.bank (pkt.rank,pkt.bank)).rdAllowedAt else (v.bank (pkt.rank,pkt.bank)).wrAllowedAt

def rowHit (pkt : MemPacket) : Bool := decide ((v.bank (pkt.rank,pkt.bank)).openRow=some pkt.row)

def bitOf (val : BitVec 32) (bit : ℕ) : Except Fault Bool := if bit<32 then .ok (val.getLsbD bit) else .error .shift

/-- The state of the loop. `earliestBanks` is what `minBankPrep` returned, once it was called, and
`selectedPktIt` the place of a packet, `none` for the end of the queue. -/
structure Choice where
  earliestBanks : Option ((ℕ → BitVec 32) × Bool)
  foundHiddenBank : Bool
  foundPreppedPkt : Bool
  foundEarliestPkt : Bool
  selectedColAt : ℕ
  selectedPktIt : Option ℕ

def Choice.new : Choice := ⟨none,false,false,false,maxTick,none⟩

def Choice.select (c : Choice) (i : ℕ) (pkt : MemPacket) : Choice :=
  {c with selectedPktIt := some i, selectedColAt := colAllowedAt v pkt}

def fillEarliest (c : Choice) : Except Fault ((ℕ → BitVec 32) × Bool) :=
  match c.earliestBanks with
  | some e => pure e
  | none => minBankPrep P v queue minColAt

def considerMiss (i : ℕ) (pkt : MemPacket) (c : Choice) : Except Fault Choice := do
  let e ← fillEarliest P v queue minColAt c
  let c := {c with earliestBanks := some e}
  let first ← bitOf (e.1 pkt.rank) pkt.bank
  if first then
    let c := {c with foundEarliestPkt := true, foundHiddenBank := e.2}
    if e.2 || !c.foundPreppedPkt then pure (c.select v i pkt) else pure c
  else pure c

def chooseFrom : ℕ → List MemPacket → Choice → Except Fault Choice
  | _,[],c => pure c
  | i,pkt::rest,c =>
    if pkt.dram then do
      check (pkt.rank<v.ranksPerChannel ∧ pkt.bank<P.banksPerRank) .outOfBounds
      if burstReady v pkt then
        if rowHit v pkt then
          if colAllowedAt v pkt ≤ minColAt then pure (c.select v i pkt)
          else if !c.foundHiddenBank && !c.foundPreppedPkt then
            chooseFrom (i+1) rest {c.select v i pkt with foundPreppedPkt := true}
          else chooseFrom (i+1) rest c
        else if !c.foundEarliestPkt then do
          let c ← considerMiss P v queue minColAt i pkt c
          chooseFrom (i+1) rest c
        else chooseFrom (i+1) rest c
      else chooseFrom (i+1) rest c
    else chooseFrom (i+1) rest c

def chooseNextFRFCFS : Except Fault (Option ℕ × ℕ) := do
  let c ← chooseFrom P v queue minColAt 0 queue Choice.new
  return (c.selectedPktIt,c.selectedColAt)

def ready (pkt : MemPacket) : Bool := pkt.dram&&burstReady v pkt

def readyHit (pkt : MemPacket) : Bool := ready v pkt&&rowHit v pkt

def readyMiss (pkt : MemPacket) : Bool := ready v pkt && !rowHit v pkt

def seamlessHit (pkt : MemPacket) : Bool := readyHit v pkt&&decide (colAllowedAt v pkt ≤ minColAt)

/-- A ready miss to one of the banks of the mask. -/
def preparedMiss (bankMask : ℕ → BitVec 32) (pkt : MemPacket) : Bool :=
  readyMiss v pkt&&(bankMask pkt.rank).getLsbD pkt.bank

/-- A miss to a prepared bank comes before a hit if the preparation is hidden, and after it if not. -/
def unseamless (e : (ℕ → BitVec 32) × Bool) (queue : List MemPacket) : Option ℕ :=
  if e.2 then (queue.findIdx? (preparedMiss v e.1)).or (queue.findIdx? (readyHit v))
  else (queue.findIdx? (readyHit v)).or (queue.findIdx? (preparedMiss v e.1))

def frfcfs (e : (ℕ → BitVec 32) × Bool) (queue : List MemPacket) : Option ℕ :=
  (queue.findIdx? (seamlessHit v minColAt)).or (unseamless v e queue)

def colAtPlace (i : Option ℕ) : ℕ := (i.bind (queue[·]?)).elim maxTick (colAllowedAt v)

variable {P : Params} {v : View} {queue done rest : List MemPacket} {minColAt i : ℕ} {e : (ℕ → BitVec 32) × Bool}
  {c : Choice} {pkt : MemPacket}

structure Looked (v : View) (queue : List MemPacket) (e : (ℕ → BitVec 32) × Bool) (done : List MemPacket) (c : Choice) :
    Prop where
  cached : c.earliestBanks=none ∨ c.earliestBanks=some e
  earliest : c.foundEarliestPkt=done.any (preparedMiss v e.1)
  hidden : c.foundHiddenBank=(c.foundEarliestPkt&&e.2)
  prepped : c.foundHiddenBank=false → c.foundPreppedPkt=done.any (readyHit v)
  selected : c.selectedPktIt=unseamless v e done
  col : c.selectedColAt=colAtPlace v queue c.selectedPktIt

theorem findIdx?_snoc (f : MemPacket → Bool) (done : List MemPacket) (pkt : MemPacket) :
    (done++[pkt]).findIdx? f=(done.findIdx? f).or (if f pkt then some done.length else none) := by
  rw [findIdx?_append]
  congr 1
  cases hf : f pkt <;> simp [findIdx?_cons,hf]

theorem any_snoc (f : MemPacket → Bool) (done : List MemPacket) (pkt : MemPacket) :
    (done++[pkt]).any f=(done.any f || f pkt) := by
  rw [any_append,any_cons,any_nil,Bool.or_false]

variable {f : MemPacket → Bool}

theorem findIdx?_eq_none_iff_any {l : List MemPacket} : l.findIdx? f=none ↔ l.any f=false := by
  rw [findIdx?_eq_none_iff,any_eq_false]
  simp only [Bool.not_eq_true]

theorem Looked.skip (h : Looked v queue e done c) (hhit : readyHit v pkt=false) (hmiss : preparedMiss v e.1 pkt=false) :
    Looked v queue e (done++[pkt]) c := by
  refine ⟨h.cached,?_,h.hidden,fun hh => ?_,?_,h.col⟩
  · rw [any_snoc,hmiss,Bool.or_false,h.earliest]
  · rw [any_snoc,hhit,Bool.or_false,h.prepped hh]
  · rw [h.selected,unseamless,unseamless,findIdx?_snoc,findIdx?_snoc,hhit,hmiss]
    simp only [Bool.false_eq_true,if_false,Option.or_none]

theorem readyHit_miss (hhit : readyHit v pkt=true) : preparedMiss v e.1 pkt=false := by
  rw [readyHit,Bool.and_eq_true] at hhit
  simp [preparedMiss,readyMiss,hhit.2]

theorem findIdx?_of_any {l : List MemPacket} (h : l.any f=true) : ∃ k,l.findIdx? f=some k := by
  apply Option.ne_none_iff_exists'.mp
  rw [Ne,findIdx?_eq_none_iff_any,h]
  exact Bool.true_eq_false.mp

theorem Looked.takeHit (h : Looked v queue e done c) (hq : queue[done.length]?=some pkt) (hhit : readyHit v pkt=true)
    (hhidden : c.foundHiddenBank=false) (hprepped : c.foundPreppedPkt=false) :
    Looked v queue e (done++[pkt]) {c.select v done.length pkt with foundPreppedPkt := true} := by
  have hmiss:=readyHit_miss (e := e) hhit
  have hnohit : done.findIdx? (readyHit v)=none := by rw [findIdx?_eq_none_iff_any,← h.prepped hhidden,hprepped]
  refine ⟨h.cached,?_,h.hidden,fun _ => ?_,?_,?_⟩
  · rw [any_snoc,hmiss,Bool.or_false]
    exact h.earliest
  · rw [any_snoc,hhit,Bool.or_true]
  · simp only [Choice.select,unseamless]
    rw [findIdx?_snoc,findIdx?_snoc,hhit,hmiss,hnohit]
    cases he : e.2 with
    | false => simp
    | true =>
      have hnomiss : done.findIdx? (preparedMiss v e.1)=none := by
        rw [findIdx?_eq_none_iff_any,← h.earliest]
        simpa [h.hidden,he] using hhidden
      simp [hnomiss]
  · simp only [Choice.select,colAtPlace,Option.bind_some,hq]
    rfl

theorem Looked.passHit (h : Looked v queue e done c) (hhit : readyHit v pkt=true)
    (hfound : c.foundHiddenBank=true ∨ c.foundPreppedPkt=true) : Looked v queue e (done++[pkt]) c := by
  have hmiss:=readyHit_miss (e := e) hhit
  refine ⟨h.cached,?_,h.hidden,fun hhidden => ?_,?_,h.col⟩
  · rw [any_snoc,hmiss,Bool.or_false,h.earliest]
  · rw [any_snoc,hhit,Bool.or_true]
    rcases hfound with hf | hf
    · rw [hhidden] at hf
      cases hf
    · exact hf
  · rw [h.selected,unseamless,unseamless,findIdx?_snoc,findIdx?_snoc,hhit,hmiss]
    simp only [Bool.false_eq_true,if_false,Option.or_none,if_true]
    cases hhidden : c.foundHiddenBank with
    | true =>
      rw [h.hidden,Bool.and_eq_true,h.earliest] at hhidden
      obtain ⟨k,hk⟩:=findIdx?_of_any hhidden.1
      rw [hhidden.2,hk]
      rfl
    | false =>
      have hprepped : c.foundPreppedPkt=true := by
        rcases hfound with hf | hf
        · rw [hhidden] at hf
          cases hf
        · exact hf
      rw [h.prepped hhidden] at hprepped
      obtain ⟨k,hk⟩:=findIdx?_of_any hprepped
      rw [hk]
      rfl

theorem Looked.passMiss (h : Looked v queue e done c) (hhit : readyHit v pkt=false) (hfound : c.foundEarliestPkt=true) :
    Looked v queue e (done++[pkt]) c := by
  obtain ⟨k,hk⟩:=findIdx?_of_any (h.earliest.symm.trans hfound)
  refine ⟨h.cached,?_,h.hidden,fun hhidden => ?_,?_,h.col⟩
  · rw [any_snoc,← h.earliest,hfound,Bool.true_or]
  · rw [any_snoc,hhit,Bool.or_false,h.prepped hhidden]
  · rw [h.selected,unseamless,unseamless,findIdx?_snoc,findIdx?_snoc,hhit,hk]
    simp only [Bool.false_eq_true,if_false,Option.or_none,Option.some_or]

theorem Looked.cache (h : Looked v queue e done c) : Looked v queue e done {c with earliestBanks := some e} :=
  ⟨.inr rfl,h.earliest,h.hidden,h.prepped,h.selected,h.col⟩

theorem fillEarliest_eq (h : Looked v queue e done c) (he : minBankPrep P v queue minColAt = .ok e) :
    fillEarliest P v queue minColAt c = .ok e := by
  rw [fillEarliest]
  rcases h.cached with hnone | hsome
  · rw [hnone]
    exact he
  · rw [hsome]
    rfl

theorem considerMiss_eq (hfill : fillEarliest P v queue minColAt c = .ok e) (hbank : pkt.bank<32) :
    considerMiss P v queue minColAt i pkt c = .ok (
      if (e.1 pkt.rank).getLsbD pkt.bank then
        if e.2 || !c.foundPreppedPkt then
          ({c with earliestBanks := some e, foundEarliestPkt := true, foundHiddenBank := e.2} : Choice).select v i pkt
        else {c with earliestBanks := some e, foundEarliestPkt := true, foundHiddenBank := e.2}
      else {c with earliestBanks := some e}) := by
  rw [considerMiss,hfill]
  simp only [bind,Except.bind,bitOf,if_pos hbank]
  cases (e.1 pkt.rank).getLsbD pkt.bank with
  | false => rfl
  | true => cases e.2 || !c.foundPreppedPkt <;> rfl

theorem Looked.considerMiss (h : Looked v queue e done c) (he : minBankPrep P v queue minColAt = .ok e)
    (hq : queue[done.length]?=some pkt) (hbank : pkt.bank<32) (hmiss : readyMiss v pkt=true)
    (hfound : c.foundEarliestPkt=false) :
    ∃ c',considerMiss P v queue minColAt done.length pkt c = .ok c' ∧ Looked v queue e (done++[pkt]) c' := by
  have hfill:=fillEarliest_eq h he
  have heq:=considerMiss_eq (i := done.length) hfill hbank
  have hhit : readyHit v pkt=false := by
    rw [readyMiss,Bool.and_eq_true,Bool.not_eq_true'] at hmiss
    rw [readyHit,hmiss.2,Bool.and_false]
  have hhidden : c.foundHiddenBank=false := by rw [h.hidden,hfound,Bool.false_and]
  have hnomiss : done.findIdx? (preparedMiss v e.1)=none := by rw [findIdx?_eq_none_iff_any,← h.earliest,hfound]
  have hprepped:=h.prepped hhidden
  cases hfirst : (e.1 pkt.rank).getLsbD pkt.bank with
  | false =>
    have hnot : preparedMiss v e.1 pkt=false := by rw [preparedMiss,hfirst,Bool.and_false]
    rw [hfirst] at heq
    exact ⟨_,heq,h.cache.skip hhit hnot⟩
  | true =>
    have hprep : preparedMiss v e.1 pkt=true := by rw [preparedMiss,hmiss,hfirst,Bool.and_true]
    have hanymiss : (done++[pkt]).any (preparedMiss v e.1)=true := by rw [any_snoc,hprep,Bool.or_true]
    have hselected:=h.selected
    rw [hfirst,if_pos rfl] at heq
    by_cases htake : (e.2 || !c.foundPreppedPkt)=true
    · rw [if_pos htake] at heq
      refine ⟨_,heq,.inr rfl,hanymiss.symm,(Bool.true_and _).symm,fun _ => ?_,?_,?_⟩
      · rw [any_snoc,hhit,Bool.or_false]
        exact hprepped
      · simp only [Choice.select,unseamless]
        rw [findIdx?_snoc,findIdx?_snoc,hhit,hprep,hnomiss]
        cases he2 : e.2 with
        | true => simp
        | false =>
          rw [he2,Bool.false_or,Bool.not_eq_true'] at htake
          have hnohit : done.findIdx? (readyHit v)=none := by rw [findIdx?_eq_none_iff_any,← hprepped,htake]
          simp [hnohit]
      · simp only [Choice.select,colAtPlace,Option.bind_some,hq]
        rfl
    · rw [if_neg htake] at heq
      refine ⟨_,heq,.inr rfl,hanymiss.symm,(Bool.true_and _).symm,fun _ => ?_,?_,h.col⟩
      · rw [any_snoc,hhit,Bool.or_false]
        exact hprepped
      · rw [Bool.not_eq_true,Bool.or_eq_false_iff,Bool.not_eq_false'] at htake
        obtain ⟨k,hk⟩:=findIdx?_of_any (hprepped.symm.trans htake.2)
        simp only [unseamless] at hselected ⊢
        rw [findIdx?_snoc,findIdx?_snoc,hhit,hk,htake.1]
        rw [hk,htake.1] at hselected
        simpa using hselected

theorem seamlessHit_of_hit (hhit : readyHit v pkt=true) :
    seamlessHit v minColAt pkt=decide (colAllowedAt v pkt ≤ minColAt) := by
  rw [seamlessHit,hhit,Bool.true_and]

def InBounds (P : Params) (v : View) (pkt : MemPacket) : Prop := pkt.rank<v.ranksPerChannel ∧ pkt.bank<P.banksPerRank

theorem Decoded.inBounds (h : Decoded P v pkt) : InBounds P v pkt := by
  have hrank:=h.rank_lt
  have hbank:=h.bank_lt
  exact ⟨by omega,by omega⟩

theorem chooseFrom_unready (hin : pkt.dram=true → InBounds P v pkt) (hready : ready v pkt=false) :
    chooseFrom P v queue minColAt i (pkt::rest) c=chooseFrom P v queue minColAt (i+1) rest c := by
  cases hdram : pkt.dram with
  | false => simp only [chooseFrom,hdram,Bool.false_eq_true,if_false]
  | true =>
    rw [ready,hdram,Bool.true_and] at hready
    have hcheck : check (pkt.rank<v.ranksPerChannel ∧ pkt.bank<P.banksPerRank) Fault.outOfBounds = .ok () :=
      if_pos (hin hdram)
    simp only [chooseFrom,hdram,if_true,hcheck,bind,Except.bind,hready,Bool.false_eq_true,if_false]

theorem chooseFrom_hit (hin : InBounds P v pkt) (hhit : readyHit v pkt=true) :
    chooseFrom P v queue minColAt i (pkt::rest) c =
      if colAllowedAt v pkt ≤ minColAt then .ok (c.select v i pkt)
      else if !c.foundHiddenBank && !c.foundPreppedPkt then
        chooseFrom P v queue minColAt (i+1) rest {c.select v i pkt with foundPreppedPkt := true}
      else chooseFrom P v queue minColAt (i+1) rest c := by
  rw [readyHit,ready,Bool.and_eq_true,Bool.and_eq_true] at hhit
  obtain ⟨⟨hdram,hburst⟩,hrow⟩:=hhit
  have hcheck : check (pkt.rank<v.ranksPerChannel ∧ pkt.bank<P.banksPerRank) Fault.outOfBounds = .ok () := if_pos hin
  simp only [chooseFrom,hdram,if_true,hcheck,bind,Except.bind,hburst,hrow]
  rfl

theorem chooseFrom_miss (hin : InBounds P v pkt) (hmiss : readyMiss v pkt=true) :
    chooseFrom P v queue minColAt i (pkt::rest) c =
      if c.foundEarliestPkt then chooseFrom P v queue minColAt (i+1) rest c
      else considerMiss P v queue minColAt i pkt c >>= chooseFrom P v queue minColAt (i+1) rest := by
  rw [readyMiss,ready,Bool.and_eq_true,Bool.and_eq_true,Bool.not_eq_true'] at hmiss
  obtain ⟨⟨hdram,hburst⟩,hrow⟩:=hmiss
  have hcheck : check (pkt.rank<v.ranksPerChannel ∧ pkt.bank<P.banksPerRank) Fault.outOfBounds = .ok () := if_pos hin
  simp only [chooseFrom,hdram,if_true,hcheck,bind,Except.bind,hburst,hrow,Bool.false_eq_true,if_false]
  cases c.foundEarliestPkt <;> rfl

theorem Looked.round (rest : List MemPacket) (h : Looked v queue e done c) (he : minBankPrep P v queue minColAt = .ok e)
    (hq : queue[done.length]?=some pkt) (hbank : P.banksPerRank≤32) (hin : pkt.dram=true → InBounds P v pkt)
    (hseam : seamlessHit v minColAt pkt=false) :
    ∃ c',chooseFrom P v queue minColAt done.length (pkt::rest) c=chooseFrom P v queue minColAt (done.length+1) rest c' ∧
      Looked v queue e (done++[pkt]) c' := by
  cases hready : ready v pkt with
  | false =>
    have hhit : readyHit v pkt=false := by rw [readyHit,hready,Bool.false_and]
    have hmiss : preparedMiss v e.1 pkt=false := by rw [preparedMiss,readyMiss,hready,Bool.false_and,Bool.false_and]
    exact ⟨c,chooseFrom_unready hin hready,h.skip hhit hmiss⟩
  | true =>
    have hin':=hin (Bool.and_eq_true_iff.mp hready).1
    cases hrow : rowHit v pkt with
    | true =>
      have hhit : readyHit v pkt=true := by rw [readyHit,hready,hrow,Bool.true_and]
      rw [seamlessHit_of_hit hhit,decide_eq_false_iff_not] at hseam
      rw [chooseFrom_hit hin' hhit,if_neg hseam]
      by_cases htake : (!c.foundHiddenBank && !c.foundPreppedPkt)=true
      · rw [if_pos htake]
        rw [Bool.and_eq_true,Bool.not_eq_true',Bool.not_eq_true'] at htake
        exact ⟨_,rfl,h.takeHit hq hhit htake.1 htake.2⟩
      · rw [if_neg htake]
        refine ⟨c,rfl,h.passHit hhit ?_⟩
        rwa [Bool.not_eq_true,Bool.and_eq_false_iff,Bool.not_eq_false',Bool.not_eq_false'] at htake
    | false =>
      have hhit : readyHit v pkt=false := by rw [readyHit,hrow,Bool.and_false]
      have hmiss : readyMiss v pkt=true := by rw [readyMiss,hready,hrow,Bool.not_false,Bool.and_true]
      rw [chooseFrom_miss hin' hmiss]
      cases hfound : c.foundEarliestPkt with
      | true => exact ⟨c,rfl,h.passMiss hhit hfound⟩
      | false =>
        obtain ⟨c',hc',h'⟩:=h.considerMiss he hq (hin'.2.trans_le hbank) hmiss hfound
        rw [hc']
        exact ⟨c',rfl,h'⟩

theorem chooseFrom_ok (hfits : P.banksPerRank≤32) (hq : AllDecoded P v queue) (he : minBankPrep P v queue minColAt = .ok e)
    (hsplit : queue=done++rest) (h : Looked v queue e done c) (hnone : done.any (seamlessHit v minColAt)=false) :
    ∃ c',chooseFrom P v queue minColAt done.length rest c = .ok c' ∧ c'.selectedPktIt=frfcfs v minColAt e queue ∧
      c'.selectedColAt=colAtPlace v queue c'.selectedPktIt := by
  induction rest generalizing done c with
  | nil =>
    rw [append_nil] at hsplit
    refine ⟨c,rfl,?_,h.col⟩
    rw [frfcfs,hsplit,findIdx?_eq_none_iff_any.mpr hnone,h.selected]
    rfl
  | cons pkt rest ih =>
    have hat : queue[done.length]?=some pkt := by simp [hsplit]
    have hin : pkt.dram=true → InBounds P v pkt := fun hdram => (hq pkt (by simp [hsplit]) hdram).inBounds
    cases hseam : seamlessHit v minColAt pkt with
    | true =>
      -- a seamless hit ends the loop
      have hhit : readyHit v pkt=true := (Bool.and_eq_true_iff.mp hseam).1
      have hdram : pkt.dram=true := (Bool.and_eq_true_iff.mp (Bool.and_eq_true_iff.mp hhit).1).1
      rw [seamlessHit_of_hit hhit,decide_eq_true_eq] at hseam
      refine ⟨c.select v done.length pkt,by rw [chooseFrom_hit (hin hdram) hhit,if_pos hseam],?_,?_⟩
      · have hfirst : seamlessHit v minColAt pkt=true := by rw [seamlessHit_of_hit hhit,decide_eq_true hseam]
        rw [frfcfs,hsplit,findIdx?_append,findIdx?_eq_none_iff_any.mpr hnone,findIdx?_cons,if_pos hfirst]
        simp [Choice.select]
      · simp only [Choice.select,colAtPlace,Option.bind_some,hat]
        rfl
    | false =>
      obtain ⟨c',hc',h'⟩:=h.round rest he hat hfits hin hseam
      have hrest:=ih (hsplit.trans (append_cons ..)) h' (by rw [any_snoc,hnone,hseam,Bool.or_false])
      rw [length_append,length_singleton] at hrest
      rwa [hc']

theorem chooseNextFRFCFS_eq (hfits : P.banksPerRank≤32) (hq : AllDecoded P v queue)
    (he : minBankPrep P v queue minColAt = .ok e) : chooseNextFRFCFS P v queue minColAt =
      .ok (frfcfs v minColAt e queue,colAtPlace v queue (frfcfs v minColAt e queue)) := by
  have hnew : Looked v queue e [] Choice.new :=
    ⟨.inl rfl,rfl,rfl,fun _ => rfl,by simp [unseamless,Choice.new],rfl⟩
  obtain ⟨c,hc,hsel,hcol⟩:=chooseFrom_ok hfits hq he (nil_append queue).symm hnew rfl
  rw [hsel] at hcol
  rw [chooseNextFRFCFS]
  simp only [bind,Except.bind]
  rw [length_nil] at hc
  rw [hc]
  simp only [hsel,hcol]
  rfl

theorem ready_cases (h : ready v pkt=true) : readyHit v pkt=true ∨ readyMiss v pkt=true := by
  rw [readyHit,readyMiss,h]
  cases rowHit v pkt <;> simp

theorem ready_of_hit (h : readyHit v pkt=true) : ready v pkt=true := (Bool.and_eq_true_iff.mp h).1

theorem ready_of_prepared (h : preparedMiss v e.1 pkt=true) : ready v pkt=true :=
  (Bool.and_eq_true_iff.mp (Bool.and_eq_true_iff.mp h).1).1

theorem frfcfs_eq_none_iff (hq : AllDecoded P v queue)
    (hmask : ∀ i j,(e.1 i).getLsbD j=true ↔ Best P v queue minColAt (i,j)) :
    frfcfs v minColAt e queue=none ↔ ∀ p∈queue,ready v p=false := by
  have hsplit : frfcfs v minColAt e queue=none ↔ queue.any (seamlessHit v minColAt)=false ∧
      queue.any (readyHit v)=false ∧ queue.any (preparedMiss v e.1)=false := by
    rw [frfcfs,unseamless]
    split_ifs <;> simp only [Option.or_eq_none_iff,findIdx?_eq_none_iff_any,and_comm]
  rw [hsplit]
  constructor
  · rintro ⟨_,hnohit,hnomiss⟩ p hp
    rw [any_eq_false] at hnohit hnomiss
    by_contra hready
    rw [Bool.not_eq_false] at hready
    have hwaits : Waits v queue (p.rank,p.bank) :=
      ⟨p,hp,(Bool.and_eq_true_iff.mp hready).1,(Bool.and_eq_true_iff.mp hready).2,rfl,rfl⟩
    obtain ⟨x,hx⟩:=exists_best minColAt hq ⟨_,hwaits⟩
    -- the best bank has a packet of its own, which is a hit or a miss to a prepared bank
    obtain ⟨p',hp',hdram,hidle,hrank,hbank⟩:=hx.1
    have hready' : ready v p'=true := by rw [ready,burstReady,hdram,hidle,Bool.and_self]
    rcases ready_cases hready' with hhit | hmiss
    · exact hnohit p' hp' hhit
    · have hbit:=(hmask x.1 x.2).mpr hx
      rw [← hrank,← hbank] at hbit
      exact hnomiss p' hp' (Bool.and_eq_true_iff.mpr ⟨hmiss,hbit⟩)
  · intro hnone
    have hno : ∀ f : MemPacket → Bool,(∀ p,f p=true → ready v p=true) → queue.any f=false := by
      intro f hf
      rw [any_eq_false]
      intro p hp hfp
      have hready:=hf p hfp
      rw [hnone p hp] at hready
      cases hready
    exact ⟨hno _ fun p hp => ready_of_hit (Bool.and_eq_true_iff.mp hp).1,hno _ fun p hp => ready_of_hit hp,
      hno _ fun p hp => ready_of_prepared hp⟩

def packetAt (queue : List MemPacket) (i : Option ℕ) : Option MemPacket := i.bind (queue[·]?)

theorem packetAt_or {queue : List MemPacket} {i : Option ℕ} :
    packetAt queue ((queue.findIdx? f).or i)=(queue.find? f).or (packetAt queue i) := by
  rw [find?_eq_bind_findIdx?_getElem?]
  cases hf : queue.findIdx? f with
  | none => rfl
  | some k =>
    have hlt:=(findIdx?_eq_some_iff_getElem.mp hf).1
    simp [packetAt,hlt]

theorem packetAt_findIdx? {queue : List MemPacket} :
    packetAt queue (queue.findIdx? f)=queue.find? f := List.find?_eq_bind_findIdx?_getElem?.symm

theorem find?_of_filter {queue queue' : List MemPacket} {f g : MemPacket → Bool} (hfg : ∀ p,f p=true → g p=true)
    (h : queue'.filter g=queue.filter g) : queue'.find? f=queue.find? f := by
  have hsame : ∀ l : List MemPacket,l.find? f=(l.filter g).find? f := by
    intro l
    rw [find?_filter]
    congr 1
    funext p
    cases hf : f p with
    | false => simp
    | true => simp [hfg p hf]
  rw [hsame queue',hsame queue,h]

variable {queue' : List MemPacket}

theorem packetAt_frfcfs_congr (hhits : queue'.filter (readyHit v)=queue.filter (readyHit v))
    (hmisses : queue'.filter (readyMiss v)=queue.filter (readyMiss v)) :
    packetAt queue' (frfcfs v minColAt e queue')=packetAt queue (frfcfs v minColAt e queue) := by
  have hseam:=find?_of_filter (f := seamlessHit v minColAt) (fun p hp => (Bool.and_eq_true_iff.mp hp).1) hhits
  have hhit:=find?_of_filter (f := readyHit v) (fun p hp => hp) hhits
  have hmiss:=find?_of_filter (f := preparedMiss v e.1) (fun p hp => (Bool.and_eq_true_iff.mp hp).1) hmisses
  simp only [frfcfs,unseamless]
  split_ifs
  · rw [packetAt_or,packetAt_or,packetAt_or,packetAt_or,packetAt_findIdx?,packetAt_findIdx?,hseam,hhit,hmiss]
  · rw [packetAt_or,packetAt_or,packetAt_or,packetAt_or,packetAt_findIdx?,packetAt_findIdx?,hseam,hhit,hmiss]

theorem mem_ready_congr (hhits : queue'.filter (readyHit v)=queue.filter (readyHit v))
    (hmisses : queue'.filter (readyMiss v)=queue.filter (readyMiss v)) (hready : ready v pkt=true) :
    pkt∈queue' ↔ pkt∈queue := by
  rcases ready_cases hready with hhit | hmiss
  · have h:=congrArg (pkt∈·) hhits
    simpa [mem_filter,hhit] using h
  · have h:=congrArg (pkt∈·) hmisses
    simpa [mem_filter,hmiss] using h

theorem minBankPrep_congr (hfits : Fits P v) (hq : AllDecoded P v queue) (hq' : AllDecoded P v queue')
    (hhits : queue'.filter (readyHit v)=queue.filter (readyHit v))
    (hmisses : queue'.filter (readyMiss v)=queue.filter (readyMiss v)) :
    minBankPrep P v queue' minColAt=minBankPrep P v queue minColAt := by
  have hgot : gotWaiting v queue'=gotWaiting v queue := by
    funext id
    rw [gotWaiting,gotWaiting,Bool.eq_iff_iff,any_eq_true,any_eq_true]
    refine exists_congr fun p => and_congr_left fun hp => ?_
    exact mem_ready_congr hhits hmisses (Bool.and_eq_true_iff.mp hp).1
  have hprep : prepBank P v queue' minColAt=prepBank P v queue minColAt := by
    funext st x
    rw [prepBank,prepBank,hgot]
  obtain ⟨hranks,hids⟩:=hq.inBounds hfits
  obtain ⟨hranks',hids'⟩:=hq'.inBounds hfits
  rw [minBankPrep,minBankPrep,hprep]
  simp only [check,if_pos hranks,if_pos hids,if_pos hranks',if_pos hids']

/-- Selection by the rules for every state of so many ranks: of two queues with the same hits and
the same misses in the same orders the same packet is selected. -/
def SelectCorrect (P : Params) (ranksPerChannel : ℕ) : Prop :=
  ∀ v : View,v.ranksPerChannel=ranksPerChannel → ∀ queue minColAt,AllDecoded P v queue →
    ∃ e,minBankPrep P v queue minColAt = .ok e ∧
      chooseNextFRFCFS P v queue minColAt =
        .ok (frfcfs v minColAt e queue,colAtPlace v queue (frfcfs v minColAt e queue)) ∧
      (frfcfs v minColAt e queue=none ↔ ∀ p∈queue,ready v p=false) ∧
      ∀ queue',AllDecoded P v queue' → queue'.filter (readyHit v)=queue.filter (readyHit v) →
        queue'.filter (readyMiss v)=queue.filter (readyMiss v) →
        ∃ i,chooseNextFRFCFS P v queue' minColAt = .ok i ∧
          packetAt queue' i.1=packetAt queue (frfcfs v minColAt e queue)

variable {ranksPerChannel bank : ℕ}

theorem selectCorrect_of_fits (hbanks : P.banksPerRank≤32) (hids : ranksPerChannel*P.banksPerRank≤2^16) :
    SelectCorrect P ranksPerChannel := by
  rintro v rfl queue minColAt hq
  have hfits : Fits P v := ⟨hbanks,hids⟩
  obtain ⟨e,he,hmask,_⟩:=minBankPrep_ok minColAt hfits hq
  refine ⟨e,he,chooseNextFRFCFS_eq hbanks hq he,frfcfs_eq_none_iff hq hmask,fun queue' hq' hhits hmisses => ?_⟩
  have he':=(minBankPrep_congr hfits hq hq' hhits hmisses).trans he
  exact ⟨_,chooseNextFRFCFS_eq hbanks hq' he',packetAt_frfcfs_congr hhits hmisses⟩

theorem chooseNextFRFCFS_wide (hbank : 32≤bank) (r : Option ℕ × ℕ) :
    chooseNextFRFCFS P (soleRank P ranksPerChannel) [packetFor bank] minColAt ≠ .ok r := by
  intro h
  obtain ⟨c,hc,_⟩:=bind_ok h
  simp only [chooseFrom,packetFor,if_true] at hc
  obtain ⟨_,_,hc⟩:=bind_ok hc
  have hmiss : rowHit (soleRank P ranksPerChannel) (packetFor bank)=false := rfl
  have hready : burstReady (soleRank P ranksPerChannel) (packetFor bank)=true := rfl
  simp only [packetFor] at hmiss hready
  simp only [hmiss,hready,Choice.new,Bool.not_false,if_true,Bool.false_eq_true,if_false] at hc
  obtain ⟨_,hc,_⟩:=bind_ok hc
  rw [considerMiss] at hc
  obtain ⟨_,_,hc⟩:=bind_ok hc
  simp only [bitOf,if_neg (Nat.not_lt.mpr hbank)] at hc
  obtain ⟨_,hc,_⟩:=bind_ok hc
  cases hc

theorem fits_of_selectCorrect (hranks : 0<ranksPerChannel) (h : SelectCorrect P ranksPerChannel) :
    P.banksPerRank≤32 ∧ ranksPerChannel*P.banksPerRank≤2^16 := by
  have hbanks : P.banksPerRank≤32 := by
    by_contra hwide
    obtain ⟨e,_,hchoose,_⟩:=h (soleRank P ranksPerChannel) rfl [packetFor 32] 0
      (allDecoded_packetFor hranks (by omega))
    exact chooseNextFRFCFS_wide (Nat.le_refl 32) _ hchoose
  refine ⟨hbanks,?_⟩
  by_contra hwide
  have hpos : 0<P.banksPerRank := Nat.pos_of_ne_zero fun hzero => hwide (by rw [hzero]; exact Nat.zero_le _)
  obtain ⟨e,he,_⟩:=h (soleRank P ranksPerChannel) rfl [packetFor 0] 0 (allDecoded_packetFor hranks (by omega))
  exact minBankPrep_wraps (Nat.lt_of_not_le hwide) (by omega) e he

/-- The selection is right, in every state, for exactly those numbers of banks and ranks whose masks
and ids fit. -/
theorem selectCorrect_iff (hranks : 0<ranksPerChannel) :
    SelectCorrect P ranksPerChannel ↔ P.banksPerRank≤32 ∧ ranksPerChannel*P.banksPerRank≤2^16 := by
  constructor
  · exact fits_of_selectCorrect hranks
  · rintro ⟨hbanks,hids⟩
    exact selectCorrect_of_fits hbanks hids

theorem selectCorrect_ddr3 : SelectCorrect ddr3 2 := (selectCorrect_iff (by decide)).mpr ⟨by decide,by decide⟩

/-- The only packet, to bank 40 of 64, is ready and cannot be selected. -/
theorem not_selectCorrect_64_banks : ¬SelectCorrect ddr3Wide 1 ∧ AllDecoded ddr3Wide (soleRank ddr3Wide 1) [packetFor 40] ∧
    ready (soleRank ddr3Wide 1) (packetFor 40)=true ∧
    Post (chooseNextFRFCFS ddr3Wide (soleRank ddr3Wide 1) [packetFor 40] 13750) (fun _ => False) fun e => e = .shift := by
  have hq : AllDecoded ddr3Wide (soleRank ddr3Wide 1) [packetFor 40] := allDecoded_packetFor (by decide) (by decide)
  refine ⟨fun h => ?_,hq,rfl,by decide +kernel⟩
  obtain ⟨e,_,hchoose,_⟩:=h (soleRank ddr3Wide 1) rfl [packetFor 40] 13750 hq
  exact chooseNextFRFCFS_wide (by decide) _ hchoose

end Scheduler

end AquaGem5.Dram
