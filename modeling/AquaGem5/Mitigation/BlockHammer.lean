import AquaGem5.Detector.MisraGries
import AquaGem5.Lib.Windows
import AquaGem5.Mitigation.Base

/-!
# Throttling (`BlockHammer`, rowhammer_mitigation.cc)

The tracker counts the activations of a row in the current window, and an access to a row
above the black-list threshold is answered with the delay until its next one. The ranks of
a channel share the counters. What a division by zero does is a parameter `byZero`: it
traps, or yields some quotient.
-/

namespace AquaGem5.Throttle
open Checked Mitigation Windows List
open Detector (Bank)

inductive Fault where
  | outOfBounds
  | divByZero
  | badConversion
  /-- The `int` counter of a loop passes `INT_MAX`. -/
  | intOverflow
  deriving DecidableEq

instance : Undefined Fault := ⟨.outOfBounds,.divByZero,.badConversion⟩

structure BlockHammer where
  threshold : UInt32
  blackListThreshold : UInt64
  numRows : ℕ
  numBanks : ℕ
  numRanks : ℕ
  numChannels : ℕ
  lastReset : UInt64
  numAccessesToRow : Cells UInt32
  decision : Decision
  sramCBFAccDelay : UInt64
  sNumAccesses : UInt64
  sNumResets : UInt64
  rows : RowStats

structure Access where
  currTick : UInt64
  rowID : ℕ
  bank : Bank
  deriving DecidableEq

/-- The statistics of one row at a reset: three powers of ten, then the black-listed rows. -/
def countRow (threshold : UInt32) (blackListThreshold : UInt64) (s : RowStats) (count : UInt32) : RowStats :=
  let bump (s : RowStats) (i : ℕ) : RowStats :=
    {s with sNumLogRowAccesses := s.sNumLogRowAccesses.set i (s.sNumLogRowAccesses.get i+1)}
  let s := if threshold≤count then {s with sNumRowAccessesRH := s.sNumRowAccessesRH+1} else s
  let s := if blackListThreshold≤count.toUInt64 then bump s 3 else s
  match logBucket 3 count.toNat 3 0 1 with
  | some i => bump s i
  | none => s

namespace BlockHammer

/-- The members the constructor does not assign keep what `memory` holds. -/
def construct (threshold : UInt32) (numRows : ℕ) (blThreshold : UInt32) (numBanks numRanks numChannels : ℕ)
    (memory : BlockHammer) : BlockHammer :=
  {memory with
    threshold := threshold
    blackListThreshold := blThreshold.toUInt64
    numRows := numRows
    numBanks := numBanks
    numRanks := numRanks
    numChannels := numChannels
    lastReset := 0
    numAccessesToRow := .calloc (numRows*numBanks*numRanks*numChannels%2^32) 0
    rows := ⟨0,.calloc 4 0⟩}

def sweepRows (threshold : UInt32) (blackListThreshold : UInt64) :
    ℕ → ℕ → RowStats → Cells UInt32 → Except Fault (RowStats × Cells UInt32) :=
  Mitigation.sweepRows .intOverflow (countRow threshold blackListThreshold)

def numDRAMRows (s : BlockHammer) : ℕ := s.numRows*s.numBanks*s.numRanks*s.numChannels%2^32

def reset (s : BlockHammer) : Except Fault BlockHammer := do
  let swept ← sweepRows s.threshold s.blackListThreshold s.numDRAMRows 0 s.rows s.numAccessesToRow
  pure {s with sNumResets := s.sNumResets+1, rows := swept.1, numAccessesToRow := swept.2}

/-- `uint32_t DRAMRowID = bankID + numBanks*rowID`. -/
def dramRowID (s : BlockHammer) (a : Access) : ℕ := (a.bank.bankID+s.numBanks*a.rowID)%2^32

/-- The activations the row's budget has left, for a row accessed `n` times. -/
def actsRemaining (threshold n : UInt32) : UInt64 :=
  if n-1<threshold then (threshold-n-1).toUInt64 else 1

def divide (byZero : UInt64 → Except Fault UInt64) (a b : UInt64) : Except Fault UInt64 :=
  if b=0 then byZero a else .ok (a/b)

def openWindow (s : BlockHammer) (currTick : UInt64) : Except Fault BlockHammer :=
  let s := {s with sNumAccesses := s.sNumAccesses+1, decision := .fresh}
  if windowOver currTick s.lastReset=true then {s with lastReset := currTick}.reset else pure s

def throttle (byZero : UInt64 → Except Fault UInt64) (s : BlockHammer) (currTick : UInt64) (n : UInt32) :
    Except Fault BlockHammer :=
  if s.blackListThreshold≤n.toUInt64 then do
    let delay ← divide byZero (refreshWindow+s.lastReset-currTick) (actsRemaining s.threshold n)
    pure {s with decision := {s.decision with mcDelay := delay, mitigate := true} }
  else pure s

def access (byZero : UInt64 → Except Fault UInt64) (s : BlockHammer) (a : Access) :
    Except Fault BlockHammer := do
  let s ← s.openWindow a.currTick
  let row := s.dramRowID a
  let count ← s.numAccessesToRow.read row
  let s ← {s with numAccessesToRow := s.numAccessesToRow.set row (count+1)}.throttle byZero a.currTick
    (count+1)
  pure {s with decision := {s.decision with sramDelay := s.decision.sramDelay+s.sramCBFAccDelay} }

end BlockHammer

/-- An access as its caller sees it: the row, whether a window began, and the `MC_delay`. -/
structure Event where
  currTick : UInt64
  row : ℕ
  resets : Bool
  delay : UInt64
  deriving DecidableEq

namespace BlockHammer

def event (s s' : BlockHammer) (a : Access) : Event :=
  ⟨a.currTick,s.dramRowID a,windowOver a.currTick s.lastReset,s'.decision.mcDelay⟩

def run (byZero : UInt64 → Except Fault UInt64) :
    BlockHammer → List Access → Except Fault (BlockHammer × List Event)
  | s,[] => pure (s,[])
  | s,a::as => do
    let s' ← s.access byZero a
    let rest ← run byZero s' as
    pure (rest.1,s.event s' a::rest.2)

end BlockHammer

def accessesTo (row : ℕ) (es : List Event) : List Event := es.filter (·.row=row)

def Throttled (row : ℕ) (es : List Event) : Prop :=
  (accessesTo row es).IsChain fun e e' => e.currTick.toNat+e.delay.toNat≤e'.currTick.toNat

def Timed (es : List Event) : Prop := es.Pairwise fun e e' => e.currTick≤e'.currTick

namespace BlockHammer

variable {byZero : UInt64 → Except Fault UInt64} {s : BlockHammer}

structure Same (s s' : BlockHammer) : Prop where
  threshold : s'.threshold=s.threshold
  blackListThreshold : s'.blackListThreshold=s.blackListThreshold
  numBanks : s'.numBanks=s.numBanks
  numDRAMRows : s'.numDRAMRows=s.numDRAMRows
  size : s'.numAccessesToRow.size=s.numAccessesToRow.size

theorem reset_post (s : BlockHammer) : Post s.reset (fun s' => s.Same s' ∧
    s'.decision=s.decision ∧ s'.lastReset=s.lastReset ∧ (∀ i, i<s.numDRAMRows → s'.numAccessesToRow.get i=0) ∧
    ∀ i, s.numAccessesToRow.get i=0 → s'.numAccessesToRow.get i=0) := by
  unfold reset
  rw [post_bind]
  refine (sweepRows_post _ _ _ 0 _ _).forget fun r h => ?_
  have hr:=h.1
  exact ⟨⟨rfl,rfl,rfl,rfl,hr.size⟩,rfl,rfl,fun i hi => hr.swept i (Nat.zero_le i) (by omega),hr.kept⟩

/-- The loop of `reset` ends before its counter overflows. -/
theorem reset_returns_iff (h : s.numAccessesToRow.size=s.numDRAMRows) : (∃ s',s.reset = .ok s') ↔ s.numDRAMRows<2^31 := by
  have hsweep:=sweepRows_post Fault.intOverflow (countRow s.threshold s.blackListThreshold) s.numDRAMRows 0 s.rows s.numAccessesToRow
  rw [Nat.zero_add] at hsweep
  exact Post.returns_iff ((hsweep.mono (fun _ hr => hr.2 (by decide)) fun _ he => by omega).bind fun _ hlt => hlt)

structure Opened (s s' : BlockHammer) (currTick : UInt64) : Prop where
  same : s.Same s'
  delay : s'.decision.mcDelay=0
  stays : windowOver currTick s.lastReset=false →
    s'.lastReset=s.lastReset ∧ s'.numAccessesToRow=s.numAccessesToRow
  begins : windowOver currTick s.lastReset=true → s'.lastReset=currTick ∧
    (∀ i, i<s.numDRAMRows → s'.numAccessesToRow.get i=0) ∧
    ∀ i, s.numAccessesToRow.get i=0 → s'.numAccessesToRow.get i=0

theorem openWindow_post (s : BlockHammer) (currTick : UInt64) :
    Post (s.openWindow currTick) (fun s' => s.Opened s' currTick) fun _ => windowOver currTick s.lastReset=true := by
  unfold openWindow
  cases hover : windowOver currTick s.lastReset with
  | true =>
    dsimp only
    rw [hover,if_pos rfl]
    refine (reset_post _).mono (fun s' hs' => ?_) fun _ _ => rfl
    obtain ⟨hsame,hdecision,hreset,hswept,hzero⟩:=hs'
    refine ⟨⟨hsame.threshold,hsame.blackListThreshold,hsame.numBanks,hsame.numDRAMRows,hsame.size⟩,?_,?_,?_⟩
    · rw [hdecision]
      rfl
    · intro hfalse
      rw [hover] at hfalse
      cases hfalse
    · exact fun _ => ⟨hreset,hswept,hzero⟩
  | false =>
    dsimp only
    rw [hover,if_neg Bool.false_ne_true]
    refine ⟨⟨rfl,rfl,rfl,rfl,rfl⟩,rfl,fun _ => ⟨rfl,rfl⟩,?_⟩
    intro htrue
    rw [hover] at htrue
    cases htrue

def mcDelay (byZero : UInt64 → Except Fault UInt64) (s : BlockHammer) (currTick : UInt64) (n : UInt32) :
    Except Fault UInt64 :=
  if s.blackListThreshold≤n.toUInt64 then
    divide byZero (refreshWindow+s.lastReset-currTick) (actsRemaining s.threshold n)
  else .ok 0

theorem throttle_eq (s : BlockHammer) (currTick : UInt64) (n : UInt32) (h : s.decision.mcDelay=0) :
    Post (s.throttle byZero currTick n) (fun s' => s.Same s' ∧ s'.lastReset=s.lastReset ∧
      s'.numAccessesToRow=s.numAccessesToRow ∧ s.mcDelay byZero currTick n = .ok s'.decision.mcDelay)
      fun e => s.mcDelay byZero currTick n = .error e := by
  unfold throttle mcDelay
  split
  next =>
    cases hdivide : divide byZero (refreshWindow+s.lastReset-currTick) (actsRemaining s.threshold n) with
    | error e => rfl
    | ok delay => exact ⟨⟨rfl,rfl,rfl,rfl,rfl⟩,rfl,rfl,rfl⟩
  next => exact ⟨⟨rfl,rfl,rfl,rfl,rfl⟩,rfl,rfl,by rw [h]⟩

theorem Same.trans {s s' s'' : BlockHammer} (h : s.Same s') (h' : s'.Same s'') : s.Same s'' :=
  ⟨h'.threshold.trans h.threshold,h'.blackListThreshold.trans h.blackListThreshold,
    h'.numBanks.trans h.numBanks,h'.numDRAMRows.trans h.numDRAMRows,h'.size.trans h.size⟩

structure Counted (byZero : UInt64 → Except Fault UInt64) (s1 s' : BlockHammer) (currTick : UInt64)
    (row : ℕ) : Prop where
  same : s1.Same s'
  inBounds : row<s1.numAccessesToRow.size
  lastReset : s'.lastReset=s1.lastReset
  counts : s'.numAccessesToRow=s1.numAccessesToRow.set row (s1.numAccessesToRow.get row+1)
  delay : s1.mcDelay byZero currTick (s1.numAccessesToRow.get row+1) = .ok s'.decision.mcDelay

theorem access_post (byZero : UInt64 → Except Fault UInt64) (s : BlockHammer) (a : Access) : Post (s.access byZero a)
    (fun s' => ∃ s1, s.Opened s1 a.currTick ∧ Counted byZero s1 s' a.currTick (s.dramRowID a))
    fun _ => windowOver a.currTick s.lastReset=true ∨ s.numAccessesToRow.size ≤ s.dramRowID a ∨
      ∀ delay, s.mcDelay byZero a.currTick (s.numAccessesToRow.get (s.dramRowID a)+1) ≠ .ok delay := by
  unfold access
  refine ((openWindow_post s a.currTick).mono (fun _ h => h) fun _ h => .inl h).bind fun s1 hopened => ?_
  have hrow : s1.dramRowID a=s.dramRowID a := by
    unfold dramRowID
    rw [hopened.same.numBanks]
  simp only [post_bind,Cells.post_read]
  rw [hopened.same.size]
  refine ⟨fun hin => ?_,fun hout => .inr (.inl (by rwa [hrow,Nat.not_lt] at hout))⟩
  refine (throttle_eq {s1 with numAccessesToRow := s1.numAccessesToRow.set _ _} a.currTick _
    hopened.delay).mono (fun s2 hs2 => ?_) fun e he => ?_
  · obtain ⟨hsame,hreset,hcounts,hdelay⟩:=hs2
    rw [hrow] at hin hcounts hdelay
    exact ⟨s1,hopened,⟨hsame.threshold,hsame.blackListThreshold,hsame.numBanks,hsame.numDRAMRows,
      hsame.size⟩,hin.trans_eq hopened.same.size.symm,hreset,hcounts,hdelay⟩
  · cases hover : windowOver a.currTick s.lastReset with
    | true => exact .inl rfl
    | false =>
      obtain ⟨hreset,hcounts⟩:=hopened.stays hover
      refine .inr (.inr fun delay hok => ?_)
      have hsame : mcDelay byZero s a.currTick (s.numAccessesToRow.get (s.dramRowID a)+1) = .error e := by
        rw [hrow,hcounts] at he
        unfold mcDelay at he ⊢
        rw [← hopened.same.threshold,← hopened.same.blackListThreshold,← hreset]
        exact he
      rw [hsame] at hok
      cases hok

theorem not_windowOver_iff {currTick lastReset : UInt64} (h : lastReset≤currTick) :
    windowOver currTick lastReset=false ↔ currTick.toNat<lastReset.toNat+refreshWindow.toNat := by
  have hle:=UInt64.le_iff_toNat_le.mp h
  unfold windowOver
  rw [decide_eq_false_iff_not,UInt64.le_iff_toNat_le,UInt64.toNat_sub_of_le _ _ h]
  omega

theorem toNat_remaining {currTick lastReset : UInt64} (hle : lastReset≤currTick)
    (hin : currTick.toNat<lastReset.toNat+refreshWindow.toNat) :
    currTick.toNat+(refreshWindow+lastReset-currTick).toNat=lastReset.toNat+refreshWindow.toNat := by
  have hle:=UInt64.le_iff_toNat_le.mp hle
  have hlt:=currTick.toNat_lt
  have hwindow : refreshWindow.toNat=64000000000 := rfl
  rw [UInt64.toNat_sub,UInt64.toNat_add]
  omega

theorem pred_lt {threshold n : UInt32} (hpos : 0<n.toNat) (hle : n.toNat≤threshold.toNat) : n-1<threshold := by
  have hone : (1 : UInt32)≤n := UInt32.le_iff_toNat_le.mpr hpos
  rw [UInt32.lt_iff_toNat_lt,UInt32.toNat_sub_of_le _ _ hone,show (1 : UInt32).toNat=1 from rfl]
  omega

theorem actsRemaining_last {threshold n : UInt32} (h : n.toNat+2=threshold.toNat) (hpos : 0<n.toNat) :
    actsRemaining threshold n=1 := by
  have hn : n≤threshold := UInt32.le_iff_toNat_le.mpr (by omega)
  have htwo : threshold-n=2 := by
    rw [← UInt32.toNat_inj,UInt32.toNat_sub_of_le _ _ hn,show (2 : UInt32).toNat=2 from rfl]
    omega
  unfold actsRemaining
  rw [if_pos (pred_lt hpos (by omega)),htwo]
  rfl

theorem actsRemaining_end {threshold n : UInt32} (h : n.toNat+1=threshold.toNat) (hpos : 0<n.toNat) :
    actsRemaining threshold n=0 := by
  have hn : n≤threshold := UInt32.le_iff_toNat_le.mpr (by omega)
  have hone : threshold-n=1 := by
    rw [← UInt32.toNat_inj,UInt32.toNat_sub_of_le _ _ hn,show (1 : UInt32).toNat=1 from rfl]
    omega
  unfold actsRemaining
  rw [if_pos (pred_lt hpos (by omega)),hone]
  rfl

theorem actsRemaining_wrap {threshold : UInt32} (hpos : 0<threshold.toNat) :
    actsRemaining threshold threshold=4294967295 := by
  unfold actsRemaining
  rw [if_pos (pred_lt hpos (Nat.le_refl _)),UInt32.sub_self]
  rfl

structure Budget (threshold blThreshold : UInt32) (row : ℕ) (s : BlockHammer) (w : List Event) : Prop where
  limit : s.threshold=threshold
  black : s.blackListThreshold=blThreshold.toUInt64
  size : s.numAccessesToRow.size=s.numDRAMRows
  outside : ∀ i, s.numDRAMRows ≤ i → s.numAccessesToRow.get i=0
  counted : (s.numAccessesToRow.get row).toNat=(accessesTo row w).length
  spare : (accessesTo row w).length+2≤threshold.toNat
  blocked : (accessesTo row w).length+2=threshold.toNat → ∀ e∈(accessesTo row w).getLast?,
    s.lastReset.toNat+refreshWindow.toNat≤e.currTick.toNat+e.delay.toNat

variable {threshold blThreshold : UInt32} {row : ℕ}

theorem accessesTo_push (row : ℕ) (w : List Event) (e : Event) :
    accessesTo row (w++[e])=if e.row=row then accessesTo row w++[e] else accessesTo row w := by
  unfold accessesTo
  rw [filter_append]
  by_cases h : e.row=row
  · rw [if_pos h,filter_cons_of_pos (by simpa using h),filter_nil]
  · rw [if_neg h,filter_cons_of_neg (by simpa using h),filter_nil,append_nil]

variable {currTick : UInt64}

theorem delay_last {s1 : BlockHammer} {n : UInt32} {delay : UInt64}
    (hthreshold : s1.threshold=threshold) (hblack : s1.blackListThreshold=blThreshold.toUInt64)
    (hbelow : blThreshold.toNat+1<threshold.toNat) (hn : n.toNat+2=threshold.toNat)
    (hpos : 0<n.toNat) (h : s1.mcDelay byZero currTick n = .ok delay) :
    delay=refreshWindow+s1.lastReset-currTick := by
  have hlisted : s1.blackListThreshold≤n.toUInt64 := by
    rw [hblack,UInt64.le_iff_toNat_le,UInt32.toNat_toUInt64,UInt32.toNat_toUInt64]
    omega
  have hone : (1 : UInt64)≠0 := by decide
  unfold mcDelay divide at h
  rw [if_pos hlisted,hthreshold,actsRemaining_last hn hpos,if_neg hone] at h
  cases h
  exact UInt64.div_one

theorem budget_count {s1 s' : BlockHammer} {w : List Event} {e : Event}
    (hbelow : blThreshold.toNat+1<threshold.toNat) (h : Budget threshold blThreshold row s1 w)
    (hcounted : Counted byZero s1 s' e.currTick e.row) (hdelay : e.delay=s'.decision.mcDelay)
    (hspare : e.row=row → (accessesTo row w).length+3≤threshold.toNat) (hle : s1.lastReset≤e.currTick)
    (hin : e.currTick.toNat<s1.lastReset.toNat+refreshWindow.toNat) :
    Budget threshold blThreshold row s' (w++[e]) := by
  obtain ⟨hsame,hbounds,hreset,hcounts,hanswer⟩:=hcounted
  have houtside : ∀ i, s'.numDRAMRows ≤ i → s'.numAccessesToRow.get i=0 := by
    intro i hi
    rw [hsame.numDRAMRows] at hi
    rw [h.size] at hbounds
    rw [hcounts,Cells.get_set_ne _ _ (by omega)]
    exact h.outside i hi
  have hsize : s'.numAccessesToRow.size=s'.numDRAMRows := by
    rw [hsame.size,h.size,hsame.numDRAMRows]
  by_cases hrow : e.row=row
  · have hroom:=hspare hrow
    have hlt:=threshold.toNat_lt
    have hn : (s1.numAccessesToRow.get row+1).toNat=(accessesTo row w).length+1 := by
      rw [UInt32.toNat_add,h.counted,show (1 : UInt32).toNat=1 from rfl]
      exact Nat.mod_eq_of_lt (by omega)
    have hpush : accessesTo row (w++[e])=accessesTo row w++[e] := by
      rw [accessesTo_push,if_pos hrow]
    have hlength : (accessesTo row (w++[e])).length=(accessesTo row w).length+1 := by
      rw [hpush,length_append,length_singleton]
    rw [hrow] at hcounts hanswer
    refine ⟨hsame.threshold.trans h.limit,hsame.blackListThreshold.trans h.black,hsize,houtside,
      ?_,?_,fun hlast last hmem => ?_⟩
    · rw [hcounts,Cells.get_set_self,hn,hlength]
    · omega
    · rw [hpush,getLast?_concat,Option.mem_some_iff] at hmem
      subst hmem
      rw [hdelay,hreset,delay_last h.limit h.black hbelow (by omega) (by omega) hanswer,
        toNat_remaining hle hin]
  · have hpush : accessesTo row (w++[e])=accessesTo row w := by rw [accessesTo_push,if_neg hrow]
    refine ⟨hsame.threshold.trans h.limit,hsame.blackListThreshold.trans h.black,hsize,houtside,
      ?_,?_,?_⟩
    · rw [hcounts,Cells.get_set_ne _ _ (Ne.symm hrow),hpush]
      exact h.counted
    · rw [hpush]
      exact h.spare
    · rw [hpush,hreset]
      exact h.blocked

theorem budget_stay {s s1 : BlockHammer} {w : List Event}
    (h : Budget threshold blThreshold row s w) (hopened : s.Opened s1 currTick)
    (hstay : windowOver currTick s.lastReset=false) : Budget threshold blThreshold row s1 w := by
  obtain ⟨hsame,_,hstays,_⟩:=hopened
  obtain ⟨hreset,hcounts⟩:=hstays hstay
  refine ⟨hsame.threshold.trans h.limit,hsame.blackListThreshold.trans h.black,?_,?_,?_,h.spare,?_⟩
  · rw [hcounts,hsame.numDRAMRows]
    exact h.size
  · rw [hcounts,hsame.numDRAMRows]
    exact h.outside
  · rw [hcounts]
    exact h.counted
  · rw [hreset]
    exact h.blocked

theorem budget_begin {s s1 : BlockHammer} {w : List Event}
    (hbelow : blThreshold.toNat+1<threshold.toNat) (h : Budget threshold blThreshold row s w)
    (hopened : s.Opened s1 currTick) (hover : windowOver currTick s.lastReset=true) :
    Budget threshold blThreshold row s1 [] := by
  obtain ⟨hsame,_,_,hbegins⟩:=hopened
  obtain ⟨_,hswept,hzero⟩:=hbegins hover
  have hclear : ∀ i, s1.numAccessesToRow.get i=0 := by
    intro i
    cases Nat.lt_or_ge i s.numDRAMRows with
    | inl hi => exact hswept i hi
    | inr hi => exact hzero i (h.outside i hi)
  refine ⟨hsame.threshold.trans h.limit,hsame.blackListThreshold.trans h.black,?_,fun i _ => hclear i,
    ?_,?_,?_⟩
  · rw [hsame.size,h.size,hsame.numDRAMRows]
  · rw [hclear row]
    rfl
  · show 0+2≤threshold.toNat
    omega
  · intro _ e he
    cases he

variable {w es : List Event}

theorem budget_step {s s' : BlockHammer} {a : Access} (hpos : 1≤blThreshold.toNat)
    (hbelow : blThreshold.toNat+1<threshold.toNat) (h : Budget threshold blThreshold row s w)
    (haccess : s.access byZero a = .ok s') (hle : s.lastReset≤a.currTick)
    (hthrottled : Throttled row (w++s.event s' a::es)) :
    Budget threshold blThreshold row s' (push (·.resets) w (s.event s' a)) := by
  obtain ⟨s1,hopened,hcounted⟩:=(access_post byZero s a).of_ok haccess
  unfold push
  cases hover : windowOver a.currTick s.lastReset with
  | true =>
    have hbegins:=(hopened.begins hover).1
    have hresets : (s.event s' a).resets=true := hover
    have hnow : a.currTick.toNat<a.currTick.toNat+refreshWindow.toNat :=
      Nat.lt_add_of_pos_right (by decide)
    rw [if_pos hresets]
    refine budget_count (w := []) hbelow (budget_begin hbelow h hopened hover) hcounted rfl ?_ ?_ ?_
    · intro _
      show 0+3≤threshold.toNat
      omega
    · rw [hbegins]
      exact UInt64.le_refl _
    · rw [hbegins]
      exact hnow
  | false =>
    have hreset:=(hopened.stays hover).1
    have hstays : ¬(s.event s' a).resets=true := by
      show ¬windowOver a.currTick s.lastReset=true
      rw [hover]
      exact Bool.false_ne_true
    have hin:=(not_windowOver_iff hle).mp hover
    rw [if_neg hstays]
    refine budget_count hbelow (budget_stay h hopened hover) hcounted rfl ?_ ?_ ?_
    · intro hrow
      have hspare:=h.spare
      by_contra hout
      have hlast : (accessesTo row w).length+2=threshold.toNat := by omega
      obtain ⟨last,hmem⟩ : ∃ last, (accessesTo row w).getLast?=some last := by
        cases hw : (accessesTo row w).getLast? with
        | none =>
          rw [getLast?_eq_none_iff.mp hw,length_nil] at hlast
          omega
        | some last => exact ⟨last,rfl⟩
      have hwait:=h.blocked hlast last hmem
      have hhead : (accessesTo row (s.event s' a::es)).head?=some (s.event s' a) := by
        unfold accessesTo
        rw [filter_cons_of_pos (by simpa using hrow)]
        rfl
      unfold Throttled accessesTo at hthrottled
      rw [filter_append,isChain_append] at hthrottled
      have hnext:=hthrottled.2.2 last hmem _ hhead
      have hnow : (s.event s' a).currTick.toNat=a.currTick.toNat := rfl
      omega
    · rw [hreset]
      exact hle
    · rw [hreset]
      exact hin

theorem throttled_suffix (h : Throttled row (w++es)) : Throttled row es := by
  unfold Throttled accessesTo at h ⊢
  rw [filter_append] at h
  exact h.right_of_append

theorem throttled_push {e : Event} (h : Throttled row (w++e::es)) : Throttled row (push (·.resets) w e++es) := by
  unfold push
  split
  next => exact throttled_suffix h
  next => rwa [append_assoc]

theorem budget_run {as : List Access} {s s' : BlockHammer}
    (hpos : 1≤blThreshold.toNat) (hbelow : blThreshold.toNat+1<threshold.toNat)
    (h : Budget threshold blThreshold row s w) (hrun : s.run byZero as = .ok (s',es))
    (hle : ∀ e∈es, s.lastReset≤e.currTick) (htimed : Timed es) (hthrottled : Throttled row (w++es)) :
    Budget threshold blThreshold row s' (es.foldl (push (·.resets)) w) := by
  induction as generalizing s w es with
  | nil =>
    cases hrun
    exact h
  | cons a as ih =>
    obtain ⟨s1,haccess,hrest⟩:=bind_ok hrun
    obtain ⟨⟨s2,es'⟩,hrun',heq⟩:=bind_ok hrest
    cases heq
    obtain ⟨hfirst,htimed'⟩:=pairwise_cons.mp htimed
    have hnow:=hle _ mem_cons_self
    have hstep:=budget_step hpos hbelow h haccess hnow hthrottled
    have hlater : ∀ e∈es', s1.lastReset≤e.currTick := by
      intro e he
      obtain ⟨s0,hopened,hcounted⟩:=(access_post byZero s a).of_ok haccess
      rw [hcounted.lastReset]
      cases hover : windowOver a.currTick s.lastReset with
      | true =>
        rw [(hopened.begins hover).1]
        exact hfirst e he
      | false =>
        rw [(hopened.stays hover).1]
        exact hle e (mem_cons_of_mem _ he)
    have hdone:=ih hstep hrun' hlater htimed' (throttled_push hthrottled)
    exact hdone

theorem budget_construct (hpos : 1≤blThreshold.toNat) (hbelow : blThreshold.toNat+1<threshold.toNat)
    (numRows numBanks numRanks numChannels : ℕ) (memory : BlockHammer) (row : ℕ) : Budget threshold blThreshold row
      (construct threshold numRows blThreshold numBanks numRanks numChannels memory) [] := by
  refine ⟨rfl,rfl,rfl,fun _ _ => rfl,rfl,?_,?_⟩
  · show 0+2≤threshold.toNat
    omega
  · intro _ e he
    cases he

def lastMoment : Access := ⟨63999999999,0,⟨0,0,0⟩⟩

structure Idle (threshold blThreshold : UInt32) (s : BlockHammer) (count : ℕ) : Prop where
  limit : s.threshold=threshold
  black : s.blackListThreshold=blThreshold.toUInt64
  size : 0<s.numAccessesToRow.size
  lastReset : s.lastReset=0
  counted : s.numAccessesToRow.get 0=UInt32.ofNat count

variable {s : BlockHammer}

theorem idle_delay {count : ℕ} (hpos : 1≤blThreshold.toNat)
    (hedge : blThreshold.toNat+1=threshold.toNat) (h : Idle threshold blThreshold s count)
    (hcount : count<threshold.toNat) :
    s.mcDelay (fun _ => .ok 0) lastMoment.currTick (UInt32.ofNat (count+1)) = .ok 0 := by
  have hlt:=threshold.toNat_lt
  have hn : (UInt32.ofNat (count+1)).toNat=count+1 := 
    UInt32.toNat_ofNat_of_lt' (show count+1<2^32 by omega)
  unfold mcDelay divide
  rw [h.limit,h.black,h.lastReset]
  split
  next hlisted =>
    rw [UInt64.le_iff_toNat_le,UInt32.toNat_toUInt64,UInt32.toNat_toUInt64,hn] at hlisted
    cases Nat.eq_or_lt_of_le hcount with
    | inl hend =>
      have heq : UInt32.ofNat (count+1)=threshold := UInt32.toNat_inj.mp (hn.trans hend)
      rw [heq,actsRemaining_wrap (by omega)]
      rfl
    | inr hbefore =>
      rw [actsRemaining_end (by omega) (by omega),if_pos rfl]
  next => rfl

theorem idle_access {count : ℕ} {a : Access} {delay : UInt64}
    (h : Idle threshold blThreshold s count) (hfirst : a.rowID=0 ∧ a.bank.bankID=0)
    (hover : windowOver a.currTick 0=false)
    (hdelay : s.mcDelay (fun _ => .ok 0) a.currTick (UInt32.ofNat (count+1)) = .ok delay) :
    ∃ s', s.access (fun _ => .ok 0) a = .ok s' ∧ Idle threshold blThreshold s' (count+1) ∧
      s.event s' a=⟨a.currTick,0,false,delay⟩ := by
  have hstay : windowOver a.currTick s.lastReset=false := by
    rw [h.lastReset,hover]
  have hrow : s.dramRowID a=0 := by
    unfold dramRowID
    rw [hfirst.1,hfirst.2]
    exact Nat.mod_eq_of_lt (by omega)
  have hnext : s.numAccessesToRow.get 0+1=UInt32.ofNat (count+1) := by
    rw [h.counted,UInt32.ofNat_add]
    rfl
  have hpost:=access_post (fun _ => .ok 0) s a
  rw [hrow,hstay,hnext] at hpost
  cases haccess : s.access (fun _ => .ok 0) a with
  | error e =>
    rw [haccess] at hpost
    cases hpost with
    | inl hno => cases hno
    | inr hwhy => exact absurd hdelay (hwhy.elim (fun hout => absurd h.size (Nat.not_lt.mpr hout))
        fun hno => hno delay)
  | ok s' =>
    rw [haccess] at hpost
    obtain ⟨s1,hopened,hcounted⟩:=hpost
    obtain ⟨hreset,hcounts⟩:=hopened.stays hstay
    have hanswer : s'.decision.mcDelay=delay := by
      have hok:=hcounted.delay
      rw [hcounts,hnext] at hok
      unfold mcDelay at hok hdelay
      rw [hopened.same.threshold,hopened.same.blackListThreshold,hreset,hdelay] at hok
      cases hok
      rfl
    refine ⟨s',rfl,⟨?_,?_,?_,?_,?_⟩,?_⟩
    · rw [hcounted.same.threshold,hopened.same.threshold,h.limit]
    · rw [hcounted.same.blackListThreshold,hopened.same.blackListThreshold,h.black]
    · rw [hcounted.same.size,hopened.same.size]
      exact h.size
    · rw [hcounted.lastReset,hreset,h.lastReset]
    · rw [hcounted.counts,Cells.get_set_self,hcounts,hnext]
    · unfold event
      rw [hrow,hstay,hanswer]

theorem mcDelay_total (s : BlockHammer) (currTick : UInt64) (n : UInt32) :
    ∃ delay, s.mcDelay (fun _ => .ok 0) currTick n = .ok delay := by
  unfold mcDelay divide
  split
  next =>
    split
    next => exact ⟨0,rfl⟩
    next => exact ⟨_,rfl⟩
  next => exact ⟨0,rfl⟩

theorem accessesTo_all {es : List Event} (h : ∀ e∈es, e.row=row) : accessesTo row es=es :=
  filter_eq_self.mpr fun e he => by simpa using h e he

theorem run_cons {s s' s'' : BlockHammer} {a : Access} {as : List Access} {es : List Event}
    (h : s.access byZero a = .ok s') (hrun : s'.run byZero as = .ok (s'',es)) :
    s.run byZero (a::as) = .ok (s'',s.event s' a::es) := by
  unfold run
  rw [h]
  show (s'.run byZero as >>= _)=_
  rw [hrun]
  rfl

theorem idle_run (hpos : 1≤blThreshold.toNat) (hedge : blThreshold.toNat+1=threshold.toNat)
    {count k : ℕ} (h : Idle threshold blThreshold s count) (hk : count+k≤threshold.toNat) :
    ∃ s' es, s.run (fun _ => .ok 0) (List.replicate (k+1) lastMoment) = .ok (s',es) ∧
      es.length=k+1 ∧ (∀ e∈es, e.currTick=lastMoment.currTick ∧ e.row=0 ∧ e.resets=false) ∧ Throttled 0 es := by
  induction k generalizing s count with
  | zero =>
    obtain ⟨delay,hdelay⟩:=mcDelay_total s lastMoment.currTick (UInt32.ofNat (count+1))
    obtain ⟨s',haccess,_,hevent⟩:=idle_access h ⟨rfl,rfl⟩ (by decide) hdelay
    refine ⟨s',[s.event s' lastMoment],run_cons haccess rfl,rfl,?_,?_⟩
    · intro e he
      rw [mem_singleton.mp he,hevent]
      exact ⟨rfl,rfl,rfl⟩
    · rw [hevent]
      exact isChain_singleton _
  | succ k ih =>
    obtain ⟨s',haccess,hidle,hevent⟩:=idle_access h ⟨rfl,rfl⟩ (by decide)
      (idle_delay hpos hedge h (by omega))
    obtain ⟨s'',es,hrun,hlength,hes,hthrottled⟩:=ih hidle (by omega)
    have hall : ∀ e∈s.event s' lastMoment::es,
        e.currTick=lastMoment.currTick ∧ e.row=0 ∧ e.resets=false := by
      intro e he
      cases mem_cons.mp he with
      | inl heq =>
        rw [heq,hevent]
        exact ⟨rfl,rfl,rfl⟩
      | inr hin => exact hes e hin
    refine ⟨s'',s.event s' lastMoment::es,run_cons haccess hrun,by rw [length_cons,hlength],hall,?_⟩
    unfold Throttled at hthrottled ⊢
    rw [accessesTo_all fun e he => (hes e he).2.1] at hthrottled
    rw [accessesTo_all fun e he => (hall e he).2.1]
    refine isChain_cons.mpr ⟨fun e he => ?_,hthrottled⟩
    rw [(hes e (mem_of_mem_head? he)).1,hevent]
    generalize lastMoment.currTick.toNat=now
    exact Nat.le_refl now

end BlockHammer

/-- Whatever a division by zero does, no throttled row of a run is accessed more than
`threshold` times in a window. -/
def Guaranteed (threshold blThreshold : UInt32) : Prop :=
  ∀ byZero numRows numBanks numRanks numChannels memory as s es row,
    (BlockHammer.construct threshold numRows blThreshold numBanks numRanks numChannels memory).run byZero as =
      .ok (s,es) → Timed es → Throttled row es →
      (accessesTo row (sinceReset (·.resets) es)).length≤threshold.toNat

def zeroed : BlockHammer :=
  ⟨0,0,0,0,0,0,0,.calloc 0 0,.fresh,0,0,0,⟨0,.calloc 4 0⟩⟩

theorem guaranteed_of_below {threshold blThreshold : UInt32} (hpos : 1≤blThreshold.toNat)
    (hbelow : blThreshold.toNat+1<threshold.toNat) : Guaranteed threshold blThreshold := by
  intro byZero numRows numBanks numRanks numChannels memory as s es row hrun htimed hthrottled
  have hstart:=BlockHammer.budget_construct hpos hbelow numRows numBanks numRanks numChannels memory row
  have hdone:=BlockHammer.budget_run hpos hbelow hstart hrun (fun e _ => UInt64.zero_le)
    htimed hthrottled
  have hspare:=hdone.spare
  unfold sinceReset
  omega

theorem not_guaranteed_at_edge {threshold blThreshold : UInt32} (hpos : 1≤blThreshold.toNat)
    (hedge : blThreshold.toNat+1=threshold.toNat) : ¬Guaranteed threshold blThreshold := by
  intro h
  have hidle : BlockHammer.Idle threshold blThreshold
      (BlockHammer.construct threshold 1 blThreshold 1 1 1 zeroed) 0 :=
    ⟨rfl,rfl,Nat.one_pos,rfl,rfl⟩
  obtain ⟨s,es,hrun,hlength,hes,hthrottled⟩:=BlockHammer.idle_run hpos hedge hidle
    (Nat.le_of_eq (Nat.zero_add threshold.toNat))
  have htimed : Timed es := pairwise_iff_forall_sublist.mpr fun {e e'} hsub => by
    have hmem:=hsub.subset
    rw [(hes e (hmem (by simp))).1,(hes e' (hmem (by simp))).1]
    exact UInt64.le_refl _
  have hbound:=h _ 1 1 1 1 zeroed _ s es 0 hrun htimed hthrottled
  unfold sinceReset at hbound
  rw [foldl_push_of_no_reset (fun e he => (hes e he).2.2),nil_append,
    BlockHammer.accessesTo_all (fun e he => (hes e he).2.1),hlength] at hbound
  omega

/-- The budget holds exactly when the black list begins at least two accesses before the threshold. -/
theorem guaranteed_iff (threshold blThreshold : UInt32) (hpos : 1≤blThreshold.toNat)
    (hless : blThreshold.toNat<threshold.toNat) :
    Guaranteed threshold blThreshold ↔ blThreshold.toNat+1<threshold.toNat := by
  refine ⟨fun h => ?_,guaranteed_of_below hpos⟩
  by_contra hnot
  exact not_guaranteed_at_edge hpos (by omega) h

theorem guaranteed_hundred : Guaranteed 100 50 :=
  (guaranteed_iff 100 50 (by decide) (by decide)).mpr (by decide)

theorem not_guaranteed_two_one : ¬Guaranteed 2 1 := not_guaranteed_at_edge (by decide) (by decide)

end AquaGem5.Throttle
