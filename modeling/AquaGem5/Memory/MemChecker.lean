import AquaGem5.Lib.Checked
import AquaGem5.Lib.Register

/-!
# The checker of reads (mem_checker.hh, mem_checker.cc)

The tracker of a byte. A list that the source appends to is given newest first, so that it is scanned from its head, and
the unordered map of a cluster is the list of its writes.
-/

namespace AquaGem5.Memory.MemChecker
open Checked

inductive Fault where
  | assertion
  deriving DecidableEq

def TICK_INITIAL : ℕ := 0

def TICK_FUTURE : ℕ := 2^64-1

structure Transaction where
  serial : ℕ
  start : ℕ
  complete : ℕ
  data : UInt8
  deriving DecidableEq

structure WriteCluster where
  start : ℕ
  complete : ℕ
  writes : List Transaction
  completeMax : ℕ
  numIncomplete : ℕ
  deriving DecidableEq

namespace WriteCluster

def new : WriteCluster := ⟨TICK_FUTURE,TICK_FUTURE,[],TICK_INITIAL,0⟩

variable (c : WriteCluster)

def isComplete : Bool := c.complete != TICK_FUTURE

/-- An insertion into the map, which keeps a write that has the serial already. -/
def insert (w : Transaction) : WriteCluster :=
  if c.writes.any (·.serial=w.serial) then c else {c with writes := w::c.writes}

def startWrite (serial start : ℕ) (data : UInt8) : Except Fault WriteCluster := do
  check (c.isComplete=false) .assertion
  let c := if c.start=TICK_FUTURE then {c with start := start} else c
  check (c.start ≤ start) .assertion
  let c := {c with numIncomplete := c.numIncomplete+1}
  -- reopens a closed cluster, which the first check excludes
  check (c.complete≠TICK_FUTURE → start<c.complete) .assertion
  .ok ({c with complete := TICK_FUTURE}.insert ⟨serial,start,TICK_FUTURE,data⟩)

def setComplete (serial complete : ℕ) : WriteCluster :=
  {c with
    writes := c.writes.map fun w => if w.serial=serial then {w with complete := complete} else w
    completeMax := if c.completeMax<complete then complete else c.completeMax
    numIncomplete := c.numIncomplete-1}

def completeWrite (serial complete : ℕ) : Except Fault WriteCluster :=
  match c.writes.find? (·.serial=serial) with
  | none => .ok c
  | some w => do
    check (w.complete=TICK_FUTURE) .assertion
    let c := c.setComplete serial complete
    .ok (if c.numIncomplete=0 then {c with complete := c.completeMax} else c)

def erase (serial : ℕ) : WriteCluster :=
  {c with writes := c.writes.filter (·.serial≠serial), numIncomplete := c.numIncomplete-1}

def abortWrite (serial : ℕ) : WriteCluster :=
  if c.writes.any (·.serial=serial) then
    let c := c.erase serial
    if c.numIncomplete=0 ∧ c.writes≠[] then {c with complete := c.completeMax} else c
  else c

end WriteCluster

/-- The elements from the one on that `lastCompletedTransaction` finds: the newest one that completed before the tick,
else the oldest. -/
def fromLastCompleted {α : Type} (complete : α → ℕ) (before : ℕ) : List α → List α
  | [] => []
  | [x] => [x]
  | x::older => if before≤complete x then x::fromLastCompleted complete before older else [x]

def lastCompletedTransaction {α : Type} (complete : α → ℕ) (l : List α) (before : ℕ) : Except Fault α :=
  match (fromLastCompleted complete before l).getLast? with
  | none => .error .assertion
  | some x => .ok x

/-- The flags of `inExpectedData`, whether a write matches, and the data that did not. -/
structure Scan where
  matched : Bool
  wcOverlap : Bool
  lastObsValid : Bool
  expected : List UInt8
  deriving DecidableEq

section
variable (lastObs : Transaction) (start : ℕ) (data : UInt8)

def scanWrites : List Transaction → Scan → Scan
  | [],s => s
  | write::writes,s =>
    if write.complete<lastObs.start then scanWrites writes s
    else if write.data=data then {s with matched := true}
    else
      let s := {s with expected := s.expected++[write.data]}
      if start<write.complete then scanWrites writes s
      else
        let s := {s with wcOverlap := false}
        scanWrites writes (if lastObs.complete<write.start then {s with lastObsValid := false} else s)

def scanClusters : List WriteCluster → Scan → Scan
  | [],s => s
  | c::older,s =>
    if s.wcOverlap then
      let s := scanWrites lastObs start data c.writes s
      if s.matched then s else scanClusters older s
    else s

end

structure ByteTracker where
  outstandingReads : List Transaction
  readObservations : List Transaction
  writeClusters : List WriteCluster
  lastExpectedData : List UInt8
  deriving DecidableEq

def insertRead (r : Transaction) : List Transaction → List Transaction
  | [] => [r]
  | r'::reads =>
    if r.serial<r'.serial then r::r'::reads
    else if r.serial=r'.serial then r'::reads
    else r'::insertRead r reads

namespace ByteTracker

def new : ByteTracker := ⟨[],[⟨0,TICK_INITIAL,TICK_INITIAL,0⟩],[],[]⟩

variable (t : ByteTracker)

def startRead (serial start : ℕ) : ByteTracker :=
  {t with outstandingReads := insertRead ⟨serial,start,TICK_FUTURE,0⟩ t.outstandingReads}

/-- The end of `inExpectedData`, when no write has matched. -/
def confirm (lastObs : Transaction) (start complete : ℕ) (data : UInt8) (s : Scan) : Except Fault (Bool × List UInt8) :=
  let rest (expected : List UInt8) : Except Fault (Bool × List UInt8) :=
    if expected=[] then do
      check (lastObs.complete=TICK_INITIAL) .assertion
      .ok (true,expected)
    else .ok (false,expected)
  if s.lastObsValid then do
    check (lastObs.complete ≤ start) .assertion
    if lastObs.data=data then .ok (true,s.expected) else rest (s.expected++[lastObs.data])
  else
    match t.writeClusters.getLast?,t.writeClusters.head? with
    | some oldest,some newest =>
      if s.wcOverlap then do
        check (oldest.start<complete ∧ start<newest.complete) .assertion
        .ok (true,s.expected)
      else rest s.expected
    | _,_ => rest s.expected

def inExpectedData (start complete : ℕ) (data : UInt8) : Except Fault (Bool × List UInt8) := do
  let lastObs ← lastCompletedTransaction Transaction.complete t.readObservations start
  let s := scanClusters lastObs start data t.writeClusters ⟨false,true,lastObs.complete != TICK_INITIAL,[]⟩
  if s.matched then .ok (true,s.expected) else t.confirm lastObs start complete data s

def firstOutstanding (curTick : ℕ) : ℕ := (t.outstandingReads.head?.map (·.start)).getD curTick

def pruneTransactions (curTick : ℕ) : Except Fault ByteTracker := do
  let before := t.firstOutstanding curTick
  check (t.readObservations≠[]) .assertion
  .ok {t with
    readObservations := fromLastCompleted Transaction.complete before t.readObservations
    writeClusters := fromLastCompleted WriteCluster.complete before t.writeClusters}

def completeRead (serial complete : ℕ) (data : UInt8) (curTick : ℕ) : Except Fault (Bool × ByteTracker) :=
  match t.outstandingReads.find? (·.serial=serial) with
  | none => .ok (true,t)
  | some r => do
    let t := {t with outstandingReads := t.outstandingReads.filter (·.serial≠serial)}
    let (result,expected) ← t.inExpectedData r.start complete data
    let t := {t with
      readObservations := ⟨serial,r.start,complete,data⟩::t.readObservations
      lastExpectedData := expected}
    let t ← t.pruneTransactions curTick
    .ok (result,t)

/-- The newest cluster, a new one when the last is complete, and the older ones. -/
def getIncompleteWriteCluster : WriteCluster × List WriteCluster :=
  match t.writeClusters with
  | [] => (.new,[])
  | c::older => if c.isComplete then (.new,c::older) else (c,older)

def startWrite (serial start : ℕ) (data : UInt8) : Except Fault ByteTracker := do
  let (c,older) := t.getIncompleteWriteCluster
  let c ← c.startWrite serial start data
  .ok {t with writeClusters := c::older}

def completeWrite (serial complete curTick : ℕ) : Except Fault ByteTracker := do
  let (c,older) := t.getIncompleteWriteCluster
  let c ← c.completeWrite serial complete
  {t with writeClusters := c::older}.pruneTransactions curTick

def abortWrite (serial : ℕ) : ByteTracker :=
  let (c,older) := t.getIncompleteWriteCluster
  {t with writeClusters := c.abortWrite serial::older}

end ByteTracker

/-!
## Histories of a byte

A history lists the calls of the tracker of a byte, the last one first. Each call is made at the current tick.
-/

open Register List

inductive Call where
  | startRead (serial start : ℕ)
  | completeRead (serial complete : ℕ) (data : UInt8)
  | startWrite (serial start : ℕ) (data : UInt8)
  | completeWrite (serial complete : ℕ)
  | abortWrite (serial tick : ℕ)
  deriving DecidableEq

namespace Call

def serial : Call → ℕ
  | startRead s _ => s
  | completeRead s _ _ => s
  | startWrite s _ _ => s
  | completeWrite s _ => s
  | abortWrite s _ => s

def tick : Call → ℕ
  | startRead _ k => k
  | completeRead _ k _ => k
  | startWrite _ k _ => k
  | completeWrite _ k => k
  | abortWrite _ k => k

def starts : Call → Bool
  | startRead _ _ => true
  | startWrite _ _ _ => true
  | _ => false

end Call

/-- The result of the call, which is that of `completeRead`, and the new tracker. -/
def ByteTracker.exec (t : ByteTracker) : Call → Except Fault (Bool × ByteTracker)
  | .startRead s k => .ok (true,t.startRead s k)
  | .completeRead s k d => t.completeRead s k d k
  | .startWrite s k d => (t.startWrite s k d).map fun t => (true,t)
  | .completeWrite s k => (t.completeWrite s k k).map fun t => (true,t)
  | .abortWrite s _ => .ok (true,t.abortWrite s)

def run : List Call → Except Fault ByteTracker
  | [] => .ok .new
  | c::past => do
    let t ← run past
    let r ← t.exec c
    .ok r.2

def answer (past : List Call) (c : Call) : Except Fault Bool := do
  let t ← run past
  let r ← t.exec c
  .ok r.1

/-- No call raises a fault, and the result of each completed read satisfies `Q`. -/
structure Answers (calls : List Call) (Q : List Call → UInt8 → Bool → Prop) : Prop where
  runs : ∃ t, run calls = .ok t
  reads : ∀ later s k d past, calls=later ++ .completeRead s k d::past →
    ∃ result, answer past (.completeRead s k d) = .ok result ∧ Q past d result

def Finished (past : List Call) (s : ℕ) : Prop := ∃ c∈past, c.serial=s ∧ c.starts=false

/-- A new transaction gets a greater serial, and one that ends has been started and not ended. -/
def Next (past : List Call) : Call → Prop
  | .startRead s _ => ∀ b∈past, b.serial<s
  | .startWrite s _ _ => ∀ b∈past, b.serial<s
  | .completeRead s _ _ => (∃ k, .startRead s k∈past) ∧ ¬Finished past s
  | .completeWrite s _ => (∃ k d, .startWrite s k d∈past) ∧ ¬Finished past s
  | .abortWrite s _ => (∃ k d, .startWrite s k d∈past) ∧ ¬Finished past s

def Formed (n : ℕ) : List Call → Prop
  | [] => True
  | c::past => (∀ b∈past, b.tick<c.tick) ∧ c.tick<n ∧ Next past c ∧ Formed n past

/-- Each completed read has a point between its start and its completion where the register holds what it returns. -/
structure Linearized (calls : List Call) (o : Placement ℕ UInt8) : Prop where
  started : ∀ s, o.effective s → ∃ (k : ℕ) (d : UInt8), .startWrite s k d∈calls ∧ k<o.point s
  completed : ∀ s (k : ℕ), .completeWrite s k∈calls → o.effective s ∧ o.point s<k
  aborted : ∀ s k, .abortWrite s k∈calls → ¬o.effective s
  distinct : o.Distinct
  value : ∀ s k d, .startWrite s k d∈calls → o.value s=d
  read : ∀ s (k k' : ℕ) d, .startRead s k∈calls → .completeRead s k' d∈calls → ∃ p : ℚ, k<p ∧ p<k' ∧ o.Holds p d

def Sequential (calls : List Call) : Prop :=
  ∀ later c past, calls=later++c::past → c.starts=true → ∀ b∈past, b.starts=true → Finished past b.serial

def written (s : ℕ) : List Call → Option UInt8
  | [] => none
  | .startWrite s' _ d::past => if s'=s then some d else written s past
  | _::past => written s past

def latest : List Call → Option UInt8
  | [] => none
  | .completeRead _ _ d::_ => some d
  | .completeWrite s _::past => written s past
  | _::past => latest past

variable {n m : ℕ} {past later calls : List Call} {b b' c : Call} {s k e : ℕ} {d : UInt8}

theorem Formed.of_append (h : Formed n (later++past)) : Formed n past := by
  induction later with
  | nil => exact h
  | cons c later ih => exact ih h.2.2.2

theorem Formed.tick_lt (h : Formed n past) (hb : b∈past) : b.tick<n := by
  induction past with
  | nil => exact (not_mem_nil hb).elim
  | cons c past ih =>
    rcases mem_cons.mp hb with rfl | hb
    · exact h.2.1
    · exact ih h.2.2.2 hb

theorem Formed.lower (h : Formed n past) (hm : ∀ b∈past, b.tick < m) : Formed m past := by
  induction past with
  | nil => exact trivial
  | cons c past ih =>
    obtain ⟨ht,_,hn,hpast⟩:=h
    exact ⟨ht,hm c (mem_cons_self ..),hn,ih hpast fun b hb => hm b (mem_cons_of_mem _ hb)⟩

theorem Formed.mem_past (h : Formed n (later++c::past)) (hb : b∈later++c::past) (hlt : b.tick<c.tick) : b∈past := by
  induction later with
  | nil =>
    rcases mem_cons.mp hb with rfl | hb
    · exact (lt_irrefl _ hlt).elim
    · exact hb
  | cons a later ih =>
    rcases mem_cons.mp hb with rfl | hb
    · have ha:=h.1 c (mem_append_right _ (mem_cons_self ..))
      omega
    · exact ih h.2.2.2 hb

theorem Formed.unique (h : Formed n calls) (hb : b∈calls) (hb' : b'∈calls) (hs : b.serial=b'.serial)
    (hk : b.starts=b'.starts) : b=b' := by
  induction calls with
  | nil => exact (not_mem_nil hb).elim
  | cons c past ih =>
    obtain ⟨_,_,hn,hpast⟩:=h
    -- the head cannot be a second start or end of an earlier transaction
    have hhead : ∀ a∈past, a.serial=c.serial → a.starts=c.starts → False := fun a ha hs hk => by
      cases c with
      | startRead s k | startWrite s k d => exact (Nat.ne_of_lt (hn a ha)) hs
      | completeRead s k d | completeWrite s k | abortWrite s k => exact hn.2 ⟨a,ha,hs,hk⟩
    rcases mem_cons.mp hb with rfl | hb
    · rcases mem_cons.mp hb' with rfl | hb'
      · rfl
      · exact (hhead b' hb' hs.symm hk.symm).elim
    · rcases mem_cons.mp hb' with he | hb'
      · exact (hhead b hb (he ▸ hs) (he ▸ hk)).elim
      · exact ih hpast hb hb'

theorem Formed.read_started (h : Formed n calls) (hc : .completeRead s e d∈calls) : ∃ k<e, .startRead s k∈calls := by
  induction calls with
  | nil => exact (not_mem_nil hc).elim
  | cons c past ih =>
    obtain ⟨ht,_,hn,hpast⟩:=h
    rcases mem_cons.mp hc with rfl | hc
    · obtain ⟨⟨k,hk⟩,_⟩:=hn
      exact ⟨k,ht _ hk,mem_cons_of_mem _ hk⟩
    · obtain ⟨k,hlt,hk⟩:=ih hpast hc
      exact ⟨k,hlt,mem_cons_of_mem _ hk⟩

theorem Formed.write_started (h : Formed n calls) (hc : .completeWrite s e∈calls) :
    ∃ k<e, ∃ d, .startWrite s k d∈calls := by
  induction calls with
  | nil => exact (not_mem_nil hc).elim
  | cons c past ih =>
    obtain ⟨ht,_,hn,hpast⟩:=h
    rcases mem_cons.mp hc with rfl | hc
    · obtain ⟨⟨k,d,hk⟩,_⟩:=hn
      exact ⟨k,ht _ hk,d,mem_cons_of_mem _ hk⟩
    · obtain ⟨k,hlt,d,hk⟩:=ih hpast hc
      exact ⟨k,hlt,d,mem_cons_of_mem _ hk⟩

theorem Formed.read_lt (hf : Formed n past) (hs : .startRead s k∈past) (hd : .completeRead s e d∈past) : k<e := by
  obtain ⟨k1,hlt,hs'⟩:=hf.read_started hd
  exact (Call.startRead.inj (hf.unique hs hs' rfl rfl)).2 ▸ hlt

theorem Formed.eq_of_tick (hf : Formed n past) (hb : b∈past) (hb' : b'∈past) (ht : b.tick=b'.tick) : b=b' := by
  induction past with
  | nil => exact (not_mem_nil hb).elim
  | cons c past ih =>
    rcases mem_cons.mp hb with hbc | hb
    · rcases mem_cons.mp hb' with hbc' | hb'
      · exact hbc.trans hbc'.symm
      · have hlt:=hf.1 b' hb'
        rw [← hbc] at hlt
        omega
    · rcases mem_cons.mp hb' with hbc' | hb'
      · have hlt:=hf.1 b hb
        rw [← hbc'] at hlt
        omega
      · exact ih hf.2.2.2 hb hb'

end AquaGem5.Memory.MemChecker
