import AquaGem5.Cache.TargetList

/-!
# Miss status holding registers (mshr.cc, mshr.hh)

A register holds the targets of its current request and those deferred to a later one. Other
caches reach it through `downstreamPending` only.
-/

namespace AquaGem5.Cache
open Checked

structure Mshr (blkSize : ℕ) where
  readyTime : ℕ
  order : ℕ
  inService : Bool
  downstreamPending : Bool
  pendingModified : Bool
  postInvalidate : Bool
  postDowngrade : Bool
  wasWholeLineWrite : Bool
  isForward : Bool
  targets : TargetList blkSize
  deferredTargets : TargetList blkSize

/-- What `handleSnoop` sets in the packet that was snooped. -/
structure SnoopReply where
  cacheResponding : Bool
  responderHadWritable : Bool
  satisfied : Bool
  hasSharers : Bool
  deriving DecidableEq

namespace Mshr

variable {blkSize : ℕ} (s : Mshr blkSize)

def idle : Mshr blkSize := ⟨0,0,false,false,false,false,false,false,false,TargetList.init,TargetList.init⟩

def getNumTargets : ℕ := s.targets.list.length+s.deferredTargets.list.length

def hasTargets : Bool := decide (s.targets.list≠[])

/-- `MSHRQueue::allocate` asserts that there are no targets. The block of the first target is its own. -/
def allocate (pkt : Packet blkSize) (whenReady order : ℕ) (allocOnFill : Bool) : Mshr blkSize :=
  let source := if pkt.cmd = .hardPFReq then Source.fromPrefetcher else .fromCPU
  {s with
    readyTime := whenReady
    order := order
    isForward := false
    wasWholeLineWrite := false
    inService := false
    downstreamPending := false
    targets := s.targets.resetFlags.add pkt whenReady order source true allocOnFill
    deferredTargets := s.deferredTargets.resetFlags}

/-- The part of `TargetList::clearDownstreamPending` in this register. -/
def clearTargets : Mshr blkSize :=
  {s with targets := s.targets.setList (TargetList.clearPending s.targets.list)}

def clearDownstreamPending : Except Fault (Mshr blkSize) :=
  if s.downstreamPending then .ok {s with downstreamPending := false}.clearTargets else .error .assertion

/-- What `add` does to the register of an upper cache. -/
def setDownstreamPending : Except Fault (Mshr blkSize) :=
  if s.downstreamPending then .error .assertion else .ok {s with downstreamPending := true}

def markInService (pendingModifiedResp : Bool) : Except Fault (Mshr blkSize) :=
  if s.inService then .error .assertion
  else
    let s := {s with
      inService := true
      pendingModified := s.targets.needsWritable || pendingModifiedResp
      postInvalidate := false
      postDowngrade := false}
    let s := if s.downstreamPending then s else s.clearTargets
    .ok {s with wasWholeLineWrite := s.targets.isWholeLineWrite}

def deallocate : Except Fault (Mshr blkSize) :=
  if s.targets.list≠[] then .error .assertion
  else if s.deferredTargets.isReset then .ok {s with targets := s.targets.resetFlags, inService := false}
  else .error .assertion

def defers (front : Target blkSize) (pkt : Packet blkSize) : Bool :=
  pkt.flags.isCacheMaintenance || front.pkt.flags.isCacheMaintenance || decide (s.deferredTargets.list≠[]) ||
    (s.inService&&(s.postInvalidate ||
      (pkt.needsWritable&&(!s.pendingModified || s.postDowngrade || s.isForward))))

def deferred (pkt : Packet blkSize) : Packet blkSize :=
  if s.inService&&s.postInvalidate then pkt.replaceUpgrade else pkt

def allocateTarget (pkt : Packet blkSize) (whenReady order : ℕ) (allocOnFill : Bool) :
    Except Fault (Mshr blkSize) :=
  if pkt.cmd = .hardPFReq then .error .assertion
  else match s.targets.list.head? with
    | none => .error .null
    | some front =>
      if s.defers front pkt then .ok {s with
        deferredTargets := s.deferredTargets.add (s.deferred pkt) whenReady order .fromCPU true allocOnFill}
      else .ok {s with targets := s.targets.add pkt whenReady order .fromCPU (!s.inService) allocOnFill}

def replaceUpgrades : Mshr blkSize :=
  {s with targets := s.targets.replaceUpgrades, deferredTargets := s.deferredTargets.replaceUpgrades}

def replaceDeferred : Mshr blkSize := {s with deferredTargets := s.deferredTargets.replaceUpgrades}

def snoopBehind (pkt : Packet blkSize) (order now : ℕ) : Mshr blkSize × Bool × SnoopReply :=
  let willRespond := s.pendingModified&&pkt.needsResponse && !pkt.isClean
  let replay := s.pendingModified || pkt.isInvalidate
  let cpPkt := if willRespond then pkt.copy else pkt.wholeBlock
  let targets := if replay then
      s.targets.add cpPkt now order .fromSnoop (s.downstreamPending&&s.targets.needsWritable) false
    else s.targets
  let downgrade := !pkt.needsWritable && !pkt.flags.isUncacheable
  ({s with
    targets := targets
    postInvalidate := s.postInvalidate || (replay&&(pkt.needsWritable || pkt.isInvalidate))
    postDowngrade := s.postDowngrade || downgrade},
    willRespond,
    { cacheResponding := willRespond
      responderHadWritable := willRespond
      satisfied := replay && !willRespond&&s.pendingModified&&pkt.isClean
      hasSharers := downgrade})

def noReply : SnoopReply := ⟨false,false,false,false⟩

/-- A snoop that comes after this register's request. -/
def snoopInService (pkt : Packet blkSize) (order now : ℕ) : Except Fault (Mshr blkSize × Bool × SnoopReply) :=
  match s.targets.list.head? with
  | none => .error .null
  | some front =>
    if s.postInvalidate || front.pkt.flags.isCacheInvalidate then .ok (s,true,noReply)
    else .ok (s.snoopBehind pkt order now)

def handleSnoop (pkt : Packet blkSize) (order now : ℕ) : Except Fault (Mshr blkSize × Bool × SnoopReply) :=
  let takesAway := pkt.needsWritable || pkt.flags.isCacheInvalidate
  if pkt.needsWritable≠pkt.isInvalidate ∧ ¬pkt.flags.isCacheMaintenance then .error .panic
  else if !s.inService || (pkt.isExpressSnoop&&s.downstreamPending) then
    .ok (if takesAway then s.replaceUpgrades else s,false,noReply)
  else (if takesAway then s.replaceDeferred else s).snoopInService pkt order now

/-- The targets behind the first that stay after an invalidation came with the response. -/
def kept (ts : List (Target blkSize)) : List (Target blkSize) :=
  ts.tail.filter fun t => decide (t.source = .fromCPU)

def served (ts : List (Target blkSize)) : List (Target blkSize) :=
  ts.take 1++ts.tail.filter fun t => !decide (t.source = .fromCPU)

def extractServiceableTargets (cmd : MemCmd) : Except Fault (Mshr blkSize × TargetList blkSize) :=
  if cmd = .readRespWithInvalidate then
    match s.targets.list.head? with
    | none => .error .null
    | some first =>
      if first.source = .fromSnoop then .error .assertion
      else if s.targets.list.tail.any fun t => decide (t.source = .fromPrefetcher) then .error .assertion
      else
        let ready := (TargetList.init.setList (served s.targets.list)).populateFlags
        .ok ({s with targets := (s.targets.setList (kept s.targets.list)).populateFlags},ready)
  else .ok ({s with targets := TargetList.init.populateFlags},s.targets)

def promoted (ts us : List (Target blkSize)) : List (Target blkSize) :=
  match us with
  | [] => []
  | u::_ =>
    if u.pkt.flags.isCacheMaintenance then (if ts=[] then [u] else [])
    else us.takeWhile fun t => !t.pkt.flags.isCacheMaintenance

def promoteDeferredTargets (now : ℕ) : Except Fault (Mshr blkSize × Bool) :=
  let ts := s.targets.list
  let us := s.deferredTargets.list
  if ts=[] ∧ us=[] then .ok (s,false)
  else
    let moved := promoted ts us
    let s := {s with
      targets := (s.targets.setList (ts++moved)).populateFlags
      deferredTargets := (s.deferredTargets.setList (us.drop moved.length)).populateFlags}
    match s.targets.list.head? with
    | none => .error .null
    | some front => .ok ({s with order := front.order, readyTime := max now front.readyTime},true)

/-- The predicates assert of each target they test that it is from the CPU. -/
def promoteIf (pred : Target blkSize → Bool) : Except Fault (Mshr blkSize) :=
  let moved := s.deferredTargets.list.takeWhile pred
  let rest := s.deferredTargets.list.dropWhile pred
  if s.downstreamPending then .error .assertion
  else if (moved++rest.take 1).any fun t => decide (t.source ≠ .fromCPU) then .error .assertion
  else .ok {s with
    targets := s.targets.setList (s.targets.list++TargetList.clearPending moved)
    deferredTargets := (s.deferredTargets.setList rest).populateFlags}

def readable (t : Target blkSize) : Bool := !t.pkt.flags.isCacheInvalidate && !t.pkt.needsWritable

def keepsBlock (t : Target blkSize) : Bool := !t.pkt.flags.isCacheInvalidate

def promoteReadable : Except Fault (Mshr blkSize) :=
  if s.deferredTargets.list=[] then .ok s
  else if s.inService then (if s.postInvalidate then .ok s else s.promoteIf readable)
  else .error .assertion

def promoteWritable : Except Fault (Mshr blkSize) :=
  if s.deferredTargets.needsWritable then
    if s.inService then
      if s.postInvalidate || s.postDowngrade then .ok s
      else match s.deferredTargets.list.head? with
        | none => .error .null
        | some front =>
          if front.pkt.flags.isCacheInvalidate then .ok s
          else if s.targets.needsWritable then .error .assertion
          else promoteIf {s with targets := s.targets.setFlags s.targets.writable} keepsBlock
    else .error .assertion
  else .ok s

def popTarget : Mshr blkSize := {s with targets := s.targets.setList s.targets.list.tail}

def delay (now delayTicks : ℕ) : Except Fault (Mshr blkSize) :=
  if s.readyTime≤now then .ok {s with readyTime := now+delayTicks} else .error .assertion

section Steps

variable {s} {s' : Mshr blkSize}

variable {pkt : Packet blkSize}

theorem allocateTarget_cases {whenReady order : ℕ} {allocOnFill : Bool}
    (h : s.allocateTarget pkt whenReady order allocOnFill = .ok s') :
    ∃ front,s.targets.list.head?=some front ∧ pkt.cmd ≠ .hardPFReq ∧
      (s.defers front pkt=true ∧ s'={s with
        deferredTargets := s.deferredTargets.add (s.deferred pkt) whenReady order .fromCPU true allocOnFill} ∨
      s.defers front pkt=false ∧ s'={s with
        targets := s.targets.add pkt whenReady order .fromCPU (!s.inService) allocOnFill}) := by
  unfold allocateTarget at h
  split at h
  · cases h
  · rename_i hcmd
    split at h
    · cases h
    · rename_i front hfront
      refine ⟨front,hfront,hcmd,?_⟩
      split at h
      · rename_i hdefers
        exact .inl ⟨hdefers,(Except.ok.inj h).symm⟩
      · rename_i hdefers
        exact .inr ⟨Bool.eq_false_iff.mpr hdefers,(Except.ok.inj h).symm⟩

theorem snoopInService_cases {order now : ℕ} {reply : Bool × SnoopReply}
    (h : s.snoopInService pkt order now = .ok (s',reply)) : s'=s ∨ s'=(s.snoopBehind pkt order now).1 := by
  unfold snoopInService at h
  split at h
  · cases h
  · split at h
    · cases h
      exact .inl rfl
    · cases h
      exact .inr rfl

theorem handleSnoop_cases {order now : ℕ} {reply : Bool × SnoopReply}
    (h : s.handleSnoop pkt order now = .ok (s',reply)) : ∃ s1,(s1=s ∨ s1=s.replaceUpgrades ∨ s1=s.replaceDeferred) ∧
      (s'=s1 ∨ s'=(s1.snoopBehind pkt order now).1) := by
  unfold handleSnoop at h
  split at h
  · cases h
  · split at h
    · cases h
      refine ⟨_,?_,.inl rfl⟩
      split_ifs
      · exact .inr (.inl rfl)
      · exact .inl rfl
    · refine ⟨_,?_,snoopInService_cases h⟩
      split_ifs
      · exact .inr (.inr rfl)
      · exact .inl rfl

theorem markInService_cases {pendingModifiedResp : Bool} (h : s.markInService pendingModifiedResp = .ok s') :
    s.inService=false ∧ s'.inService=true ∧ s'.deferredTargets=s.deferredTargets ∧
      s'.readyTime=s.readyTime ∧ (s'.targets=s.targets ∨ s'.targets=s.clearTargets.targets) := by
  unfold markInService at h
  split at h
  · cases h
  · rename_i hservice
    cases h
    refine ⟨Bool.eq_false_iff.mpr hservice,?_⟩
    split_ifs
    · exact ⟨rfl,rfl,rfl,.inl rfl⟩
    · exact ⟨rfl,rfl,rfl,.inr rfl⟩

theorem extract_cases {cmd : MemCmd} {ready : TargetList blkSize}
    (h : s.extractServiceableTargets cmd = .ok (s',ready)) :
    (cmd ≠ .readRespWithInvalidate ∧ ready=s.targets ∧
      s'={s with targets := TargetList.init.populateFlags}) ∨
    (cmd = .readRespWithInvalidate ∧ ready.list=served s.targets.list ∧
      (∃ first,s.targets.list.head?=some first ∧ first.source ≠ .fromSnoop) ∧
      (∀ t∈s.targets.list.tail,t.source ≠ .fromPrefetcher) ∧
      s'={s with targets := (s.targets.setList (kept s.targets.list)).populateFlags}) := by
  unfold extractServiceableTargets at h
  split at h
  · rename_i hcmd
    split at h
    · cases h
    · rename_i first hfirst
      split at h
      · cases h
      · rename_i hsource
        split at h
        · cases h
        · rename_i hany
          cases h
          refine .inr ⟨hcmd,rfl,⟨first,hfirst,hsource⟩,?_,rfl⟩
          intro t ht hpf
          exact hany (List.any_eq_true.mpr ⟨t,ht,decide_eq_true hpf⟩)
  · rename_i hcmd
    cases h
    exact .inl ⟨hcmd,rfl,rfl⟩

theorem promoteDeferredTargets_cases {now : ℕ} {result : Bool}
    (h : s.promoteDeferredTargets now = .ok (s',result)) :
    (s.targets.list=[] ∧ s.deferredTargets.list=[] ∧ s'=s ∧ result=false) ∨
    (result=true ∧ ∃ front,
      (s.targets.list++promoted s.targets.list s.deferredTargets.list).head?=some front ∧
      s'={s with
        targets := (s.targets.setList
          (s.targets.list++promoted s.targets.list s.deferredTargets.list)).populateFlags
        deferredTargets := (s.deferredTargets.setList (s.deferredTargets.list.drop
          (promoted s.targets.list s.deferredTargets.list).length)).populateFlags
        order := front.order
        readyTime := max now front.readyTime}) := by
  unfold promoteDeferredTargets at h
  simp only at h
  split at h
  · rename_i hempty
    cases h
    exact .inl ⟨hempty.1,hempty.2,rfl,rfl⟩
  · split at h
    · cases h
    · rename_i front hfront
      cases h
      exact .inr ⟨rfl,front,hfront,rfl⟩

theorem promoteIf_cases {pred : Target blkSize → Bool} (h : s.promoteIf pred = .ok s') :
    (∀ t∈s.deferredTargets.list.takeWhile pred,t.source = .fromCPU) ∧ s'={s with
      targets := s.targets.setList (s.targets.list++TargetList.clearPending (s.deferredTargets.list.takeWhile pred))
      deferredTargets := (s.deferredTargets.setList (s.deferredTargets.list.dropWhile pred)).populateFlags} := by
  unfold promoteIf at h
  simp only at h
  split at h
  · cases h
  · split at h
    · cases h
    · rename_i hany
      refine ⟨fun t ht => ?_,(Except.ok.inj h).symm⟩
      by_contra hsource
      exact hany (List.any_eq_true.mpr ⟨t,List.mem_append_left _ ht,decide_eq_true hsource⟩)

theorem promoteReadable_cases (h : s.promoteReadable = .ok s') :
    s'=s ∨ s.deferredTargets.list≠[] ∧ s.postInvalidate=false ∧ s.promoteIf readable = .ok s' := by
  unfold promoteReadable at h
  split at h
  · cases h
    exact .inl rfl
  · rename_i hempty
    split at h
    · split at h
      · cases h
        exact .inl rfl
      · rename_i hpost
        exact .inr ⟨hempty,Bool.eq_false_iff.mpr hpost,h⟩
    · cases h

theorem promoteWritable_cases (h : s.promoteWritable = .ok s') :
    s'=s ∨ s.deferredTargets.needsWritable=true ∧ s.postInvalidate=false ∧ s.postDowngrade=false ∧
      (∀ t,s.deferredTargets.list.head?=some t → keepsBlock t=true) ∧
      promoteIf {s with targets := s.targets.setFlags s.targets.writable} keepsBlock = .ok s' := by
  unfold promoteWritable at h
  split at h
  · rename_i hneeds
    split at h
    · split at h
      · cases h
        exact .inl rfl
      · rename_i hpost
        rw [Bool.or_eq_true,not_or] at hpost
        split at h
        · cases h
        · rename_i front hfront
          split at h
          · cases h
            exact .inl rfl
          · rename_i hinvalidate
            split at h
            · cases h
            · refine .inr ⟨hneeds,Bool.eq_false_iff.mpr hpost.1,Bool.eq_false_iff.mpr hpost.2,?_,h⟩
              intro t ht
              obtain rfl : front=t := Option.some.inj (hfront.symm.trans ht)
              simpa [keepsBlock] using hinvalidate
    · cases h
  · cases h
    exact .inl rfl

end Steps

end Mshr

end AquaGem5.Cache
