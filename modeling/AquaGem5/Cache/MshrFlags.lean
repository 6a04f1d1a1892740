import AquaGem5.Cache.Mshr

/-!
# The flags of both target lists over a run

Additions, snoops and upgrades keep the flags.
-/

namespace AquaGem5.Cache
open Checked TargetFlags
namespace Mshr

variable {blkSize : ℕ}

inductive Op (blkSize : ℕ) where
  | allocate (pkt : Packet blkSize) (whenReady order : ℕ) (allocOnFill : Bool)
  | allocateTarget (pkt : Packet blkSize) (whenReady order : ℕ) (allocOnFill : Bool)
  | handleSnoop (pkt : Packet blkSize) (order now : ℕ)
  | markInService (pendingModifiedResp : Bool)
  | promoteReadable
  | promoteWritable
  | extractServiceableTargets (cmd : MemCmd)
  | promoteDeferredTargets (now : ℕ)
  | deallocate
  | setForward (isForward : Bool)
  | setDownstreamPending
  | clearDownstreamPending

def exec (s : Mshr blkSize) : Op blkSize → Except Fault (Mshr blkSize)
  | .allocate pkt whenReady order allocOnFill =>
    if s.getNumTargets=0 then .ok (s.allocate pkt whenReady order allocOnFill) else .error .assertion
  | .allocateTarget pkt whenReady order allocOnFill => s.allocateTarget pkt whenReady order allocOnFill
  | .handleSnoop pkt order now => (s.handleSnoop pkt order now).map fun r => r.1
  | .markInService pendingModifiedResp => s.markInService pendingModifiedResp
  | .promoteReadable => s.promoteReadable
  | .promoteWritable => s.promoteWritable
  | .extractServiceableTargets cmd => (s.extractServiceableTargets cmd).map fun r => r.1
  | .promoteDeferredTargets now => (s.promoteDeferredTargets now).map fun r => r.1
  | .deallocate => s.deallocate
  | .setForward isForward => .ok {s with isForward := isForward}
  | .setDownstreamPending => s.setDownstreamPending
  | .clearDownstreamPending => s.clearDownstreamPending

/-- The first target is no special write of the whole line. -/
def PlainFirst (ts : List (Target blkSize)) : Prop := ∀ t,ts.head?=some t → ¬t.SpecialLine

/-- What the targets that a promotion moves must add for the flags `f`, and what it leaves. -/
def MovesPlainly (s : Mshr blkSize) (f : TargetFlags blkSize) (pred : Target blkSize → Bool) : Prop :=
  (∀ t∈s.deferredTargets.list.takeWhile pred,f.Covers t) ∧ PlainFirst (s.deferredTargets.list.dropWhile pred)

/-- The steps that leave the flags of both lists right. -/
def Flagged (s : Mshr blkSize) : Op blkSize → Prop
  | .extractServiceableTargets cmd => cmd = .readRespWithInvalidate → PlainFirst (kept s.targets.list)
  | .promoteDeferredTargets _ =>
    PlainFirst (s.targets.list++promoted s.targets.list s.deferredTargets.list) ∧
      PlainFirst (s.deferredTargets.list.drop (promoted s.targets.list s.deferredTargets.list).length)
  | .promoteReadable =>
    s.deferredTargets.list≠[] → s.postInvalidate=false → s.MovesPlainly s.targets.toTargetFlags readable
  | .promoteWritable =>
    s.deferredTargets.needsWritable=true → s.postInvalidate=false → s.postDowngrade=false →
      (∀ t,s.deferredTargets.list.head?=some t → keepsBlock t=true) →
      s.MovesPlainly s.targets.writable keepsBlock ∧
        ∃ t∈s.deferredTargets.list.takeWhile keepsBlock,t.pkt.needsWritable=true
  | _ => True

inductive Run (blkSize : ℕ) (cond : Mshr blkSize → Op blkSize → Prop) : Mshr blkSize → Prop
  | start (pkt : Packet blkSize) (whenReady order : ℕ) (allocOnFill : Bool) :
      Run blkSize cond (idle.allocate pkt whenReady order allocOnFill)
  | step {s s' : Mshr blkSize} {c : Op blkSize} : Run blkSize cond s → cond s c → s.exec c = .ok s' → Run blkSize cond s'

structure Flags (s : Mshr blkSize) : Prop where
  targets : s.targets.Keeps
  deferredTargets : s.deferredTargets.Keeps

variable {s s' : Mshr blkSize}

theorem flags_allocate (h : s.getNumTargets=0) (pkt : Packet blkSize) (whenReady order : ℕ) (allocOnFill : Bool) :
    Flags (s.allocate pkt whenReady order allocOnFill) := by
  unfold getNumTargets at h
  have htargets : s.targets.list=[] := List.eq_nil_of_length_eq_zero (by omega)
  have hdeferred : s.deferredTargets.list=[] := List.eq_nil_of_length_eq_zero (by omega)
  exact ⟨(TargetList.keeps_reset htargets).add ..,TargetList.keeps_reset hdeferred⟩

theorem Flags.clearTargets (h : Flags s) : Flags s.clearTargets :=
  ⟨h.targets.map fun _ => ⟨rfl,rfl,rfl⟩,h.deferredTargets⟩

theorem Flags.allocateTarget (h : Flags s) {pkt : Packet blkSize} {whenReady order : ℕ} {allocOnFill : Bool}
    (hrun : s.allocateTarget pkt whenReady order allocOnFill = .ok s') : Flags s' := by
  obtain ⟨_,_,_,⟨_,rfl⟩ | ⟨_,rfl⟩⟩:=allocateTarget_cases hrun
  · exact ⟨h.targets,h.deferredTargets.add ..⟩
  · exact ⟨h.targets.add ..,h.deferredTargets⟩

theorem Flags.snoopBehind (h : Flags s) (pkt : Packet blkSize) (order now : ℕ) :
    Flags (s.snoopBehind pkt order now).1 := by
  refine ⟨?_,h.deferredTargets⟩
  simp only [Mshr.snoopBehind]
  split_ifs
  · exact h.targets.add ..
  · exact h.targets.add ..
  · exact h.targets

theorem Flags.handleSnoop (h : Flags s) {pkt : Packet blkSize} {order now : ℕ} {reply : Bool × SnoopReply}
    (hrun : s.handleSnoop pkt order now = .ok (s',reply)) : Flags s' := by
  obtain ⟨s1,hfirst,hlast⟩:=handleSnoop_cases hrun
  have h1 : Flags s1 := by
    rcases hfirst with rfl | rfl | rfl
    · exact h
    · exact ⟨h.targets.replaceUpgrades,h.deferredTargets.replaceUpgrades⟩
    · exact ⟨h.targets,h.deferredTargets.replaceUpgrades⟩
  rcases hlast with rfl | rfl
  · exact h1
  · exact h1.snoopBehind pkt order now

theorem Flags.markInService (h : Flags s) {pendingModifiedResp : Bool}
    (hrun : s.markInService pendingModifiedResp = .ok s') : Flags s' := by
  obtain ⟨_,_,hdeferred,_,htargets⟩:=markInService_cases hrun
  refine ⟨?_,hdeferred ▸ h.deferredTargets⟩
  rcases htargets with htargets | htargets
  · exact htargets ▸ h.targets
  · exact htargets ▸ h.clearTargets.targets

theorem Flags.extract (h : Flags s) {cmd : MemCmd} {ready : TargetList blkSize}
    (hrun : s.extractServiceableTargets cmd = .ok (s',ready))
    (hplain : cmd = .readRespWithInvalidate → PlainFirst (kept s.targets.list)) : Flags s' := by
  obtain ⟨_,_,rfl⟩ | ⟨hcmd,_,_,_,rfl⟩:=extract_cases hrun
  · refine ⟨TargetList.keeps_populateFlags ?_,h.deferredTargets⟩
    intro t ht
    cases ht
  · exact ⟨TargetList.keeps_populateFlags (hplain hcmd),h.deferredTargets⟩

theorem Flags.promoteDeferredTargets (h : Flags s) {now : ℕ} {result : Bool}
    (hrun : s.promoteDeferredTargets now = .ok (s',result))
    (hplain : Flagged s (.promoteDeferredTargets now)) : Flags s' := by
  obtain ⟨_,_,rfl,_⟩ | ⟨_,_,_,rfl⟩:=promoteDeferredTargets_cases hrun
  · exact h
  · exact ⟨TargetList.keeps_populateFlags hplain.1,TargetList.keeps_populateFlags hplain.2⟩

theorem agrees_clearPending {f : TargetFlags blkSize} {ts us : List (Target blkSize)}
    (h : f.Agrees (TargetList.rebuild (ts++us)).toTargetFlags) :
    f.Agrees (TargetList.rebuild (ts++TargetList.clearPending us)).toTargetFlags := by
  have hsame:=TargetList.rebuild_flags_congr
    (m := fun t : Target blkSize => {t with markedPending := false}) (fun _ => ⟨rfl,rfl,rfl⟩) us ts
  rw [TargetList.clearPending,hsame]
  exact h

theorem Flags.promoteReadable (h : Flags s) (hrun : s.promoteReadable = .ok s')
    (hplain : Flagged s .promoteReadable) : Flags s' := by
  rcases promoteReadable_cases hrun with rfl | ⟨hempty,hpost,hmove⟩
  · exact h
  · obtain ⟨hcovers,hrest⟩:=hplain hempty hpost
    obtain ⟨hcpu,rfl⟩:=promoteIf_cases hmove
    exact ⟨agrees_clearPending (TargetList.agrees_append h.targets hcpu hcovers),TargetList.keeps_populateFlags hrest⟩

theorem Flags.promoteWritable (h : Flags s) (hrun : s.promoteWritable = .ok s')
    (hplain : Flagged s .promoteWritable) : Flags s' := by
  rcases promoteWritable_cases hrun with rfl | ⟨hneeds,hpost,hdowngrade,hfront,hmove⟩
  · exact h
  · obtain ⟨⟨hcovers,hrest⟩,hsome⟩:=hplain hneeds hpost hdowngrade hfront
    obtain ⟨hcpu,rfl⟩:=promoteIf_cases hmove
    exact ⟨agrees_clearPending (TargetList.agrees_append_writable h.targets hcpu hcovers hsome),
      TargetList.keeps_populateFlags hrest⟩

theorem map_fst_ok {α : Type} {m : Except Fault (Mshr blkSize × α)} (h : (m.map fun r => r.1) = .ok s') :
    ∃ a,m = .ok (s',a) := by
  cases m with
  | error e => cases h
  | ok r =>
    cases h
    exact ⟨r.2,rfl⟩

theorem Flags.exec (h : Flags s) {c : Op blkSize} (hc : Flagged s c) (hrun : s.exec c = .ok s') : Flags s' := by
  cases c with
  | allocate pkt whenReady order allocOnFill =>
    simp only [Mshr.exec] at hrun
    split at hrun
    · rename_i hnone
      cases hrun
      exact flags_allocate hnone pkt whenReady order allocOnFill
    · cases hrun
  | allocateTarget pkt whenReady order allocOnFill => exact h.allocateTarget hrun
  | handleSnoop pkt order now =>
    obtain ⟨_,hrun⟩:=map_fst_ok hrun
    exact h.handleSnoop hrun
  | markInService pendingModifiedResp => exact h.markInService hrun
  | promoteReadable => exact h.promoteReadable hrun hc
  | promoteWritable => exact h.promoteWritable hrun hc
  | extractServiceableTargets cmd =>
    obtain ⟨_,hrun⟩:=map_fst_ok hrun
    exact h.extract hrun hc
  | promoteDeferredTargets now =>
    obtain ⟨_,hrun⟩:=map_fst_ok hrun
    exact h.promoteDeferredTargets hrun hc
  | deallocate =>
    simp only [Mshr.exec,Mshr.deallocate] at hrun
    split at hrun
    · cases hrun
    · rename_i hempty
      split at hrun
      · cases hrun
        exact ⟨TargetList.keeps_reset (Classical.not_not.mp hempty),h.deferredTargets⟩
      · cases hrun
  | setForward isForward =>
    cases hrun
    exact ⟨h.targets,h.deferredTargets⟩
  | setDownstreamPending =>
    simp only [Mshr.exec,Mshr.setDownstreamPending] at hrun
    split at hrun
    · cases hrun
    · cases hrun
      exact ⟨h.targets,h.deferredTargets⟩
  | clearDownstreamPending =>
    simp only [Mshr.exec,Mshr.clearDownstreamPending] at hrun
    split at hrun
    · cases hrun
      exact ⟨h.clearTargets.targets,h.deferredTargets⟩
    · cases hrun

theorem Run.flags (h : Run blkSize Flagged s) : Flags s := by
  induction h with
  | start pkt whenReady order allocOnFill => exact flags_allocate rfl pkt whenReady order allocOnFill
  | step _ hc hrun ih => exact ih.exec hc hrun

theorem run_coherent (h : Run blkSize Flagged s) : s.targets.Coherent ∧ s.deferredTargets.Coherent :=
  ⟨h.flags.targets.coherent,h.flags.deferredTargets.coherent⟩

def cleanLine : Packet 64 where
  cmd := .cleanSharedReq
  flags := {RequestFlags.none with clean := true}
  addr := 0
  size := 64
  senderMSHR := false
  isExpressSnoop := false
  request := rfl
  inside := by decide

def readWord : Packet 64 where
  cmd := .readReq
  flags := RequestFlags.none
  addr := 0
  size := 8
  senderMSHR := false
  isExpressSnoop := false
  request := rfl
  inside := by decide

def cleanThenRead (allocOnFill : Bool) : Except Fault (Mshr 64) := do
  let s ← (idle.allocate cleanLine 0 0 allocOnFill).markInService false
  s.allocateTarget readWord 0 1 true

theorem cleanThenRead_run {allocOnFill : Bool} {s s' : Mshr 64} {cond : Mshr 64 → Op 64 → Prop}
    (hservice : ∀ s,cond s (.markInService false)) (hread : ∀ s,cond s (.allocateTarget readWord 0 1 true))
    (hlast : cond s .promoteReadable)
    (hrun : cleanThenRead allocOnFill = .ok s) (hmove : s.promoteReadable = .ok s') : Run 64 cond s' := by
  obtain ⟨s1,h1,h2⟩:=bind_ok hrun
  have hstart : Run 64 cond (idle.allocate cleanLine 0 0 allocOnFill) := .start cleanLine 0 0 allocOnFill
  exact ((hstart.step (hservice _) h1).step (hread _) h2).step hlast hmove

theorem run_coherent_cleanThenRead : ∃ s,Run 64 Flagged s ∧ s.targets.list.length=2 ∧
    s.targets.Coherent ∧ s.deferredTargets.Coherent := by
  have hrun : ∃ s s',cleanThenRead true = .ok s ∧ s.promoteReadable = .ok s' ∧ s'.targets.list.length=2 ∧
      s.deferredTargets.list.takeWhile readable=s.deferredTargets.list ∧
      s.deferredTargets.list.map (·.pkt.cmd)=[.readReq] ∧
      s.targets.allocOnFill=true ∧ s.targets.canMergeWrites=false := ⟨_,_,rfl,rfl,rfl,rfl,rfl,rfl,rfl⟩
  obtain ⟨s,s',hrun,hmove,hlen,hall,hcmds,halloc,hmerge⟩:=hrun
  have hread : ∀ t∈s.deferredTargets.list,t.pkt.cmd = .readReq := by
    intro t ht
    have hmem : t.pkt.cmd∈s.deferredTargets.list.map (·.pkt.cmd) := List.mem_map_of_mem ht
    simpa [hcmds] using hmem
  have hplain : Flagged s .promoteReadable := by
    intro _ _
    rw [MovesPlainly,hall]
    refine ⟨fun t ht => ?_,?_⟩
    · have hcmd:=hread t ht
      refine ⟨?_,?_,fun _ => halloc,?_,fun hm => ?_⟩
      · rw [Packet.needsWritable,hcmd]
        intro h
        cases h
      · rw [hcmd]
        intro h
        cases h
      · rw [Packet.fromCache,hcmd]
        intro h
        cases h
      · rw [hmerge] at hm
        cases hm
    · intro t ht
      have hsplit:=List.takeWhile_append_dropWhile (p := readable) (l := s.deferredTargets.list)
      rw [hall,List.append_right_eq_self] at hsplit
      rw [hsplit] at ht
      cases ht
  have hreach : Run 64 Flagged s' := cleanThenRead_run (fun _ => trivial) (fun _ => trivial) hplain hrun hmove
  obtain ⟨hc,hd⟩:=run_coherent hreach
  exact ⟨s',hreach,hlen,hc,hd⟩

theorem cleanThenRead_incoherent : ∃ s,Run 64 (fun _ _ => True) s ∧ s.targets.allocOnFill=false ∧
    (TargetList.rebuild s.targets.list).allocOnFill=true ∧ ¬s.targets.Coherent := by
  have hrun : ∃ s s',cleanThenRead false = .ok s ∧ s.promoteReadable = .ok s' ∧ s'.targets.allocOnFill=false ∧
      (TargetList.rebuild s'.targets.list).allocOnFill=true := ⟨_,_,rfl,rfl,rfl,rfl⟩
  obtain ⟨s,s',hrun,hmove,hstale,hright⟩:=hrun
  refine ⟨s',cleanThenRead_run (fun _ => trivial) (fun _ => trivial) trivial hrun hmove,hstale,hright,fun hc => ?_⟩
  have hsame:=hc.allocOnFill
  rw [hstale,hright] at hsame
  cases hsame

end Mshr

end AquaGem5.Cache
