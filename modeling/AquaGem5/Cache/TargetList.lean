import AquaGem5.Cache.Packet

/-!
# Target lists and their flags (mshr.cc)

The flags of a list are kept up to date by each addition.
-/

namespace AquaGem5.Cache
open List Bool

inductive Source where
  | fromCPU
  | fromSnoop
  | fromPrefetcher
  deriving DecidableEq

structure Target (blkSize : ℕ) where
  readyTime : ℕ
  order : ℕ
  pkt : Packet blkSize
  source : Source
  markedPending : Bool
  allocOnFill : Bool

/-- The flags of a target list; the bitmap marks the bytes written. -/
structure TargetFlags (blkSize : ℕ) where
  needsWritable : Bool
  hasUpgrade : Bool
  allocOnFill : Bool
  hasFromCache : Bool
  canMergeWrites : Bool
  writesBitmap : Fin blkSize → Bool

structure TargetList (blkSize : ℕ) extends TargetFlags blkSize where
  list : List (Target blkSize)

namespace TargetFlags

variable {blkSize : ℕ} (f : TargetFlags blkSize)

def reset : TargetFlags blkSize := ⟨false,false,false,false,true,fun _ => false⟩

def isReset : Bool :=
  !f.needsWritable && !f.hasUpgrade && !f.allocOnFill && !f.hasFromCache&&f.canMergeWrites

def isWholeLineWrite : Bool := decide (∀ i,f.writesBitmap i=true)

def fill (offset size : ℕ) : TargetFlags blkSize :=
  {f with writesBitmap := fun i => decide (offset ≤ i.val ∧ i.val<offset+size) || f.writesBitmap i}

/-- `firstWrite` is whether the list is empty. -/
def updateWriteFlags (firstWrite : Bool) (pkt : Packet blkSize) : TargetFlags blkSize :=
  if f.isWholeLineWrite then f
  else if f.canMergeWrites then
    if pkt.isWrite then
      let compatWrite := !pkt.flags.noMerge
      let f := if firstWrite || compatWrite then f.fill pkt.getOffset pkt.size else f
      {f with canMergeWrites := f.canMergeWrites&&compatWrite}
    else {f with canMergeWrites := false}
  else f

def updateFlags (firstWrite : Bool) (pkt : Packet blkSize) (source : Source) (allocOnFill : Bool) :
    TargetFlags blkSize :=
  match source with
  | .fromSnoop => f
  | .fromPrefetcher =>
    {f with
      needsWritable := f.needsWritable || pkt.needsWritable
      hasUpgrade := f.hasUpgrade || pkt.cmd.upgrades
      allocOnFill := f.allocOnFill || allocOnFill}
  | .fromCPU =>
    updateWriteFlags {f with
      needsWritable := f.needsWritable || pkt.needsWritable
      hasUpgrade := f.hasUpgrade || pkt.cmd.upgrades
      allocOnFill := f.allocOnFill || allocOnFill
      hasFromCache := f.hasFromCache || pkt.fromCache} firstWrite pkt

def follow (t : Target blkSize) : TargetFlags blkSize := f.updateFlags false t.pkt t.source t.allocOnFill

end TargetFlags

namespace TargetList
open TargetFlags

variable {blkSize : ℕ} (l : TargetList blkSize)

def init : TargetList blkSize := {reset with list := []}

def setFlags (f : TargetFlags blkSize) : TargetList blkSize := {f with list := l.list}

def setList (ts : List (Target blkSize)) : TargetList blkSize := {l with list := ts}

def resetFlags : TargetList blkSize := l.setFlags reset

def populateFlags : TargetList blkSize :=
  l.setFlags (l.list.foldl (fun f t => f.updateFlags (decide (l.list=[])) t.pkt t.source t.allocOnFill) reset)

def add (pkt : Packet blkSize) (readyTime order : ℕ) (source : Source) (markPending allocOnFill : Bool) :
    TargetList blkSize :=
  {l.updateFlags (decide (l.list=[])) pkt source allocOnFill with
    list := l.list++[⟨readyTime,order,pkt,source,markPending&&pkt.senderMSHR,allocOnFill⟩]}

def replaceUpgrades : TargetList blkSize :=
  if l.hasUpgrade then
    {l with list := l.list.map fun t => {t with pkt := t.pkt.replaceUpgrade}, hasUpgrade := false}
  else l

/-- The part of `clearDownstreamPending` in this list. -/
def clearPending (ts : List (Target blkSize)) : List (Target blkSize) :=
  ts.map fun t => {t with markedPending := false}

def rebuild (ts : List (Target blkSize)) : TargetList blkSize :=
  ts.foldl (fun l t => l.add t.pkt t.readyTime t.order t.source t.markedPending t.allocOnFill) init

structure Coherent : Prop where
  needsWritable : l.needsWritable=(rebuild l.list).needsWritable
  hasUpgrade : l.hasUpgrade=(rebuild l.list).hasUpgrade
  allocOnFill : l.allocOnFill=(rebuild l.list).allocOnFill
  hasFromCache : l.hasFromCache=(rebuild l.list).hasFromCache
  isWholeLineWrite : l.isWholeLineWrite=(rebuild l.list).isWholeLineWrite

end TargetList

structure TargetFlags.Agrees {blkSize : ℕ} (f g : TargetFlags blkSize) : Prop where
  needsWritable : f.needsWritable=g.needsWritable
  hasUpgrade : f.hasUpgrade=g.hasUpgrade
  allocOnFill : f.allocOnFill=g.allocOnFill
  hasFromCache : f.hasFromCache=g.hasFromCache
  canMergeWrites : f.canMergeWrites=g.canMergeWrites
  isWholeLineWrite : f.isWholeLineWrite=g.isWholeLineWrite
  writesBitmap : f.canMergeWrites=true → f.isWholeLineWrite=false → f.writesBitmap=g.writesBitmap

def Target.SpecialLine {blkSize : ℕ} (t : Target blkSize) : Prop :=
  t.source = .fromCPU ∧ t.pkt.isWrite=true ∧ t.pkt.flags.noMerge=true ∧ t.pkt.size=blkSize

namespace TargetFlags

variable {blkSize : ℕ} {f g : TargetFlags blkSize} {t : Target blkSize}

theorem Agrees.refl (f : TargetFlags blkSize) : Agrees f f := ⟨rfl,rfl,rfl,rfl,rfl,rfl,fun _ _ => rfl⟩

theorem Agrees.updateWriteFlags (h : Agrees f g) (firstWrite : Bool) (pkt : Packet blkSize) :
    Agrees (f.updateWriteFlags firstWrite pkt) (g.updateWriteFlags firstWrite pkt) := by
  unfold TargetFlags.updateWriteFlags
  rw [← h.isWholeLineWrite,← h.canMergeWrites]
  cases hwhole : f.isWholeLineWrite with
  | true => exact h
  | false =>
    cases hmerge : f.canMergeWrites with
    | false => exact h
    | true =>
      have hbitmap:=h.writesBitmap hmerge hwhole
      cases pkt.isWrite with
      | false =>
        exact ⟨h.needsWritable,h.hasUpgrade,h.allocOnFill,h.hasFromCache,rfl,h.isWholeLineWrite,fun hc => by cases hc⟩
      | true =>
        simp only [false_eq_true,if_false,if_true]
        by_cases hfill : (firstWrite || !pkt.flags.noMerge)=true
        · rw [if_pos hfill,if_pos hfill]
          refine ⟨h.needsWritable,h.hasUpgrade,h.allocOnFill,h.hasFromCache,?_,?_,?_⟩
          · simp [fill,h.canMergeWrites]
          · simp [TargetFlags.isWholeLineWrite,fill,hbitmap]
          · intro _ _
            simp [fill,hbitmap]
        · rw [if_neg hfill,if_neg hfill]
          refine ⟨h.needsWritable,h.hasUpgrade,h.allocOnFill,h.hasFromCache,?_,h.isWholeLineWrite,fun _ _ => hbitmap⟩
          simp [h.canMergeWrites]

theorem Agrees.updateFlags (h : Agrees f g) (firstWrite : Bool) (pkt : Packet blkSize) (source : Source)
    (allocOnFill : Bool) :
    Agrees (f.updateFlags firstWrite pkt source allocOnFill) (g.updateFlags firstWrite pkt source allocOnFill) := by
  cases source with
  | fromSnoop => exact h
  | fromPrefetcher =>
    exact ⟨congrArg (· || _) h.needsWritable,congrArg (· || _) h.hasUpgrade,congrArg (· || _) h.allocOnFill,
      h.hasFromCache,h.canMergeWrites,h.isWholeLineWrite,h.writesBitmap⟩
  | fromCPU =>
    refine Agrees.updateWriteFlags ?_ firstWrite pkt
    exact ⟨congrArg (· || _) h.needsWritable,congrArg (· || _) h.hasUpgrade,congrArg (· || _) h.allocOnFill,
      congrArg (· || _) h.hasFromCache,h.canMergeWrites,h.isWholeLineWrite,h.writesBitmap⟩

structure Covers (f : TargetFlags blkSize) (t : Target blkSize) : Prop where
  needsWritable : t.pkt.needsWritable=true → f.needsWritable=true
  hasUpgrade : t.pkt.cmd.upgrades=true → f.hasUpgrade=true
  allocOnFill : t.allocOnFill=true → f.allocOnFill=true
  hasFromCache : t.pkt.fromCache=true → f.hasFromCache=true
  writes : f.canMergeWrites=true → f.isWholeLineWrite=false → t.pkt.isWrite=true ∧ t.pkt.flags.noMerge=false ∧
    ∀ i : Fin blkSize,t.pkt.getOffset ≤ i.val → i.val<t.pkt.getOffset+t.pkt.size → f.writesBitmap i=true

theorem or_of_imp {a b : Bool} (h : b=true → a=true) : (a || b)=a := by
  cases b with
  | false => exact Bool.or_false a
  | true => rw [h rfl,Bool.or_true]

theorem Covers.updateWriteFlags (h : f.Covers t) (firstWrite : Bool) : f.updateWriteFlags firstWrite t.pkt=f := by
  unfold TargetFlags.updateWriteFlags
  split_ifs with hwhole hmerge hwrite
  · rfl
  · obtain ⟨_,hcompat,hset⟩:=h.writes hmerge (Bool.eq_false_iff.mpr hwhole)
    have hfill : f.fill t.pkt.getOffset t.pkt.size=f := by
      have hsame : (fun i : Fin blkSize =>
          decide (t.pkt.getOffset ≤ i.val ∧ i.val<t.pkt.getOffset+t.pkt.size) || f.writesBitmap i) =
          f.writesBitmap := by
        funext i
        by_cases hi : t.pkt.getOffset ≤ i.val ∧ i.val<t.pkt.getOffset+t.pkt.size
        · rw [hset i hi.1 hi.2,Bool.or_true]
        · rw [decide_eq_false hi,Bool.false_or]
      rw [fill,hsame]
    simp only [hcompat,Bool.not_false,Bool.or_true,if_true,hfill,Bool.and_true]
  · exact (hwrite (h.writes hmerge (Bool.eq_false_iff.mpr hwhole)).1).elim
  · rfl

theorem Covers.updateFlags (h : f.Covers t) (hcpu : t.source = .fromCPU) (firstWrite : Bool) :
    f.updateFlags firstWrite t.pkt t.source t.allocOnFill=f := by
  simp only [TargetFlags.updateFlags,hcpu,or_of_imp h.needsWritable,or_of_imp h.hasUpgrade,or_of_imp h.allocOnFill,
    or_of_imp h.hasFromCache]
  exact h.updateWriteFlags firstWrite

def writable (f : TargetFlags blkSize) : TargetFlags blkSize := {f with needsWritable := true}

theorem writable_of_needsWritable (h : f.needsWritable=true) : f.writable=f := by
  cases f
  cases h
  rfl

theorem updateWriteFlags_with (f : TargetFlags blkSize) (firstWrite : Bool) (pkt : Packet blkSize)
    (needsWritable hasUpgrade allocOnFill hasFromCache : Bool) :
    updateWriteFlags {f with
      needsWritable := needsWritable, hasUpgrade := hasUpgrade, allocOnFill := allocOnFill,
      hasFromCache := hasFromCache} firstWrite pkt =
    {f.updateWriteFlags firstWrite pkt with
      needsWritable := needsWritable, hasUpgrade := hasUpgrade, allocOnFill := allocOnFill,
      hasFromCache := hasFromCache} := by
  unfold updateWriteFlags
  simp only [isWholeLineWrite,fill]
  by_cases hwhole : ∀ i,f.writesBitmap i=true
  · simp only [hwhole,implies_true,decide_true,if_true]
  · simp only [hwhole,decide_false,false_eq_true,if_false]
    by_cases hmerge : f.canMergeWrites=true
    · simp only [hmerge,if_true]
      by_cases hwrite : pkt.isWrite=true
      · simp only [hwrite,if_true]
        by_cases hfill : (firstWrite || !pkt.flags.noMerge)=true
        · simp only [hfill,if_true]
        · simp only [hmerge,hfill,if_false,false_eq_true]
      · simp only [hwrite,if_false,false_eq_true]
    · simp only [hmerge,if_false,false_eq_true]

theorem updateWriteFlags_replaced (f : TargetFlags blkSize) (firstWrite : Bool) (pkt : Packet blkSize) :
    f.updateWriteFlags firstWrite pkt.replaceUpgrade=f.updateWriteFlags firstWrite pkt := by
  unfold updateWriteFlags
  rw [pkt.replaceUpgrade_isWrite]
  rfl

theorem writable_updateFlags (f : TargetFlags blkSize) (firstWrite : Bool) (pkt : Packet blkSize) (source : Source)
    (allocOnFill : Bool) : f.writable.updateFlags firstWrite pkt source allocOnFill =
      (f.updateFlags firstWrite pkt source allocOnFill).writable := by
  cases source with
  | fromSnoop | fromPrefetcher => rfl
  | fromCPU =>
    simp only [TargetFlags.updateFlags,writable,updateWriteFlags_with,Bool.true_or]

theorem Agrees.writable (h : Agrees f g) : Agrees f.writable g.writable :=
  ⟨rfl,h.hasUpgrade,h.allocOnFill,h.hasFromCache,h.canMergeWrites,h.isWholeLineWrite,h.writesBitmap⟩

theorem needsWritable_updateFlags (hcpu : t.source = .fromCPU) (firstWrite : Bool) :
    (f.updateFlags firstWrite t.pkt t.source t.allocOnFill).needsWritable =
      (f.needsWritable || t.pkt.needsWritable) := by
  simp only [TargetFlags.updateFlags,hcpu,updateWriteFlags_with]

end TargetFlags

namespace TargetList
open TargetFlags

variable {blkSize : ℕ} {l : TargetList blkSize} {ts us : List (Target blkSize)} {t : Target blkSize}

def Keeps (l : TargetList blkSize) : Prop := Agrees l.toTargetFlags (rebuild l.list).toTargetFlags

theorem Keeps.coherent (h : l.Keeps) : l.Coherent :=
  ⟨h.needsWritable,h.hasUpgrade,h.allocOnFill,h.hasFromCache,h.isWholeLineWrite⟩

theorem rebuild_snoc (ts : List (Target blkSize)) (t : Target blkSize) :
    rebuild (ts++[t])=(rebuild ts).add t.pkt t.readyTime t.order t.source t.markedPending t.allocOnFill := by
  rw [rebuild,foldl_append]
  rfl

theorem rebuild_list_eq_nil : (rebuild ts).list=[] ↔ ts=[] := by
  cases ts using reverseRecOn with
  | nil => simp [rebuild,init]
  | append_singleton ts t => simp [rebuild_snoc,add]

theorem rebuild_flags_snoc (ts : List (Target blkSize)) (t : Target blkSize) : (rebuild (ts++[t])).toTargetFlags =
      (rebuild ts).updateFlags (decide (ts=[])) t.pkt t.source t.allocOnFill := by
  have hempty : decide ((rebuild ts).list=[])=decide (ts=[]) := decide_eq_decide.mpr rebuild_list_eq_nil
  rw [rebuild_snoc,add,hempty]

theorem rebuild_flags_congr {m : Target blkSize → Target blkSize}
    (hm : ∀ t,(m t).pkt=t.pkt ∧ (m t).source=t.source ∧ (m t).allocOnFill=t.allocOnFill)
    (ts us : List (Target blkSize)) : (rebuild (us++ts.map m)).toTargetFlags=(rebuild (us++ts)).toTargetFlags := by
  induction ts using reverseRecOn with
  | nil => rfl
  | append_singleton ts t ih =>
    obtain ⟨hpkt,hsource,halloc⟩:=hm t
    have hempty : decide (us++ts.map m=[])=decide (us++ts=[]) := by simp
    rw [map_append,map_singleton,← append_assoc,← append_assoc,rebuild_flags_snoc,
      rebuild_flags_snoc,ih,hpkt,hsource,halloc,hempty]

theorem Keeps.add (h : l.Keeps) (pkt : Packet blkSize) (readyTime order : ℕ) (source : Source)
    (markPending allocOnFill : Bool) : (l.add pkt readyTime order source markPending allocOnFill).Keeps := by
  unfold Keeps
  simp only [TargetList.add]
  rw [rebuild_flags_snoc]
  exact h.updateFlags _ pkt source allocOnFill

theorem keeps_reset (h : l.list=[]) : l.resetFlags.Keeps := by
  unfold Keeps
  simp only [TargetList.resetFlags,setFlags]
  rw [h]
  exact Agrees.refl _

theorem Keeps.map {m : Target blkSize → Target blkSize}
    (hm : ∀ t,(m t).pkt=t.pkt ∧ (m t).source=t.source ∧ (m t).allocOnFill=t.allocOnFill) (h : l.Keeps) :
    (l.setList (l.list.map m)).Keeps := by
  have hsame:=rebuild_flags_congr hm l.list []
  rw [nil_append,nil_append] at hsame
  unfold Keeps
  simp only [setList]
  rw [hsame]
  exact h

theorem Keeps.replaceUpgrades (h : l.Keeps) : l.replaceUpgrades.Keeps := by
  unfold TargetList.replaceUpgrades
  split_ifs with hup
  · have hflags : ∀ ts : List (Target blkSize),
        (rebuild (ts.map fun t => {t with pkt := t.pkt.replaceUpgrade})).toTargetFlags =
          {(rebuild ts).toTargetFlags with hasUpgrade := false} := by
      intro ts
      induction ts using reverseRecOn with
      | nil => rfl
      | append_singleton ts t ih =>
        have hempty : decide ((ts.map fun t => {t with pkt := t.pkt.replaceUpgrade})=[])=decide (ts=[]) := by simp
        rw [map_append,map_singleton,rebuild_flags_snoc,rebuild_flags_snoc,ih,hempty]
        cases hsource : t.source with
        | fromSnoop => rfl
        | fromPrefetcher =>
          simp only [TargetFlags.updateFlags,Packet.replaceUpgrade_needsWritable,Packet.replaceUpgrade_upgrades,
            Bool.or_false]
        | fromCPU =>
          simp only [TargetFlags.updateFlags,updateWriteFlags_with,updateWriteFlags_replaced,
            Packet.replaceUpgrade_needsWritable,Packet.replaceUpgrade_upgrades,Packet.replaceUpgrade_fromCache,
            Bool.or_false]
    unfold Keeps
    simp only
    rw [hflags]
    exact ⟨h.needsWritable,rfl,h.allocOnFill,h.hasFromCache,h.canMergeWrites,h.isWholeLineWrite,h.writesBitmap⟩
  · exact h

theorem agrees_first (h : ¬t.SpecialLine) : Agrees (reset.updateFlags false t.pkt t.source t.allocOnFill)
      (reset.updateFlags true t.pkt t.source t.allocOnFill) := by
  cases hsource : t.source with
  | fromSnoop | fromPrefetcher => exact Agrees.refl _
  | fromCPU =>
    simp only [TargetFlags.updateFlags,updateWriteFlags_with]
    have hwrites : Agrees (reset.updateWriteFlags false t.pkt) (reset.updateWriteFlags true t.pkt) := by
      unfold TargetFlags.updateWriteFlags
      split_ifs with hwhole _ hwrite
      · exact Agrees.refl _
      · cases hspecial : t.pkt.flags.noMerge with
        | false => exact Agrees.refl _
        | true =>
          -- the line is not filled, so that some byte stays unset
          have hsize : t.pkt.size≠blkSize := fun hsize => h ⟨hsource,hwrite,hspecial,hsize⟩
          have hinside:=t.pkt.inside
          have hpos : 0<blkSize := by
            by_contra hzero
            have hzero' : blkSize=0 := by omega
            subst hzero'
            exact hwhole (decide_eq_true fun i => i.elim0)
          have hpart : ¬∀ i : Fin blkSize,
              (decide (t.pkt.getOffset ≤ i.val ∧ i.val<t.pkt.getOffset+t.pkt.size) || false)=true := by
            intro hall
            have hfirst:=hall ⟨0,hpos⟩
            have hlast:=hall ⟨blkSize-1,by omega⟩
            simp only [Bool.or_false,decide_eq_true_eq] at hfirst hlast
            have hoffset : t.pkt.getOffset+t.pkt.size≤blkSize := hinside
            omega
          refine ⟨rfl,rfl,rfl,rfl,rfl,?_,fun hmerge => by cases hmerge⟩
          refine (Bool.eq_false_iff.mpr hwhole).trans ?_
          exact (decide_eq_false hpart).symm
      · exact Agrees.refl _
      · exact Agrees.refl _
    exact ⟨rfl,rfl,rfl,rfl,hwrites.canMergeWrites,hwrites.isWholeLineWrite,hwrites.writesBitmap⟩

theorem keeps_populateFlags (h : ∀ t,l.list.head?=some t → ¬t.SpecialLine) : l.populateFlags.Keeps := by
  have hagrees : ∀ ts : List (Target blkSize),(∀ t,ts.head?=some t → ¬t.SpecialLine) →
      Agrees (ts.foldl follow reset) (rebuild ts).toTargetFlags := by
    intro ts hts
    induction ts using reverseRecOn with
    | nil => exact Agrees.refl _
    | append_singleton ts t ih =>
      rw [foldl_append,rebuild_flags_snoc]
      by_cases hempty : ts=[]
      · subst hempty
        exact agrees_first (hts t rfl)
      · have hhead : ∀ u,ts.head?=some u → ¬u.SpecialLine := by
          intro u hu
          refine hts u ?_
          rw [head?_append,hu]
          rfl
        rw [decide_eq_false hempty]
        exact (ih hhead).updateFlags false t.pkt t.source t.allocOnFill
  unfold Keeps
  simp only [TargetList.populateFlags,setFlags]
  cases hlist : l.list with
  | nil => exact Agrees.refl _
  | cons t ts =>
    rw [← hlist,decide_eq_false (by simp [hlist])]
    exact hagrees l.list h

theorem agrees_append {f : TargetFlags blkSize} (h : Agrees f (rebuild ts).toTargetFlags)
    (hcpu : ∀ t∈us,t.source = .fromCPU) (hcovers : ∀ t∈us,f.Covers t) :
    Agrees f (rebuild (ts++us)).toTargetFlags := by
  induction us using reverseRecOn with
  | nil =>
    rw [append_nil]
    exact h
  | append_singleton us u ih =>
    have hprev:=ih (fun t ht => hcpu t (mem_append_left _ ht)) fun t ht => hcovers t (mem_append_left _ ht)
    have hnext:=hprev.updateFlags (decide (ts++us=[])) u.pkt u.source u.allocOnFill
    rw [(hcovers u (by simp)).updateFlags (hcpu u (by simp))] at hnext
    rw [← append_assoc,rebuild_flags_snoc]
    exact hnext

theorem agrees_append_writable {f : TargetFlags blkSize} (h : Agrees f (rebuild ts).toTargetFlags)
    (hcpu : ∀ t∈us,t.source = .fromCPU) (hcovers : ∀ t∈us,f.writable.Covers t)
    (hneeds : ∃ t∈us,t.pkt.needsWritable=true) : Agrees f.writable (rebuild (ts++us)).toTargetFlags := by
  have hwritable : ∀ vs : List (Target blkSize),(∀ t∈vs,t.source = .fromCPU) → (∀ t∈vs,f.writable.Covers t) →
      Agrees f.writable (rebuild (ts++vs)).writable := by
    intro vs hv hc
    induction vs using reverseRecOn with
    | nil =>
      rw [append_nil]
      exact h.writable
    | append_singleton vs v ih =>
      have hprev:=ih (fun t ht => hv t (mem_append_left _ ht)) fun t ht => hc t (mem_append_left _ ht)
      have hnext:=hprev.updateFlags (decide (ts++vs=[])) v.pkt v.source v.allocOnFill
      rw [(hc v (by simp)).updateFlags (hv v (by simp)),writable_updateFlags] at hnext
      rw [← append_assoc,rebuild_flags_snoc]
      exact hnext
  have hset : (rebuild (ts++us)).needsWritable=true := by
    clear hcovers hwritable
    induction us using reverseRecOn with
    | nil =>
      obtain ⟨t,ht,_⟩:=hneeds
      cases ht
    | append_singleton us u ih =>
      rw [← append_assoc,rebuild_flags_snoc,needsWritable_updateFlags (hcpu u (by simp)),or_eq_true]
      obtain ⟨t,ht,hn⟩:=hneeds
      rcases mem_append.mp ht with ht | ht
      · exact .inl (ih (fun t ht => hcpu t (mem_append_left _ ht)) ⟨t,ht,hn⟩)
      · obtain rfl : t=u := by simpa using ht
        exact .inr hn
  have hall:=hwritable us hcpu hcovers
  rwa [writable_of_needsWritable hset] at hall

end TargetList

end AquaGem5.Cache
