import AquaGem5.Cache.MshrFlags

/-!
# The targets of a register from its allocation on

Order numbers tell the targets apart. The history keeps what was added and extracted, and which targets were moved up
or promoted before others.
-/

namespace AquaGem5.Cache
open Checked List

structure Lifetime (blkSize : ℕ) where
  mshr : Mshr blkSize
  added : List ℕ
  lastOrder : ℕ
  extracted : List (List (Target blkSize))
  movedUp : List ℕ
  promotedLate : List ℕ

namespace Lifetime

variable {blkSize : ℕ} (l : Lifetime blkSize)

def start (pkt : Packet blkSize) (whenReady order : ℕ) (allocOnFill : Bool) : Lifetime blkSize where
  mshr := Mshr.idle.allocate pkt whenReady order allocOnFill
  added := [order]
  lastOrder := order
  extracted := []
  movedUp := []
  promotedLate := []

/-- The order numbers of the targets that `s` has in its first list beyond those of the register. -/
def newOrders (s : Mshr blkSize) : List ℕ :=
  (s.targets.list.drop l.mshr.targets.list.length).map fun t => t.order

inductive Step (l : Lifetime blkSize) : Lifetime blkSize → Prop
  | allocateTarget {s : Mshr blkSize} (pkt : Packet blkSize) (whenReady order : ℕ) (allocOnFill : Bool) :
      l.lastOrder<order → l.mshr.allocateTarget pkt whenReady order allocOnFill = .ok s →
      Step l {l with mshr := s, added := l.added++[order], lastOrder := order}
  | handleSnoop {s : Mshr blkSize} {reply : Bool × SnoopReply} (pkt : Packet blkSize) (order now : ℕ) :
      l.lastOrder<order → l.mshr.handleSnoop pkt order now = .ok (s,reply) →
      Step l {l with
        mshr := s
        added := if s.getNumTargets=l.mshr.getNumTargets then l.added else l.added++[order]
        lastOrder := order}
  | markInService {s : Mshr blkSize} (pendingModifiedResp : Bool) :
      l.mshr.markInService pendingModifiedResp = .ok s → Step l {l with mshr := s}
  | promoteReadable {s : Mshr blkSize} : l.mshr.promoteReadable = .ok s →
      Step l {l with mshr := s, movedUp := l.movedUp++l.newOrders s}
  | promoteWritable {s : Mshr blkSize} : l.mshr.promoteWritable = .ok s →
      Step l {l with mshr := s, movedUp := l.movedUp++l.newOrders s}
  | extractServiceableTargets {s : Mshr blkSize} {ready : TargetList blkSize} (cmd : MemCmd) :
      l.mshr.extractServiceableTargets cmd = .ok (s,ready) →
      Step l {l with mshr := s, extracted := l.extracted++[ready.list]}
  | promoteDeferredTargets {s : Mshr blkSize} {result : Bool} (now : ℕ) :
      l.mshr.promoteDeferredTargets now = .ok (s,result) →
      Step l {l with
        mshr := s
        promotedLate := if l.mshr.targets.list=[] then l.promotedLate else l.promotedLate++l.newOrders s}
  | setForward (isForward : Bool) : Step l {l with mshr := {l.mshr with isForward := isForward} }
  | setDownstreamPending {s : Mshr blkSize} : l.mshr.setDownstreamPending = .ok s → Step l {l with mshr := s}
  | clearDownstreamPending {s : Mshr blkSize} : l.mshr.clearDownstreamPending = .ok s → Step l {l with mshr := s}

inductive Run (blkSize : ℕ) : Lifetime blkSize → Prop
  | start (pkt : Packet blkSize) (whenReady order : ℕ) (allocOnFill : Bool) :
      Run blkSize (start pkt whenReady order allocOnFill)
  | step {l l' : Lifetime blkSize} : Run blkSize l → Step l l' → Run blkSize l'

def targets : List (Target blkSize) :=
  l.extracted.flatten++l.mshr.targets.list++l.mshr.deferredTargets.list

/-- A maintenance request that is not a snoop, with a later target from the CPU. -/
def Conflict (m t : Target blkSize) : Prop :=
  m.source ≠ .fromSnoop ∧ m.pkt.flags.isCacheMaintenance=true ∧ t.source = .fromCPU ∧ m.order<t.order

/-- One of the two was moved up, or the later one promoted behind targets that were waiting. -/
def Excused (m t : Target blkSize) : Prop :=
  m.order∈l.movedUp ∨ t.order∈l.movedUp ∨ t.order∈l.promotedLate

end Lifetime

abbrev Tag : Type := ℕ × Source × Bool

def Target.tag {blkSize : ℕ} (t : Target blkSize) : Tag := (t.order,t.source,t.pkt.flags.isCacheMaintenance)

namespace Tag

def isCPU (t : Tag) : Bool := decide (t.2.1 = .fromCPU)

def Maintains (m : Tag) : Prop := m.2.1 ≠ .fromSnoop ∧ m.2.2=true

def Conflict (m t : Tag) : Prop := Maintains m ∧ t.2.1 = .fromCPU ∧ m.1<t.1

def Excused (up late : List ℕ) (m t : Tag) : Prop := m.1∈up ∨ t.1∈up ∨ t.1∈late

structure Ordered (T D : List Tag) (E : List (List Tag)) (added : List ℕ) (last : ℕ) (up late : List ℕ) : Prop where
  perm : ((E.flatten++T++D).map Prod.fst).Perm added
  sorted : (((E.flatten++T++D).filter isCPU).map Prod.fst).Pairwise (·<·)
  bound : ∀ o∈added,o≤last
  increasing : added.Pairwise (·<·)
  behind : ∀ m∈T.tail,Maintains m → m.1∈up
  together : ∀ m∈T,∀ t∈T,Conflict m t → Excused up late m t
  extracted : ∀ R∈E,∀ m∈R,∀ t∈R,Conflict m t → Excused up late m t

section Preservation

variable {T D M : List Tag} {E : List (List Tag)} {added : List ℕ} {last o : ℕ} {up late : List ℕ} {m t u : Tag}

theorem Excused.mono {up' late' : List ℕ} (h : Excused up late m t) (hup : up ⊆ up') (hlate : late ⊆ late') :
    Excused up' late' m t := h.imp (fun h => hup h) fun h => h.imp (fun h => hup h) fun h => hlate h

variable (h : Ordered T D E added last up late)

include h

theorem Ordered.below (ho : last<o) : ∀ x∈(E.flatten++T++D).map Prod.fst,x<o := by
  intro x hx
  exact Nat.lt_of_le_of_lt (h.bound x (h.perm.mem_iff.mp hx)) ho

theorem Ordered.added_snoc (ho : last<o) : (added++[o]).Pairwise (·<·) ∧ ∀ x∈added++[o],x≤o := by
  constructor
  · rw [pairwise_append]
    refine ⟨h.increasing,pairwise_singleton _ _,fun x hx y hy => ?_⟩
    obtain rfl : y=o := by simpa using hy
    exact Nat.lt_of_le_of_lt (h.bound x hx) ho
  · intro x hx
    rcases mem_append.mp hx with hx | hx
    · exact Nat.le_of_lt (Nat.lt_of_le_of_lt (h.bound x hx) ho)
    · exact Nat.le_of_eq (by simpa using hx)

theorem Ordered.skip (ho : last<o) : Ordered T D E added o up late :=
  ⟨h.perm,h.sorted,fun x hx => Nat.le_of_lt (Nat.lt_of_le_of_lt (h.bound x hx) ho),h.increasing,h.behind,h.together,
    h.extracted⟩

theorem Ordered.sorted_snoc (ho : last<o) (b : Bool) :
    (((E.flatten++T++D++[(o,Source.fromCPU,b)]).filter isCPU).map Prod.fst).Pairwise (·<·) := by
  rw [filter_append,map_append,pairwise_append]
  refine ⟨h.sorted,?_,?_⟩
  · simp [isCPU]
  · intro x hx y hy
    obtain rfl : y=o := by simpa [isCPU] using hy
    obtain ⟨t,ht,rfl⟩:=mem_map.mp hx
    exact h.below ho _ (mem_map_of_mem (mem_filter.mp ht).1)

theorem Ordered.defer (ho : last<o) (b : Bool) : Ordered T (D++[(o,Source.fromCPU,b)]) E (added++[o]) o up late where
  perm := by
    rw [← append_assoc,map_append]
    exact h.perm.append_right _
  sorted := by
    rw [← append_assoc]
    exact h.sorted_snoc ho b
  bound := (h.added_snoc ho).2
  increasing := (h.added_snoc ho).1
  behind := h.behind
  together := h.together
  extracted := h.extracted

theorem Ordered.append {f : Tag} (ho : last<o) (hfirst : T.head?=some f) (hf : f.2.2=false) (hD : D=[]) :
    Ordered (T++[(o,Source.fromCPU,false)]) D E (added++[o]) o up late := by
  subst hD
  have hsorted:=h.sorted_snoc ho false
  have hperm:=h.perm
  have hmoved : ∀ m∈T,Maintains m → m.1∈up := by
    intro m hm hmm
    cases T with
    | nil => cases hm
    | cons g T =>
      obtain rfl : g=f := by simpa using hfirst
      rcases mem_cons.mp hm with rfl | hm
      · have hfalse:=hmm.2
        rw [hf] at hfalse
        cases hfalse
      · exact h.behind m hm hmm
  have hnew : ¬Maintains (o,Source.fromCPU,false) := fun hm => (by cases hm.2)
  simp only [append_nil] at hsorted hperm
  refine ⟨?_,?_,(h.added_snoc ho).2,(h.added_snoc ho).1,?_,?_,h.extracted⟩
  · rw [append_nil,← append_assoc,map_append]
    exact hperm.append_right _
  · rw [append_nil,← append_assoc]
    exact hsorted
  · intro m hm hmm
    have hmem:=mem_of_mem_tail hm
    rcases mem_append.mp hmem with hmem | hmem
    · exact hmoved m hmem hmm
    · obtain rfl : m=(o,Source.fromCPU,false) := by simpa using hmem
      exact (hnew hmm).elim
  · intro m hm t _ hc
    rcases mem_append.mp hm with hm | hm
    · exact .inl (hmoved m hm hc.1)
    · obtain rfl : m=(o,Source.fromCPU,false) := by simpa using hm
      exact (hnew hc.1).elim

omit h in
theorem mem_tail_append (hm : m∈(T++M).tail) : m∈T.tail ∨ m∈M := by
  cases T with
  | nil => exact .inr (mem_of_mem_tail hm)
  | cons t T => exact (mem_append.mp hm).imp_right id

theorem Ordered.snoop (ho : last<o) (b : Bool) :
    Ordered (T++[(o,Source.fromSnoop,b)]) D E (added++[o]) o up late := by
  have hnew : ¬Maintains (o,Source.fromSnoop,b) := fun hm => hm.1 rfl
  refine ⟨?_,?_,(h.added_snoc ho).2,(h.added_snoc ho).1,?_,?_,h.extracted⟩
  · have hswap : (E.flatten++(T++[(o,Source.fromSnoop,b)])++D).Perm
        (E.flatten++T++D++[(o,Source.fromSnoop,b)]) := by
      rw [← append_assoc,append_assoc (E.flatten++T),append_assoc (E.flatten++T)]
      exact perm_append_comm.append_left _
    refine (hswap.map Prod.fst).trans ?_
    rw [map_append]
    exact h.perm.append_right _
  · have hsame : (E.flatten++(T++[(o,Source.fromSnoop,b)])++D).filter isCPU =
        (E.flatten++T++D).filter isCPU := by
      simp [filter_append,isCPU]
    rw [hsame]
    exact h.sorted
  · intro m hm hmm
    rcases mem_tail_append hm with hm | hm
    · exact h.behind m hm hmm
    · obtain rfl : m=(o,Source.fromSnoop,b) := by simpa using hm
      exact (hnew hmm).elim
  · intro m hm t ht hc
    rcases mem_append.mp hm with hm | hm
    · rcases mem_append.mp ht with ht | ht
      · exact h.together m hm t ht hc
      · obtain rfl : t=(o,Source.fromSnoop,b) := by simpa using ht
        cases hc.2.1
    · obtain rfl : m=(o,Source.fromSnoop,b) := by simpa using hm
      exact (hnew hc.1).elim

omit h in
theorem Ordered.shift (h : Ordered T (M++D) E added last up late) {up' late' : List ℕ} (hup : up ⊆ up')
    (hlate : late ⊆ late') (hbehind : ∀ m∈(T++M).tail,Maintains m → m.1∈up')
    (htogether : ∀ m∈T++M,∀ t∈T++M,Conflict m t → (m∈T ∧ t∈T) ∨ Excused up' late' m t) :
    Ordered (T++M) D E added last up' late' := by
  have hsame : E.flatten++(T++M)++D=E.flatten++T++(M++D) := by simp
  refine ⟨?_,?_,h.bound,h.increasing,hbehind,?_,?_⟩
  · rw [hsame]
    exact h.perm
  · rw [hsame]
    exact h.sorted
  · intro m hm t ht hc
    rcases htogether m hm t ht hc with hold | hnew
    · exact (h.together m hold.1 t hold.2 hc).mono hup hlate
    · exact hnew
  · intro R hR m hm t ht hc
    exact (h.extracted R hR m hm t ht hc).mono hup hlate

omit h in
theorem Ordered.moveUp (h : Ordered T (M++D) E added last up late) :
    Ordered (T++M) D E added last (up++M.map Prod.fst) late := by
  have hM : ∀ m∈M,m.1∈up++M.map Prod.fst := fun m hm => mem_append_right _ (mem_map_of_mem hm)
  refine h.shift (subset_append_left _ _) (Subset.refl _) ?_ ?_
  · intro m hm hmm
    rcases mem_tail_append hm with hm | hm
    · exact mem_append_left _ (h.behind m hm hmm)
    · exact hM m hm
  · intro m hm t ht _
    rcases mem_append.mp hm with hm | hm
    · rcases mem_append.mp ht with ht | ht
      · exact .inl ⟨hm,ht⟩
      · exact .inr (.inr (.inl (hM t ht)))
    · exact .inr (.inl (hM m hm))

omit h in
theorem Ordered.promote (h : Ordered [] (M++D) E added last up late)
    (hM : (∃ u,M=[u]) ∨ ∀ m∈M,m.2.2=false) : Ordered M D E added last up late := by
  refine h.shift (Subset.refl _) (Subset.refl _) ?_ ?_
  · intro m hm hmm
    rcases hM with ⟨u,rfl⟩ | hnone
    · cases hm
    · have hfalse:=hmm.2
      rw [hnone m (mem_of_mem_tail hm)] at hfalse
      cases hfalse
  · intro m hm t ht hc
    rcases hM with ⟨u,rfl⟩ | hnone
    · obtain rfl : m=u := by simpa using hm
      obtain rfl : t=m := by simpa using ht
      exact (Nat.lt_irrefl _ hc.2.2).elim
    · have hfalse:=hc.1.2
      rw [hnone m hm] at hfalse
      cases hfalse

omit h in
theorem Ordered.promoteLate (h : Ordered T (M++D) E added last up late) (hM : ∀ m∈M,m.2.2=false) :
    Ordered (T++M) D E added last up (late++M.map Prod.fst) := by
  have hnone : ∀ m∈M,¬Maintains m := by
    intro m hm hmm
    have hfalse:=hmm.2
    rw [hM m hm] at hfalse
    cases hfalse
  refine h.shift (Subset.refl _) (subset_append_left _ _) ?_ ?_
  · intro m hm hmm
    rcases mem_tail_append hm with hm | hm
    · exact h.behind m hm hmm
    · exact (hnone m hm hmm).elim
  · intro m hm t ht hc
    rcases mem_append.mp hm with hm | hm
    · rcases mem_append.mp ht with ht | ht
      · exact .inl ⟨hm,ht⟩
      · exact .inr (.inr (.inr (mem_append_right _ (mem_map_of_mem ht))))
    · exact (hnone m hm hc.1).elim

theorem Ordered.extract {R K : List Tag} (hperm : (R++K).Perm T)
    (hsorted : (R++K).filter isCPU=T.filter isCPU) (hK : ∀ m∈K.tail,m∈T.tail) :
    Ordered K D (E++[R]) added last up late := by
  have hflat : (E++[R]).flatten++K++D=E.flatten++(R++K)++D := by simp
  refine ⟨?_,?_,h.bound,h.increasing,fun m hm => h.behind m (hK m hm),?_,?_⟩
  · rw [hflat]
    exact (((hperm.append_left _).append_right _).map Prod.fst).trans h.perm
  · have hsame : (E.flatten++(R++K)++D).filter isCPU=(E.flatten++T++D).filter isCPU := by
      rw [filter_append,filter_append,hsorted,filter_append,filter_append]
    rw [hflat,hsame]
    exact h.sorted
  · intro m hm t ht
    exact h.together m (hperm.mem_iff.mp (mem_append_right _ hm)) t
      (hperm.mem_iff.mp (mem_append_right _ ht))
  · intro Q hQ m hm t ht
    rcases mem_append.mp hQ with hQ | hQ
    · exact h.extracted Q hQ m hm t ht
    · obtain rfl : Q=R := by simpa using hQ
      exact h.together m (hperm.mem_iff.mp (mem_append_left _ hm)) t
        (hperm.mem_iff.mp (mem_append_left _ ht))

end Preservation

end Tag

def tags {blkSize : ℕ} (ts : List (Target blkSize)) : List Tag := ts.map Target.tag

namespace Lifetime
open Mshr

variable {blkSize : ℕ}

theorem tags_append (ts us : List (Target blkSize)) : tags (ts++us)=tags ts++tags us := List.map_append

theorem tags_replaceUpgrades (l : TargetList blkSize) : tags l.replaceUpgrades.list=tags l.list := by
  unfold TargetList.replaceUpgrades
  split_ifs
  · exact map_map
  · rfl

theorem tags_clearPending (ts : List (Target blkSize)) : tags (TargetList.clearPending ts)=tags ts := List.map_map

theorem orders_tags (ts : List (Target blkSize)) : (tags ts).map Prod.fst=ts.map fun t => t.order := List.map_map

def Orderly (l : Lifetime blkSize) : Prop :=
  Tag.Ordered (tags l.mshr.targets.list) (tags l.mshr.deferredTargets.list) (l.extracted.map tags) l.added l.lastOrder
    l.movedUp l.promotedLate

variable {l l' : Lifetime blkSize} {s : Mshr blkSize}

theorem Orderly.allocateTarget (h : Orderly l) {pkt : Packet blkSize} {whenReady order : ℕ} {allocOnFill : Bool}
    (ho : l.lastOrder<order) (hrun : l.mshr.allocateTarget pkt whenReady order allocOnFill = .ok s) :
    Orderly {l with mshr := s, added := l.added++[order], lastOrder := order} := by
  obtain ⟨front,hfront,_,⟨_,rfl⟩ | ⟨hdefers,rfl⟩⟩:=allocateTarget_cases hrun
  · have hflags : (l.mshr.deferred pkt).flags=pkt.flags := by
      unfold Mshr.deferred
      split_ifs <;> rfl
    have hnew:=h.defer ho pkt.flags.isCacheMaintenance
    rw [← hflags] at hnew
    simp only [Orderly,TargetList.add,tags_append]
    exact hnew
  · simp only [Mshr.defers,Bool.or_eq_false_iff,decide_eq_false_iff_not,not_not] at hdefers
    obtain ⟨⟨⟨hpkt,hmaint⟩,hnone⟩,_⟩:=hdefers
    have hhead : (tags l.mshr.targets.list).head?=some front.tag := by
      rw [tags,head?_map,hfront]
      rfl
    have hempty : tags l.mshr.deferredTargets.list=[] := by
      rw [hnone]
      rfl
    have hnew:=h.append ho hhead hmaint hempty
    simp only [Orderly,TargetList.add,tags_append]
    have htag : tags [Target.mk whenReady order pkt .fromCPU (!l.mshr.inService&&pkt.senderMSHR) allocOnFill] =
        [(order,Source.fromCPU,false)] := by
      rw [← hpkt]
      rfl
    rw [htag]
    exact hnew

theorem Orderly.congr (h : Orderly l) {s : Mshr blkSize} (htargets : tags s.targets.list=tags l.mshr.targets.list)
    (hdeferred : tags s.deferredTargets.list=tags l.mshr.deferredTargets.list) :
    Orderly {l with mshr := s} := by
  unfold Orderly
  rw [htargets,hdeferred]
  exact h

theorem tags_length {ts us : List (Target blkSize)} (h : tags ts=tags us) : ts.length=us.length := by
  have hlen:=congrArg length h
  simpa [tags] using hlen

theorem Orderly.handleSnoop (h : Orderly l) {pkt : Packet blkSize} {order now : ℕ} {reply : Bool × SnoopReply}
    (ho : l.lastOrder<order) (hrun : l.mshr.handleSnoop pkt order now = .ok (s,reply)) :
    Orderly {l with
      mshr := s
      added := if s.getNumTargets=l.mshr.getNumTargets then l.added else l.added++[order]
      lastOrder := order} := by
  obtain ⟨s1,hfirst,hlast⟩:=handleSnoop_cases hrun
  have hsame : tags s1.targets.list=tags l.mshr.targets.list ∧
      tags s1.deferredTargets.list=tags l.mshr.deferredTargets.list := by
    rcases hfirst with rfl | rfl | rfl
    · exact ⟨rfl,rfl⟩
    · exact ⟨tags_replaceUpgrades _,tags_replaceUpgrades _⟩
    · exact ⟨rfl,tags_replaceUpgrades _⟩
  have hnum : s1.getNumTargets=l.mshr.getNumTargets := by
    rw [getNumTargets,getNumTargets,tags_length hsame.1,tags_length hsame.2]
  have h1:=h.congr hsame.1 hsame.2
  have hquiet : Orderly {l with mshr := s1, lastOrder := order} := h1.skip ho
  rcases hlast with rfl | rfl
  · rw [if_pos hnum]
    exact hquiet
  · by_cases hreplay : (s1.pendingModified || pkt.isInvalidate)=true
    · have hgrown : (s1.snoopBehind pkt order now).1.getNumTargets≠l.mshr.getNumTargets := by
        rw [← hnum]
        simp only [Mshr.snoopBehind,hreplay,if_true,getNumTargets,TargetList.add,length_append,
          length_singleton]
        omega
      rw [if_neg hgrown]
      simp only [Orderly,Mshr.snoopBehind,hreplay,if_true,TargetList.add,tags_append]
      exact h1.snoop ho _
    · have hsame' : (s1.snoopBehind pkt order now).1.getNumTargets=l.mshr.getNumTargets := by
        rw [← hnum]
        simp only [Mshr.snoopBehind,hreplay,Bool.false_eq_true,if_false,getNumTargets]
      rw [if_pos hsame']
      simp only [Orderly,Mshr.snoopBehind,hreplay,Bool.false_eq_true,if_false]
      exact hquiet

theorem newOrders_append {s : Mshr blkSize} {moved : List (Target blkSize)}
    (h : s.targets.list=l.mshr.targets.list++moved) : l.newOrders s=(tags moved).map Prod.fst := by
  rw [newOrders,h,drop_left',orders_tags]
  rfl

theorem newOrders_same {s : Mshr blkSize} (h : s.targets.list=l.mshr.targets.list) : l.newOrders s=[] := by
  have hnil : s.targets.list=l.mshr.targets.list++[] := by rw [h,append_nil]
  exact newOrders_append hnil

theorem Orderly.moveUp (h : Orderly l) {moved rest : List (Target blkSize)}
    (hsplit : tags l.mshr.deferredTargets.list=tags moved++tags rest)
    (htargets : s.targets.list=l.mshr.targets.list++moved) (hdeferred : s.deferredTargets.list=rest) :
    Orderly {l with mshr := s, movedUp := l.movedUp++l.newOrders s} := by
  have h1 : Tag.Ordered (tags l.mshr.targets.list) (tags moved++tags rest) (l.extracted.map tags) l.added
      l.lastOrder l.movedUp l.promotedLate := hsplit ▸ h
  unfold Orderly
  simp only [newOrders_append htargets,htargets,hdeferred,tags_append]
  exact h1.moveUp

theorem Orderly.promoteIf (h : Orderly l) {s1 : Mshr blkSize} {pred : Target blkSize → Bool}
    (htargets : s1.targets.list=l.mshr.targets.list) (hdeferred : s1.deferredTargets=l.mshr.deferredTargets)
    (hrun : s1.promoteIf pred = .ok s) : Orderly {l with mshr := s, movedUp := l.movedUp++l.newOrders s} := by
  obtain ⟨_,rfl⟩:=promoteIf_cases hrun
  have hsplit : tags l.mshr.deferredTargets.list=tags (TargetList.clearPending
      (s1.deferredTargets.list.takeWhile pred))++tags (s1.deferredTargets.list.dropWhile pred) := by
    rw [tags_clearPending,← tags_append,← hdeferred]
    exact congrArg tags takeWhile_append_dropWhile.symm
  exact h.moveUp hsplit (congrArg (·++_) htargets) rfl

theorem Orderly.unmoved (h : Orderly l) : Orderly {l with movedUp := l.movedUp++l.newOrders l.mshr} := by
  have hsame : l.movedUp++l.newOrders l.mshr=l.movedUp := by rw [newOrders_same rfl,append_nil]
  unfold Orderly
  simp only [hsame]
  exact h

theorem promoted_front (ts us : List (Target blkSize)) : promoted ts us <+: us := by
  unfold promoted
  cases us with
  | nil => exact prefix_refl _
  | cons u us =>
    simp only
    split_ifs
    · exact ⟨us,rfl⟩
    · exact nil_prefix
    · exact takeWhile_prefix _

theorem promoted_maintenance (ts us : List (Target blkSize)) :
    (ts=[] ∧ ∃ u,promoted ts us=[u]) ∨ ∀ t∈promoted ts us,t.pkt.flags.isCacheMaintenance=false := by
  unfold promoted
  cases us with
  | nil => exact .inr fun t ht => by cases ht
  | cons u us =>
    simp only
    split_ifs with hmaint hempty
    · exact .inl ⟨hempty,u,rfl⟩
    · exact .inr fun t ht => by cases ht
    · refine .inr fun t ht => ?_
      simpa using mem_takeWhile_imp ht

theorem Orderly.promoteDeferredTargets (h : Orderly l) {now : ℕ} {result : Bool}
    (hrun : l.mshr.promoteDeferredTargets now = .ok (s,result)) :
    Orderly {l with
      mshr := s
      promotedLate := if l.mshr.targets.list=[] then l.promotedLate else l.promotedLate++l.newOrders s} := by
  obtain ⟨hempty,_,rfl,_⟩ | ⟨_,front,_,rfl⟩:=promoteDeferredTargets_cases hrun
  · rw [if_pos hempty]
    exact h
  · have hsplit:=congrArg tags (prefix_append_drop
      (promoted_front l.mshr.targets.list l.mshr.deferredTargets.list)).symm
    rw [tags_append] at hsplit
    have h1:=h
    rw [Orderly,← hsplit] at h1
    unfold Orderly
    simp only [TargetList.populateFlags,TargetList.setFlags,TargetList.setList,tags_append]
    by_cases hempty : l.mshr.targets.list=[]
    · rw [if_pos hempty,hempty]
      rw [hempty] at h1
      refine h1.promote ?_
      rcases promoted_maintenance [] l.mshr.deferredTargets.list with ⟨_,u,hu⟩ | hnone
      · exact .inl ⟨u.tag,by rw [hu]; rfl⟩
      · refine .inr fun m hm => ?_
        obtain ⟨t,ht,rfl⟩:=mem_map.mp hm
        exact hnone t ht
    · have hnone : ∀ m∈tags (promoted l.mshr.targets.list l.mshr.deferredTargets.list),m.2.2=false := by
        intro m hm
        obtain ⟨t,ht,rfl⟩:=mem_map.mp hm
        exact (promoted_maintenance _ _).resolve_left (fun hc => hempty hc.1) t ht
      rw [if_neg hempty,newOrders_append rfl]
      exact h1.promoteLate hnone

theorem filter_tags (ts : List (Target blkSize)) :
    (tags ts).filter Tag.isCPU=tags (ts.filter fun t => decide (t.source = .fromCPU)) := by
  rw [tags,filter_map]
  rfl

theorem served_kept (ts : List (Target blkSize)) : (served ts++kept ts).Perm ts ∧
    ((served ts++kept ts).filter fun t => decide (t.source = .fromCPU)) =
      ts.filter (fun t => decide (t.source = .fromCPU)) ∧ ∀ t∈(kept ts).tail,t∈ts.tail := by
  refine ⟨?_,?_,fun t ht => mem_of_mem_filter (mem_of_mem_tail ht)⟩
  · cases ts with
    | nil => exact Perm.refl _
    | cons a as =>
      have hperm:=filter_append_perm (fun t : Target blkSize => !decide (t.source = .fromCPU)) as
      simp only [Bool.not_not] at hperm
      exact hperm.cons a
  · cases ts with
    | nil => rfl
    | cons a as =>
      have hnone : (as.filter fun t => !decide (t.source = .fromCPU)).filter
          (fun t => decide (t.source = .fromCPU))=[] := by
        rw [filter_eq_nil_iff]
        intro t ht
        have hnot:=(mem_filter.mp ht).2
        simpa using hnot
      simp only [served,kept,take_succ_cons,take_zero,tail_cons,filter_append,hnone,
        append_nil,filter_filter,Bool.and_self]
      rw [← filter_append]
      rfl

theorem Orderly.extract (h : Orderly l) {cmd : MemCmd} {ready : TargetList blkSize}
    (hrun : l.mshr.extractServiceableTargets cmd = .ok (s,ready)) :
    Orderly {l with mshr := s, extracted := l.extracted++[ready.list]} := by
  unfold Orderly
  simp only [map_append,map_singleton]
  obtain ⟨_,rfl,rfl⟩ | ⟨_,hready,_,_,rfl⟩:=extract_cases hrun
  · have hall:=Tag.Ordered.extract (R := tags l.mshr.targets.list) (K := []) h (by rw [append_nil])
      (by rw [append_nil]) fun m hm => by cases hm
    exact hall
  · obtain ⟨hperm,hfilter,htail⟩:=served_kept l.mshr.targets.list
    rw [hready]
    refine Tag.Ordered.extract h ?_ ?_ ?_
    · rw [← tags_append]
      exact hperm.map Target.tag
    · rw [← tags_append,filter_tags,filter_tags]
      exact congrArg tags hfilter
    · intro m hm
      rw [tags,← map_tail] at hm
      obtain ⟨t,ht,rfl⟩:=mem_map.mp hm
      have hmem:=mem_map_of_mem (f := Target.tag) (htail t ht)
      rw [map_tail] at hmem
      exact hmem

theorem Orderly.step (h : Orderly l) (hstep : Step l l') : Orderly l' := by
  cases hstep with
  | allocateTarget pkt whenReady order allocOnFill ho hrun => exact h.allocateTarget ho hrun
  | handleSnoop pkt order now ho hrun => exact h.handleSnoop ho hrun
  | markInService pendingModifiedResp hrun =>
    obtain ⟨_,_,hdeferred,_,htargets⟩:=markInService_cases hrun
    refine h.congr ?_ (congrArg (fun l => tags l.list) hdeferred)
    rcases htargets with htargets | htargets
    · rw [htargets]
    · rw [htargets]
      exact tags_clearPending _
  | promoteReadable hrun =>
    rcases promoteReadable_cases hrun with rfl | ⟨_,_,hmove⟩
    · exact h.unmoved
    · exact h.promoteIf rfl rfl hmove
  | promoteWritable hrun =>
    rcases promoteWritable_cases hrun with rfl | ⟨_,_,_,_,hmove⟩
    · exact h.unmoved
    · refine h.promoteIf ?_ ?_ hmove
      · rfl
      · rfl
  | extractServiceableTargets cmd hrun => exact h.extract hrun
  | promoteDeferredTargets now hrun => exact h.promoteDeferredTargets hrun
  | setForward isForward => exact h.congr rfl rfl
  | setDownstreamPending hrun =>
    unfold Mshr.setDownstreamPending at hrun
    split at hrun
    · cases hrun
    · cases hrun
      exact h.congr rfl rfl
  | clearDownstreamPending hrun =>
    unfold Mshr.clearDownstreamPending at hrun
    split at hrun
    · cases hrun
      exact h.congr (tags_clearPending _) rfl
    · cases hrun

theorem Run.orderly (h : Run blkSize l) : Orderly l := by
  induction h with
  | start pkt whenReady order allocOnFill =>
    refine ⟨Perm.refl _,?_,?_,pairwise_singleton _ _,fun m hm => (by cases hm),?_,fun R hR => by cases hR⟩
    · have hone : ((tags (Lifetime.start pkt whenReady order allocOnFill).mshr.targets.list).map Prod.fst).Pairwise
          (·<·) := pairwise_singleton _ _
      exact hone.sublist ((filter_sublist (p := Tag.isCPU)).map Prod.fst)
    · intro o ho
      exact Nat.le_of_eq (mem_singleton.mp ho)
    · intro m hm t ht hc
      have hone : ∀ u∈tags (Lifetime.start pkt whenReady order allocOnFill).mshr.targets.list,u.1=order := by
        intro u hu
        obtain rfl:=mem_singleton.mp hu
        rfl
      have hlt:=hc.2.2
      rw [hone m hm,hone t ht] at hlt
      exact (Nat.lt_irrefl _ hlt).elim
  | step _ hstep ih => exact ih.step hstep

/-- Every target added is in exactly one place, the targets from the CPU are in order, and
maintenance is extracted with a later one only where one of them was promoted past the other. -/
theorem run_orderly (h : Run blkSize l) :
    l.added.Pairwise (·<·) ∧ (l.targets.map fun t => t.order).Perm l.added ∧
    ((l.targets.filter fun t => decide (t.source = .fromCPU)).map fun t => t.order).Pairwise (·<·) ∧
    ∀ ready∈l.extracted,∀ m∈ready,∀ t∈ready,Conflict m t → Excused l m t := by
  have ho:=h.orderly
  have htags : (l.extracted.map tags).flatten++tags l.mshr.targets.list++tags l.mshr.deferredTargets.list =
      tags l.targets := by
    rw [targets,tags_append,tags_append,tags,tags,tags,List.map_flatten]
    rfl
  refine ⟨ho.increasing,?_,?_,?_⟩
  · have hperm:=ho.perm
    rw [htags,orders_tags] at hperm
    exact hperm
  · have hsorted:=ho.sorted
    rw [htags,filter_tags,orders_tags] at hsorted
    exact hsorted
  · intro ready hready m hm t ht hc
    exact ho.extracted (tags ready) (List.mem_map_of_mem hready) m.tag (List.mem_map_of_mem hm) t.tag
      (List.mem_map_of_mem ht) ⟨⟨hc.1,hc.2.1⟩,hc.2.2⟩

theorem cleaned_run : ∃ l m t,Run 64 l ∧ l.added=[0,1] ∧ l.extracted=[[m,t]] ∧ Conflict m t := by
  have hrun : ∃ s1 s2 s3 s4 ready m t,(idle.allocate cleanLine 0 0 true).markInService false = .ok s1 ∧
      s1.allocateTarget readWord 0 1 true = .ok s2 ∧ s2.promoteReadable = .ok s3 ∧
      s3.extractServiceableTargets .cleanSharedResp = .ok (s4,ready) ∧ ready.list=[m,t] ∧
      m.source = .fromCPU ∧ m.pkt.flags.isCacheMaintenance=true ∧ t.source = .fromCPU ∧ m.order=0 ∧
      t.order=1 := ⟨_,_,_,_,_,_,_,rfl,rfl,rfl,rfl,rfl,rfl,rfl,rfl,rfl,rfl⟩
  obtain ⟨s1,s2,s3,s4,ready,m,t,h1,h2,h3,h4,hready,hm,hmaint,ht,hfirst,hsecond⟩:=hrun
  have hserviced:=(Run.start cleanLine 0 0 true).step (.markInService false h1)
  have hdeferred:=hserviced.step (.allocateTarget readWord 0 1 true (Nat.lt_succ_self 0) h2)
  have hmoved:=hdeferred.step (.promoteReadable h3)
  have hextracted:=hmoved.step (.extractServiceableTargets .cleanSharedResp h4)
  refine ⟨_,m,t,hextracted,rfl,congrArg (fun ts => [ts]) hready,?_,hmaint,ht,?_⟩
  · rw [hm]
    intro h
    cases h
  · rw [hfirst,hsecond]
    exact Nat.lt_succ_self 0

theorem run_orderly_cleaned : ∃ l : Lifetime 64,l.added=[0,1] ∧ l.extracted≠[] ∧
    (l.targets.map fun t => t.order).Perm l.added ∧
    ∀ ready∈l.extracted,∀ m∈ready,∀ t∈ready,Conflict m t → Excused l m t := by
  obtain ⟨l,m,t,hrun,hadded,hextracted,_⟩:=cleaned_run
  obtain ⟨_,hperm,_,hexcused⟩:=run_orderly hrun
  exact ⟨l,hadded,by rw [hextracted]; simp,hperm,hexcused⟩

/-- By design a clean can be extracted together with a later read. -/
theorem clean_with_later : ∃ l : Lifetime 64,Run 64 l ∧
    ∃ ready∈l.extracted,∃ m∈ready,∃ t∈ready,Conflict m t := by
  obtain ⟨l,m,t,hrun,_,hextracted,hconflict⟩:=cleaned_run
  exact ⟨l,hrun,[m,t],by rw [hextracted]; simp,m,by simp,t,by simp,hconflict⟩

end Lifetime

end AquaGem5.Cache
