import AquaGem5.Quarantine.Inverse
import AquaGem5.Lib.Ring

/-!
# Where `quarantineRow` leaves the rows

The row goes to the slot the head names and the occupant of that slot leaves the region.
-/

namespace AquaGem5.Quarantine.RowQuarantine
open Checked Relocation

structure Quarantines (s : RowQuarantine) (rowID : ℕ) (s' : RowQuarantine) : Prop where
  row : s'.indirection.slotOf rowID=some s.indirection.nextFreeQRID
  slot : s'.indirection.rowAt s.indirection.nextFreeQRID=some rowID
  displaced : ∀ b,s.indirection.rowAt s.indirection.nextFreeQRID=some b → b≠rowID →
    s'.indirection.slotOf b=none
  freed : ∀ q,s.indirection.slotOf rowID=some q → q≠s.indirection.nextFreeQRID →
    s'.indirection.rowAt q=none
  otherRows : ∀ r,r≠rowID → s.indirection.rowAt s.indirection.nextFreeQRID≠some r →
    s'.indirection.slotOf r=s.indirection.slotOf r
  otherSlots : ∀ q,q≠s.indirection.nextFreeQRID → s.indirection.slotOf rowID≠some q →
    s'.indirection.rowAt q=s.indirection.rowAt q

variable {s s' : RowQuarantine} {f : ℕ ≃. ℕ} {rowID : ℕ}

theorem quarantineRow_represents (hf : s.indirection.Represents f) (hrun : s.quarantineRow rowID = .ok s') :
    s'.indirection.Represents (relocate f rowID s.indirection.nextFreeQRID) := by
  obtain ⟨hrow,hnext,hu⟩:=(quarantineRow_frame hf rowID).of_ok hrun
  rw [hu.indirection]
  exact advanceHead_represents (IndirectionTables.quarantined_represents hf hrow hnext) s.numQREntries

theorem quarantines_of_relocate {q : ℕ} (hf : s.indirection.Represents f)
    (hf' : s'.indirection.Represents (relocate f rowID q)) (hq : s.indirection.nextFreeQRID=q)
    (hne : f rowID≠some q) : Quarantines s rowID s' := by
  subst hq
  have hslots : ∀ r,s'.indirection.slotOf r=if r=rowID then some s.indirection.nextFreeQRID
      else if f r=some s.indirection.nextFreeQRID then none else f r := by
    intro r
    rw [hf'.slots,relocate_apply,if_neg hne]
  have hrows : ∀ k,s'.indirection.rowAt k=if k=s.indirection.nextFreeQRID then some rowID
      else if f rowID=some k then none else f.symm k := by
    intro k
    rw [hf'.rows,relocate_symm,if_neg hne]
  constructor
  case row => simp [hslots]
  case slot => simp [hrows]
  case displaced =>
    intro b hb hbr
    rw [hf.rows,f.eq_some_iff] at hb
    simp [hslots,hbr,hb]
  case freed =>
    intro k hk hkn
    rw [hf.slots] at hk
    simp [hrows,hkn,hk]
  case otherRows =>
    intro r hr hocc
    rw [hf.rows,ne_eq,f.eq_some_iff] at hocc
    simp [hslots,hr,hocc,hf.slots]
  case otherSlots =>
    intro k hk hold
    rw [hf.slots] at hold
    simp [hrows,hk,hold,hf.rows]

theorem not_quarantines_of_occupied (hf' : s'.indirection.Represents (relocate f rowID s.indirection.nextFreeQRID))
    (hocc : f rowID=some s.indirection.nextFreeQRID) : ¬Quarantines s rowID s' := by
  intro h
  have hrow:=h.row
  rw [hf'.slots,relocate_apply,if_pos rfl,if_pos hocc] at hrow
  cases hrow

/-- In every reachable state the row ends up in the slot the head named exactly when it was
not in that slot before. -/
theorem quarantines_iff {numQREntries rowsPerBank threshold numBanks numRanks numChannels : ℕ}
    {draws : ℕ → ℕ} {memory : RowQuarantine}
    (h : Reachable (construct numQREntries rowsPerBank threshold numBanks numRanks numChannels
      draws memory) s) (hrun : s.quarantineRow rowID = .ok s') :
    Quarantines s rowID s' ↔ s.indirection.slotOf rowID≠some s.indirection.nextFreeQRID := by
  have hs:=reachable_of (construct_mapped ..) (fun u hu a => perform_mapped hu a) h
  obtain ⟨f,hf⟩:=hs.2.2.inverse
  have hf':=quarantineRow_represents hf hrun
  rw [hf.slots]
  constructor
  · intro hq hocc
    exact not_quarantines_of_occupied hf' hocc hq
  · exact quarantines_of_relocate hf hf' rfl

def twoSlots : RowQuarantine := construct 2 4 1 1 1 1 id {zeroed with rowsPerBtvBit := 2}

theorem twoSlots_wrap : ∃ s s',Reachable twoSlots s ∧ s.quarantineRow 3 = .ok s' ∧
    s.indirection.slotOf 3=some s.indirection.nextFreeQRID ∧ s'.indirection.slotOf 3=none := by
  have hrun : Post (do
      let s ← twoSlots.quarantineRow 3
      let s ← s.quarantineRow 1
      let s' ← s.quarantineRow 3
      pure (s,s')) (fun r => r.1.indirection.slotOf 3=some r.1.indirection.nextFreeQRID ∧
        r.2.indirection.slotOf 3=none) fun _ => False := by
    decide +kernel
  obtain ⟨⟨s,s'⟩,hs,hslot,hgone⟩:=hrun.returns
  obtain ⟨s1,h1,hs⟩:=bind_ok hs
  obtain ⟨s2,h2,hs⟩:=bind_ok hs
  obtain ⟨s3,h3,hs⟩:=bind_ok hs
  cases hs
  exact ⟨s,s',.step _ _ (.quarantineRow 1) (.step _ _ (.quarantineRow 3) .start h1) h2,h3,hslot,hgone⟩

/-- Row 3, quarantined while the head is at its own slot, leaves the region. -/
theorem quarantineRow_drops_row : ∃ s s',Reachable twoSlots s ∧ s.quarantineRow 3 = .ok s' ∧
    s'.indirection.slotOf 3=none ∧ ¬Quarantines s 3 s' := by
  obtain ⟨s,s',hs,hrun,_,hgone⟩:=twoSlots_wrap
  refine ⟨s,s',hs,hrun,hgone,fun h => ?_⟩
  have hrow:=h.row
  rw [hgone] at hrow
  cases hrow

theorem quarantines_iff_of_wrap : ∃ s s',s.quarantineRow 3 = .ok s' ∧ (Quarantines s 3 s' ↔
    s.indirection.slotOf 3≠some s.indirection.nextFreeQRID) := by
  obtain ⟨s,s',hs,hrun,_⟩:=twoSlots_wrap
  exact ⟨s,s',hrun,quarantines_iff hs hrun⟩

/-!
## How far the drains get

`drainRow` moves the tail over an occupied slot, and does nothing at a free one.
-/

open AquaGem5.Circle

def drainRows : ℕ → RowQuarantine → Except Fault RowQuarantine
  | 0,s => pure s
  | k+1,s => do
    let s ← s.drainRow
    drainRows k s

def pending (s : RowQuarantine) : Set ℕ := arc s.numQREntries s.indirection.qrTailID
  (ahead s.numQREntries s.indirection.qrTailID s.indirection.prevQRHeadID)

structure Drained (s s' : RowQuarantine) : Prop where
  free : ∀ q∈s.pending,s'.indirection.rowAt q=none
  released : ∀ q∈s.pending,∀ r,s.indirection.rowAt q=some r → s'.indirection.slotOf r=none
  head : s'.indirection.prevQRHeadID=s.indirection.prevQRHeadID
  tail : s'.indirection.qrTailID=s'.indirection.prevQRHeadID

variable {rows n k : ℕ} {s s' : RowQuarantine}

theorem pending_of_eq (hs : s.Mapped rows n) (hn : 0<n)
    (heq : s.indirection.qrTailID=s.indirection.prevQRHeadID) : s.pending = ∅ := by
  have htail:=(hs.2.2.pointers hn).2.2
  unfold pending
  rw [← heq,hs.2.1,ahead_self htail,arc_zero]

theorem drainRow_cases (hs : s.Mapped rows n) (h : s.drainRow = .ok s') : s'.Mapped rows n ∧
    ((¬s.Drains ∧ s'.indirection=s.indirection) ∨ (s.Drains ∧
      s'.indirection=(s.indirection.removed s.indirection.qrTailID).advanceTail n)) := by
  refine ⟨(drainRow_mapped hs).of_ok h,?_⟩
  obtain ⟨f,hf⟩:=hs.2.2.inverse
  rcases (drainRow_frame hf).of_ok h with ⟨hd,hlook⟩ | ⟨hd,hu⟩
  · exact .inl ⟨hd,hlook.indirection⟩
  · rw [hs.2.1] at hu
    exact .inr ⟨hd,hu.indirection⟩

theorem drainRow_advances (hs : s.Mapped rows n) (h : s.drainRow = .ok s')
    (hne : s.indirection.qrTailID≠s.indirection.prevQRHeadID) : (s'.indirection.qrTailID≠s.indirection.qrTailID ↔
      (s.indirection.rowAt s.indirection.qrTailID).isSome) ∧ ((s.indirection.rowAt s.indirection.qrTailID).isSome →
      s'.indirection.qrTailID=(s.indirection.qrTailID+1)%s.numQREntries) := by
  have hsome : (s.indirection.rowAt s.indirection.qrTailID).isSome ↔ s.Drains := by
    unfold IndirectionTables.rowAt Drains
    split <;> simp_all
  rw [hsome]
  rcases (drainRow_cases hs h).2 with ⟨hd,ht⟩ | ⟨hd,ht⟩
  · exact ⟨iff_of_false (fun hne' => hne' (by rw [ht])) hd,fun hd' => (hd hd').elim⟩
  · have htail : s'.indirection.qrTailID=(s.indirection.qrTailID+1)%n := by
      rw [ht]
      rfl
    rw [hs.2.1]
    refine ⟨iff_of_true ?_ hd,fun _ => htail⟩
    have hsize:=hd.2.1
    rw [hs.2.2.slotTable] at hsize
    obtain ⟨_,hp,_⟩:=hs.2.2.pointers (by omega)
    rw [htail]
    intro heq
    have hahead:=ahead_succ hsize hp hne
    rw [heq] at hahead
    omega

theorem rowAt_drained (t : IndirectionTables) (n p q : ℕ) :
    ((t.removed p).advanceTail n).rowAt q=if q=p then none else t.rowAt q :=
  IndirectionTables.rowAt_clearSlot t p q

theorem pending_drained (hs : s.Mapped rows n) (hs' : s'.Mapped rows n) (hd : s.Drains)
    (ht : s'.indirection=(s.indirection.removed s.indirection.qrTailID).advanceTail n) :
    s.pending=insert s.indirection.qrTailID s'.pending ∧ ahead n s.indirection.qrTailID s.indirection.prevQRHeadID =
        ahead n s'.indirection.qrTailID s'.indirection.prevQRHeadID+1 := by
  have hsize:=hd.2.1
  rw [hs.2.2.slotTable] at hsize
  obtain ⟨_,hp,_⟩:=hs.2.2.pointers (by omega)
  have hahead:=ahead_succ hsize hp hd.1
  have htail : s'.indirection.qrTailID=(s.indirection.qrTailID+1)%n := by
    rw [ht]
    rfl
  have hprev : s'.indirection.prevQRHeadID=s.indirection.prevQRHeadID := by
    rw [ht]
    rfl
  unfold pending
  rw [htail,hprev,hs.2.1,hs'.2.1,hahead,arc_first,Nat.mod_eq_of_lt hsize]
  exact ⟨rfl,rfl⟩

theorem drainRows_shrink (hs : s.Mapped rows n) (h : s.drainRows k = .ok s') :
    s'.Mapped rows n ∧ s'.indirection.prevQRHeadID=s.indirection.prevQRHeadID ∧
      ∀ q r,s'.indirection.rowAt q=some r → s.indirection.rowAt q=some r := by
  induction k generalizing s with
  | zero =>
    cases h
    exact ⟨hs,rfl,fun q r hr => hr⟩
  | succ k ih =>
    obtain ⟨u,hu,hrest⟩:=bind_ok h
    obtain ⟨hum,hcases⟩:=drainRow_cases hs hu
    obtain ⟨hs',hprev,hrows⟩:=ih hum hrest
    refine ⟨hs',?_⟩
    rcases hcases with ⟨_,ht⟩ | ⟨_,ht⟩
    · rw [ht] at hprev hrows
      exact ⟨hprev,hrows⟩
    · rw [ht] at hprev hrows
      refine ⟨hprev,fun q r hr => ?_⟩
      have hu:=hrows q r hr
      rw [rowAt_drained] at hu
      split at hu
      · cases hu
      · exact hu

theorem filled_of_drainRows (hs : s.Mapped rows n) (hn : 0<n) (h : s.drainRows k = .ok s')
    (htail : s'.indirection.qrTailID=s'.indirection.prevQRHeadID) : ∀ q∈s.pending,(s.indirection.rowAt q).isSome := by
  induction k generalizing s with
  | zero =>
    cases h
    rw [pending_of_eq hs hn htail]
    simp
  | succ k ih =>
    obtain ⟨u,hu,hrest⟩:=bind_ok h
    obtain ⟨hum,hcases⟩:=drainRow_cases hs hu
    have hfilled:=ih hum hrest
    rcases hcases with ⟨hd,ht⟩ | ⟨hd,ht⟩
    · have hpending : u.pending=s.pending := by
        unfold pending
        rw [ht,hs.2.1,hum.2.1]
      rw [hpending,ht] at hfilled
      exact hfilled
    · intro q hq
      rw [(pending_drained hs hum hd ht).1] at hq
      rcases hq with rfl | hq
      · rw [IndirectionTables.rowAt,if_pos hd.2]
        rfl
      · have hrow:=hfilled q hq
        rw [ht,rowAt_drained] at hrow
        split at hrow
        · cases hrow
        · exact hrow

theorem freed_of_filled (hs : s.Mapped rows n) (hn : 0<n) (h : s.drainRows k = .ok s')
    (hk : ahead n s.indirection.qrTailID s.indirection.prevQRHeadID≤k)
    (hfilled : ∀ q∈s.pending,(s.indirection.rowAt q).isSome) : s'.indirection.qrTailID=s'.indirection.prevQRHeadID ∧
      ∀ q∈s.pending,s'.indirection.rowAt q=none := by
  induction k generalizing s with
  | zero =>
    cases h
    by_cases heq : s'.indirection.qrTailID=s'.indirection.prevQRHeadID
    · refine ⟨heq,fun q hq => ?_⟩
      rw [pending_of_eq hs hn heq] at hq
      exact hq.elim
    · obtain ⟨_,hp,ht⟩:=hs.2.2.pointers hn
      have hahead:=ahead_succ ht hp heq
      omega
  | succ k ih =>
    obtain ⟨u,hu,hrest⟩:=bind_ok h
    obtain ⟨hum,hcases⟩:=drainRow_cases hs hu
    obtain ⟨_,hp,htl⟩:=hs.2.2.pointers hn
    rcases hcases with ⟨hd,ht⟩ | ⟨hd,ht⟩
    · by_cases heq : s.indirection.qrTailID=s.indirection.prevQRHeadID
      · have hue : u.pending = ∅ := pending_of_eq hum hn (by rw [ht,heq])
        have hdone:=ih hum hrest (by rw [ht,heq,ahead_self hp]; exact Nat.zero_le k) (by simp [hue])
        rw [pending_of_eq hs hn heq]
        exact ⟨hdone.1,fun q hq => hq.elim⟩
      · -- the tail is a pending slot, so it holds a row
        have hmem : s.indirection.qrTailID∈s.pending := by
          unfold pending
          rw [hs.2.1,ahead_succ htl hp heq,arc_first,Nat.mod_eq_of_lt htl]
          exact Set.mem_insert _ _
        have hrow:=hfilled _ hmem
        unfold IndirectionTables.rowAt at hrow
        split at hrow
        · rename_i hcond
          exact (hd ⟨heq,hcond⟩).elim
        · cases hrow
    · obtain ⟨hpending,hahead⟩:=pending_drained hs hum hd ht
      have hnot : s.indirection.qrTailID∉u.pending := by
        intro hmem
        unfold pending at hmem
        rw [hum.2.1,ht] at hmem
        obtain ⟨j,hj,hjeq⟩:=hmem
        change j<ahead n ((s.indirection.qrTailID+1)%n) s.indirection.prevQRHeadID at hj
        change s.indirection.qrTailID=((s.indirection.qrTailID+1)%n+j)%n at hjeq
        have hlt : ahead n s.indirection.qrTailID s.indirection.prevQRHeadID<n := Nat.mod_lt _ hn
        rw [ahead_succ htl hp hd.1] at hlt
        rw [Nat.mod_add_mod,Nat.add_assoc] at hjeq
        have hpos:=position_inj (n := n) (h := s.indirection.qrTailID) (i := 0) (j := 1+j) hn
          (by omega) (by rw [Nat.add_zero,← hjeq,Nat.mod_eq_of_lt htl])
        omega
      have hfilled' : ∀ q∈u.pending,(u.indirection.rowAt q).isSome := by
        intro q hq
        have hne : q≠s.indirection.qrTailID := by
          rintro rfl
          exact hnot hq
        rw [ht,rowAt_drained,if_neg hne]
        exact hfilled q (hpending ▸ Set.mem_insert_of_mem _ hq)
      obtain ⟨htail,hfree⟩:=ih hum hrest (by omega) hfilled'
      refine ⟨htail,fun q hq => ?_⟩
      rw [hpending] at hq
      rcases hq with rfl | hq
      · cases hrow : s'.indirection.rowAt s.indirection.qrTailID with
        | none => rfl
        | some r =>
          have hur:=(drainRows_shrink hum hrest).2.2 _ r hrow
          rw [ht,rowAt_drained,if_pos rfl] at hur
          cases hur
      · exact hfree q hq

theorem drained_iff_filled (hs : s.Mapped rows n) (hn : 0<n) (h : s.drainRows n = .ok s') :
    Drained s s' ↔ ∀ q∈s.pending,(s.indirection.rowAt q).isSome := by
  constructor
  · intro hd
    exact filled_of_drainRows hs hn h hd.tail
  · intro hfilled
    obtain ⟨htail,hfree⟩:=freed_of_filled hs hn h (Nat.mod_lt _ hn).le hfilled
    obtain ⟨hs',hprev,hrows⟩:=drainRows_shrink hs h
    obtain ⟨f,hf⟩:=hs.2.2.inverse
    obtain ⟨f',hf'⟩:=hs'.2.2.inverse
    refine ⟨hfree,fun q hq r hr => ?_,hprev,htail⟩
    cases hslot : s'.indirection.slotOf r with
    | none => rfl
    | some p =>
      rw [hf'.slots,← f'.eq_some_iff,← hf'.rows] at hslot
      have hold:=hrows p r hslot
      rw [hf.rows,f.eq_some_iff] at hold hr
      have hpq : p=q := Option.some.inj (hold.symm.trans hr)
      rw [hpq,hfree q hq] at hslot
      cases hslot

/-- In every reachable state a call advances the tail exactly when the tail slot holds a row, and
as many calls as there are slots drain the pending slots exactly when none of them is free. -/
theorem drain_progress {numQREntries rowsPerBank threshold numBanks numRanks numChannels : ℕ}
    {draws : ℕ → ℕ} {memory : RowQuarantine}
    (h : Reachable (construct numQREntries rowsPerBank threshold numBanks numRanks numChannels
      draws memory) s) :
    (s.indirection.qrTailID≠s.indirection.prevQRHeadID → ∀ s',s.drainRow = .ok s' →
      (s'.indirection.qrTailID≠s.indirection.qrTailID ↔
        (s.indirection.rowAt s.indirection.qrTailID).isSome)) ∧
    ((∃ q∈s.pending,(s.indirection.rowAt q).isSome) → ∀ s',s.drainRows s.numQREntries = .ok s' →
      (Drained s s' ↔ ∀ q∈s.pending,(s.indirection.rowAt q).isSome)) := by
  have hs:=reachable_of (construct_mapped ..) (fun u hu a => perform_mapped hu a) h
  constructor
  · intro hne s' hrun
    exact (drainRow_advances hs hrun hne).1
  · intro hrow s' hrun
    obtain ⟨q,_,hq⟩:=hrow
    obtain ⟨r,hr⟩:=Option.isSome_iff_exists.mp hq
    have hlt:=(IndirectionTables.rowAt_eq_some.mp hr).1
    rw [hs.2.2.slotTable] at hlt
    rw [hs.2.1] at hrun
    exact drained_iff_filled hs (by omega) hrun

def threeSlots : RowQuarantine := construct 3 4 1 1 1 1 id {zeroed with rowsPerBtvBit := 1}

theorem threeSlots_hole : ∃ s s1 s3,Reachable threeSlots s ∧ s.drainRow = .ok s1 ∧
    s.drainRows s.numQREntries = .ok s3 ∧ s.indirection.qrTailID=0 ∧ s.indirection.prevQRHeadID=2 ∧
    s.indirection.rowAt 0=none ∧ s.indirection.rowAt 1=some 2 ∧ s1.indirection.qrTailID=0 ∧
    s3.indirection.qrTailID=0 ∧ s3.indirection.prevQRHeadID=2 ∧ s3.indirection.slotOf 2=some 1 := by
  have hrun : Post (do
      let s ← threeSlots.quarantineRow 1
      let s ← s.quarantineRow 2
      let s ← s.reset
      let s ← s.quarantineRow 1
      let s1 ← s.drainRow
      let s3 ← s.drainRows s.numQREntries
      pure (s,s1,s3)) (fun r => r.1.indirection.qrTailID=0 ∧ r.1.indirection.prevQRHeadID=2 ∧
        r.1.indirection.rowAt 0=none ∧ r.1.indirection.rowAt 1=some 2 ∧
        r.2.1.indirection.qrTailID=0 ∧ r.2.2.indirection.qrTailID=0 ∧
        r.2.2.indirection.prevQRHeadID=2 ∧ r.2.2.indirection.slotOf 2=some 1) fun _ => False := by
    decide +kernel
  obtain ⟨⟨s,s1,s3⟩,hs,hvalues⟩:=hrun.returns
  obtain ⟨u1,h1,hs⟩:=bind_ok hs
  obtain ⟨u2,h2,hs⟩:=bind_ok hs
  obtain ⟨u3,h3,hs⟩:=bind_ok hs
  obtain ⟨u4,h4,hs⟩:=bind_ok hs
  obtain ⟨_,hdrain,hs⟩:=bind_ok hs
  obtain ⟨_,hdrains,hs⟩:=bind_ok hs
  cases hs
  exact ⟨s,s1,s3,.step _ _ (.quarantineRow 1) (.step _ _ .reset (.step _ _ (.quarantineRow 2)
    (.step _ _ (.quarantineRow 1) .start h1) h2) h3) h4,hdrain,hdrains,hvalues⟩

/-- The tail stays at the hole, and row 2 stays in the slot after it. -/
theorem drain_stuck_at_hole : ∃ s s1 s3,Reachable threeSlots s ∧
    (∃ q∈s.pending,(s.indirection.rowAt q).isSome) ∧
    s.indirection.qrTailID≠s.indirection.prevQRHeadID ∧ s.drainRow = .ok s1 ∧
    s1.indirection.qrTailID=s.indirection.qrTailID ∧ s.drainRows s.numQREntries = .ok s3 ∧
    ¬Drained s s3 := by
  obtain ⟨s,s1,s3,hs,hdrain,hdrains,htail,hprev,_,hrow,htail1,htail3,hprev3,_⟩:=threeSlots_hole
  have hm:=reachable_of (construct_mapped ..) (fun u hu a => perform_mapped hu a) hs
  refine ⟨s,s1,s3,hs,⟨1,?_,by rw [hrow]; rfl⟩,by omega,hdrain,by omega,hdrains,fun hd => ?_⟩
  · unfold pending
    rw [hm.2.1,htail,hprev]
    exact ⟨1,by decide,rfl⟩
  · have htail':=hd.tail
    omega

theorem drain_progress_of_hole : ∃ s s1 s3,s.drainRow = .ok s1 ∧ s.drainRows s.numQREntries = .ok s3 ∧
    (s1.indirection.qrTailID≠s.indirection.qrTailID ↔
      (s.indirection.rowAt s.indirection.qrTailID).isSome) ∧
    (Drained s s3 ↔ ∀ q∈s.pending,(s.indirection.rowAt q).isSome) := by
  obtain ⟨s,s1,s3,hs,hrow,hne,hdrain,_,hdrains,_⟩:=drain_stuck_at_hole
  have h:=drain_progress hs
  exact ⟨s,s1,s3,hdrain,hdrains,h.1 hne s1 hdrain,h.2 hrow s3 hdrains⟩

end AquaGem5.Quarantine.RowQuarantine
