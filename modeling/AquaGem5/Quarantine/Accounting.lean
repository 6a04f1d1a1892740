import AquaGem5.Quarantine.Inverse

/-!
# The migration statistics and the tables

The statistics of the moves are counted by the bits of `move_op`, which `quarantineRow` sets where it finds A and B,
and the tables change elsewhere.
-/

namespace AquaGem5.Quarantine
open Checked Detector Mitigation Relocation Finset

/-- The counters that the report of the migrations reads. -/
structure Migrations where
  toQr : UInt64
  withinQr : UInt64
  toQrRemove : UInt64
  withinQrRemove : UInt64
  drained : UInt64
  deriving DecidableEq

def Stats.migrations (st : Stats) : Migrations :=
  ⟨st.sMoveToQr,st.sMoveWithinQr,st.sMoveToQrRemove,st.sMoveWithinQrRemove,st.sDrainQr⟩

def Migrations.balance (m : Migrations) : UInt64 := m.toQr-m.withinQrRemove-m.drained

/-- Exactly one of the four `s_move_*` counters is incremented. -/
inductive Migrations.Moved (m : Migrations) : Migrations → Prop
  | toQr : Moved m {m with toQr := m.toQr+1}
  | withinQr : Moved m {m with withinQr := m.withinQr+1}
  | toQrRemove : Moved m {m with toQrRemove := m.toQrRemove+1}
  | withinQrRemove : Moved m {m with withinQrRemove := m.withinQrRemove+1}

namespace RowQuarantine

def Quiet (s s' : RowQuarantine) : Prop := s'.stats.migrations=s.stats.migrations

variable {s s' s'' : RowQuarantine}

theorem Quiet.trans (h : Quiet s s') (h' : Quiet s' s'') : Quiet s s'' := Eq.trans h' h

theorem quiet_addDelay (s : RowQuarantine) (d : UInt64) : Quiet s (s.addDelay d) := rfl

theorem quiet_addVirtualDelay (s : RowQuarantine) (d : UInt64) : Quiet s (s.addVirtualDelay d) := by
  unfold addVirtualDelay
  split <;> rfl

theorem quiet_addTableDelay (s : RowQuarantine) : Quiet s s.addTableDelay := by
  unfold addTableDelay
  split <;> rfl

def Quietly (s : RowQuarantine) (m : Except Fault RowQuarantine) : Prop :=
  Post m (Quiet s)

theorem evictBlock_quiet (s : RowQuarantine) (c : FunctionalCache) (index way : ℕ) :
    Post (s.evictBlock c index way) (fun p => Quiet s p.1) := by
  unfold evictBlock
  refine (post_true _).bind fun isDirty _ => (post_true _).bind fun rowID _ => ?_
  change (s.stats.countEvict isDirty).migrations=s.stats.migrations
  unfold Stats.countEvict
  split <;> rfl

theorem removeRowFromCache_quiet (s : RowQuarantine) (c : FunctionalCache) (index : ℕ) :
    Post (s.removeRowFromCache c index) (fun p => Quiet s p.1) := by
  unfold removeRowFromCache
  refine (post_true _).bind fun r _ => ?_
  rw [post_ite]
  refine ⟨fun _ => (evictBlock_quiet s r.1 index r.2).bind fun e he => ?_,fun _ => rfl⟩
  exact (post_true _).bind fun c' _ => he

theorem insertRowInCache_quiet (s : RowQuarantine) (c : FunctionalCache) (index : ℕ) (b : Bool) :
    Post (s.insertRowInCache c index b) (fun p => Quiet s p.1) := by
  unfold insertRowInCache
  refine (post_true _).bind fun r _ => (post_true _).bind fun valid _ => ?_
  refine Post.bind (R := fun e : RowQuarantine × Bool × ℕ => Quiet s e.1) ?_ fun e he => ?_
  · rw [post_ite]
    exact ⟨fun _ => evictBlock_quiet s r.1 index r.2,fun _ => rfl⟩
  · exact (post_true _).bind fun _ _ => (post_true _).bind fun _ _ => (post_true _).bind fun _ _ => he

theorem setFilterEntry_quiet (s : RowQuarantine) (index : ℕ) : Quietly s (s.setFilterEntry index) := by
  unfold setFilterEntry
  split
  · exact (post_true _).bind fun f _ => rfl
  · exact (post_true _).bind fun _ _ => (post_true _).bind fun _ _ => (post_true _).bind fun _ _ => rfl

theorem clearFilterEntry_quiet (s : RowQuarantine) (index : ℕ) : Quietly s (s.clearFilterEntry index) := by
  unfold clearFilterEntry
  split
  · exact (post_true _).bind fun _ _ => (post_true _).bind fun _ _ => (post_true _).bind fun _ _ => rfl
  · refine (post_true _).bind fun _ _ => (post_true _).bind fun _ _ => ?_
    exact (post_true _).bind fun _ _ => rfl

theorem findInserted_quiet (s : RowQuarantine) (rowID index : ℕ) :
    Post (s.findInserted rowID index) (fun p => Quiet s p.1) := by
  unfold findInserted
  refine (post_true _).bind fun e _ => ?_
  rw [post_ite]
  refine ⟨fun _ => rfl,fun _ => ?_⟩
  refine (post_true _).bind fun _ _ => (post_true _).bind fun _ _ => (post_true _).bind fun _ _ => ?_
  refine (post_true _).bind fun orr _ => ?_
  rw [post_ite]
  exact ⟨fun _ => rfl,fun _ => rfl⟩

theorem cacheMiss_quiet (s : RowQuarantine) (c : FunctionalCache) (rowID index : ℕ) :
    Quietly s (s.cacheMiss c rowID index) := by
  unfold cacheMiss
  refine (findInserted_quiet s.addTableDelay rowID index).bind fun r hr => ?_
  have hr : Quiet s r.1 := (quiet_addTableDelay s).trans hr
  dsimp only
  rw [post_ite]
  refine ⟨fun _ => (post_true _).bind fun insert _ => ?_,fun _ => hr⟩
  rw [post_ite]
  refine ⟨fun _ => (insertRowInCache_quiet r.1 c _ false).bind fun e he => ?_,fun _ => hr⟩
  rw [post_ite]
  exact ⟨fun _ => hr.trans he,fun _ => hr.trans he⟩

theorem checkCache_quiet (s : RowQuarantine) (c : FunctionalCache) (rowID index : ℕ) :
    Quietly s (s.checkCache c rowID index) := by
  unfold checkCache
  refine (post_true _).bind fun r _ => ?_
  rw [post_ite]
  refine ⟨fun _ => rfl,fun _ => (post_true _).bind fun p _ => ?_⟩
  rw [post_ite]
  refine ⟨fun _ => ?_,fun _ => cacheMiss_quiet _ _ _ _⟩
  refine (post_true _).bind fun _ _ => (post_true _).bind fun orr _ => ?_
  rw [post_ite]
  exact ⟨fun _ => rfl,fun _ => cacheMiss_quiet _ _ _ _⟩

theorem addQCheckDelay_quiet (s : RowQuarantine) (rowID : ℕ) : Quietly s (s.addQCheckDelay rowID) := by
  unfold addQCheckDelay
  refine (post_true _).bind fun possible _ => ?_
  rw [post_ite]
  constructor
  · intro _
    refine Post.bind (R := Quiet s) ?_ fun v hv => (post_true _).bind fun e _ => ?_
    · split
      · exact checkCache_quiet _ _ _ _
      · exact quiet_addTableDelay _
    · refine hv.trans ?_
      unfold countPositive
      split <;> rfl
  · intro _
    refine (post_true _).bind fun e _ => (post_true _).bind fun _ _ => ?_
    change Quiet _ _
    unfold countNegative
    split <;> rfl

theorem removeRow_quiet (s : RowQuarantine) (slot : ℕ) :
    Post (s.removeRow slot) (fun p => Quiet s p.1) := by
  unfold removeRow
  refine (post_true _).bind fun b _ => (post_true _).bind fun e _ => (post_true _).bind fun _ _ => ?_
  refine (clearFilterEntry_quiet _ _).bind fun u hu => ?_
  have hu : Quiet s u := hu
  unfold uncacheRow
  split
  · refine (removeRowFromCache_quiet u _ _).bind fun r hr => ?_
    exact (post_true _).bind fun _ _ => (post_true _).bind fun _ _ => hu.trans hr
  · exact hu

theorem cacheRow_quiet (s : RowQuarantine) (index : ℕ) : Quietly s (s.cacheRow index) := by
  unfold cacheRow
  split
  · refine (post_true _).bind fun r _ => ?_
    rw [post_ite]
    refine ⟨fun _ => (insertRowInCache_quiet s r.1 index true).bind fun e he => ?_,
      fun _ => (post_true _).bind fun _ _ => rfl⟩
    rw [post_pure]
    split
    · exact he.trans (quiet_addVirtualDelay _ _)
    · exact he
  · exact quiet_addVirtualDelay _ _

theorem enterRow_quiet (s : RowQuarantine) (rowID : ℕ) (inRegion : Bool) : Quietly s (s.enterRow rowID inRegion) := by
  unfold enterRow
  refine Post.bind (R := Quiet s) ?_ fun u hu => ?_
  · rw [post_ite]
    exact ⟨fun _ => rfl,fun _ => setFilterEntry_quiet _ _⟩
  · exact (cacheRow_quiet _ _).imp fun v hv => hu.trans hv

theorem displaceRow_quiet (s : RowQuarantine) (rowID : ℕ) (inRegion : Bool) (b : Entry) :
    Quietly s (s.displaceRow rowID inRegion b) := by
  unfold displaceRow Quietly
  rw [post_ite]
  refine ⟨fun _ => (removeRow_quiet s _).bind fun r hr => ?_,fun _ => rfl⟩
  rw [post_pure]
  split
  · exact hr.trans (quiet_addVirtualDelay _ _)
  · exact hr

theorem placeRow_quiet (s : RowQuarantine) (rowID : ℕ) (orig : Entry) : Quietly s (s.placeRow rowID orig) := by
  unfold placeRow
  refine (post_true _).bind fun _ _ => ?_
  have hs:=(quiet_addDelay s s.moveDelay).trans (quiet_addVirtualDelay _ s.accDelay)
  rw [post_ite]
  refine ⟨fun _ => (post_true _).bind fun e _ => (post_true _).bind fun _ _ => ?_,fun _ => hs⟩
  refine hs.trans ?_
  dsimp only
  split
  · exact quiet_addVirtualDelay {(s.addDelay s.moveDelay).addVirtualDelay s.accDelay with
      indirection := _} _
  · rfl

theorem countMove_migrations {st st' : Stats} (h : st.migrations=st'.migrations) (inRegion removed : Bool) :
    (st.countMove inRegion removed).migrations=(st'.countMove inRegion removed).migrations := by
  simp only [Stats.migrations,Migrations.mk.injEq] at h
  obtain ⟨h1,h2,h3,h4,h5⟩:=h
  cases inRegion <;> cases removed <;> simp only [Stats.countMove,Stats.migrations,h1,h2,h3,h4,h5]

theorem countMove_moved (st : Stats) (inRegion removed : Bool) :
    st.migrations.Moved (st.countMove inRegion removed).migrations := by
  cases inRegion with
  | false =>
    cases removed with
    | false => exact .toQr
    | true => exact .toQrRemove
  | true =>
    cases removed with
    | false => exact .withinQr
    | true => exact .withinQrRemove

theorem quarantineRow_migrations (s : RowQuarantine) (rowID : ℕ) : Post (s.quarantineRow rowID)
    (fun s' => s'.stats.migrations=(s.stats.countMove (s.indirection.rowToQRT.get rowID).valid
      s.headEntry.valid).migrations) := by
  unfold quarantineRow
  rw [post_bind,Cells.post_read]
  refine ⟨fun _ => ?_,fun _ => trivial⟩
  have henter:=(enterRow_frame s rowID (s.indirection.rowToQRT.get rowID).valid).and
    (enterRow_quiet s rowID (s.indirection.rowToQRT.get rowID).valid)
  refine (henter.partly).bind fun u hu => ?_
  have hlook:=hu.1.looked (looked_addVirtualDelay u u.accDelay)
  have hquiet:=Quiet.trans hu.2 (quiet_addVirtualDelay u u.accDelay)
  dsimp only
  generalize u.addVirtualDelay u.accDelay=v at hlook hquiet
  rw [post_bind,Cells.post_read,hlook.indirection]
  refine ⟨fun _ => ?_,fun _ => trivial⟩
  refine (displaceRow_quiet v rowID _ _).bind fun w hw => ?_
  refine (placeRow_quiet w rowID _).bind fun x hx => ?_
  exact countMove_migrations ((hquiet.trans hw).trans hx) _ _

theorem drainRow_migrations (s : RowQuarantine) : Post s.drainRow
    (fun s' => (¬s.Drains ∧ Quiet s s') ∨ (s.Drains ∧ s'.stats.migrations =
      {s.stats.migrations with drained := s.stats.migrations.drained+1})) := by
  unfold drainRow
  have hlook:=looked_addVirtualDelay s s.accDelay
  have hquiet:=quiet_addVirtualDelay s s.accDelay
  dsimp only
  generalize s.addVirtualDelay s.accDelay=u at hlook hquiet
  have htables:=hlook.indirection
  rw [post_bind,Cells.post_read,htables]
  refine ⟨fun hsize => ?_,fun _ => trivial⟩
  rw [post_ite]
  refine ⟨fun hcond => ?_,fun hcond => .inl ⟨fun hd => hcond ⟨hd.1,hd.2.2⟩,hquiet⟩⟩
  refine (removeRow_quiet _ _).bind fun r hr => .inr ⟨⟨hcond.1,hsize,hcond.2⟩,?_⟩
  have hdelays : Quiet r.1
      (((r.1.addDelay u.moveDelay).addVirtualDelay u.accDelay).addVirtualDelay u.accDelay) :=
    ((quiet_addDelay r.1 u.moveDelay).trans (quiet_addVirtualDelay _ _)).trans
      (quiet_addVirtualDelay _ _)
  have hdrained : {u.stats with sDrainQr := u.stats.sDrainQr+1}.migrations =
      {s.stats.migrations with drained := s.stats.migrations.drained+1} := by
    rw [← show u.stats.migrations=s.stats.migrations from hquiet]
    rfl
  exact (Eq.trans hdelays hr).trans hdrained

theorem reset_quiet (s : RowQuarantine) : Quietly s s.reset := by
  unfold reset
  refine (sweepRows_frame _ s.numRows 0).forget ?_
  rintro u ⟨acc,rows,residency,_,rfl⟩
  rfl

theorem startAccess_quiet (s : RowQuarantine) (currTick : UInt64) : Quietly s (s.startAccess currTick) := by
  unfold startAccess Quietly
  rw [post_ite]
  exact ⟨fun _ => reset_quiet _,fun _ => rfl⟩

theorem detect_quiet (s : RowQuarantine) (currTick : UInt64) (addr : ℕ) : Quietly s (s.detect currTick addr) :=
  detect_of (startAccess_quiet s currTick)
    (fun u rowID hu => (addQCheckDelay_quiet u rowID).imp fun _ hv => hu.trans hv)
    (fun _ _ _ hu => hu) fun _ _ _ _ _ hu _ => hu

def quarantinedRows (s : RowQuarantine) : Finset ℕ :=
  (Finset.range s.numRows).filter fun r => (s.indirection.rowToQRT.get r).valid=true

def filledSlots (s : RowQuarantine) : Finset ℕ :=
  (Finset.range s.numQREntries).filter fun q => (s.indirection.qrToRowT.get q).valid=true

variable {rows n : ℕ} {f : ℕ ≃. ℕ}

theorem quarantinedRows_eq (hs : s.Mapped rows n) (hf : s.indirection.Represents f) :
    s.quarantinedRows=placed (Finset.range rows) f := by
  ext r
  rw [quarantinedRows,hs.1,mem_filter,mem_placed,mem_range]
  refine and_congr_right fun hr => ⟨fun hv => ⟨(s.indirection.rowToQRT.get r).value,?_⟩,fun h => ?_⟩
  · rw [← hf.slots]
    exact IndirectionTables.slotOf_eq_some.mpr ⟨hs.2.2.rowTable.symm ▸ hr,hv,rfl⟩
  · obtain ⟨q,hq⟩:=h
    rw [← hf.slots,IndirectionTables.slotOf_eq_some] at hq
    exact hq.2.1

theorem filledSlots_eq (hs : s.Mapped rows n) (hf : s.indirection.Represents f) :
    s.filledSlots=placed (Finset.range n) f.symm := by
  ext q
  rw [filledSlots,hs.2.1,mem_filter,mem_placed,mem_range]
  refine and_congr_right fun hq => ⟨fun hv => ⟨(s.indirection.qrToRowT.get q).value,?_⟩,fun h => ?_⟩
  · rw [← hf.rows]
    exact IndirectionTables.rowAt_eq_some.mpr ⟨hs.2.2.slotTable.symm ▸ hq,hv,rfl⟩
  · obtain ⟨r,hr⟩:=h
    rw [← hf.rows,IndirectionTables.rowAt_eq_some] at hr
    exact hr.2.1

theorem mapped_range (hs : s.Mapped rows n) (hf : s.indirection.Represents f) (r q : ℕ)
    (h : f r=some q) : r∈Finset.range rows ∧ q∈Finset.range n := by
  have hr:=h
  rw [← hf.slots,IndirectionTables.slotOf_eq_some] at hr
  have hq:=f.eq_some_iff.mpr h
  rw [← hf.rows,IndirectionTables.rowAt_eq_some] at hq
  rw [mem_range,mem_range,← hs.2.2.rowTable,← hs.2.2.slotTable]
  exact ⟨hr.1,hq.1⟩

def Accounted (rows n : ℕ) (s : RowQuarantine) : Prop :=
  s.Mapped rows n ∧ UInt64.ofNat s.quarantinedRows.card=s.stats.migrations.balance

theorem Accounted.keep (hs : s.Accounted rows n) (hm : s'.Mapped rows n)
    (ht : s'.indirection.rowToQRT=s.indirection.rowToQRT) (hq : Quiet s s') : s'.Accounted rows n := by
  refine ⟨hm,?_⟩
  have hres : s'.quarantinedRows=s.quarantinedRows := by
    rw [quarantinedRows,quarantinedRows,hm.1,hs.1.1,ht]
  rw [hres,hs.2,show s'.stats.migrations=s.stats.migrations from hq]

theorem balance_countMove (st : Stats) (inRegion removed : Bool) :
    (st.countMove inRegion removed).migrations.balance +
        UInt64.ofNat (if inRegion=true ∧ removed=true then 1 else 0) =
      st.migrations.balance+UInt64.ofNat (if inRegion=false ∧ removed=false then 1 else 0) := by
  cases inRegion <;> cases removed <;>
    simp [Stats.countMove,Stats.migrations,Migrations.balance] <;> grind

theorem quarantineRow_accounted (hs : s.Accounted rows n) (rowID : ℕ) :
    Post (s.quarantineRow rowID) (Accounted rows n) := by
  obtain ⟨hm,hbalance⟩:=hs
  obtain ⟨f,hf⟩:=hm.2.2.inverse
  have hall:=((quarantineRow_frame hf rowID).and (quarantineRow_mapped hm rowID)).and
    (quarantineRow_migrations s rowID)
  refine hall.forget ?_
  rintro s' ⟨⟨⟨hrow,hnext,hu⟩,hm'⟩,hcount⟩
  refine ⟨hm',?_⟩
  have hf' : s'.indirection.Represents (relocate f rowID s.indirection.nextFreeQRID) := by
    rw [hu.indirection]
    exact advanceHead_represents (IndirectionTables.quarantined_represents hf hrow hnext) _
  have hin : (f rowID).isSome=(s.indirection.rowToQRT.get rowID).valid := by
    rw [← hf.slots,IndirectionTables.slotOf]
    cases hv : (s.indirection.rowToQRT.get rowID).valid <;> simp [hrow]
  have hout : (f.symm s.indirection.nextFreeQRID).isSome=s.headEntry.valid := by
    rw [← hf.rows,IndirectionTables.rowAt,headEntry]
    cases hv : (s.indirection.qrToRowT.get s.indirection.nextFreeQRID).valid <;> simp [hnext]
  have hcard:=card_relocate (f := f) (q := s.indirection.nextFreeQRID)
    (mem_range.mpr (hm.2.2.rowTable ▸ hrow)) fun r hr => (mapped_range hm hf r _ hr).1
  have hbal:=balance_countMove s.stats (s.indirection.rowToQRT.get rowID).valid s.headEntry.valid
  rw [quarantinedRows_eq hm' hf',hcount]
  rw [quarantinedRows_eq hm hf] at hbalance
  rw [hin,hout] at hcard
  have hofNat:=congrArg UInt64.ofNat hcard
  rw [UInt64.ofNat_add,UInt64.ofNat_add,hbalance,← hbal] at hofNat
  exact (UInt64.add_left_inj _).mp hofNat

theorem drainRow_accounted (hs : s.Accounted rows n) : Post s.drainRow (Accounted rows n) := by
  obtain ⟨hm,hbalance⟩:=hs
  obtain ⟨f,hf⟩:=hm.2.2.inverse
  have hall:=((drainRow_frame hf).and (drainRow_mapped hm)).and (drainRow_migrations s)
  refine hall.forget ?_
  rintro s' ⟨⟨hu | ⟨hd,hu⟩,hm'⟩,hq | ⟨hd',hq⟩⟩
  · exact Accounted.keep ⟨hm,hbalance⟩ hm' (by rw [hu.2.indirection]) hq.2
  · exact (hu.1 hd').elim
  · exact (hq.1 hd).elim
  refine ⟨hm',?_⟩
  have hf' : s'.indirection.Represents (release f s.indirection.qrTailID) := by
    rw [hu.indirection]
    have hrem:=IndirectionTables.removed_represents hf hd.2.1 hd.2.2
    exact ⟨hrem.slots,hrem.rows⟩
  have htail : f s.tailEntry.value=some s.indirection.qrTailID := by
    have hocc : s.indirection.rowAt s.indirection.qrTailID=some s.tailEntry.value :=
      IndirectionTables.rowAt_eq_some.mpr ⟨hd.2.1,hd.2.2,rfl⟩
    rw [hf.rows,f.eq_some_iff] at hocc
    exact hocc
  have hcard:=congrArg UInt64.ofNat (card_release htail (mapped_range hm hf _ _ htail).1)
  rw [quarantinedRows_eq hm' hf',hq]
  rw [quarantinedRows_eq hm hf] at hbalance
  rw [UInt64.ofNat_add,hbalance] at hcard
  simp only [Migrations.balance] at hcard ⊢
  grind

theorem detect_accounted (hs : s.Accounted rows n) (currTick : UInt64) (addr : ℕ) :
    Post (s.detect currTick addr) (Accounted rows n) := by
  have hall:=((detect_frame s currTick addr).and (detect_mapped hs.1 currTick addr)).and
    (detect_quiet s currTick addr)
  refine hall.forget ?_
  rintro s' ⟨⟨hd,hm'⟩,hq⟩
  refine hs.keep hm' ?_ hq
  obtain ⟨-,u,v,acc,det,flag,hu,-,hv,-,rfl⟩:=hd
  change v.indirection.rowToQRT=_
  rw [hv.indirection]
  rcases hu with ⟨-,acc',d,st,rfl⟩ | ⟨-,d,st,rfl⟩ <;> rfl

theorem perform_accounted (hs : s.Accounted rows n) (a : Action) :
    Post (s.perform a) (Accounted rows n) := by
  cases a with
  | access currTick addr =>
    exact access_of (detect_accounted hs currTick addr)
      (fun u hu rowID => quarantineRow_accounted hu rowID)
      (fun u misses hu => drainRow_accounted (s := {u with prevDrainCacheMissVal := misses}) hu)
      fun _ _ => trivial
  | startAccess currTick =>
    have hall:=((startAccess_frame s currTick).and (perform_mapped hs.1 (.startAccess currTick))).and
      (startAccess_quiet s currTick)
    refine hall.forget ?_
    rintro s' ⟨⟨hu,hm'⟩,hq⟩
    refine hs.keep hm' ?_ hq
    rcases hu with ⟨-,acc',d,st,rfl⟩ | ⟨-,d,st,rfl⟩ <;> rfl
  | detect currTick addr => exact detect_accounted hs currTick addr
  | addQCheckDelay rowID =>
    have hall:=((addQCheckDelay_frame s rowID).and (perform_mapped hs.1 (.addQCheckDelay rowID))).and
      (addQCheckDelay_quiet s rowID)
    refine hall.forget ?_
    rintro s' ⟨⟨hu,hm'⟩,hq⟩
    exact hs.keep hm' (by rw [hu.2.indirection]) hq
  | quarantineRow rowID => exact quarantineRow_accounted hs rowID
  | drainRow => exact drainRow_accounted hs
  | reset =>
    have hall:=((reset_frame s).and (perform_mapped hs.1 .reset)).and (reset_quiet s)
    refine hall.forget ?_
    rintro s' ⟨⟨⟨acc,st,rfl⟩,hm'⟩,hq⟩
    exact hs.keep hm' rfl hq

theorem construct_accounted (numQREntries rowsPerBank threshold numBanks numRanks numChannels : ℕ)
    (draws : ℕ → ℕ) (memory : RowQuarantine) :
    (construct numQREntries rowsPerBank threshold numBanks numRanks numChannels draws memory).Accounted
      (rowsPerBank*numBanks*numRanks*numChannels%2^32) numQREntries := by
  refine ⟨construct_mapped ..,?_⟩
  have hnone : (construct numQREntries rowsPerBank threshold numBanks numRanks numChannels draws
      memory).quarantinedRows = ∅ := by
    refine filter_eq_empty_iff.mpr fun r _ => ?_
    simp [construct]
  rw [hnone]
  change UInt64.ofNat 0=(0-0-0 : UInt64)
  decide

/-- The reported migrations account for the rows in the region, in every reachable state. -/
theorem migrations_accounted
    (numQREntries rowsPerBank threshold numBanks numRanks numChannels : ℕ)
    (draws : ℕ → ℕ) (memory : RowQuarantine)
    (h : Reachable (construct numQREntries rowsPerBank threshold numBanks numRanks numChannels
      draws memory) s) :
    s.quarantinedRows.card=s.filledSlots.card ∧ s.quarantinedRows.card≤numQREntries ∧
    UInt64.ofNat s.quarantinedRows.card =
      s.stats.sMoveToQr-s.stats.sMoveWithinQrRemove-s.stats.sDrainQr ∧
    (numQREntries<2^64 → s.quarantinedRows.card =
      (s.stats.sMoveToQr-s.stats.sMoveWithinQrRemove-s.stats.sDrainQr).toNat) ∧
    ∀ rowID,Post (s.quarantineRow rowID)
      (fun s' => s.stats.migrations.Moved s'.stats.migrations) := by
  have hs:=reachable_of (construct_accounted ..) (fun u hu a => perform_accounted hu a) h
  obtain ⟨f,hf⟩:=hs.1.2.2.inverse
  have hcard : s.quarantinedRows.card=s.filledSlots.card := by
    rw [quarantinedRows_eq hs.1 hf,filledSlots_eq hs.1 hf]
    exact card_placed_symm (mapped_range hs.1 hf)
  have hle : s.quarantinedRows.card≤numQREntries := by
    have hfilter:=Finset.card_filter_le (Finset.range s.numQREntries)
      fun q => (s.indirection.qrToRowT.get q).valid=true
    rw [Finset.card_range,hs.1.2.1] at hfilter
    rw [hcard,filledSlots,hs.1.2.1]
    exact hfilter
  have hlaw : UInt64.ofNat s.quarantinedRows.card =
      s.stats.sMoveToQr-s.stats.sMoveWithinQrRemove-s.stats.sDrainQr := hs.2
  refine ⟨hcard,hle,hlaw,fun hn => ?_,fun rowID => ?_⟩
  · rw [← hlaw,UInt64.toNat_ofNat_of_lt' (hle.trans_lt hn)]
  · refine (quarantineRow_migrations s rowID).forget fun s' hs' => ?_
    rw [hs']
    exact countMove_moved _ _ _

theorem migrations_accounted_of_selfDisplacement :
    ∃ s, Reachable (construct 2 4 1 1 1 1 id {zeroed with rowsPerBtvBit := 2}) s ∧
      s.stats.migrations=⟨2,0,0,1,0⟩ ∧ s.quarantinedRows.card=1 ∧ s.filledSlots.card=1 := by
  have hrun : Post (do
      let s ← (construct 2 4 1 1 1 1 id {zeroed with rowsPerBtvBit := 2}).quarantineRow 3
      let s ← s.quarantineRow 1
      s.quarantineRow 3) (fun s => s.stats.migrations=⟨2,0,0,1,0⟩) fun _ => False := by
    decide +kernel
  obtain ⟨s3,hs,hmoves⟩:=hrun.returns
  obtain ⟨s1,h1,hs⟩:=bind_ok hs
  obtain ⟨s2,h2,h3⟩:=bind_ok hs
  have hreach : Reachable (construct 2 4 1 1 1 1 id {zeroed with rowsPerBtvBit := 2}) s3 :=
    .step _ _ (.quarantineRow 3) (.step _ _ (.quarantineRow 1)
      (.step _ _ (.quarantineRow 3) .start h1) h2) h3
  have h:=migrations_accounted 2 4 1 1 1 1 id {zeroed with rowsPerBtvBit := 2} hreach
  have hcount : s3.quarantinedRows.card=1 := by
    have hto:=congrArg Migrations.toQr hmoves
    have hwithin:=congrArg Migrations.withinQrRemove hmoves
    have hdrained:=congrArg Migrations.drained hmoves
    rw [h.2.2.2.1 (by decide),show s3.stats.sMoveToQr=2 from hto,
      show s3.stats.sMoveWithinQrRemove=1 from hwithin,show s3.stats.sDrainQr=0 from hdrained]
    decide
  exact ⟨s3,hreach,hmoves,hcount,h.1 ▸ hcount⟩

end RowQuarantine

end AquaGem5.Quarantine
