import AquaGem5.Quarantine.Frames

/-!
# Moves and resets on the tables and the counters

From tables that represent a partial equivalence no assert on the tables fires, and
`quarantineRow` and `drainRow` are relocations and releases followed by pointer updates.
-/

namespace AquaGem5.Quarantine.RowQuarantine
open Checked Detector Mitigation Relocation

variable {s s' : RowQuarantine} {t : IndirectionTables} {k k' : Counters}

theorem Updated.unmarked (h : Updated s t k s') {r : ℕ} {e : Fault} (he : s'.Unmarked k' r e) :
    s.Unmarked k' r e := by
  obtain ⟨f,c,d,st,hf,_,_,rfl⟩:=h
  have hnone : f=none ↔ s.filter=none := by
    rw [← Option.isSome_eq_false_iff.trans Option.isNone_iff_eq_none,
      ← Option.isSome_eq_false_iff.trans Option.isNone_iff_eq_none,hf]
  rcases he with ⟨he,hs⟩ | ⟨he,hs,hz⟩
  · exact .inl ⟨he,fun hn => hs (hnone.mpr hn)⟩
  · exact .inr ⟨he,hnone.mp hs,hz⟩

theorem cacheRow_frame (s : RowQuarantine) (index : ℕ) : Post (s.cacheRow index) (Looked s) Plain := by
  unfold cacheRow
  cases hc : s.cache with
  | none => exact looked_addVirtualDelay s _
  | some c =>
    have hsome : s.cache.isSome := by rw [hc]; rfl
    refine (plain_cache _).bind fun r _ => ?_
    rw [post_ite]
    constructor
    · intro _
      refine (insertRowInCache_frame s r.1 index true).bind ?_
      rintro ⟨u,isDirty,evicted⟩ ⟨c',st,rfl⟩
      have hu:=(Looked.refl s).setCache hsome c' st
      rw [post_pure]
      split
      · exact hu.looked (looked_addVirtualDelay _ _)
      · exact hu
    · intro _
      refine (plain_cache _).bind fun c' _ => ?_
      exact (Looked.refl s).setCache hsome c' s.stats

theorem enterRow_frame (s : RowQuarantine) (rowID : ℕ) (inRegion : Bool) :
    Post (s.enterRow rowID inRegion) (Updated s (s.indirection.mapRow rowID)
      (if inRegion=true then s.counters else s.marked s.counters rowID)) Plain := by
  unfold enterRow
  refine Post.bind (R := Updated s s.indirection
    (if inRegion=true then s.counters else s.marked s.counters rowID)) ?_ fun u hu => ?_
  · rw [post_ite]
    refine ⟨fun h => ?_,fun h => ?_⟩
    · rw [if_pos h]
      exact Looked.refl s
    · rw [if_neg h]
      exact setFilterEntry_frame s rowID
  · have hm : Updated s (s.indirection.mapRow rowID)
        (if inRegion=true then s.counters else s.marked s.counters rowID)
        {u with indirection := u.indirection.mapRow rowID} := by
      obtain ⟨f,c,d,st,hf,hc,hd,rfl⟩:=hu
      exact ⟨f,c,d,st,hf,hc,hd,rfl⟩
    exact (cacheRow_frame _ _).imp fun v hv => hm.looked hv

theorem displaceRow_frame (s : RowQuarantine) (rowID : ℕ) (inRegion : Bool) {b : Entry}
    (hb : b=s.indirection.qrToRowT.get s.indirection.nextFreeQRID)
    (hrow : b.valid=true → (s.indirection.rowToQRT.get b.value).valid=true) : Post (s.displaceRow rowID inRegion b)
      (Updated s (if b.valid=true then s.indirection.removed s.indirection.nextFreeQRID
        else s.indirection) (if b.valid=true then s.cleared s.counters b.value else s.counters))
      fun e => Plain e ∨ (b.valid=true ∧ s.Unmarked s.counters b.value e) := by
  subst hb
  unfold displaceRow
  rw [post_ite]
  constructor
  · intro hv
    rw [if_pos hv,if_pos hv]
    refine Post.bind ((removeRow_frame s (hrow hv)).mono (fun _ h => h)
      fun e he => he.imp_right fun hu => ⟨hv,hu⟩) fun p hp => ?_
    have hp':=hp.looked (looked_addDelay p.1 s.moveDelay)
    rw [post_pure]
    split
    · exact hp'.looked (looked_addVirtualDelay _ _)
    · exact hp'
  · intro hv
    rw [if_neg hv,if_neg hv]
    exact Looked.refl s

theorem placeRow_frame (s : RowQuarantine) (rowID : ℕ) (orig : Entry) (horig : orig.valid=true →
      ((s.indirection.fillSlot rowID).qrToRowT.get orig.value).valid=true) :
    Post (s.placeRow rowID orig) (fun s' => s.indirection.nextFreeQRID<s.indirection.qrToRowT.size ∧
      Updated s (if orig.valid=true then (s.indirection.fillSlot rowID).clearSlot orig.value
        else s.indirection.fillSlot rowID) s.counters s') Plain := by
  unfold placeRow
  have hu:=(looked_addDelay s s.moveDelay).looked (looked_addVirtualDelay _ s.accDelay)
  generalize (s.addDelay s.moveDelay).addVirtualDelay s.accDelay=u at hu
  obtain ⟨f,c,d,st,hf,hc,hd,rfl⟩:=hu
  rw [post_bind,post_check]
  refine ⟨fun hnext => ?_,fun _ => trivial⟩
  have hfill : Updated s (s.indirection.fillSlot rowID) s.counters {s with
      indirection := s.indirection.fillSlot rowID, filter := f, cache := c, decision := d, stats := st} :=
    ⟨f,c,d,st,hf,hc,hd,rfl⟩
  rw [post_ite]
  constructor
  · intro hv
    rw [if_pos hv]
    have hdelay : ∀ u, Updated s (s.indirection.fillSlot rowID) s.counters u →
        Post (do
          let e ← u.indirection.qrToRowT.read orig.value
          check (e.valid=true) .slotNotMapped
          pure {u with indirection := u.indirection.clearSlot orig.value} : Except Fault RowQuarantine)
        (fun s' => s.indirection.nextFreeQRID<s.indirection.qrToRowT.size ∧
          Updated s ((s.indirection.fillSlot rowID).clearSlot orig.value) s.counters s') Plain := by
      intro u hu
      simp only [post_bind,Cells.post_read,post_check,post_pure]
      refine ⟨fun _ => ⟨fun _ => ⟨hnext,?_⟩,fun hno => ?_⟩,fun _ => trivial⟩
      · obtain ⟨f',c',d',st',hf',hc',hd',rfl⟩:=hu
        exact ⟨f',c',d',st',hf',hc',hd',rfl⟩
      · rw [hu.indirection] at hno
        exact hno (horig hv)
    dsimp only
    split
    · exact hdelay _ (hfill.looked (looked_addVirtualDelay _ _))
    · exact hdelay _ hfill
  · intro hv
    rw [if_neg hv]
    exact ⟨hnext,hfill⟩

def enteredCounters (s : RowQuarantine) (rowID : ℕ) : Counters :=
  if (s.indirection.rowToQRT.get rowID).valid=true then s.counters else s.marked s.counters rowID

def headEntry (s : RowQuarantine) : Entry := s.indirection.qrToRowT.get s.indirection.nextFreeQRID

def quarantinedCounters (s : RowQuarantine) (rowID : ℕ) : Counters :=
  if s.headEntry.valid=true then s.cleared (s.enteredCounters rowID) s.headEntry.value
  else s.enteredCounters rowID

variable {f : ℕ ≃. ℕ}

theorem headEntry_mapped (hf : s.indirection.Represents f) (a : ℕ)
    (hnext : s.indirection.nextFreeQRID<s.indirection.qrToRowT.size)
    (hv : s.headEntry.valid=true) : s.headEntry.value<s.indirection.rowToQRT.size ∧
      ((s.indirection.mapRow a).rowToQRT.get s.headEntry.value).valid=true := by
  have hocc : s.indirection.rowAt s.indirection.nextFreeQRID=some s.headEntry.value :=
    IndirectionTables.rowAt_eq_some.mpr ⟨hnext,hv,rfl⟩
  rw [hf.rows,f.eq_some_iff,← hf.slots,IndirectionTables.slotOf_eq_some] at hocc
  refine ⟨hocc.1,?_⟩
  simp only [IndirectionTables.mapRow,Cells.get_set]
  split
  · rfl
  · exact hocc.2.1

theorem quarantineRow_frame (hs : s.indirection.Represents f) (rowID : ℕ) :
    Post (s.quarantineRow rowID) (fun s' => rowID<s.indirection.rowToQRT.size ∧
      s.indirection.nextFreeQRID<s.indirection.qrToRowT.size ∧
      Updated s ((s.indirection.quarantined rowID).advanceHead s.numQREntries) (s.quarantinedCounters rowID) s')
      fun e => Plain e ∨ (rowID<s.indirection.rowToQRT.size ∧ s.indirection.nextFreeQRID<s.indirection.qrToRowT.size ∧
        s.headEntry.valid=true ∧ s.Unmarked (s.enteredCounters rowID) s.headEntry.value e) := by
  unfold quarantineRow
  rw [post_bind,Cells.post_read]
  refine ⟨fun hrow => ?_,fun _ => .inl trivial⟩
  refine ((enterRow_frame s rowID _).mono (fun _ h => h) fun _ => .inl).bind fun u hu => ?_
  have hu':=hu.looked (looked_addVirtualDelay u u.accDelay)
  generalize u.addVirtualDelay u.accDelay=v at hu'
  have hvt:=hu'.indirection
  have hvk:=hu'.counters
  rw [post_bind,Cells.post_read,hvt]
  refine ⟨fun hnext => ?_,fun _ => .inl trivial⟩
  have hnext' : s.indirection.nextFreeQRID<s.indirection.qrToRowT.size := hnext
  have hdis:=displaceRow_frame v rowID (s.indirection.rowToQRT.get rowID).valid
    (b := s.headEntry) (by rw [hvt]; rfl)
    (by rw [hvt]; exact fun hv => (headEntry_mapped hs rowID hnext' hv).2)
  rw [hvt,hvk,hu'.cleared] at hdis
  refine Post.bind (hdis.mono (fun _ h => h) fun e he => he.imp_right fun h => ⟨hrow,hnext',h.1,hu'.unmarked h.2⟩) ?_
  intro w hw
  have hsw:=hu'.trans hw
  -- Qj is still filled when A leaves it
  have horig : (s.indirection.rowToQRT.get rowID).valid=true →
      ((w.indirection.fillSlot rowID).qrToRowT.get (s.indirection.rowToQRT.get rowID).value).valid=true := by
    intro hv
    have hslot : s.indirection.slotOf rowID=some (s.indirection.rowToQRT.get rowID).value :=
      IndirectionTables.slotOf_eq_some.mpr ⟨hrow,hv,rfl⟩
    rw [hs.slots,← f.eq_some_iff,← hs.rows,IndirectionTables.rowAt_eq_some] at hslot
    rw [hw.indirection]
    by_cases hq : (s.indirection.rowToQRT.get rowID).value=s.indirection.nextFreeQRID
    · split <;> simp [IndirectionTables.fillSlot,IndirectionTables.mapRow,IndirectionTables.removed,
        IndirectionTables.clearSlot,IndirectionTables.clearRow,hq]
    · split <;> simp [IndirectionTables.fillSlot,IndirectionTables.mapRow,IndirectionTables.removed,
        IndirectionTables.clearSlot,IndirectionTables.clearRow,Cells.get_set,hq,hslot.2.1]
  refine Post.bind ((placeRow_frame w rowID _ horig).mono (fun _ h => h) fun _ => .inl) ?_
  rintro x ⟨_,hx⟩
  have hsx:=hsw.trans hx
  refine ⟨hrow,hnext',?_⟩
  rw [hw.indirection,hw.counters] at hsx
  obtain ⟨f',c',d',st',hf',hc',hd',rfl⟩:=hsx
  exact ⟨f',c',d',_,hf',hc',hd',rfl⟩

def Drains (s : RowQuarantine) : Prop :=
  s.indirection.qrTailID≠s.indirection.prevQRHeadID ∧
    s.indirection.qrTailID<s.indirection.qrToRowT.size ∧
    (s.indirection.qrToRowT.get s.indirection.qrTailID).valid=true

def tailEntry (s : RowQuarantine) : Entry := s.indirection.qrToRowT.get s.indirection.qrTailID

theorem tailEntry_mapped (hf : s.indirection.Represents f) (hd : s.Drains) :
    s.tailEntry.value<s.indirection.rowToQRT.size ∧ (s.indirection.rowToQRT.get s.tailEntry.value).valid=true := by
  have hocc : s.indirection.rowAt s.indirection.qrTailID=some s.tailEntry.value :=
    IndirectionTables.rowAt_eq_some.mpr ⟨hd.2.1,hd.2.2,rfl⟩
  rw [hf.rows,f.eq_some_iff,← hf.slots,IndirectionTables.slotOf_eq_some] at hocc
  exact ⟨hocc.1,hocc.2.1⟩

theorem drainRow_frame (hs : s.indirection.Represents f) :
    Post s.drainRow (fun s' => (¬s.Drains ∧ Looked s s') ∨ (s.Drains ∧
        Updated s ((s.indirection.removed s.indirection.qrTailID).advanceTail s.numQREntries)
          (s.cleared s.counters s.tailEntry.value) s'))
      fun e => Plain e ∨ (s.Drains ∧ s.Unmarked s.counters s.tailEntry.value e) := by
  unfold drainRow
  have hu:=looked_addVirtualDelay s s.accDelay
  generalize s.addVirtualDelay s.accDelay=u at hu
  obtain ⟨f1,c1,d1,st1,hf1,hc1,hd1,rfl⟩:=hu
  rw [post_bind,Cells.post_read]
  refine ⟨fun hsize => ?_,fun _ => .inl trivial⟩
  rw [post_ite]
  refine ⟨fun hcond => ?_,
    fun hcond => .inl ⟨fun hd => hcond ⟨hd.1,hd.2.2⟩,f1,c1,d1,st1,hf1,hc1,hd1,rfl⟩⟩
  obtain ⟨hne,hv⟩:=hcond
  have hdrains : s.Drains := ⟨hne,hsize,hv⟩
  have hst : Looked s {s with
      filter := f1, cache := c1, decision := d1, stats := {st1 with sDrainQr := st1.sDrainQr+1} } :=
    ⟨f1,c1,d1,_,hf1,hc1,hd1,rfl⟩
  have hremove:=removeRow_frame {s with
      filter := f1, cache := c1, decision := d1, stats := {st1 with sDrainQr := st1.sDrainQr+1} }
    (tailEntry_mapped hs hdrains).2
  refine Post.bind (hremove.mono (fun _ h => h)
    fun e he => he.imp_right fun h => ⟨hdrains,hst.unmarked h⟩) ?_
  rintro ⟨v,isDirty⟩ hv
  have hw:=((hst.trans hv).looked (looked_addDelay _ s.moveDelay)).looked
    (looked_addVirtualDelay _ s.accDelay)
  have hw':=hw.looked (looked_addVirtualDelay _ s.accDelay)
  rw [hst.cleared] at hw'
  refine .inr ⟨hdrains,?_⟩
  dsimp only
  generalize ((v.addDelay s.moveDelay).addVirtualDelay s.accDelay).addVirtualDelay s.accDelay=w at hw'
  obtain ⟨f2,c2,d2,st2,hf2,hc2,hd2,rfl⟩:=hw'
  exact ⟨f2,c2,d2,st2,hf2,hc2,hd2,rfl⟩

def SweptTo (s s' : RowQuarantine) : Prop :=
  ∃ acc rows residency,acc.size=s.numAccessesToRow.size ∧ s'={s with
    numAccessesToRow := acc
    stats := {s.stats with rows := rows, sBtvResidency := residency} }

theorem SweptTo.trans {u : RowQuarantine} (h : SweptTo s s') (h' : SweptTo s' u) : SweptTo s u := by
  obtain ⟨acc,rows,residency,hsize,rfl⟩:=h
  obtain ⟨acc',rows',residency',hsize',rfl⟩:=h'
  exact ⟨acc',rows',residency',hsize'.trans hsize,rfl⟩

theorem sweepRows_frame (s : RowQuarantine) (fuel rval : ℕ) : Post (s.sweepRows fuel rval) (SweptTo s) Plain := by
  induction fuel generalizing s rval with
  | zero => exact ⟨_,_,_,rfl,rfl⟩
  | succ fuel ih =>
    have hrec : ∀ u,SweptTo s u → Post (u.sweepRows fuel (rval+1)) (SweptTo s) Plain := fun u hu =>
      (ih u (rval+1)).imp fun v hv => hu.trans hv
    unfold sweepRows
    simp only [post_bind,Cells.post_read,post_udiv]
    refine ⟨fun _ => ⟨fun _ => trivial,fun _ => ?_⟩,fun _ => trivial⟩
    rw [post_ite]
    constructor
    · intro _
      simp only [post_bind,Cells.post_read]
      exact ⟨fun _ => hrec _ ⟨s.numAccessesToRow.set rval 0,_,_,rfl,rfl⟩,fun _ => trivial⟩
    · intro _
      exact hrec _ ⟨s.numAccessesToRow.set rval 0,_,_,rfl,rfl⟩

theorem reset_frame (s : RowQuarantine) : Post s.reset (fun s' => ∃ acc st, s'={s with
    detector := s.detector.reset
    indirection := {s.indirection with prevQRHeadID := s.indirection.nextFreeQRID}
    numAccessesToRow := acc
    stats := st}) Plain := by
  unfold reset
  refine (sweepRows_frame _ s.numRows 0).imp ?_
  rintro u ⟨acc,_,_,_,rfl⟩
  exact ⟨acc,_,rfl⟩

def Refreshed (s : RowQuarantine) (currTick : UInt64) (u : RowQuarantine) : Prop :=
  (windowOver currTick s.lastReset=true ∧ ∃ acc d st, u={s with
      lastReset := currTick
      detector := s.detector.reset
      indirection := {s.indirection with prevQRHeadID := s.indirection.nextFreeQRID}
      numAccessesToRow := acc, decision := d, stats := st}) ∨
    (windowOver currTick s.lastReset=false ∧ ∃ d st, u={s with decision := d, stats := st})

theorem startAccess_frame (s : RowQuarantine) (currTick : UInt64) :
    Post (s.startAccess currTick) (Refreshed s currTick) Plain := by
  unfold startAccess
  rw [post_ite]
  constructor
  · intro h
    refine (reset_frame _).imp ?_
    rintro u ⟨acc,st,rfl⟩
    exact .inl ⟨h,acc,_,st,rfl⟩
  · intro h
    exact .inr ⟨by simpa using h,_,_,rfl⟩

def detectorRow (s : RowQuarantine) (row : ℕ) : ℕ := row/16%(s.numRows/16)

def detectorBank (row : ℕ) : Bank := ⟨0,0,row%16⟩

structure Detected (s : RowQuarantine) (currTick : UInt64) (addr : ℕ) (s' : RowQuarantine) : Prop where
  inRange : addr/8192<s.randRowID.size
  steps : ∃ u v acc det flag, Refreshed s currTick u ∧
    u.addQCheckDelay (s.randRowID.get (addr/8192)) = .ok v ∧ Looked u v ∧
    u.detector.access (s.detectorRow (s.randRowID.get (addr/8192%2^32)))
      (detectorBank (s.randRowID.get (addr/8192%2^32))) false = .ok (det,flag) ∧
    s'={v with numAccessesToRow := acc, detector := det, decision := {v.decision with mitigate := flag} }

theorem detect_frame (s : RowQuarantine) (currTick : UInt64) (addr : ℕ) :
    Post (s.detect currTick addr) (s.Detected currTick addr) fun e => Plain e ∨ ∃ rowID, s.Missed rowID e := by
  unfold detect
  refine ((startAccess_frame s currTick).mono (fun _ h => h) fun _ => .inl).bind fun u hu => ?_
  have hrand : u.randRowID=s.randRowID := by
    rcases hu with ⟨_,acc,d,st,rfl⟩ | ⟨_,d,st,rfl⟩ <;> rfl
  have hrows : u.numRows=s.numRows := by
    rcases hu with ⟨_,acc,d,st,rfl⟩ | ⟨_,d,st,rfl⟩ <;> rfl
  have hmissed : ∀ rowID e, u.Missed rowID e → s.Missed rowID e := by
    intro rowID e he
    rcases hu with ⟨_,acc,d,st,rfl⟩ | ⟨_,d,st,rfl⟩ <;> exact he
  rw [post_bind,Cells.post_read,hrand]
  refine ⟨fun hrange => ?_,fun _ => .inl trivial⟩
  refine Post.bind ((addQCheckDelay_frame u _).eq_ok.mono (fun _ h => h)
    fun e he => he.imp_right fun h => ⟨_,hmissed _ e h⟩) fun v ⟨hcheck,_,hv⟩ => ?_
  have hsame : v.randRowID=s.randRowID ∧ v.numRows=s.numRows ∧ v.detector=u.detector := by
    obtain ⟨f,c,d,st,_,_,_,rfl⟩:=hv
    exact ⟨hrand,hrows,rfl⟩
  unfold decodeAddr
  simp only [post_bind,Cells.post_read,post_umod,post_pure,hsame.1,hsame.2.1,hsame.2.2]
  refine ⟨fun _ => ⟨fun _ => ⟨fun _ => .inl trivial,fun _ => ?_⟩,fun _ => .inl trivial⟩,
    fun _ => .inl trivial⟩
  rw [post_within]
  cases hd : u.detector.access (s.randRowID.get (addr/8192%2^32)/16%(s.numRows/16))
      ⟨0,0,s.randRowID.get (addr/8192%2^32)%16⟩ false with
  | error e => exact .inl trivial
  | ok r =>
    obtain ⟨det,flag⟩:=r
    refine ⟨hrange,u,v,v.numAccessesToRow.set (addr/8192%2^32)
      (inc32 (v.numAccessesToRow.get (addr/8192%2^32))),det,flag,hu,hcheck,hv,hd,?_⟩
    rw [← hsame.1,← hsame.2.1]

theorem detect_of {I : RowQuarantine → Prop} {currTick : UInt64} {addr : ℕ}
    (hstart : Post (s.startAccess currTick) I)
    (hcheck : ∀ u rowID,I u → Post (u.addQCheckDelay rowID) I)
    (hcount : ∀ u i count,I u → I {u with numAccessesToRow := u.numAccessesToRow.set i count})
    (hanswer : ∀ u row b d flag,I u → u.detector.access row b false = .ok (d,flag) →
      I {u with detector := d, decision := {u.decision with mitigate := flag} }) :
    Post (s.detect currTick addr) I := by
  unfold detect
  refine hstart.bind fun u hu => (post_true _).bind fun rowID _ => (hcheck u rowID hu).bind fun v hv => ?_
  refine Post.bind (R := fun r => I r.1) ?_ fun r hr => ?_
  · unfold decodeAddr
    refine (post_true _).bind fun count _ => (post_true _).bind fun _ _ => (post_true _).bind fun _ _ => ?_
    exact hcount v _ _ hv
  · rw [post_bind,post_within]
    exact (Post.eq_ok (post_true _)).forget fun d hd => hanswer r.1 _ _ d.1 d.2 hr hd.1

theorem access_of {I : RowQuarantine → Prop} {E : Fault → Prop} {currTick : UInt64} {addr : ℕ}
    (hdetect : Post (s.detect currTick addr) I E)
    (hquarantine : ∀ u, I u → ∀ rowID, Post (u.quarantineRow rowID) I E)
    (hdrain : ∀ u misses, I u → Post ({u with prevDrainCacheMissVal := misses} : RowQuarantine).drainRow I E)
    (hplain : ∀ e, Plain e → E e) : Post (s.access currTick addr) I E := by
  unfold access
  refine hdetect.bind fun u hu => ?_
  rw [post_ite]
  constructor
  · intro _
    rw [post_bind,Cells.post_read]
    exact ⟨fun _ => hquarantine u hu _,fun _ => hplain _ trivial⟩
  · intro _
    rw [post_ite]
    exact ⟨fun _ => hdrain u _ hu,fun _ => hu⟩

/-!
## The two tables are inverse in every reachable state

The runs of the class are sequences of its operations from the constructor, whatever the
filter, the cache and the detector are. `startAccess` and `detect` stand for an access that stops
before the lookup, or before the rows are moved, so that the states in the middle of an access
are reachable as well.
-/

inductive Action where
  | access (currTick : UInt64) (addr : ℕ)
  | startAccess (currTick : UInt64)
  | detect (currTick : UInt64) (addr : ℕ)
  | addQCheckDelay (rowID : ℕ)
  | quarantineRow (rowID : ℕ)
  | drainRow
  | reset

def perform (s : RowQuarantine) : Action → Except Fault RowQuarantine
  | .access currTick addr => s.access currTick addr
  | .startAccess currTick => s.startAccess currTick
  | .detect currTick addr => s.detect currTick addr
  | .addQCheckDelay rowID => s.addQCheckDelay rowID
  | .quarantineRow rowID => s.quarantineRow rowID
  | .drainRow => s.drainRow
  | .reset => s.reset

inductive Reachable (s0 : RowQuarantine) : RowQuarantine → Prop
  | start : Reachable s0 s0
  | step (s s' : RowQuarantine) (a : Action) : Reachable s0 s → s.perform a = .ok s' →
      Reachable s0 s'

theorem reachable_of {s0 s : RowQuarantine} {I : RowQuarantine → Prop} {E : Fault → Prop}
    (h0 : I s0) (hstep : ∀ u, I u → ∀ a, Post (u.perform a) I E) (h : Reachable s0 s) : I s := by
  induction h with
  | start => exact h0
  | step s s' a _ hs ih => exact (hstep s ih a).of_ok hs

structure Matched (rows n : ℕ) (t : IndirectionTables) : Prop where
  rowTable : t.rowToQRT.size=rows
  slotTable : t.qrToRowT.size=n
  pointers : 0<n → t.nextFreeQRID<n ∧ t.prevQRHeadID<n ∧ t.qrTailID<n
  inverse : ∃ f, t.Represents f

def Mapped (rows n : ℕ) (s : RowQuarantine) : Prop :=
  s.numRows=rows ∧ s.numQREntries=n ∧ Matched rows n s.indirection

def TableAssert (e : Fault) : Prop := e = .rowNotMapped ∨ e = .slotNotMapped

theorem plain_not_tableAssert {e : Fault} (h : Plain e) : ¬TableAssert e := by
  rintro (rfl | rfl) <;> exact h

theorem unmarked_not_tableAssert {s : RowQuarantine} {k : Counters} {r : ℕ} {e : Fault}
    (h : s.Unmarked k r e) : ¬TableAssert e := by
  rcases h with ⟨rfl,_⟩ | ⟨rfl,_⟩ <;> rintro (h | h) <;> cases h

variable {rows n : ℕ} {s s' : RowQuarantine} {t : IndirectionTables} {k : Counters}

theorem Mapped.updated (hs : s.Mapped rows n) (h : Updated s t k s') (ht : Matched rows n t) : s'.Mapped rows n := by
  obtain ⟨f,c,d,st,_,_,_,rfl⟩:=h
  exact ⟨hs.1,hs.2.1,ht⟩

theorem Mapped.looked (hs : s.Mapped rows n) (h : Looked s s') : s'.Mapped rows n :=
  hs.updated h hs.2.2

theorem Matched.atReset (ht : Matched rows n t) :
    Matched rows n {t with prevQRHeadID := t.nextFreeQRID} := by
  obtain ⟨f,hf⟩:=ht.inverse
  refine ⟨ht.rowTable,ht.slotTable,fun hn => ?_,f,hf.slots,hf.rows⟩
  obtain ⟨hnext,_,htail⟩:=ht.pointers hn
  exact ⟨hnext,hnext,htail⟩

theorem Mapped.refreshed (hs : s.Mapped rows n) {currTick : UInt64} (h : Refreshed s currTick s') :
    s'.Mapped rows n := by
  rcases h with ⟨_,acc,d,st,rfl⟩ | ⟨_,d,st,rfl⟩
  · exact ⟨hs.1,hs.2.1,hs.2.2.atReset⟩
  · exact hs

theorem advanceHead_represents {f : ℕ ≃. ℕ} (h : t.Represents f) (m : ℕ) : (t.advanceHead m).Represents f := by
  unfold IndirectionTables.advanceHead
  constructor
  · intro r
    split <;> exact h.slots r
  · intro q
    split <;> exact h.rows q

theorem advanceHead_tables (t : IndirectionTables) (m : ℕ) :
    (t.advanceHead m).rowToQRT=t.rowToQRT ∧ (t.advanceHead m).qrToRowT=t.qrToRowT ∧
      (t.advanceHead m).prevQRHeadID=t.prevQRHeadID ∧ (t.advanceHead m).nextFreeQRID=(t.nextFreeQRID+1)%m ∧
      (t.advanceHead m).qrTailID=if t.nextFreeQRID=t.qrTailID ∧ t.nextFreeQRID≠t.prevQRHeadID
        then (t.qrTailID+1)%m else t.qrTailID := by
  unfold IndirectionTables.advanceHead
  dsimp only
  split <;> exact ⟨rfl,rfl,rfl,rfl,rfl⟩

theorem quarantined_keeps (t : IndirectionTables) (a : ℕ) : (t.quarantined a).rowToQRT.size=t.rowToQRT.size ∧
      (t.quarantined a).qrToRowT.size=t.qrToRowT.size ∧ (t.quarantined a).nextFreeQRID=t.nextFreeQRID ∧
      (t.quarantined a).prevQRHeadID=t.prevQRHeadID ∧ (t.quarantined a).qrTailID=t.qrTailID := by
  unfold IndirectionTables.quarantined
  dsimp only
  split <;> split <;> exact ⟨rfl,rfl,rfl,rfl,rfl⟩

theorem Matched.push (ht : Matched rows n t) {a : ℕ} (ha : a<t.rowToQRT.size)
    (hnext : t.nextFreeQRID<t.qrToRowT.size) : Matched rows n ((t.quarantined a).advanceHead n) := by
  obtain ⟨f,hf⟩:=ht.inverse
  obtain ⟨hr,hq,hprev,hhead,htail⟩:=advanceHead_tables (t.quarantined a) n
  obtain ⟨hr',hq',hnext',hprev',htail'⟩:=quarantined_keeps t a
  have hrep:=IndirectionTables.quarantined_represents hf ha hnext
  refine ⟨by rw [hr,hr',ht.rowTable],by rw [hq,hq',ht.slotTable],fun hn => ?_,
    _,advanceHead_represents hrep n⟩
  obtain ⟨_,hp,htl⟩:=ht.pointers hn
  rw [hhead,hprev,htail,hprev',htail']
  refine ⟨Nat.mod_lt _ hn,hp,?_⟩
  split
  · exact Nat.mod_lt _ hn
  · exact htl

theorem Matched.drain (ht : Matched rows n t) (hsize : t.qrTailID<t.qrToRowT.size)
    (hv : (t.qrToRowT.get t.qrTailID).valid=true) : Matched rows n ((t.removed t.qrTailID).advanceTail n) := by
  obtain ⟨f,hf⟩:=ht.inverse
  have hrem:=IndirectionTables.removed_represents hf hsize hv
  refine ⟨ht.rowTable,ht.slotTable,fun hn => ?_,_,hrem.slots,hrem.rows⟩
  obtain ⟨hnext,hp,_⟩:=ht.pointers hn
  exact ⟨hnext,hp,Nat.mod_lt _ hn⟩

theorem quarantineRow_mapped (hs : s.Mapped rows n) (rowID : ℕ) :
    Post (s.quarantineRow rowID) (Mapped rows n) fun e => ¬TableAssert e := by
  have hn:=hs.2.1
  have hm:=hs.2.2
  obtain ⟨f,hf⟩:=hm.inverse
  refine (quarantineRow_frame hf rowID).mono ?_ ?_
  · rintro s' ⟨hrow,hnext,hu⟩
    rw [hn] at hu
    exact hs.updated hu (hm.push hrow hnext)
  · rintro e (he | ⟨_,_,_,he⟩)
    · exact plain_not_tableAssert he
    · exact unmarked_not_tableAssert he

theorem drainRow_mapped (hs : s.Mapped rows n) : Post s.drainRow (Mapped rows n) fun e => ¬TableAssert e := by
  have hn:=hs.2.1
  have hm:=hs.2.2
  obtain ⟨f,hf⟩:=hm.inverse
  refine (drainRow_frame hf).mono ?_ ?_
  · rintro s' (⟨_,hlook⟩ | ⟨⟨_,hsize,hv⟩,hu⟩)
    · exact hs.looked hlook
    · rw [hn] at hu
      exact hs.updated hu (hm.drain hsize hv)
  · rintro e (he | ⟨_,he⟩)
    · exact plain_not_tableAssert he
    · exact unmarked_not_tableAssert he

theorem detect_mapped (hs : s.Mapped rows n) (currTick : UInt64) (addr : ℕ) :
    Post (s.detect currTick addr) (Mapped rows n) fun e => ¬TableAssert e := by
  refine (detect_frame s currTick addr).mono ?_ ?_
  · rintro s' ⟨_,u,v,acc,det,flag,hu,_,hv,_,rfl⟩
    have hv':=(hs.refreshed hu).looked hv
    exact hv'
  · rintro e (he | ⟨r,rfl,_⟩)
    · exact plain_not_tableAssert he
    · rintro (h | h) <;> cases h

theorem perform_mapped (hs : s.Mapped rows n) (a : Action) :
    Post (s.perform a) (Mapped rows n) fun e => ¬TableAssert e := by
  cases a with
  | access currTick addr =>
    exact access_of (detect_mapped hs currTick addr) (fun u hu rowID => quarantineRow_mapped hu rowID)
      (fun u misses hu => drainRow_mapped (s := {u with prevDrainCacheMissVal := misses}) hu) fun _ => plain_not_tableAssert
  | startAccess currTick =>
    exact (startAccess_frame s currTick).mono (fun _ h => hs.refreshed h) fun _ => plain_not_tableAssert
  | detect currTick addr => exact detect_mapped hs currTick addr
  | addQCheckDelay rowID =>
    refine (addQCheckDelay_frame s rowID).mono (fun _ h => hs.looked h.2) ?_
    rintro e (he | ⟨rfl,_⟩)
    · exact plain_not_tableAssert he
    · rintro (h | h) <;> cases h
  | quarantineRow rowID => exact quarantineRow_mapped hs rowID
  | drainRow => exact drainRow_mapped hs
  | reset =>
    refine (reset_frame s).mono ?_ fun _ => plain_not_tableAssert
    rintro s' ⟨acc,st,rfl⟩
    exact ⟨hs.1,hs.2.1,hs.2.2.atReset⟩

theorem construct_mapped (numQREntries rowsPerBank threshold numBanks numRanks numChannels : ℕ)
    (draws : ℕ → ℕ) (memory : RowQuarantine) :
    (construct numQREntries rowsPerBank threshold numBanks numRanks numChannels draws memory).Mapped
      (rowsPerBank*numBanks*numRanks*numChannels%2^32) numQREntries := by
  refine ⟨rfl,rfl,rfl,rfl,fun hn => ⟨hn,hn,hn⟩,⊥,?_,?_⟩
  · intro r
    simp [IndirectionTables.slotOf,construct]
  · intro q
    simp [IndirectionTables.rowAt,construct]

/-- The tables are mutually inverse partial maps in every reachable state, and no operation
runs into an assert on them. -/
theorem tables_inverse (numQREntries rowsPerBank threshold numBanks numRanks numChannels : ℕ)
    (draws : ℕ → ℕ) (memory : RowQuarantine)
    (h : Reachable (construct numQREntries rowsPerBank threshold numBanks numRanks numChannels
      draws memory) s) :
    (∀ r<s.numRows, (s.indirection.rowToQRT.get r).valid=true →
      (s.indirection.rowToQRT.get r).value<s.numQREntries ∧
      (s.indirection.qrToRowT.get (s.indirection.rowToQRT.get r).value).valid=true ∧
      (s.indirection.qrToRowT.get (s.indirection.rowToQRT.get r).value).value=r) ∧
    (∀ q<s.numQREntries, (s.indirection.qrToRowT.get q).valid=true →
      (s.indirection.qrToRowT.get q).value<s.numRows ∧
      (s.indirection.rowToQRT.get (s.indirection.qrToRowT.get q).value).valid=true ∧
      (s.indirection.rowToQRT.get (s.indirection.qrToRowT.get q).value).value=q) ∧
    (∀ r<s.numRows, ∀ r'<s.numRows, (s.indirection.rowToQRT.get r).valid=true →
      (s.indirection.rowToQRT.get r').valid=true →
      (s.indirection.rowToQRT.get r).value=(s.indirection.rowToQRT.get r').value → r=r') ∧
    (∀ q<s.numQREntries, ∀ q'<s.numQREntries, (s.indirection.qrToRowT.get q).valid=true →
      (s.indirection.qrToRowT.get q').valid=true →
      (s.indirection.qrToRowT.get q).value=(s.indirection.qrToRowT.get q').value → q=q') ∧
    ∀ a, s.perform a ≠ .error .rowNotMapped ∧ s.perform a ≠ .error .slotNotMapped := by
  have hs:=reachable_of (construct_mapped ..) (fun u hu a => perform_mapped hu a) h
  obtain ⟨f,hf⟩:=hs.2.2.inverse
  have hrows:=hs.2.2.rowTable.trans hs.1.symm
  have hslots:=hs.2.2.slotTable.trans hs.2.1.symm
  have hrow : ∀ r<s.numRows, (s.indirection.rowToQRT.get r).valid=true →
      f r=some (s.indirection.rowToQRT.get r).value := by
    intro r hr hv
    rw [← hf.slots]
    exact IndirectionTables.slotOf_eq_some.mpr ⟨hrows.symm ▸ hr,hv,rfl⟩
  have hslot : ∀ q<s.numQREntries, (s.indirection.qrToRowT.get q).valid=true →
      f.symm q=some (s.indirection.qrToRowT.get q).value := by
    intro q hq hv
    rw [← hf.rows]
    exact IndirectionTables.rowAt_eq_some.mpr ⟨hslots.symm ▸ hq,hv,rfl⟩
  refine ⟨?_,?_,?_,?_,?_⟩
  · intro r hr hv
    have hq:=f.eq_some_iff.mpr (hrow r hr hv)
    rw [← hf.rows,IndirectionTables.rowAt_eq_some,hslots] at hq
    exact hq
  · intro q hq hv
    have hr:=f.eq_some_iff.mp (hslot q hq hv)
    rw [← hf.slots,IndirectionTables.slotOf_eq_some,hrows] at hr
    exact hr
  · intro r hr r' hr' hv hv' heq
    have h':=hrow r' hr' hv'
    rw [← heq] at h'
    exact f.inj (hrow r hr hv) h'
  · intro q hq q' hq' hv hv' heq
    have h':=hslot q' hq' hv'
    rw [← heq] at h'
    exact f.symm.inj (hslot q hq hv) h'
  · intro a
    have hp:=perform_mapped hs a
    exact ⟨fun he => hp.of_error he (.inl rfl),fun he => hp.of_error he (.inr rfl)⟩

theorem tables_inverse_of_selfDisplacement :
    ∃ s1 s2 s3, (construct 2 4 1 1 1 1 id {zeroed with rowsPerBtvBit := 2}).quarantineRow 3 = .ok s1 ∧
      s1.quarantineRow 1 = .ok s2 ∧ s2.quarantineRow 3 = .ok s3 ∧
      ∀ r<s3.numRows, (s3.indirection.rowToQRT.get r).valid=true →
        (s3.indirection.qrToRowT.get (s3.indirection.rowToQRT.get r).value).value=r := by
  have hrun : Post (do
      let s ← (construct 2 4 1 1 1 1 id {zeroed with rowsPerBtvBit := 2}).quarantineRow 3
      let s ← s.quarantineRow 1
      s.quarantineRow 3) (fun _ => True) fun _ => False := by
    decide +kernel
  obtain ⟨s3,hs,_⟩:=hrun.returns
  obtain ⟨s1,h1,hs⟩:=bind_ok hs
  obtain ⟨s2,h2,h3⟩:=bind_ok hs
  refine ⟨s1,s2,s3,h1,h2,h3,fun r hr hv => ?_⟩
  have h:=tables_inverse 2 4 1 1 1 1 id {zeroed with rowsPerBtvBit := 2}
    (.step _ _ (.quarantineRow 3) (.step _ _ (.quarantineRow 1)
      (.step _ _ (.quarantineRow 3) .start h1) h2) h3)
  exact (h.1 r hr hv).2.2

end AquaGem5.Quarantine.RowQuarantine
