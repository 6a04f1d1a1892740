import AquaGem5.Lib.Relocation
import AquaGem5.Quarantine.RowQuarantine

/-!
# The indirection tables as a partial equivalence

`slotOf` and `rowAt` read the two tables. They represent a partial equivalence of rows and slots when they are its two
directions.
-/

namespace AquaGem5.Quarantine.IndirectionTables
open Relocation

def slotOf (t : IndirectionTables) (r : ℕ) : Option ℕ :=
  if r<t.rowToQRT.size ∧ (t.rowToQRT.get r).valid=true then some (t.rowToQRT.get r).value else none

def rowAt (t : IndirectionTables) (q : ℕ) : Option ℕ :=
  if q<t.qrToRowT.size ∧ (t.qrToRowT.get q).valid=true then some (t.qrToRowT.get q).value else none

structure Represents (t : IndirectionTables) (f : ℕ ≃. ℕ) : Prop where
  slots : ∀ r, t.slotOf r=f r
  rows : ∀ q, t.rowAt q=f.symm q

variable {t : IndirectionTables}

theorem slotOf_eq_some {r q : ℕ} : t.slotOf r=some q ↔
    r<t.rowToQRT.size ∧ (t.rowToQRT.get r).valid=true ∧ (t.rowToQRT.get r).value=q := by
  unfold slotOf
  split
  · rename_i h
    simp [h.1,h.2]
  · rename_i h
    simp only [reduceCtorEq,false_iff]
    exact fun hr => h ⟨hr.1,hr.2.1⟩

theorem rowAt_eq_some {r q : ℕ} : t.rowAt q=some r ↔
    q<t.qrToRowT.size ∧ (t.qrToRowT.get q).valid=true ∧ (t.qrToRowT.get q).value=r := by
  unfold rowAt
  split
  · rename_i h
    simp [h.1,h.2]
  · rename_i h
    simp only [reduceCtorEq,false_iff]
    exact fun hq => h ⟨hq.1,hq.2.1⟩

theorem slotOf_mapRow {a : ℕ} (ha : a<t.rowToQRT.size) (r : ℕ) :
    (t.mapRow a).slotOf r=if r=a then some t.nextFreeQRID else t.slotOf r := by
  by_cases h : r=a
  · subst h
    simp [slotOf,mapRow,ha]
  · simp [slotOf,mapRow,Cells.get_set,h]

theorem slotOf_clearRow (t : IndirectionTables) (b r : ℕ) :
    (t.clearRow b).slotOf r=if r=b then none else t.slotOf r := by
  by_cases h : r=b
  · subst h
    simp [slotOf,clearRow]
  · simp [slotOf,clearRow,Cells.get_set,h]

theorem rowAt_fillSlot (a : ℕ) (ht : t.nextFreeQRID<t.qrToRowT.size)
    (q : ℕ) : (t.fillSlot a).rowAt q=if q=t.nextFreeQRID then some a else t.rowAt q := by
  by_cases h : q=t.nextFreeQRID
  · subst h
    simp [rowAt,fillSlot,ht]
  · simp [rowAt,fillSlot,Cells.get_set,h]

theorem rowAt_clearSlot (t : IndirectionTables) (p q : ℕ) :
    (t.clearSlot p).rowAt q=if q=p then none else t.rowAt q := by
  by_cases h : q=p
  · subst h
    simp [rowAt,clearSlot]
  · simp [rowAt,clearSlot,Cells.get_set,h]

def removed (t : IndirectionTables) (slot : ℕ) : IndirectionTables :=
  (t.clearSlot slot).clearRow (t.qrToRowT.get slot).value

theorem removed_represents {f : ℕ ≃. ℕ} (h : t.Represents f) {slot : ℕ}
    (hs : slot<t.qrToRowT.size) (hv : (t.qrToRowT.get slot).valid=true) :
    (t.removed slot).Represents (release f slot) := by
  have hrow : f.symm slot=some (t.qrToRowT.get slot).value := by
    rw [← h.rows]
    exact rowAt_eq_some.mpr ⟨hs,hv,rfl⟩
  have hslot : f (t.qrToRowT.get slot).value=some slot := f.eq_some_iff.mp hrow
  constructor
  · intro r
    rw [removed,slotOf_clearRow,release_apply,← h.slots r]
    by_cases hr : r=(t.qrToRowT.get slot).value
    · rw [if_pos hr,hr,h.slots,if_pos hslot]
    · rw [if_neg hr,if_neg]
      · rfl
      · intro hcontra
        exact hr (f.inj ((h.slots r).symm.trans hcontra) hslot)
  · intro q
    rw [release_symm,← h.rows q]
    exact rowAt_clearSlot t slot q

def quarantined (t : IndirectionTables) (a : ℕ) : IndirectionTables :=
  let b := t.qrToRowT.get t.nextFreeQRID
  let orig := t.rowToQRT.get a
  let t := t.mapRow a
  let t := if b.valid=true then t.removed t.nextFreeQRID else t
  let t := t.fillSlot a
  if orig.valid=true then t.clearSlot orig.value else t

theorem quarantined_represents {f : ℕ ≃. ℕ} (h : t.Represents f) {a : ℕ}
    (ha : a<t.rowToQRT.size) (ht : t.nextFreeQRID<t.qrToRowT.size) :
    (t.quarantined a).Represents (relocate f a t.nextFreeQRID) := by
  -- B, if it is there, is the occupant of the head slot
  have hocc : ∀ r, ((t.qrToRowT.get t.nextFreeQRID).valid=true ∧
      r=(t.qrToRowT.get t.nextFreeQRID).value) ↔ f r=some t.nextFreeQRID := by
    intro r
    rw [← f.eq_some_iff,← h.rows,rowAt_eq_some]
    exact ⟨fun hb => ⟨ht,hb.1,hb.2.symm⟩,fun hb => ⟨hb.2.1,hb.2.2.symm⟩⟩
  have horig : ∀ q, ((t.rowToQRT.get a).valid=true ∧ q=(t.rowToQRT.get a).value) ↔
      f a=some q := by
    intro q
    rw [← h.slots,slotOf_eq_some]
    exact ⟨fun hq => ⟨ha,hq.1,hq.2.symm⟩,fun hq => ⟨hq.2.1,hq.2.2.symm⟩⟩
  constructor
  · intro r
    have hrow : (t.quarantined a).slotOf r =
        if (t.qrToRowT.get t.nextFreeQRID).valid=true ∧ r=(t.qrToRowT.get t.nextFreeQRID).value
        then none else (t.mapRow a).slotOf r := by
      have hfree : ∀ u : IndirectionTables, (if (t.rowToQRT.get a).valid=true then
          (u.fillSlot a).clearSlot (t.rowToQRT.get a).value else u.fillSlot a).slotOf r=u.slotOf r := by
        intro u
        split <;> rfl
      simp only [quarantined]
      rw [hfree]
      by_cases hb : (t.qrToRowT.get t.nextFreeQRID).valid=true
      · rw [if_pos hb]
        simp only [hb,true_and]
        exact slotOf_clearRow ((t.mapRow a).clearSlot t.nextFreeQRID) _ r
      · simp only [hb,if_false,false_and,Bool.false_eq_true]
    rw [hrow,if_congr (hocc r) rfl rfl,slotOf_mapRow ha,relocate_apply,h.slots]
    by_cases hra : r=a
    · rw [if_pos hra,if_pos hra,hra]
    · rw [if_neg hra,if_neg hra]
  · intro q
    have hrow : (t.quarantined a).rowAt q =
        if (t.rowToQRT.get a).valid=true ∧ q=(t.rowToQRT.get a).value then none
        else if q=t.nextFreeQRID then some a else t.rowAt q := by
      have hfill : ((if (t.qrToRowT.get t.nextFreeQRID).valid=true
          then (t.mapRow a).removed t.nextFreeQRID else t.mapRow a).fillSlot a).rowAt q =
          if q=t.nextFreeQRID then some a else t.rowAt q := by
        by_cases hb : (t.qrToRowT.get t.nextFreeQRID).valid=true
        · rw [if_pos hb]
          refine (rowAt_fillSlot (t := (t.mapRow a).removed t.nextFreeQRID) a ht q).trans ?_
          by_cases hq : q=t.nextFreeQRID
          · rw [if_pos hq]
            exact if_pos hq
          · rw [if_neg hq]
            exact (if_neg hq).trans ((rowAt_clearSlot (t.mapRow a) _ q).trans (if_neg hq))
        · rw [if_neg hb]
          exact rowAt_fillSlot (t := t.mapRow a) a ht q
      simp only [quarantined]
      by_cases ho : (t.rowToQRT.get a).valid=true
      · simp only [ho,if_true,true_and]
        rw [rowAt_clearSlot]
        exact if_congr Iff.rfl rfl hfill
      · simp only [ho,if_false,false_and,Bool.false_eq_true]
        exact hfill
    rw [hrow,if_congr (horig q) rfl rfl,relocate_symm,h.rows]
    by_cases hq : q=t.nextFreeQRID
    · rw [if_pos hq,if_pos hq,hq]
    · rw [if_neg hq,if_neg hq]

end AquaGem5.Quarantine.IndirectionTables

/-!
## What the operations change

Lookups and moves leave the sizes, the permutation and the detector alone. `Updated` says
that only the tables, the two counter arrays and bookkeeping have changed, and what the
tables and the counters are; `Plain` faults are those that are not an assert on them.
-/

namespace AquaGem5.Quarantine.RowQuarantine
open Checked Mitigation

def Plain : Fault → Prop
  | .rowNotMapped => False
  | .filterEntryMissing => False
  | .bitvectorZero => False
  | .slotNotMapped => False
  | .falseNegative => False
  | _ => True

structure Counters where
  bits : Cells ℕ
  orr : Cells ℕ

def counters (s : RowQuarantine) : Counters := ⟨s.bitvector,s.orrCBF⟩

def group (s : RowQuarantine) (rowID : ℕ) : ℕ := generateCBFID rowID/s.rowsPerBtvBit

def changeAt (c : Cells ℕ) (i : ℕ) (change : ℕ → ℕ) : Cells ℕ := c.set i (change (c.get i))

def marked (s : RowQuarantine) (k : Counters) (rowID : ℕ) : Counters :=
  if s.filter.isSome then k
  else ⟨changeAt k.bits (s.group rowID) inc32,changeAt k.orr (s.group rowID) inc32⟩

def cleared (s : RowQuarantine) (k : Counters) (rowID : ℕ) : Counters where
  bits := if s.filter.isSome then k.bits else changeAt k.bits (s.group rowID) dec32
  orr := if s.cache.isSome then changeAt k.orr (s.group rowID) dec32 else k.orr

def Updated (s : RowQuarantine) (t : IndirectionTables) (k : Counters) (s' : RowQuarantine) : Prop :=
  ∃ f c d st, f.isSome=s.filter.isSome ∧ c.isSome=s.cache.isSome ∧
    d.mitigate=s.decision.mitigate ∧ s'={s with
      indirection := t, bitvector := k.bits, orrCBF := k.orr
      filter := f, cache := c, decision := d, stats := st}

def Looked (s s' : RowQuarantine) : Prop := Updated s s.indirection s.counters s'

variable {s s' s'' : RowQuarantine} {t t' : IndirectionTables} {k k' : Counters}

theorem Looked.refl (s : RowQuarantine) : Looked s s := ⟨_,_,_,_,rfl,rfl,rfl,rfl⟩

theorem Updated.trans (h : Updated s t k s') (h' : Updated s' t' k' s'') : Updated s t' k' s'' := by
  obtain ⟨f,c,d,st,hf,hc,hd,rfl⟩:=h
  obtain ⟨f',c',d',st',hf',hc',hd',rfl⟩:=h'
  exact ⟨f',c',d',st',hf'.trans hf,hc'.trans hc,hd'.trans hd,rfl⟩

theorem Updated.looked (h : Updated s t k s') (h' : Looked s' s'') : Updated s t k s'' := by
  obtain ⟨f,c,d,st,hf,hc,hd,rfl⟩:=h
  exact Updated.trans ⟨f,c,d,st,hf,hc,hd,rfl⟩ h'

theorem Updated.setStats (h : Updated s t k s') (st : Stats) : Updated s t k {s' with stats := st} := by
  obtain ⟨f,c,d,_,hf,hc,hd,rfl⟩:=h
  exact ⟨f,c,d,st,hf,hc,hd,rfl⟩

theorem Updated.setCache (h : Updated s t k s') (hs : s.cache.isSome) (c : FunctionalCache)
    (st : Stats) : Updated s t k {s' with cache := some c, stats := st} := by
  obtain ⟨f,_,d,_,hf,_,hd,rfl⟩:=h
  exact ⟨f,some c,d,st,hf,hs.symm,hd,rfl⟩

theorem Updated.indirection (h : Updated s t k s') : s'.indirection=t := by
  obtain ⟨f,c,d,st,_,_,_,rfl⟩:=h
  rfl

theorem Updated.rowsPerBtvBit (h : Updated s t k s') : s'.rowsPerBtvBit=s.rowsPerBtvBit := by
  obtain ⟨f,c,d,st,_,_,_,rfl⟩:=h
  rfl

theorem Updated.counters (h : Updated s t k s') : s'.counters=k := by
  obtain ⟨f,c,d,st,_,_,_,rfl⟩:=h
  rfl

theorem Updated.cleared (h : Updated s t k s') : s'.cleared=s.cleared := by
  obtain ⟨f,c,d,st,hf,hc,_,rfl⟩:=h
  funext k rowID
  simp only [RowQuarantine.cleared,hf,hc]
  rfl

theorem looked_addDelay (s : RowQuarantine) (d : UInt64) : Looked s (s.addDelay d) :=
  ⟨s.filter,s.cache,(s.addDelay d).decision,s.stats,rfl,rfl,rfl,rfl⟩

theorem looked_addSramDelay (s : RowQuarantine) (d : UInt64) : Looked s (s.addSramDelay d) :=
  ⟨s.filter,s.cache,(s.addSramDelay d).decision,s.stats,rfl,rfl,rfl,rfl⟩

theorem looked_addVirtualDelay (s : RowQuarantine) (d : UInt64) : Looked s (s.addVirtualDelay d) := by
  unfold addVirtualDelay
  split
  · exact looked_addDelay s d
  · exact .refl s

theorem looked_addTableDelay (s : RowQuarantine) : Looked s s.addTableDelay := by
  unfold addTableDelay
  split
  · exact looked_addDelay s _
  · exact looked_addSramDelay s _

theorem plain_cache {α : Type} (m : Except FunctionalCache.Fault α) :
    Post (within Fault.cache m) (fun _ => True) Plain := by
  cases m <;> trivial

theorem plain_filter {α : Type} (m : Except CountingBloomFilter.Fault α) :
    Post (within Fault.filter m) (fun _ => True) Plain := by
  cases m <;> trivial

theorem evictBlock_frame (s : RowQuarantine) (c : FunctionalCache) (index way : ℕ) :
    Post (s.evictBlock c index way) (fun p => ∃ st, p.1={s with stats := st}) Plain := by
  unfold evictBlock
  refine (plain_cache _).bind fun isDirty _ => ?_
  refine (plain_cache _).bind fun rowID _ => ?_
  exact ⟨_,rfl⟩

theorem removeRowFromCache_frame (s : RowQuarantine) (c : FunctionalCache) (index : ℕ) :
    Post (s.removeRowFromCache c index) (fun p => ∃ c' st,
      p.1={s with cache := some c', stats := st}) Plain := by
  unfold removeRowFromCache
  refine (plain_cache _).bind fun r _ => ?_
  rw [post_ite]
  constructor
  · intro _
    refine (evictBlock_frame s r.1 index r.2).bind ?_
    rintro ⟨u,e⟩ ⟨st,rfl⟩
    refine (plain_cache _).bind fun c' _ => ?_
    exact ⟨c',st,rfl⟩
  · intro _
    exact ⟨r.1,s.stats,rfl⟩

theorem insertRowInCache_frame (s : RowQuarantine) (c : FunctionalCache) (index : ℕ) (b : Bool) :
    Post (s.insertRowInCache c index b) (fun p => ∃ c' st,
      p.1={s with cache := some c', stats := st}) Plain := by
  unfold insertRowInCache
  refine (plain_cache _).bind fun r _ => ?_
  refine (plain_cache _).bind fun valid _ => ?_
  refine Post.bind (R := fun p => ∃ st, p.1={s with stats := st}) ?_ ?_
  · rw [post_ite]
    exact ⟨fun _ => evictBlock_frame s r.1 index r.2,fun _ => ⟨s.stats,rfl⟩⟩
  · rintro ⟨u,e⟩ ⟨st,rfl⟩
    refine (plain_cache _).bind fun c1 _ => ?_
    refine (plain_cache _).bind fun c2 _ => ?_
    refine (plain_cache _).bind fun c3 _ => ?_
    exact ⟨c3,st,rfl⟩

def Found (s : RowQuarantine) (lo hi row : ℕ) : Prop :=
  lo≤row ∧ row<hi ∧ (s.indirection.slotOf row).isSome

theorem scanGroup_post (s : RowQuarantine) (fuel i : ℕ) :
    Post (s.scanGroup fuel i) (fun r => r=s.numRows ∨ s.Found i (i+fuel) r) Plain := by
  induction fuel generalizing i with
  | zero => exact .inl rfl
  | succ fuel ih =>
    rw [scanGroup,post_bind,Cells.post_read]
    refine ⟨fun hi => ?_,fun _ => trivial⟩
    rw [post_ite]
    constructor
    · intro hv
      refine .inr ⟨Nat.le_refl i,by omega,?_⟩
      simp [IndirectionTables.slotOf,hi,hv]
    · intro _
      refine (ih (i+1)).imp ?_
      rintro r (hr | ⟨hlo,hhi,hsome⟩)
      · exact .inl hr
      · exact .inr ⟨by omega,by omega,hsome⟩

theorem findInserted_post (s : RowQuarantine) (rowID index : ℕ) :
    Post (s.findInserted rowID index) (fun p => (∃ st, p.1={s with stats := st}) ∧
      (p.2=s.numRows ∨ (p.2=rowID ∧ (s.indirection.slotOf rowID).isSome) ∨
        s.Found (rowID/s.rowsPerBtvBit*s.rowsPerBtvBit)
          (rowID/s.rowsPerBtvBit*s.rowsPerBtvBit+s.rowsPerBtvBit) p.2)) Plain := by
  unfold findInserted
  rw [post_bind,Cells.post_read]
  refine ⟨fun hr => ?_,fun _ => trivial⟩
  rw [post_ite]
  constructor
  · intro hv
    refine ⟨⟨_,rfl⟩,.inr (.inl ⟨rfl,?_⟩)⟩
    simp [IndirectionTables.slotOf,hr,hv]
  · intro _
    rw [post_bind,post_udiv]
    refine ⟨fun _ => trivial,fun _ => ?_⟩
    refine (scanGroup_post s _ _).bind fun r hr => ?_
    simp only [post_bind,post_udiv,Cells.post_read]
    refine ⟨fun _ => trivial,fun _ => ⟨fun _ => ?_,fun _ => trivial⟩⟩
    have hrow:=hr.imp_right (Or.inr (a := r=rowID ∧ (s.indirection.slotOf rowID).isSome))
    rw [post_ite]
    exact ⟨fun _ => ⟨⟨_,rfl⟩,hrow⟩,fun _ => ⟨⟨s.stats,rfl⟩,hrow⟩⟩

theorem mayInsert_post (s : RowQuarantine) (rowID index row : ℕ) :
    Post (s.mayInsert rowID index row) (fun b => b=true →
      row=rowID ∨ s.orrCBF.get (index/s.rowsPerBtvBit)=1) Plain := by
  unfold mayInsert
  rw [post_ite]
  refine ⟨fun h => fun _ => .inl h,fun _ => ?_⟩
  simp only [post_bind,post_udiv,Cells.post_read,post_pure,decide_eq_true_eq]
  exact ⟨fun _ => trivial,fun _ => ⟨fun _ h => .inr h,fun _ => trivial⟩⟩

theorem cacheMiss_frame (s : RowQuarantine) (c : FunctionalCache) (hc : s.cache.isSome)
    (rowID index : ℕ) : Post (s.cacheMiss c rowID index) (Looked s) Plain := by
  unfold cacheMiss
  refine (findInserted_post s.addTableDelay rowID index).bind ?_
  rintro ⟨u,row⟩ ⟨⟨st,rfl⟩,_⟩
  have hu:=(looked_addTableDelay s).setStats st
  generalize {s.addTableDelay with stats := st}=u at hu
  rw [post_ite]
  refine ⟨fun _ => ?_,fun _ => hu.setCache hc c u.stats⟩
  refine (mayInsert_post u rowID index row).bind fun insert _ => ?_
  rw [post_ite]
  refine ⟨fun _ => ?_,fun _ => hu.setCache hc c u.stats⟩
  refine (insertRowInCache_frame u c (generateCBFID row) false).bind ?_
  rintro ⟨v,e⟩ ⟨c',st',rfl⟩
  have hv:=hu.setCache hc c' st'
  rw [post_ite]
  exact ⟨fun _ => hv.looked (looked_addDelay _ _),fun _ => hv⟩

theorem checkCache_frame (s : RowQuarantine) (c : FunctionalCache) (hc : s.cache.isSome)
    (rowID index : ℕ) : Post (s.checkCache c rowID index) (Looked s) Plain := by
  unfold checkCache
  have hu:=looked_addSramDelay s s.sramCacheAccDelay
  generalize s.addSramDelay s.sramCacheAccDelay=u at hu
  refine (plain_cache _).bind fun r _ => ?_
  rw [post_ite]
  refine ⟨fun _ => hu.setCache hc _ _,fun _ => ?_⟩
  refine (plain_cache _).bind fun p _ => ?_
  have hmiss : ∀ st, Post (({u with stats := st} : RowQuarantine).cacheMiss p.1 rowID index)
      (Looked s) Plain := by
    intro st
    have hsome : u.cache.isSome := by
      obtain ⟨f,c',d,st',_,hc',_,rfl⟩:=hu
      exact hc'.trans hc
    exact (cacheMiss_frame {u with stats := st} p.1 hsome rowID index).imp
      fun v hv => (hu.setStats st).looked hv
  rw [post_ite]
  constructor
  · intro _
    simp only [post_bind,post_udiv,Cells.post_read]
    refine ⟨fun _ => trivial,fun _ => ⟨fun _ => ?_,fun _ => trivial⟩⟩
    rw [post_ite]
    exact ⟨fun _ => hu.setCache hc _ _,fun _ => hmiss _⟩
  · intro _
    exact hmiss _

theorem mayBeRemapped_post (s : RowQuarantine) (index : ℕ) : Post (s.mayBeRemapped index)
    (fun b => s.filter=none → (b=true ↔ s.bitvector.get (index/s.rowsPerBtvBit)≠0)) Plain := by
  unfold mayBeRemapped
  refine Post.bind (R := fun b => s.filter=none → b=false) ?_ fun b hb => ?_
  · cases s.filter with
    | none => exact fun _ => rfl
    | some f => exact (plain_filter _).imp fun _ _ h => by cases h
  · rw [post_ite]
    constructor
    · intro h hf
      rw [hb hf] at h
      cases h
    · intro _
      simp only [post_bind,post_udiv,Cells.post_read,post_pure,decide_eq_true_eq]
      exact ⟨fun _ => trivial,fun _ => ⟨fun _ _ => trivial,fun _ => trivial⟩⟩

theorem looked_countPositive (s : RowQuarantine) (b : Bool) : Looked s (s.countPositive b) := by
  unfold countPositive
  split
  · rename_i f hf
    exact ⟨some {f with sTruePositives := f.sTruePositives+1},_,_,_,by rw [hf]; rfl,rfl,rfl,rfl⟩
  · rename_i f hf
    exact ⟨some {f with sFalsePositives := f.sFalsePositives+1},_,_,_,by rw [hf]; rfl,rfl,rfl,rfl⟩
  · exact (Looked.refl s).setStats _
  · exact (Looked.refl s).setStats _

theorem looked_countNegative (s : RowQuarantine) : Looked s s.countNegative := by
  unfold countNegative
  split
  · rename_i f hf
    exact ⟨some {f with sTrueNegatives := f.sTrueNegatives+1},_,_,_,by rw [hf]; rfl,rfl,rfl,rfl⟩
  · exact (Looked.refl s).setStats _

def Missed (s : RowQuarantine) (rowID : ℕ) (e : Fault) : Prop :=
  e = .falseNegative ∧ (s.indirection.slotOf rowID).isSome ∧
    (s.filter=none → s.bitvector.get (s.group rowID)=0)

theorem addQCheckDelay_frame (s : RowQuarantine) (rowID : ℕ) :
    Post (s.addQCheckDelay rowID) (fun s' => rowID<s.indirection.rowToQRT.size ∧ Looked s s')
      fun e => Plain e ∨ s.Missed rowID e := by
  unfold addQCheckDelay
  have hlook:=looked_addSramDelay s s.sramCBFAccDelay
  refine ((mayBeRemapped_post _ _).mono (fun _ h => h) fun _ => .inl).bind fun possible hp => ?_
  rw [post_ite]
  constructor
  · intro _
    refine Post.bind (R := Looked s) ?_ fun v hv => ?_
    · cases hcache : (s.addSramDelay s.sramCBFAccDelay).cache with
      | none => exact hlook.looked (looked_addTableDelay _)
      | some c =>
        exact (checkCache_frame _ c (by rw [hcache]; rfl) rowID _).mono
          (fun v hv => hlook.looked hv) fun _ => .inl
    · rw [post_bind,Cells.post_read,hv.indirection]
      exact ⟨fun hr => ⟨hr,hv.looked (looked_countPositive v _)⟩,fun _ => .inl trivial⟩
  · intro hno
    rw [post_bind,Cells.post_read]
    refine ⟨fun hr => ?_,fun _ => .inl trivial⟩
    simp only [post_bind,post_check,post_pure]
    refine ⟨fun _ => ⟨hr,hlook.looked (looked_countNegative _)⟩,fun hv => .inr ⟨rfl,?_,fun hnone => ?_⟩⟩
    · have hr' : rowID<s.indirection.rowToQRT.size := hr
      have hv' : (s.indirection.rowToQRT.get rowID).valid=true := Bool.not_eq_false _ ▸ hv
      simp [IndirectionTables.slotOf,hr',hv']
    · have hiff:=hp hnone
      by_contra hbit
      exact hno (hiff.mpr hbit)

def Unmarked (s : RowQuarantine) (k : Counters) (rowID : ℕ) (e : Fault) : Prop :=
  (e = .filterEntryMissing ∧ s.filter≠none) ∨
    (e = .bitvectorZero ∧ s.filter=none ∧ k.bits.get (s.group rowID)=0)

theorem setFilterEntry_frame (s : RowQuarantine) (rowID : ℕ) : Post (s.setFilterEntry (generateCBFID rowID))
      (Updated s s.indirection (s.marked s.counters rowID)) Plain := by
  unfold setFilterEntry
  cases hf : s.filter with
  | some f =>
    refine (plain_filter _).bind fun f' _ => ?_
    refine ⟨some f',s.cache,s.decision,s.stats,by rw [hf]; rfl,rfl,rfl,?_⟩
    simp only [marked,hf,Option.isSome_some,if_true]
    rfl
  | none =>
    simp only [post_bind,post_udiv,Cells.post_read,post_pure]
    refine ⟨fun _ => trivial,fun _ => ⟨fun _ => ⟨fun _ => ?_,fun _ => trivial⟩,fun _ => trivial⟩⟩
    refine ⟨s.filter,s.cache,s.decision,s.stats,rfl,rfl,rfl,?_⟩
    simp only [marked,hf,Option.isSome_none,Bool.false_eq_true,if_false]
    rfl

theorem clearFilterEntry_frame (s : RowQuarantine) (rowID : ℕ) : Post (s.clearFilterEntry (generateCBFID rowID))
      (Updated s s.indirection ⟨(s.cleared s.counters rowID).bits,s.orrCBF⟩)
      fun e => Plain e ∨ s.Unmarked s.counters rowID e := by
  unfold clearFilterEntry
  cases hf : s.filter with
  | some f =>
    refine ((plain_filter _).mono (fun _ h => h) fun _ => .inl).bind fun present _ => ?_
    rw [post_bind,post_check]
    refine ⟨fun _ => ?_,fun _ => .inr (.inl ⟨rfl,by simp [hf]⟩)⟩
    refine ((plain_filter _).mono (fun _ h => h) fun _ => .inl).bind fun f' _ => ?_
    refine ⟨some f',s.cache,s.decision,s.stats,by rw [hf]; rfl,rfl,rfl,?_⟩
    simp only [cleared,hf,Option.isSome_some,if_true]
    rfl
  | none =>
    simp only [post_bind,post_udiv,Cells.post_read,post_check,post_pure]
    refine ⟨fun _ => .inl trivial,fun _ => ⟨fun _ => ⟨fun _ => ?_,fun hz => .inr (.inr ⟨rfl,hf,?_⟩)⟩,
      fun _ => .inl trivial⟩⟩
    · refine ⟨s.filter,s.cache,s.decision,s.stats,rfl,rfl,rfl,?_⟩
      simp only [cleared,hf,Option.isSome_none,Bool.false_eq_true,if_false]
      rfl
    · exact not_not.mp hz

theorem uncacheRow_frame (s : RowQuarantine) (rowID : ℕ) : Post (s.uncacheRow (generateCBFID rowID)) (fun p =>
      Updated s s.indirection ⟨s.bitvector,(s.cleared s.counters rowID).orr⟩ p.1) Plain := by
  unfold uncacheRow
  cases hc : s.cache with
  | some c =>
    refine (removeRowFromCache_frame s c _).bind ?_
    rintro ⟨u,b⟩ ⟨c',st,rfl⟩
    simp only [post_bind,post_udiv,Cells.post_read,post_pure]
    refine ⟨fun _ => trivial,fun _ => ⟨fun _ => ?_,fun _ => trivial⟩⟩
    refine ⟨s.filter,some c',s.decision,st,rfl,by rw [hc]; rfl,rfl,?_⟩
    simp only [cleared,hc,Option.isSome_some,if_true]
    rfl
  | none =>
    have horr : (s.cleared s.counters rowID).orr=s.orrCBF := by
      simp only [cleared,hc,Option.isSome_none,Bool.false_eq_true,if_false]
      rfl
    rw [horr]
    exact Looked.refl s

theorem removeRow_frame (s : RowQuarantine) {slot : ℕ}
    (hrow : (s.indirection.rowToQRT.get (s.indirection.qrToRowT.get slot).value).valid=true) :
    Post (s.removeRow slot) (fun p => Updated s (s.indirection.removed slot)
      (s.cleared s.counters (s.indirection.qrToRowT.get slot).value) p.1)
      fun e => Plain e ∨ s.Unmarked s.counters (s.indirection.qrToRowT.get slot).value e := by
  unfold removeRow
  simp only [post_bind,Cells.post_read,post_check]
  refine ⟨fun _ => ⟨fun _ => ⟨fun _ => ?_,fun h => (h hrow).elim⟩,fun _ => .inl trivial⟩,
    fun _ => .inl trivial⟩
  have hu : Updated s (s.indirection.removed slot) s.counters
      {s with indirection := s.indirection.removed slot} := ⟨_,_,_,_,rfl,rfl,rfl,rfl⟩
  refine (clearFilterEntry_frame _ _).imp ?_
  intro v hv
  refine (uncacheRow_frame v _).mono ?_ fun _ => .inl
  rintro p hp
  have hv':=hu.trans hv
  have hp':=hv'.trans hp
  rw [hv'.cleared,hv'.counters] at hp'
  have ht:=hv'.indirection
  have hbits : v.bitvector=(s.cleared s.counters (s.indirection.qrToRowT.get slot).value).bits :=
    congrArg Counters.bits hv'.counters
  rw [ht,hbits] at hp'
  exact hp'

end AquaGem5.Quarantine.RowQuarantine
