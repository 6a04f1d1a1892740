import AquaGem5.Detector.Flags
import AquaGem5.Lib.Exposure
import AquaGem5.Quarantine.Inverse

/-!
# Runs of accesses

A run records for each access its row, the bank and the location it lands on, whether the window was renewed first,
and what the detector answered.
-/

namespace AquaGem5.Quarantine.RowQuarantine
open Checked Detector Mitigation Exposure Windows List

/-- `row` is `addr/8192` and `rowID` what the permutation makes of it. -/
structure Event where
  tick : UInt64
  row : ℕ
  rowID : ℕ
  bank : Bank
  location : Location ℕ ℕ
  reset : Bool
  mitigate : Bool
  deriving DecidableEq

def physical (s : RowQuarantine) (rowID : ℕ) : Location ℕ ℕ :=
  match s.indirection.slotOf rowID with
  | some slot => .slot slot
  | none => .home rowID

def event (s : RowQuarantine) (currTick : UInt64) (addr : ℕ) (s' : RowQuarantine) : Event where
  tick := currTick
  row := addr/8192
  rowID := s.randRowID.get (addr/8192)
  bank := detectorBank (s.randRowID.get (addr/8192))
  location := s.physical (s.randRowID.get (addr/8192))
  reset := windowOver currTick s.lastReset
  mitigate := s'.decision.mitigate

def accessAll : RowQuarantine → List (UInt64 × ℕ) → Except Fault (RowQuarantine × List Event)
  | s,[] => pure (s,[])
  | s,a::as => do
    let s' ← s.access a.1 a.2
    let rest ← s'.accessAll as
    pure (rest.1,s.event a.1 a.2 s'::rest.2)

def currentWindow (log : List Event) : List Event := sinceReset Event.reset log

def loads (w : List Event) (b : Bank) : ℕ := w.countP fun e => e.bank=b

theorem loads_window_le (part : List Event) (b : Bank) : loads (currentWindow part) b≤part.length :=
  countP_le_length.trans (sinceReset_length Event.reset part)

structure Stretch (log mid : List Event) : Prop where
  part : mid <:+: log
  short : ∀ e∈mid, ∀ e'∈mid, e'.tick.toNat<e.tick.toNat+64000000000

variable {rows n T : ℕ} {s s' m : RowQuarantine} {t : IndirectionTables} {k : Counters}
  {currTick : UInt64} {addr : ℕ}

theorem access_cases (h : s.access currTick addr = .ok s') : ∃ m, s.detect currTick addr = .ok m ∧
    ((m.decision.mitigate=true ∧ m.quarantineRow (m.randRowID.get (addr/8192)) = .ok s') ∨
      (m.decision.mitigate=false ∧
        ∃ misses, ({m with prevDrainCacheMissVal := misses} : RowQuarantine).drainRow = .ok s') ∨
      (m.decision.mitigate=false ∧ s'=m)) := by
  obtain ⟨m,hm,h⟩:=bind_ok h
  refine ⟨m,hm,?_⟩
  dsimp only at h
  split at h
  · rename_i hmit
    obtain ⟨r,hr,h⟩:=bind_ok h
    have hread : Post (m.randRowID.read (addr/8192) : Except Fault ℕ)
        (fun r => r=m.randRowID.get (addr/8192)) := by
      rw [Cells.post_read]
      exact ⟨fun _ => rfl,fun _ => trivial⟩
    rw [hread.of_ok hr] at h
    exact .inl ⟨hmit,h⟩
  · rename_i hmit
    have hmit' : m.decision.mitigate=false := by simpa using hmit
    split at h
    · exact .inr (.inl ⟨hmit',_,h⟩)
    · exact .inr (.inr ⟨hmit',(Except.ok.inj h).symm⟩)

structure Still (m s' : RowQuarantine) : Prop where
  detector : s'.detector=m.detector
  randRowID : s'.randRowID=m.randRowID
  numRows : s'.numRows=m.numRows
  lastReset : s'.lastReset=m.lastReset
  mitigate : s'.decision.mitigate=m.decision.mitigate

theorem Updated.still (h : Updated m t k s') : Still m s' := by
  obtain ⟨f,c,d,st,_,_,hd,rfl⟩:=h
  exact ⟨rfl,rfl,rfl,rfl,hd⟩

theorem quarantineRow_still (hm : m.Mapped rows n) {rowID : ℕ} (h : m.quarantineRow rowID = .ok s') : Still m s' := by
  obtain ⟨f,hf⟩:=hm.2.2.inverse
  exact ((quarantineRow_frame hf rowID).of_ok h).2.2.still

theorem drainRow_still (hm : m.Mapped rows n) (h : m.drainRow = .ok s') : Still m s' := by
  obtain ⟨f,hf⟩:=hm.2.2.inverse
  rcases (drainRow_frame hf).of_ok h with ⟨_,hlook⟩ | ⟨_,hu⟩
  · exact hlook.still
  · exact hu.still

theorem access_still (hs : s.Mapped rows n) (h : s.access currTick addr = .ok s') :
    ∃ m, s.detect currTick addr = .ok m ∧ Still m s' := by
  obtain ⟨m,hdetect,hcases⟩:=access_cases h
  have hm:=(detect_mapped hs currTick addr).of_ok hdetect
  refine ⟨m,hdetect,?_⟩
  rcases hcases with ⟨_,hq⟩ | ⟨_,misses,hd⟩ | ⟨_,rfl⟩
  · exact quarantineRow_still hm hq
  · have hst:=drainRow_still (m := {m with prevDrainCacheMissVal := misses}) hm hd
    exact ⟨hst.detector,hst.randRowID,hst.numRows,hst.lastReset,hst.mitigate⟩
  · exact ⟨rfl,rfl,rfl,rfl,rfl⟩

structure Configured (T : ℕ) (s : RowQuarantine) : Prop where
  positive : 0<T
  threshold : s.detector.threshold=T
  numEntries : s.detector.numEntries=1360000/T
  banks : ∀ b<16, s.detector.hasBank ⟨0,0,b⟩
  rows : s.numRows/16 ≤ s.detector.numRows
  whole : 16∣s.numRows
  fits : s.numRows<2^32
  permuted : Function.Injective s.randRowID.get
  inRange : ∀ r<s.numRows, s.randRowID.get r<s.numRows
  size : s.randRowID.size=s.numRows

def slack (s : RowQuarantine) (r : ℕ) : ℕ := s.detector.rest (detectorBank r) (r/16)

def Watched (w : List Event) (s : RowQuarantine) : Prop := s.detector.Loaded (loads w)

theorem loads_push (w : List Event) (e : Event) : loads (push Event.reset w e) =
    Function.update (loads (if e.reset=true then [] else w)) e.bank
      (loads (if e.reset=true then [] else w) e.bank+1) := by
  have hsnoc : ∀ w : List Event, loads (w++[e])=Function.update (loads w) e.bank (loads w e.bank+1) := by
    intro w
    funext b
    unfold loads
    rw [countP_append,countP_singleton]
    by_cases hb : b=e.bank
    · subst hb
      simp
    · rw [Function.update_of_ne hb,if_neg (by simpa using Ne.symm hb),Nat.add_zero]
  unfold push
  split
  · exact hsnoc []
  · exact hsnoc w

theorem Configured.still (hc : m.Configured T) (h : Still m s') : s'.Configured T := by
  obtain ⟨hd,hr,hn,_,_⟩:=h
  refine ⟨hc.positive,?_,?_,?_,?_,?_,?_,?_,?_,?_⟩
  · rw [hd,hc.threshold]
  · rw [hd,hc.numEntries]
  · rw [hd]
    exact hc.banks
  · rw [hd,hn]
    exact hc.rows
  · rw [hn]
    exact hc.whole
  · rw [hn]
    exact hc.fits
  · rw [hr]
    exact hc.permuted
  · rw [hr,hn]
    exact hc.inRange
  · rw [hr,hn,hc.size]

theorem Still.slack (h : Still m s') : s'.slack=m.slack := by
  funext r
  unfold RowQuarantine.slack
  rw [h.detector]

theorem Configured.slack_lt (hc : s.Configured T) (r : ℕ) : s.slack r<T := by
  have hlt:=MisraGries.rest_lt (hc.threshold.symm ▸ hc.positive) (detectorBank r) (r/16)
  rw [hc.threshold] at hlt
  exact hlt

theorem hasBank_detectorBank (hc : s.Configured T) (r : ℕ) : s.detector.hasBank (detectorBank r) :=
  hc.banks (r%16) (Nat.mod_lt r (by decide))

structure RefreshedTo (w : List Event) (ended : Bool) (currTick : UInt64) (s u : RowQuarantine) : Prop where
  detector : u.detector=if ended=true then s.detector.reset else s.detector
  randRowID : u.randRowID=s.randRowID
  numRows : u.numRows=s.numRows
  lastReset : u.lastReset=if ended=true then currTick else s.lastReset
  watched : u.Watched (if ended=true then [] else w)
  slack : u.slack=if ended=true then fun _ => 0 else s.slack

theorem refreshed_watched {w : List Event} {u : RowQuarantine} (hc : s.Configured T) (hw : s.Watched w)
    (hu : Refreshed s currTick u) : RefreshedTo w (windowOver currTick s.lastReset) currTick s u := by
  rcases hu with ⟨hover,acc,d,st,rfl⟩ | ⟨hover,d,st,rfl⟩
  · rw [hover]
    refine ⟨rfl,rfl,rfl,rfl,MisraGries.reset_loaded hw.sound.allocated,?_⟩
    funext r
    exact MisraGries.reset_rest hw.sound.allocated (hasBank_detectorBank hc r) (r/16)
  · rw [hover]
    exact ⟨rfl,rfl,rfl,rfl,hw,rfl⟩

theorem detectorRow_eq (hc : s.Configured T) {r : ℕ} (hr : r<s.numRows) : s.detectorRow r=r/16 := by
  obtain ⟨m,hm⟩:=hc.whole
  unfold detectorRow
  apply Nat.mod_eq_of_lt
  omega

theorem detect_watched {w : List Event} {e : Event} (hc : s.Configured T) (hw : s.Watched w)
    (h : s.Detected currTick addr m) (hbank : e.bank=detectorBank (s.randRowID.get (addr/8192)))
    (hreset : e.reset=windowOver currTick s.lastReset) (hload : ∀ b, loads (push Event.reset w e) b≤1360000) :
    m.Configured T ∧ m.Watched (push Event.reset w e) ∧ m.lastReset=(if e.reset=true then currTick else s.lastReset) ∧
      Aged T (if e.reset=true then fun _ => 0 else s.slack) (s.randRowID.get (addr/8192))
        m.decision.mitigate m.slack := by
  obtain ⟨hrange,u,v,acc,det,flag,hu,_,hv,haccess,rfl⟩:=h
  have hto:=refreshed_watched hc hw hu
  rw [← hreset] at hto
  rw [hc.size] at hrange
  rw [Nat.mod_eq_of_lt (hrange.trans hc.fits),detectorRow_eq hc (hc.inRange _ hrange)] at haccess
  generalize hR : s.randRowID.get (addr/8192)=R at *
  have hRlt : R<s.numRows := hR ▸ hc.inRange _ hrange
  have hconfig : u.detector.threshold=T ∧ u.detector.numEntries=1360000/T ∧
      u.detector.numRows=s.detector.numRows ∧
      ∀ b, u.detector.hasBank b ↔ s.detector.hasBank b := by
    rw [hto.detector]
    split <;> exact ⟨hc.threshold,hc.numEntries,rfl,fun _ => Iff.rfl⟩
  obtain ⟨hT,hn,hrows,hbanks⟩:=hconfig
  have hload':=hload e.bank
  rw [loads_push,Function.update_self] at hload'
  have hcap:=Nat.lt_mul_div_succ 1360000 hc.positive
  have hrow : R/16<u.detector.numRows := by
    obtain ⟨j,hj⟩:=hc.whole
    have hle:=hc.rows
    omega
  have hrested:=(MisraGries.access_rested hto.watched (hT.symm ▸ hc.positive) hrow
    ((hbanks _).mpr (hasBank_detectorBank hc R)) (by rw [hT,hn,← hbank]; omega)
    (by rw [← hbank]; omega)).of_ok haccess
  have hf:=hrested.frame
  have hdet : det.threshold=T := hf.threshold.trans hT
  have hnum:=hto.numRows
  have hrand:=hto.randRowID
  have hlast:=hto.lastReset
  have hslack:=hto.slack
  obtain ⟨f,c,d,st,_,_,_,rfl⟩:=hv
  refine ⟨⟨hc.positive,hdet,hf.numEntries.trans hn,?_,?_,?_,?_,?_,?_,?_⟩,?_,hlast,?_,?_,?_⟩
  · exact fun b hb => (hf.hasBank _).mpr ((hbanks _).mpr (hc.banks b hb))
  · change u.numRows/16≤det.numRows
    rw [hnum,hf.numRows,hrows]
    exact hc.rows
  · exact hnum ▸ hc.whole
  · exact hnum ▸ hc.fits
  · exact hrand ▸ hc.permuted
  · change ∀ r<u.numRows, u.randRowID.get r<u.numRows
    rw [hnum,hrand]
    exact hc.inRange
  · change u.randRowID.size=u.numRows
    rw [hnum,hrand,hc.size]
  · have hloaded:=hrested.loaded
    rw [← hbank,← loads_push] at hloaded
    exact hloaded
  · intro r
    have hlt:=MisraGries.rest_lt (hdet.symm ▸ hc.positive) (detectorBank r) (r/16)
    rw [hdet] at hlt
    exact hlt
  · intro r hr
    rw [← hslack]
    apply hrested.rises
    rintro ⟨hb,hrow'⟩
    have hmod : r%16=R%16 := congrArg Bank.bankID hb
    exact hr (by omega)
  · intro hquiet
    rw [← hslack]
    exact hrested.quiet hquiet

structure Accessed (rows n : ℕ) (s : RowQuarantine) (currTick : UInt64) (s' : RowQuarantine) : Prop where
  mapped : s'.Mapped rows n
  randRowID : s'.randRowID=s.randRowID
  lastReset : s'.lastReset=if windowOver currTick s.lastReset=true then currTick else s.lastReset

theorem access_kept (hs : s.Mapped rows n) (h : s.access currTick addr = .ok s') : s.Accessed rows n currTick s' := by
  have hmapped:=(perform_mapped hs (.access currTick addr)).of_ok h
  obtain ⟨m,hdetect,hst⟩:=access_still hs h
  obtain ⟨_,u,v,acc,det,flag,hu,_,hv,_,rfl⟩:=(detect_frame s currTick addr).of_ok hdetect
  obtain ⟨f,c,d,st,_,_,_,rfl⟩:=hv
  have hrand:=hst.randRowID
  have hlast:=hst.lastReset
  dsimp only at hrand hlast
  rcases hu with ⟨hover,acc',d',st',rfl⟩ | ⟨hover,d',st',rfl⟩
  · refine ⟨hmapped,hrand,?_⟩
    rw [hover]
    exact hlast
  · refine ⟨hmapped,hrand,?_⟩
    rw [hover]
    exact hlast

theorem access_watched {w : List Event} (hc : s.Configured T) (hw : s.Watched w) (hs : s.Mapped rows n)
    (h : s.access currTick addr = .ok s')
    (hload : ∀ b, loads (push Event.reset w (s.event currTick addr s')) b≤1360000) :
    (s'.Configured T ∧ s'.Watched (push Event.reset w (s.event currTick addr s')) ∧ s'.Mapped rows n) ∧
      Aged T (if (s.event currTick addr s').reset=true then fun _ => 0 else s.slack)
        (s.randRowID.get (addr/8192)) (s.event currTick addr s').mitigate s'.slack := by
  obtain ⟨m,hdetect,hst⟩:=access_still hs h
  have hdetected:=(detect_frame s currTick addr).of_ok hdetect
  obtain ⟨hc',hw',_,haged⟩:=detect_watched hc hw hdetected rfl rfl hload
  have hmit : (s.event currTick addr s').mitigate=m.decision.mitigate := hst.mitigate
  rw [hmit,hst.slack]
  refine ⟨⟨hc'.still hst,?_,(access_kept hs h).mapped⟩,haged⟩
  unfold Watched
  rw [hst.detector]
  exact hw'

variable {as : List (UInt64 × ℕ)} {log : List Event}

theorem accessAll_cons {a : UInt64 × ℕ}
    (h : s.accessAll (a::as) = .ok (s',log)) : ∃ s1 rest, s.access a.1 a.2 = .ok s1 ∧
      s1.accessAll as = .ok (s',rest) ∧ log=s.event a.1 a.2 s1::rest := by
  obtain ⟨s1,hs1,h⟩:=bind_ok h
  obtain ⟨⟨s2,rest⟩,hrest,h⟩:=bind_ok h
  cases h
  exact ⟨s1,rest,hs1,hrest,rfl⟩

theorem accessAll_ticks (h : s.accessAll as = .ok (s',log)) : log.map Event.tick=as.map Prod.fst := by
  induction as generalizing s log with
  | nil =>
    cases h
    rfl
  | cons a as ih =>
    obtain ⟨s1,rest,_,hrest,rfl⟩:=accessAll_cons h
    rw [map_cons,map_cons,ih hrest]
    rfl

theorem accessAll_rows (hs : s.Mapped rows n)
    (h : s.accessAll as = .ok (s',log)) : ∀ e∈log, e.rowID=s.randRowID.get e.row := by
  induction as generalizing s log with
  | nil =>
    cases h
    simp
  | cons a as ih =>
    obtain ⟨s1,rest,haccess,hrest,rfl⟩:=accessAll_cons h
    have hkept:=access_kept hs haccess
    intro e he
    rcases mem_cons.mp he with rfl | he
    · rfl
    · rw [← hkept.randRowID]
      exact ih hkept.mapped hrest e he

theorem accessAll_append {log log' : List Event} (hs : s.Mapped rows n)
    (h : s.accessAll as = .ok (s',log++log')) : ∃ s1 : RowQuarantine, ∃ as1 as2,
      s.accessAll as1 = .ok (s1,log) ∧ s1.Mapped rows n ∧ s1.accessAll as2 = .ok (s',log') := by
  induction log generalizing s as with
  | nil => exact ⟨s,[],as,rfl,hs,h⟩
  | cons e log ih =>
    cases as with
    | nil => cases h
    | cons a as =>
      obtain ⟨s1,rest,haccess,hrest,heq⟩:=accessAll_cons h
      rw [cons_append,List.cons.injEq] at heq
      rw [← heq.2] at hrest
      obtain ⟨s2,as1,as2,h1,hs2,h2⟩:=ih (access_kept hs haccess).mapped hrest
      refine ⟨s2,a::as1,as2,?_,hs2,h2⟩
      rw [accessAll,haccess,heq.1]
      simp only [bind,Except.bind,h1,pure,Except.pure]

theorem accessAll_no_reset (hs : s.Mapped rows n)
    (h : s.accessAll as = .ok (s',log)) (hno : ∀ e∈log, windowOver e.tick s.lastReset=false) :
    ∀ e∈log, e.reset=false := by
  induction as generalizing s log with
  | nil =>
    cases h
    simp
  | cons a as ih =>
    obtain ⟨s1,rest,haccess,hrest,rfl⟩:=accessAll_cons h
    have hkept:=access_kept hs haccess
    have hfirst:=hno _ mem_cons_self
    have hlast : s1.lastReset=s.lastReset := by
      rw [hkept.lastReset]
      exact if_neg (by simpa [event] using hfirst)
    intro e he
    rcases mem_cons.mp he with rfl | he
    · exact hfirst
    · exact ih hkept.mapped hrest (fun e he => hlast ▸ hno e (mem_cons_of_mem _ he)) e he

theorem accessAll_one_reset (hs : s.Mapped rows n) (h : s.accessAll as = .ok (s',log))
    (hshort : log.Pairwise fun e e' => windowOver e'.tick e.tick=false) : log.countP Event.reset≤1 := by
  induction as generalizing s log with
  | nil =>
    cases h
    simp
  | cons a as ih =>
    obtain ⟨s1,rest,haccess,hrest,rfl⟩:=accessAll_cons h
    have hkept:=access_kept hs haccess
    rw [pairwise_cons] at hshort
    rw [countP_cons]
    cases hreset : (s.event a.1 a.2 s1).reset with
    | false => exact ih hkept.mapped hrest hshort.2
    | true =>
      have hover : windowOver a.1 s.lastReset=true := hreset
      have hlast : s1.lastReset=a.1 := by
        rw [hkept.lastReset,if_pos hover]
      have hno:=accessAll_no_reset hkept.mapped hrest (fun e he => hlast ▸ hshort.1 e he)
      have hzero : rest.countP Event.reset=0 := by
        apply countP_eq_zero.mpr
        intro e he
        rw [hno e he]
        exact Bool.false_ne_true
      rw [hzero]
      exact Nat.le_refl _

theorem stretch_one_reset {log mid : List Event} (hs : s.Mapped rows n)
    (h : s.accessAll as = .ok (s',log)) (hsorted : as.Pairwise fun a a' => a.1≤a'.1)
    (hmid : Stretch log mid) : mid.countP Event.reset≤1 := by
  obtain ⟨before,after,rfl⟩:=hmid.part
  have hticks : (before++mid++after).Pairwise fun e e' => e.tick≤e'.tick := by
    have hmap:=accessAll_ticks h
    rw [← pairwise_map (f := Event.tick) (R := fun x y => x≤y),hmap,pairwise_map]
    exact hsorted
  obtain ⟨s1,_,_,h1,_,_⟩:=accessAll_append hs h
  obtain ⟨s2,_,as2,_,hs2,h2⟩:=accessAll_append hs h1
  apply accessAll_one_reset hs2 h2
  have hpart:=(pairwise_append.mp (pairwise_append.mp hticks).1).2.1
  apply Pairwise.imp_of_mem ?_ hpart
  intro e e' he he' hle
  have hlt:=hmid.short e he e' he'
  have hle' : e.tick.toNat≤e'.tick.toNat := hle
  have hsub:=UInt64.toNat_sub_of_le e'.tick e.tick hle
  unfold windowOver
  rw [decide_eq_false_iff_not,UInt64.le_iff_toNat_le,hsub]
  have hwindow : refreshWindow.toNat=64000000000 := by decide
  omega

theorem accessAll_log {α : Type} (sim : RowQuarantine → List Event → α → Prop)
    (admissible : List Event → Prop) {step : α → Event → α → Prop} {renew : α → α}
    (hstep : ∀ s w a currTick addr s', sim s w a → s.access currTick addr = .ok s' →
      admissible (push Event.reset w (s.event currTick addr s')) →
      ∃ b, sim s' (push Event.reset w (s.event currTick addr s')) b ∧
        step (if (s.event currTick addr s').reset=true then renew a else a)
          (s.event currTick addr s') b) {w log : List Event} {a : α} (hsim : sim s w a)
    (hrun : s.accessAll as = .ok (s',log))
    (hadm : ∀ part, part <+: log → part≠[] → admissible (part.foldl (push Event.reset) w)) :
    ∃ b, Log step renew Event.reset a log b := by
  induction as generalizing s w a log with
  | nil =>
    cases hrun
    exact ⟨a,.nil a⟩
  | cons c as ih =>
    obtain ⟨s1,rest,haccess,hrest,rfl⟩:=accessAll_cons hrun
    have hfirst:=hadm [s.event c.1 c.2 s1] ⟨rest,rfl⟩ (cons_ne_nil _ _)
    obtain ⟨b,hsim1,hb⟩:=hstep s w a c.1 c.2 s1 hsim haccess hfirst
    have hadm1 : ∀ part, part <+: rest → part≠[] → admissible
        (part.foldl (push Event.reset) (push Event.reset w (s.event c.1 c.2 s1))) := by
      intro part hpart _
      exact hadm (s.event c.1 c.2 s1::part) ((prefix_cons_inj _).mpr hpart) (cons_ne_nil _ _)
    obtain ⟨d,hd⟩:=ih hsim1 hrest hadm1
    exact ⟨d,.cons a b d _ rest hb hd⟩

/-!
## How often a row is accessed without being quarantined

In a run of the row quarantine that `MemCtrl` builds, a row's slack rises at each of its accesses that is not
mitigated.
-/

structure Permutes (n : ℕ) (ids : Cells ℕ) : Prop where
  injective : Function.Injective ids.get
  inRange : ∀ r<n, ids.get r<n

theorem shuffle_size (draws : ℕ → ℕ) (n fuel ii : ℕ) (ids : Cells ℕ) :
    (shuffle draws n fuel ii ids).size=ids.size := by
  induction fuel generalizing ii ids with
  | zero => rfl
  | succ fuel ih =>
    rw [shuffle]
    exact ih _ _

theorem shuffle_permutes (draws : ℕ → ℕ) {n fuel ii : ℕ} {ids : Cells ℕ} (h : Permutes n ids)
    (hfuel : ii+fuel≤n) : Permutes n (shuffle draws n fuel ii ids) := by
  induction fuel generalizing ii ids with
  | zero => exact h
  | succ fuel ih =>
    rw [shuffle]
    apply ih
    · have hjj:=Nat.mod_lt (draws ii) (show 0<n by omega)
      generalize draws ii%n=jj at hjj
      have hget : ((ids.set ii (ids.get jj)).set jj (ids.get ii)).get=ids.get ∘ Equiv.swap ii jj := by
        funext r
        rw [Cells.get_set,Cells.get_set,Function.comp_apply,Equiv.swap_apply_def]
        by_cases hj : r=jj
        · subst hj
          by_cases hi : r=ii <;> simp [hi]
        · by_cases hi : r=ii
          · subst hi
            simp [hj]
          · simp [hi,hj]
      constructor
      · rw [hget]
        exact h.injective.comp (Equiv.swap ii jj).injective
      · intro r hr
        rw [hget]
        apply h.inRange
        rw [Equiv.swap_apply_def]
        split
        · exact hjj
        · split <;> omega
    · omega

variable {p : MemCtrlParams} {draws : ℕ → ℕ} {trackers : Bank → Tracker} {memory s s' : RowQuarantine}
  {accesses : List (UInt64 × ℕ)} {log mid : List Event} {T : ℕ}

def started (s : RowQuarantine) : RowQuarantine := {s with detector := s.detector.reset}

def builtRows (p : MemCtrlParams) : ℕ :=
  p.rowsPerBank*(p.banksPerRank%256)*(p.ranksPerChannel%256)*1%2^32

structure Started (T rows n : ℕ) (s : RowQuarantine) : Prop where
  configured : s.Configured T
  watched : s.Watched []
  mapped : s.Mapped rows n

theorem buildRQ_post (p : MemCtrlParams) (draws : ℕ → ℕ) (trackers : Bank → Tracker)
    (memory : RowQuarantine) : Post (buildRQ p draws trackers memory)
      (fun s => p.rhActualThreshold/2≠0 ∧ ∃ filter cache moves acc rpb misses virtual rqt sram cbf,
        s={construct p.rhRqQrSize p.rowsPerBank (p.rhActualThreshold/2) (p.banksPerRank%256)
            (p.ranksPerChannel%256) 1 draws memory with
          filter := filter, cache := cache, moveDelay := moves, accDelay := acc, rowsPerBtvBit := rpb
          drainCacheMissThreshold := misses, virtualizeRIT := virtual, sramRQTAccDelay := rqt
          sramCacheAccDelay := sram, sramCBFAccDelay := cbf
          detector := .construct (1360000/(p.rhActualThreshold/2)) (p.rhActualThreshold/2)
            p.rowsPerBank (p.banksPerRank%256) (p.ranksPerChannel%256) 1 trackers}) := by
  unfold buildRQ
  simp only [post_bind,post_udiv,Cells.post_read,post_check,post_pure]
  refine ⟨fun _ => trivial,fun hT => ⟨fun _ => ⟨fun _ => trivial,fun _ => ⟨fun _ => ⟨fun _ => ?_,
    fun _ => trivial⟩,fun _ => trivial⟩⟩,fun _ => trivial⟩⟩
  exact ⟨hT,_,_,_,_,_,_,_,_,_,_,rfl⟩

theorem buildRQ_started (hbanks : p.banksPerRank=16) (hranks : p.ranksPerChannel=1)
    (draws : ℕ → ℕ) (trackers : Bank → Tracker) (memory : RowQuarantine) :
    Post (buildRQ p draws trackers memory) (fun s => s.started.Started (p.rhActualThreshold/2)
      (builtRows p) p.rhRqQrSize) := by
  refine (buildRQ_post p draws trackers memory).imp ?_
  rintro s ⟨hT,_,_,_,_,_,_,_,_,_,_,rfl⟩
  have hrows : builtRows p=p.rowsPerBank*16*1*1%2^32 := by
    rw [builtRows,hbanks,hranks]
  have hperm : Permutes (builtRows p) (shuffle draws (builtRows p) (builtRows p) 0 ⟨builtRows p,id⟩) :=
    shuffle_permutes draws ⟨Function.injective_id,fun _ h => h⟩ (by omega)
  have hallocated:=MisraGries.construct_allocated (1360000/(p.rhActualThreshold/2))
    (p.rhActualThreshold/2) p.rowsPerBank (p.banksPerRank%256) (p.ranksPerChannel%256) 1 trackers
  have hmapped:=construct_mapped p.rhRqQrSize p.rowsPerBank (p.rhActualThreshold/2)
    (p.banksPerRank%256) (p.ranksPerChannel%256) 1 draws memory
  refine ⟨⟨Nat.pos_of_ne_zero hT,rfl,rfl,?_,?_,?_,?_,hperm.injective,hperm.inRange,?_⟩,
    MisraGries.reset_loaded hallocated,hmapped⟩
  · intro b hb
    refine ⟨Nat.one_pos,?_,?_⟩
    · change 0<p.ranksPerChannel%256
      rw [hranks]
      decide
    · change b<p.banksPerRank%256
      rw [hbanks]
      exact hb
  · change builtRows p/16≤p.rowsPerBank
    omega
  · change 16∣builtRows p
    omega
  · exact Nat.mod_lt _ (by decide)
  · exact shuffle_size draws _ _ 0 _

def ages (T : ℕ) (slack : ℕ → ℕ) (e : Event) (slack' : ℕ → ℕ) : Prop :=
  age T slack (e.rowID,e.mitigate) slack'

theorem accessAll_ages {rows n : ℕ} (hs : s.Started T rows n) (hrun : s.accessAll accesses = .ok (s',log))
    (hload : ∀ part, part <+: log → ∀ b, loads (currentWindow part) b≤1360000) :
    ∃ slack, Log (ages T) (fun _ _ => 0) Event.reset s.slack log slack := by
  apply accessAll_log (fun s w slack => (s.Configured T ∧ s.Mapped rows n) ∧ s.Watched w ∧
      slack=s.slack) (fun w => ∀ b, loads w b≤1360000) ?_
    ⟨⟨hs.configured,hs.mapped⟩,hs.watched,rfl⟩ hrun fun part hpart _ => hload part hpart
  rintro s w slack currTick addr s' ⟨⟨hc,hm⟩,hw,rfl⟩ haccess hadm
  obtain ⟨⟨hc',hw',hm'⟩,haged⟩:=access_watched hc hw hm haccess hadm
  exact ⟨s'.slack,⟨⟨hc',hm'⟩,hw',rfl⟩,haged⟩

/-- A row that is never mitigated in a stretch shorter than a window gets at most
`2 * (rh_threshold - 1)` accesses there, fewer than `rh_actual_threshold`. -/
theorem unmitigated_accesses_bounded (hbanks : p.banksPerRank=16) (hranks : p.ranksPerChannel=1)
    (hbuild : buildRQ p draws trackers memory = .ok s)
    (hrun : s.started.accessAll accesses = .ok (s',log))
    (hsorted : accesses.Pairwise fun a a' => a.1≤a'.1)
    (hload : ∀ part, part <+: log → ∀ b, loads (currentWindow part) b≤1360000)
    (hmid : Stretch log mid) (r : ℕ) (hquiet : ∀ e∈mid, e.row=r → e.mitigate=false) :
    mid.countP (fun e => e.row=r)≤2*(p.rhActualThreshold/2-1) ∧
      mid.countP (fun e => e.row=r)<p.rhActualThreshold := by
  have hs:=(buildRQ_started hbanks hranks draws trackers memory).of_ok hbuild
  have hone:=stretch_one_reset hs.mapped hrun hsorted hmid
  have hrows:=accessAll_rows hs.mapped hrun
  obtain ⟨slack,hlog⟩:=accessAll_ages hs hrun hload
  obtain ⟨before,after,rfl⟩:=hmid.part
  obtain ⟨_,hlog,_⟩:=log_append hlog
  obtain ⟨slack0,hbefore,hlog⟩:=log_append hlog
  have hbelow : ∀ x, slack0 x<p.rhActualThreshold/2 :=
    log_invariant hbefore (fun _ _ _ hstep => hstep.below) hs.configured.slack_lt
  obtain ⟨mid1,mid2,slack1,slack2,rfl,h1,h2⟩:=log_two_windows hlog hone
  have hkeys : ∀ v∈mid1.map (fun e => (e.rowID,e.mitigate))++mid2.map (fun e => (e.rowID,e.mitigate)),
      v.1=s.started.randRowID.get r → v.2=false := by
    rw [← List.map_append]
    intro v hv hkey
    obtain ⟨e,he,rfl⟩:=List.mem_map.mp hv
    have hrow:=hrows e (List.mem_append_left _ (List.mem_append_right _ he))
    exact hquiet e he (hs.configured.permuted (hrow.symm.trans hkey))
  have hbound:=two_periods_key hbelow (steps_map h1) (steps_map h2) hkeys
  rw [← List.map_append,List.countP_map] at hbound
  have hle : (mid1++mid2).countP (fun e => e.row=r) ≤
      (mid1++mid2).countP ((fun v => decide (v.1=s.started.randRowID.get r)) ∘
        fun e => (e.rowID,e.mitigate)) := by
    apply List.countP_mono_left
    intro e he hr
    have hrow:=hrows e (List.mem_append_left _ (List.mem_append_right _ he))
    simp only [decide_eq_true_eq,Function.comp_apply] at hr ⊢
    rw [hrow,hr]
  have hpos:=hs.configured.positive
  omega

def smallParams : MemCtrlParams where
  rhActualThreshold := 4
  rowsPerBank := 1
  banksPerRank := 16
  ranksPerChannel := 1
  rhRqQrSize := 3
  rhRqCacheSets := 1
  rhRqRowsPerBtvBit := 1
  rhRqDrainThreshold := 1048576
  rhRqVirtualizeRit := true
  rhRrsSwapDelay := 2740000
  rhRitAccDelay := 1250

theorem unmitigated_accesses_bounded_of_reset : ∃ s s' log,
    buildRQ smallParams id (fun _ => .zeroed) zeroed = .ok s ∧
      s.started.accessAll [(1,8192),(64000000000,8192)] = .ok (s',log) ∧ Stretch log log ∧
      log.countP Event.reset=1 ∧ log.countP (fun e => e.row=1)≤2 := by
  have hrun : Post (do
      let s ← buildRQ smallParams id (fun _ => .zeroed) zeroed
      let r ← s.started.accessAll [(1,8192),(64000000000,8192)]
      pure (s,r)) (fun r => (∀ e∈r.2.2, ∀ e'∈r.2.2, e'.tick.toNat<e.tick.toNat+64000000000) ∧
        (∀ e∈r.2.2, e.row=1 → e.mitigate=false) ∧ r.2.2.countP Event.reset=1)
      fun _ => False := by
    decide +kernel
  obtain ⟨⟨s,s',log⟩,hs,hshort,hquiet,hreset⟩:=hrun.returns
  obtain ⟨_,hbuild,hs⟩:=bind_ok hs
  obtain ⟨_,haccess,hs⟩:=bind_ok hs
  cases hs
  have hlength : log.length=2 := by
    rw [← List.length_map (f := Event.tick),accessAll_ticks haccess]
    rfl
  have hload : ∀ part, part <+: log → ∀ b, loads (currentWindow part) b≤1360000 := by
    intro part hpart b
    have hle:=hpart.length_le
    have hload:=loads_window_le part b
    omega
  have hmid : Stretch log log := ⟨List.infix_rfl,hshort⟩
  exact ⟨s,s',log,hbuild,haccess,hmid,hreset,(unmitigated_accesses_bounded rfl rfl hbuild haccess
    (by decide) hload hmid 1 hquiet).1⟩

end AquaGem5.Quarantine.RowQuarantine
