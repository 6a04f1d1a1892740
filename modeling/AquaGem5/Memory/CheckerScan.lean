import AquaGem5.Memory.CheckerState

/-!
# The scan of the checker

A write is seen when it is not complete before the last observation started, and stops the scan when it is complete
before the read.
-/

namespace AquaGem5.Memory.MemChecker
open List

variable {lastObs w : Transaction} {start complete : ℕ} {data : UInt8} {s : Scan} {c : WriteCluster}
  {writes : List Transaction} {newer older clusters : List WriteCluster} {t : ByteTracker} {past : List Call} {x : Transaction}
  {r k0 k : ℕ} {d : UInt8}

def Stops (lastObs : Transaction) (start : ℕ) (w : Transaction) : Prop :=
  lastObs.start≤w.complete ∧ w.complete ≤ start

theorem scanWrites_cons (lastObs : Transaction) (start : ℕ) (data : UInt8) (w : Transaction) (writes : List Transaction)
    (s : Scan) : scanWrites lastObs start data (w::writes) s =
      if w.complete<lastObs.start then scanWrites lastObs start data writes s
      else if w.data=data then {s with matched := true}
      else if start<w.complete then scanWrites lastObs start data writes {s with expected := s.expected++[w.data]}
      else scanWrites lastObs start data writes
        (if lastObs.complete<w.start then ⟨s.matched,false,false,s.expected++[w.data]⟩
        else ⟨s.matched,false,s.lastObsValid,s.expected++[w.data]⟩) := rfl

theorem scanWrites_matched (hw : w∈writes) (hseen : lastObs.start≤w.complete) (hd : w.data=data) :
    (scanWrites lastObs start data writes s).matched=true := by
  induction writes generalizing s with
  | nil => exact (not_mem_nil hw).elim
  | cons w' writes ih =>
    rw [scanWrites_cons]
    split
    · rename_i hskip
      rcases mem_cons.mp hw with rfl | hw
      · omega
      · exact ih hw
    · split
      · rfl
      · rename_i hne
        rcases mem_cons.mp hw with rfl | hw
        · exact (hne hd).elim
        · split
          · exact ih hw
          · exact ih hw

theorem scanWrites_flags (lastObs : Transaction) (start : ℕ) (data : UInt8) (writes : List Transaction) (s : Scan) :
    ((scanWrites lastObs start data writes s).wcOverlap=false →
      s.wcOverlap=false ∨ ∃ w∈writes, Stops lastObs start w) ∧
    ((scanWrites lastObs start data writes s).lastObsValid=false →
      s.lastObsValid=false ∨ ∃ w∈writes, Stops lastObs start w ∧ lastObs.complete<w.start) ∧
    ((scanWrites lastObs start data writes s).lastObsValid=true → s.lastObsValid=true) := by
  induction writes generalizing s with
  | nil => exact ⟨.inl,.inl,id⟩
  | cons w writes ih =>
    -- what the rest of the writes says is said of all of them
    have hrest : ∀ s', (s'.wcOverlap=false → s.wcOverlap=false ∨ Stops lastObs start w) →
        (s'.lastObsValid=false → s.lastObsValid=false ∨ Stops lastObs start w ∧ lastObs.complete<w.start) →
        (s'.lastObsValid=true → s.lastObsValid=true) →
        ((scanWrites lastObs start data writes s').wcOverlap=false →
          s.wcOverlap=false ∨ ∃ w'∈w::writes, Stops lastObs start w') ∧
        ((scanWrites lastObs start data writes s').lastObsValid=false →
          s.lastObsValid=false ∨ ∃ w'∈w::writes, Stops lastObs start w' ∧ lastObs.complete<w'.start) ∧
        ((scanWrites lastObs start data writes s').lastObsValid=true → s.lastObsValid=true) := by
      intro s' hov hva htr
      obtain ⟨h1,h2,h3⟩:=ih s'
      refine ⟨fun h => ?_,fun h => ?_,fun h => htr (h3 h)⟩
      · rcases h1 h with h | ⟨w',hw',hs⟩
        · exact (hov h).imp id fun hs => ⟨w,mem_cons_self ..,hs⟩
        · exact .inr ⟨w',mem_cons_of_mem _ hw',hs⟩
      · rcases h2 h with h | ⟨w',hw',hs⟩
        · exact (hva h).imp id fun hs => ⟨w,mem_cons_self ..,hs⟩
        · exact .inr ⟨w',mem_cons_of_mem _ hw',hs⟩
    rw [scanWrites_cons]
    split
    · exact hrest s .inl .inl id
    · rename_i hseen
      split
      · exact ⟨.inl,.inl,id⟩
      · split
        · exact hrest _ .inl .inl id
        · rename_i hle
          have hstop : Stops lastObs start w := ⟨Nat.le_of_not_lt hseen,Nat.le_of_not_lt hle⟩
          split
          · rename_i hafter
            exact hrest _ (fun _ => .inr hstop) (fun _ => .inr ⟨hstop,hafter⟩) nofun
          · exact hrest _ (fun _ => .inr hstop) .inl id

theorem scanWrites_skipped (h : ∀ w∈writes, w.complete<lastObs.start) : scanWrites lastObs start data writes s=s := by
  induction writes with
  | nil => rfl
  | cons w writes ih =>
    rw [scanWrites_cons,if_pos (h w (mem_cons_self ..))]
    exact ih fun w' hw' => h w' (mem_cons_of_mem _ hw')

theorem scanClusters_cons (lastObs : Transaction) (start : ℕ) (data : UInt8) (c : WriteCluster)
    (older : List WriteCluster) (s : Scan) : scanClusters lastObs start data (c::older) s =
      if s.wcOverlap then
        if (scanWrites lastObs start data c.writes s).matched then scanWrites lastObs start data c.writes s
        else scanClusters lastObs start data older (scanWrites lastObs start data c.writes s)
      else s := rfl

theorem scanClusters_matched (hs : s.wcOverlap=true) (hw : w∈c.writes) (hseen : lastObs.start≤w.complete)
    (hd : w.data=data) (hstop : ∀ c'∈newer, ∀ w'∈c'.writes, ¬Stops lastObs start w') :
    (scanClusters lastObs start data (newer++c::older) s).matched=true := by
  induction newer generalizing s with
  | nil =>
    have hmatched : (scanWrites lastObs start data c.writes s).matched=true := scanWrites_matched hw hseen hd
    rw [nil_append,scanClusters_cons,if_pos hs,if_pos hmatched]
    exact hmatched
  | cons c' newer ih =>
    rw [cons_append,scanClusters_cons,if_pos hs]
    split
    · assumption
    · refine ih ?_ fun c'' hc'' => hstop c'' (mem_cons_of_mem _ hc'')
      by_contra hov
      rcases (scanWrites_flags lastObs start data c'.writes s).1 (Bool.eq_false_iff.mpr hov) with hfalse | ⟨w',hw',hst⟩
      · exact Bool.false_ne_true (hfalse.symm.trans hs)
      · exact hstop c' (mem_cons_self ..) w' hw' hst

theorem scanClusters_flags (lastObs : Transaction) (start : ℕ) (data : UInt8) (clusters : List WriteCluster) (s : Scan) :
    ((scanClusters lastObs start data clusters s).wcOverlap=false →
      s.wcOverlap=false ∨ ∃ c∈clusters, ∃ w∈c.writes, Stops lastObs start w) ∧
    ((scanClusters lastObs start data clusters s).lastObsValid=false →
      s.lastObsValid=false ∨ ∃ c∈clusters, ∃ w∈c.writes, Stops lastObs start w ∧ lastObs.complete<w.start) ∧
    ((scanClusters lastObs start data clusters s).lastObsValid=true → s.lastObsValid=true) := by
  induction clusters generalizing s with
  | nil => exact ⟨.inl,.inl,id⟩
  | cons c older ih =>
    obtain ⟨h1,h2,h3⟩:=scanWrites_flags lastObs start data c.writes s
    rw [scanClusters_cons]
    split
    · split
      · refine ⟨fun h => ?_,fun h => ?_,h3⟩
        · exact (h1 h).imp id fun hw => ⟨c,mem_cons_self ..,hw⟩
        · exact (h2 h).imp id fun hw => ⟨c,mem_cons_self ..,hw⟩
      · obtain ⟨i1,i2,i3⟩:=ih (scanWrites lastObs start data c.writes s)
        refine ⟨fun h => ?_,fun h => ?_,fun h => h3 (i3 h)⟩
        · rcases i1 h with h | ⟨c',hc',hw⟩
          · exact (h1 h).imp id fun hw => ⟨c,mem_cons_self ..,hw⟩
          · exact .inr ⟨c',mem_cons_of_mem _ hc',hw⟩
        · rcases i2 h with h | ⟨c',hc',hw⟩
          · exact (h2 h).imp id fun hw => ⟨c,mem_cons_self ..,hw⟩
          · exact .inr ⟨c',mem_cons_of_mem _ hc',hw⟩
    · exact ⟨.inl,.inl,id⟩

theorem scanClusters_stopped (ho : s.wcOverlap=false) : scanClusters lastObs start data clusters s=s := by
  cases clusters with
  | nil => rfl
  | cons c older => rw [scanClusters_cons,ho,if_neg Bool.false_ne_true]

theorem scanClusters_skipped (hm : s.matched=false) (h : ∀ c∈newer, ∀ w∈c.writes, w.complete<lastObs.start) :
    scanClusters lastObs start data (newer++clusters) s=scanClusters lastObs start data clusters s := by
  induction newer with
  | nil => rfl
  | cons c newer ih =>
    rw [cons_append,scanClusters_cons,scanWrites_skipped (h c (mem_cons_self ..)),hm,
      if_neg Bool.false_ne_true,ih fun c' hc' => h c' (mem_cons_of_mem _ hc')]
    split
    · rfl
    · rename_i ho
      exact (scanClusters_stopped (Bool.eq_false_iff.mpr ho)).symm

theorem scanClusters_all_skipped (hm : s.matched=false) (h : ∀ c∈clusters, ∀ w∈c.writes, w.complete<lastObs.start) :
    scanClusters lastObs start data clusters s=s := by
  have hskip : scanClusters lastObs start data (clusters++[]) s=scanClusters lastObs start data [] s :=
    scanClusters_skipped hm h
  rw [append_nil] at hskip
  exact hskip

theorem scanClusters_stop (hs : s.wcOverlap=true) (hm : s.matched=false) (hw : c.writes=[w])
    (hstop : Stops lastObs start w) (hd : w.data≠data) (hv : s.lastObsValid=true → lastObs.complete<w.start) :
    scanClusters lastObs start data (c::older) s=⟨false,false,false,s.expected++[w.data]⟩ := by
  have hscan : scanWrites lastObs start data c.writes s=⟨false,false,false,s.expected++[w.data]⟩ := by
    rw [hw,scanWrites_cons,if_neg (Nat.not_lt.mpr hstop.1),if_neg hd,if_neg (Nat.not_lt.mpr hstop.2),hm]
    split
    · rfl
    · rename_i hle
      rw [Bool.eq_false_iff.mpr fun h => hle (hv h)]
      rfl
  rw [scanClusters_cons,if_pos hs,hscan]
  dsimp only
  rw [if_neg Bool.false_ne_true]
  exact scanClusters_stopped rfl

theorem confirm_valid (t : ByteTracker) (complete : ℕ) (data : UInt8) (hv : s.lastObsValid=true) (hle : lastObs.complete ≤ start) :
    ∃ expected, t.confirm lastObs start complete data s = .ok (decide (lastObs.data=data),expected) := by
  rw [ByteTracker.confirm]
  dsimp only
  rw [if_pos hv,Checked.check,if_pos hle]
  dsimp only [bind,Except.bind]
  by_cases hd : lastObs.data=data
  · rw [if_pos hd,decide_eq_true hd]
    exact ⟨_,rfl⟩
  · rw [if_neg hd,if_neg (append_ne_nil_of_right_ne_nil _ (cons_ne_nil _ _)),decide_eq_false hd]
    exact ⟨_,rfl⟩

theorem confirm_unknown (hv : s.lastObsValid=false) (ho : s.wcOverlap=true) (hnil : t.writeClusters=[] → s.expected=[])
    (hinit : lastObs.complete=TICK_INITIAL) (hold : ∀ c∈t.writeClusters, c.start<complete)
    (hnew : ∀ c, t.writeClusters.head?=some c → start<c.complete) :
    ∃ expected, t.confirm lastObs start complete data s = .ok (true,expected) := by
  rw [ByteTracker.confirm]
  dsimp only
  rw [hv,if_neg Bool.false_ne_true]
  cases hl : t.writeClusters with
  | nil =>
    rw [hnil hl]
    dsimp only [getLast?_nil]
    rw [if_pos rfl,Checked.check,if_pos hinit]
    exact ⟨_,rfl⟩
  | cons c older =>
    obtain ⟨oldest,hlast⟩ : ∃ oldest, (c::older).getLast?=some oldest :=
      ⟨_,getLast?_eq_some_getLast (cons_ne_nil _ _)⟩
    have hc:=hnew c (by rw [hl]; rfl)
    have ho':=hold oldest (by rw [hl]; exact mem_of_getLast? hlast)
    rw [hlast,head?_cons]
    dsimp only
    rw [if_pos ho,Checked.check,if_pos ⟨ho',hc⟩]
    exact ⟨_,rfl⟩

theorem confirm_stopped (hv : s.lastObsValid=false) (ho : s.wcOverlap=false) (hne : s.expected≠[]) :
    ∃ expected, t.confirm lastObs start complete data s = .ok (false,expected) := by
  rw [ByteTracker.confirm]
  dsimp only
  rw [hv,ho,if_neg Bool.false_ne_true,if_neg hne]
  split
  · rw [if_neg Bool.false_ne_true]
    exact ⟨_,rfl⟩
  · exact ⟨_,rfl⟩

theorem inExpectedData_eq (hlast : lastCompletedTransaction Transaction.complete t.readObservations k0 = .ok x) :
    t.inExpectedData k0 k d =
      if (scanClusters x k0 d t.writeClusters ⟨false,true,x.complete != TICK_INITIAL,[]⟩).matched then
        .ok (true,(scanClusters x k0 d t.writeClusters ⟨false,true,x.complete != TICK_INITIAL,[]⟩).expected)
      else t.confirm x k0 k d (scanClusters x k0 d t.writeClusters ⟨false,true,x.complete != TICK_INITIAL,[]⟩) := by
  rw [ByteTracker.inExpectedData,hlast]
  rfl

theorem Tracks.last_observation (hf : Formed TICK_FUTURE past) (h : Tracks past t) (hs : .startRead r k0∈past) (hfin : ¬Finished past r) :
    ∃ x, lastCompletedTransaction Transaction.complete t.readObservations k0 = .ok x ∧ x.complete≤k0 ∧
      (x=⟨0,TICK_INITIAL,TICK_INITIAL,0⟩ ∨
        .startRead x.serial x.start∈past ∧ .completeRead x.serial x.complete x.data∈past) := by
  obtain ⟨r',hr',rfl⟩:=h.outstanding r k0 hs hfin
  have hstart : r'.start=k0 := (Call.startRead.inj (hf.unique (h.reads r' hr').1 hs rfl rfl)).2
  obtain ⟨x,hx,hmem,hcase⟩:=lastCompletedTransaction_ok Transaction.complete k0 h.observed
  refine ⟨x,hx,?_,h.observations x hmem⟩
  rcases hcase with hlt | hlast
  · exact hlt.le
  · exact hstart ▸ h.oldest x hlast r' hr'

/-! ## Histories with points -/

open Register Placement
variable {calls : List Call} {o : Placement ℕ UInt8} {n w0 : ℕ} {p : ℚ}

section
variable (hf : Formed n calls) (hl : Linearized calls o) (hsub : ∀ b∈past, b∈calls)

include hf hl hsub

theorem WriteOf.placed (hw : WriteOf past w) (hdone : .completeWrite w.serial w.complete∈past) :
    o.effective w.serial ∧ (w.start : ℚ)<o.point w.serial ∧ o.point w.serial<w.complete := by
  obtain ⟨heff,hlt⟩:=hl.completed _ _ (hsub _ hdone)
  obtain ⟨k,d,hs,hk⟩:=hl.started _ heff
  have he:=hf.unique hs (hsub _ hw.started) rfl rfl
  cases he
  exact ⟨heff,hk,hlt⟩

theorem not_between (hlast : o.Last p w0) (hk0 : (k0 : ℚ)<p) (hw : WriteOf past w)
    (hdone : .completeWrite w.serial w.complete∈past) (hle : w.complete≤k0)
    (hlt : o.point w0<o.point w.serial) : False := by
  obtain ⟨heff,_,hpc⟩:=hw.placed hf hl hsub hdone
  have hp:=hlast.not_between heff hlt
  have hle' : (w.complete : ℚ)≤k0 := by exact_mod_cast hle
  exact absurd (hp.trans_lt (hpc.trans_le hle')) (lt_asymm hk0)

theorem Tracks.expected_of_last (hpast : Formed TICK_FUTURE past) (h : Tracks past t) (hs : .startRead r k0∈past)
    (hfin : ¬Finished past r) (hlast : o.Last p w0) (hw0 : ∃ e, .startWrite w0 e d∈past) (hk0 : (k0 : ℚ)<p)
    (k : ℕ) : ∃ expected, t.inExpectedData k0 k d = .ok (true,expected) := by
  obtain ⟨e0,hw0⟩:=hw0
  have hk0fut : k0<TICK_FUTURE := hpast.tick_lt hs
  obtain ⟨x,hx,hxle,hobs⟩:=h.last_observation hpast hs hfin
  rw [inExpectedData_eq hx]
  -- a completed write after the last write is not complete before the read
  have hno : ∀ c∈t.writeClusters, ∀ w∈c.writes, w.complete≤k0 → o.point w0<o.point w.serial → False :=
    fun c hc w hw hle hlt => by
      have hof:=((h.clusters c hc).writes w hw).1
      exact not_between hf hl hsub hlast hk0 hof (hof.done (hle.trans_lt hk0fut)) hle hlt
  have hafter : ∀ c∈t.writeClusters, ∀ w∈c.writes, w.complete≤k0 → ∀ e : ℕ, o.point w0<e → e≤w.start → False :=
    fun c hc w hw hle e he hes => by
      have hof:=((h.clusters c hc).writes w hw).1
      obtain ⟨_,hsp,_⟩:=hof.placed hf hl hsub (hof.done (hle.trans_lt hk0fut))
      have hes' : (e : ℚ)≤w.start := by exact_mod_cast hes
      exact hno c hc w hw hle (he.trans_le (hes'.trans hsp.le))
  rcases h.held w0 e0 d hw0 fun e he => hl.aborted _ _ (hsub _ he) hlast.effective with
    ⟨c,hc,w,hw,hser⟩ | ⟨e,he,c,hc,hne,hlt,hreads⟩
  · have hof:=((h.clusters c hc).writes w hw).1
    have hdata : w.data=d := by
      have he:=hf.unique (hsub _ hof.started) (hsub _ hw0) hser rfl
      exact (Call.startWrite.inj he).2.2
    rcases Nat.lt_or_ge w.complete x.start with hskip | hseen
    · -- the write was complete before the last observation, which has its value
      rcases hobs with rfl | ⟨hxs,hxd⟩
      · exact (Nat.not_lt_zero _ hskip).elim
      have hxlt:=hpast.read_lt hxs hxd
      obtain ⟨q,hxq,hqx,hholds⟩:=hl.read _ _ _ _ (hsub _ hxs) (hsub _ hxd)
      have hwfut : w.complete<TICK_FUTURE := by omega
      obtain ⟨_,_,hwp⟩:=hof.placed hf hl hsub (hof.done hwfut)
      have hskip' : (w.complete : ℚ)<x.start := by exact_mod_cast hskip
      have hwq : o.point w0<q := hser ▸ hwp.trans (hskip'.trans hxq)
      have hqp : q≤p := by
        have hxle' : (x.complete : ℚ)≤k0 := by exact_mod_cast hxle
        exact (hqx.trans_le (hxle'.trans hk0.le)).le
      have hxdata : x.data=d :=
        (holds_of_last hl.distinct (hlast.earlier hwq hqp) hholds).trans (hl.value _ _ _ (hsub _ hw0))
      split
      · exact ⟨_,rfl⟩
      · have hvalid : (scanClusters x k0 d t.writeClusters ⟨false,true,x.complete != TICK_INITIAL,[]⟩).lastObsValid =
            true := by
          by_contra hfalse
          rcases (scanClusters_flags x k0 d t.writeClusters _).2.1 (Bool.eq_false_iff.mpr hfalse) with
            hinit | ⟨c',hc',w',hw',hstop,hxw⟩
          · have hzero : x.complete=TICK_INITIAL := bne_eq_false_iff_eq.mp hinit
            rw [TICK_INITIAL] at hzero
            omega
          · exact hafter c' hc' w' hw' hstop.2 x.complete (hwq.trans hqx) hxw.le
        have hconf:=confirm_valid t k d hvalid hxle
        rw [decide_eq_true hxdata] at hconf
        exact hconf
    · -- the scan finds the write
      obtain ⟨newer,older,hsplit⟩:=List.append_of_mem hc
      have hord:=h.ordered
      rw [hsplit] at hord
      have hmatched : (scanClusters x k0 d (newer++c::older) ⟨false,true,x.complete != TICK_INITIAL,[]⟩).matched =
          true := scanClusters_matched rfl hw hseen hdata fun c' hc' w' hw' hstop => by
          obtain ⟨hlt,hne⟩:=(List.pairwise_append.mp hord).2.2 c' hc' c (List.mem_cons_self ..)
          have hc'mem : c'∈t.writeClusters := by
            rw [hsplit]
            exact List.mem_append_left _ hc'
          obtain ⟨hwle,hdone⟩:=(h.clusters c hc).le_complete hpast hne hw
          obtain ⟨_,_,hwp⟩:=hof.placed hf hl hsub hdone
          have hstart:=((h.clusters c' hc'mem).writes w' hw').2
          exact hafter c' hc'mem w' hw' hstop.2 w.complete (hser ▸ hwp) (by omega)
      rw [hsplit,if_pos hmatched]
      exact ⟨_,rfl⟩
  · -- a newer cluster was complete before the read
    obtain ⟨r',hr',hr's⟩:=h.outstanding r k0 hs hfin
    have hstart : r'.start=k0 := by
      have he:=hpast.unique (h.reads r' hr').1 hs hr's rfl
      exact (Call.startRead.inj he).2
    have hck:=hreads r' hr'
    obtain ⟨w,hw⟩:=(h.clusters c hc).exists_write hne
    have hwle:=((h.clusters c hc).le_complete hpast hne hw).1
    have hws:=((h.clusters c hc).writes w hw).2
    exact (hafter c hc w hw (by omega) e (hl.completed _ _ (hsub _ he)).2 (by omega)).elim

theorem Tracks.expected_of_none (hpast : Formed TICK_FUTURE past) (h : Tracks past t) (ht : ∀ b∈past, b.tick<k)
    (hs : .startRead r k0∈past) (hfin : ¬Finished past r) (hnone : ∀ w, o.effective w → p≤o.point w)
    (hk0 : (k0 : ℚ)<p) : ∃ expected, t.inExpectedData k0 k o.initial = .ok (true,expected) := by
  have hk0fut : k0<TICK_FUTURE := hpast.tick_lt hs
  obtain ⟨x,hx,hxle,hobs⟩:=h.last_observation hpast hs hfin
  rw [inExpectedData_eq hx]
  have hno : ∀ c∈t.writeClusters, ∀ w∈c.writes, k0<w.complete := fun c hc w hw => by
    by_contra hle
    have hle:=Nat.le_of_not_lt hle
    have hof:=((h.clusters c hc).writes w hw).1
    obtain ⟨heff,_,hpc⟩:=hof.placed hf hl hsub (hof.done (hle.trans_lt hk0fut))
    have hle' : (w.complete : ℚ)≤k0 := by exact_mod_cast hle
    exact absurd ((hnone _ heff).trans_lt (hpc.trans_le hle')) (lt_asymm hk0)
  obtain ⟨hov,hva,htr⟩:=scanClusters_flags x k0 o.initial t.writeClusters
    ⟨false,true,x.complete != TICK_INITIAL,[]⟩
  split
  · exact ⟨_,rfl⟩
  · rcases hobs with rfl | ⟨hxs,hxd⟩
    · refine confirm_unknown ?_ ?_ (fun hnil => ?_) rfl (fun c hc => ?_) fun c hc => ?_
      · exact Bool.eq_false_iff.mpr fun htrue => Bool.false_ne_true (htr htrue)
      · by_contra hfalse
        rcases hov (Bool.eq_false_iff.mpr hfalse) with htf | ⟨c,hc,w,hw,hstop⟩
        · exact Bool.false_ne_true htf.symm
        · exact absurd (hno c hc w hw) (Nat.not_lt.mpr hstop.2)
      · rw [hnil]
        rfl
      · obtain ⟨b,hb,hle⟩:=(h.clusters c hc).start
        exact hle.trans_lt (ht b hb)
      · have hmem:=List.mem_of_mem_head? hc
        by_cases hcf : c.complete=TICK_FUTURE
        · omega
        · obtain ⟨w,hw⟩:=(h.clusters c hmem).exists_write hcf
          exact (hno c hmem w hw).trans_le ((h.clusters c hmem).le_complete hpast hcf hw).1
    · have hxlt:=hpast.read_lt hxs hxd
      obtain ⟨q,_,hqx,hholds⟩:=hl.read _ _ _ _ (hsub _ hxs) (hsub _ hxd)
      have hxle' : (x.complete : ℚ)≤k0 := by exact_mod_cast hxle
      have hqp : q≤p := (hqx.trans_le (hxle'.trans hk0.le)).le
      have hxdata:=holds_of_none (fun w hw => hqp.trans (hnone w hw)) hholds
      have hvalid : (scanClusters x k0 o.initial t.writeClusters ⟨false,true,x.complete != TICK_INITIAL,[]⟩).lastObsValid =
          true := by
        by_contra hfalse
        rcases hva (Bool.eq_false_iff.mpr hfalse) with hinit | ⟨c,hc,w,hw,hstop,_⟩
        · have hzero : x.complete=TICK_INITIAL := bne_eq_false_iff_eq.mp hinit
          rw [TICK_INITIAL] at hzero
          omega
        · exact absurd (hno c hc w hw) (Nat.not_lt.mpr hstop.2)
      have hconf:=confirm_valid t k o.initial hvalid hxle
      rw [decide_eq_true hxdata] at hconf
      exact hconf

end

end AquaGem5.Memory.MemChecker
