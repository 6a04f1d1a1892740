import AquaGem5.Swap.Table

/-!
# The remapping of a bank is an involution

`Sane` holds of the constructed tables, and every operation keeps it whatever `rand()`
returns: each table is consistent and holds at most the demanded number of tuples. So
`getRemappedAddr` swaps the two rows of a tuple and fixes every other row.
-/

namespace AquaGem5.Swap.RandomizedRowSwap
open Checked Detector Mitigation Function

structure Shape where
  maxValidTuples : ℕ
  numTuples : ℕ
  numRows : ℕ
  numBanks : ℕ
  numRanks : ℕ
  numChannels : ℕ

def shape (s : RandomizedRowSwap) : Shape :=
  ⟨s.maxValidTuples,s.numTuples,s.numRows,s.numBanks,s.numRanks,s.numChannels⟩

def Shape.hasBank (c : Shape) (b : Bank) : Prop :=
  b.channelID<c.numChannels ∧ b.rankID<c.numRanks ∧ b.bankID<c.numBanks

structure SaneTables (c : Shape) (tables : Bank → Rit) : Prop where
  tuples_lt : c.numTuples<2^32
  demand_lt : c.maxValidTuples<c.numTuples
  tables : ∀ b, c.hasBank b → (tables b).Consistent c.numTuples c.numRows ∧
    (tables b).validTuples≤c.maxValidTuples

def Sane (s : RandomizedRowSwap) : Prop := SaneTables s.shape s.tables

def SameShape (s s' : RandomizedRowSwap) : Prop := s'.shape=s.shape

theorem SameShape.trans {s t u : RandomizedRowSwap} (h : SameShape s t) (h' : SameShape t u) :
    SameShape s u := Eq.trans h' h

theorem SameShape.maxValidTuples {s s' : RandomizedRowSwap} (h : SameShape s s') :
    s'.maxValidTuples=s.maxValidTuples := congrArg Shape.maxValidTuples h

theorem SameShape.numTuples {s s' : RandomizedRowSwap} (h : SameShape s s') :
    s'.numTuples=s.numTuples := congrArg Shape.numTuples h

theorem SameShape.numRows {s s' : RandomizedRowSwap} (h : SameShape s s') :
    s'.numRows=s.numRows := congrArg Shape.numRows h

theorem SameShape.hasBank {s s' : RandomizedRowSwap} (h : SameShape s s') (b : Bank) :
    s'.hasBank b ↔ s.hasBank b := iff_of_eq (congrArg (fun c => Shape.hasBank c b) h)

variable {s : RandomizedRowSwap}

theorem Sane.tuples_lt (hs : s.Sane) : s.numTuples<2^32 :=
  SaneTables.tuples_lt hs

theorem Sane.demand_lt (hs : s.Sane) : s.maxValidTuples<s.numTuples :=
  SaneTables.demand_lt hs

variable {b : Bank}

theorem Sane.table (hs : s.Sane) (hb : s.hasBank b) :
    (s.tables b).Consistent s.numTuples s.numRows ∧ (s.tables b).validTuples ≤ s.maxValidTuples :=
  SaneTables.tables hs b hb

theorem Sane.of_tables {s s' : RandomizedRowSwap} (hs : s.Sane) (h : SameShape s s')
    (ht : s'.tables=s.tables) : s'.Sane := by
  unfold Sane
  rw [h,ht]
  exact hs

def Looked (s s' : RandomizedRowSwap) : Prop := SameShape s s' ∧ s'.tables=s.tables

theorem Looked.trans {s t u : RandomizedRowSwap} (h : Looked s t) (h' : Looked t u) : Looked s u :=
  ⟨h.1.trans h'.1,h'.2.trans h.2⟩

def Searched (s s' : RandomizedRowSwap) : Prop :=
  ∃ randPos stats,s'={s with randPos := randPos,stats := stats}

theorem Searched.refl (s : RandomizedRowSwap) : Searched s s := ⟨s.randPos,s.stats,rfl⟩

theorem Searched.trans {s t u : RandomizedRowSwap} (h : Searched s t) (h' : Searched t u) : Searched s u := by
  obtain ⟨_,_,rfl⟩:=h
  obtain ⟨randPos,stats,rfl⟩:=h'
  exact ⟨randPos,stats,rfl⟩

theorem Searched.looked {s t : RandomizedRowSwap} (h : Searched s t) : Looked s t := by
  obtain ⟨_,_,rfl⟩:=h
  exact ⟨rfl,rfl⟩

def Drawn (s : RandomizedRowSwap) (avoidRow : ℕ) (b : Bank) (p : RandomizedRowSwap × ℕ) : Prop :=
  Looked s p.1 ∧ (p.2<s.numRows → p.2≠avoidRow ∧ (s.tables b).rowHasEntry.get p.2=0)

def NotStuck (e : Fault) : Prop := e ≠ .noUnlockedTuple

theorem lookup_same (d : MisraGries) (row : ℕ) (b : Bank) :
    Post (d.access row b true) (fun p => p.1=d) := by
  have htracker : Post ((d.trackers b).access d.numEntries d.threshold d.sNumUniqRows row true)
      (fun p => p.1=d.trackers b ∧ p.2.1=d.sNumUniqRows) := by
    simp only [Tracker.access,if_true,post_bind,Cells.post_read,post_ite,implies_true,and_true]
    refine fun _ => ⟨fun _ => ?_,fun _ => ⟨rfl,rfl⟩⟩
    simp only [Tracker.hit,if_true,post_bind,Cells.post_read,post_check,implies_true,post_pure,
      and_self]
  unfold MisraGries.access
  refine Post.bind (post_true _) fun _ _ => ?_
  refine htracker.bind fun r hr => ?_
  rw [post_pure,hr.1,hr.2,update_eq_self]

theorem canDraw_post (s : RandomizedRowSwap) (avoidRow row : ℕ) (b : Bank) :
    Post (s.canDraw avoidRow row b) (fun p => p.1=s ∧
      (p.2=true → row≠avoidRow ∧ (s.tables b).rowHasEntry.get row=0)) NotStuck := by
  unfold canDraw
  rw [post_ite]
  refine ⟨fun _ => ⟨rfl,fun h => (Bool.false_ne_true h).elim⟩,fun hne => ?_⟩
  simp only [post_bind,Cells.post_read]
  refine ⟨fun _ => ?_,fun _ h => by cases h⟩
  rw [post_ite]
  refine ⟨fun _ => ⟨rfl,fun h => (Bool.false_ne_true h).elim⟩,fun hzero => ?_⟩
  simp only [post_bind,post_within]
  refine (lookup_same s.detector row b).mono (fun r hr => ?_) fun _ _ h => by cases h
  rw [post_pure,hr]
  exact ⟨rfl,fun _ => ⟨hne,by simpa using hzero⟩⟩

theorem Drawn.of_looked {s t : RandomizedRowSwap} {avoidRow : ℕ} {p : RandomizedRowSwap × ℕ}
    (h : Looked s t) (hp : Drawn t avoidRow b p) : Drawn s avoidRow b p :=
  ⟨h.trans hp.1,by simpa only [h.1.numRows,h.2] using hp.2⟩

theorem drawn_none (s : RandomizedRowSwap) (avoidRow : ℕ) (b : Bank) : Drawn s avoidRow b (s,s.numRows) :=
  ⟨⟨rfl,rfl⟩,fun h => (lt_irrefl _ h).elim⟩

theorem drawRow_post (s : RandomizedRowSwap) (avoidRow : ℕ) (b : Bank) (tries : ℕ) :
    Post (s.drawRow avoidRow b tries) (fun p => Searched s p.1 ∧ Drawn s avoidRow b p) NotStuck := by
  induction tries generalizing s with
  | zero => exact ⟨.refl s,drawn_none s avoidRow b⟩
  | succ tries ih =>
    simp only [drawRow,post_bind,post_umod]
    refine ⟨fun _ h => (by cases h),fun _ => ?_⟩
    have hnext : Searched s {s with randPos := s.randPos+1} := ⟨s.randPos+1,s.stats,rfl⟩
    refine (canDraw_post {s with randPos := s.randPos+1} avoidRow _ b).imp fun r hr => ?_
    obtain ⟨hsame,hfound⟩:=hr
    rw [post_ite,hsame]
    refine ⟨fun h => ⟨hnext,hnext.looked,fun _ => hfound h⟩,fun _ => ?_⟩
    exact (ih _).imp fun p hp => ⟨hnext.trans hp.1,hp.2.of_looked hnext.looked⟩

theorem firstRow_post (s : RandomizedRowSwap) (avoidRow : ℕ) (b : Bank) (fuel ii : ℕ) :
    Post (s.firstRow avoidRow b fuel ii) (fun p => Searched s p.1 ∧ Drawn s avoidRow b p) NotStuck := by
  induction fuel generalizing ii with
  | zero => exact ⟨.refl s,drawn_none s avoidRow b⟩
  | succ fuel ih =>
    simp only [firstRow,post_bind]
    refine (canDraw_post s avoidRow ii b).imp fun r hr => ?_
    obtain ⟨hsame,hfound⟩:=hr
    rw [post_ite,hsame]
    exact ⟨fun h => ⟨.refl s,⟨rfl,rfl⟩,fun _ => hfound h⟩,fun _ => ih (ii+1)⟩

theorem generateRandomRowAddr_post (s : RandomizedRowSwap) (avoidRow : ℕ) (b : Bank) :
    Post (s.generateRandomRowAddr avoidRow b) (fun p => Searched s p.1 ∧ p.2<s.numRows ∧
      p.2≠avoidRow ∧ (s.tables b).rowHasEntry.get p.2=0) NotStuck := by
  unfold generateRandomRowAddr
  refine (drawRow_post s avoidRow b 10).bind fun r hr => ?_
  refine Post.bind (R := fun p => Searched s p.1 ∧ Drawn s avoidRow b p) ?_ fun r hr => ?_
  · rw [post_ite]
    refine ⟨fun _ => ?_,fun _ => hr⟩
    have hfailed : Searched s {r.1 with stats := {r.1.stats with
        sRandRowGenerationFailed := r.1.stats.sRandRowGenerationFailed+1} } :=
      hr.1.trans ⟨_,_,rfl⟩
    exact (firstRow_post _ avoidRow b _ 0).imp
      fun p hp => ⟨hfailed.trans hp.1,hp.2.of_looked hfailed.looked⟩
  · simp only [post_bind,post_check,post_pure]
    refine ⟨fun hlt => ?_,fun _ h => by cases h⟩
    rw [hr.2.1.1.numRows] at hlt
    exact ⟨hr.1,hlt,hr.2.2 hlt⟩

theorem recordSwap_post (d : Decision) (row : ℕ) :
    Post (d.recordSwap row) (fun d' => d'.mitigate=d.mitigate) fun e : Fault => e = .outOfBounds := by
  simp only [Decision.recordSwap,post_bind,Cells.post_write,post_pure]
  exact ⟨fun _ => ⟨fun _ => trivial,fun _ => rfl⟩,fun _ => rfl⟩

theorem recordSwaps_post (s : RandomizedRowSwap) (row partner : ℕ) :
    Post (s.recordSwaps row partner) (fun s' => ∃ d,d.mitigate=s.decision.mitigate ∧
      s'={s with decision := d}) fun e => e = .outOfBounds := by
  unfold recordSwaps
  refine (recordSwap_post s.decision row).bind fun d hd => ?_
  exact (recordSwap_post d partner).bind fun d' hd' => ⟨d',hd'.trans hd,rfl⟩

theorem recordSwaps_looked {E : Fault → Prop} (hE : E .outOfBounds) (s : RandomizedRowSwap)
    (row partner : ℕ) : Post (s.recordSwaps row partner) (Looked s) E := by
  refine (recordSwaps_post s row partner).mono (fun s' hs' => ?_) fun e he => he.symm ▸ hE
  obtain ⟨d,_,rfl⟩:=hs'
  exact ⟨rfl,rfl⟩

theorem insertDrawn_rule {X Y : ℕ} {R Q : RandomizedRowSwap → Prop}
    {E : Fault → Prop} (hc : (s.tables b).Consistent s.numTuples s.numRows)
    (hX : s.numRows≤X → E .outOfBounds)
    (hinstall : X<s.numRows → (s.tables b).rowHasEntry.get X=0 → Post (s.installTuple b X Y) R E)
    (hreswap : X<s.numRows → (s.tables b).rowHasEntry.get X≠0 →
      Post (s.reswapTuple b ((s.tables b).rowHasEntry.get X-1) X Y) R E)
    (hunswap : ∀ u,R u → Post (u.unswapExcess b) (fun w =>
      ((w.tables b).validTuples≤w.maxValidTuples → ∀ stats,Q {w with stats := stats}) ∧
        (¬(w.tables b).validTuples≤w.maxValidTuples → E .tooManyTuples)) E) :
    Post (s.insertDrawn X Y b) Q E := by
  unfold insertDrawn
  rw [post_bind,Cells.post_read]
  refine ⟨fun hlt => ?_,fun hge => hX ?_⟩
  · rw [hc.index_size] at hlt
    -- the tuple to re-swap, or the sentinel `numTuples`
    refine Post.bind (R := fun id => if (s.tables b).rowHasEntry.get X≠0
        then id=(s.tables b).rowHasEntry.get X-1 ∧ id<s.numTuples else id=s.numTuples) ?_ ?_
    · rw [post_ite]
      refine ⟨fun h => ?_,fun h => ?_⟩
      · obtain ⟨hid,hv,hhas⟩:=hc.entry hlt h
        simp only [post_bind,Cells.post_read,post_check,post_pure]
        refine ⟨fun _ => ⟨fun _ => ?_,fun hno => (hno ⟨hv,hhas⟩).elim⟩,
          fun hno => (hno (hc.tuples_size.symm ▸ hid)).elim⟩
        rw [if_pos h]
        exact ⟨trivial,hid⟩
      · rw [post_pure,if_neg h]
    intro id hid
    refine Post.bind (R := R) ?_ fun u hu => ?_
    · by_cases h : (s.tables b).rowHasEntry.get X=0
      · rw [if_neg (by simpa using h)] at hid
        simp only [hid,lt_irrefl,decide_false,Bool.false_eq_true,if_false]
        exact hinstall hlt h
      · rw [if_pos h] at hid
        simp only [hid.2,decide_true,if_true]
        rw [hid.1]
        exact hreswap hlt h
    · refine Post.bind (hunswap u hu) fun w hw => ?_
      simp only [post_bind,post_check,post_pure]
      exact ⟨fun hle => hw.1 hle _,hw.2⟩
  · rw [hc.index_size] at hge
    exact not_lt.mp hge

structure Grown (s : RandomizedRowSwap) (b : Bank) (s' : RandomizedRowSwap) : Prop where
  shape : SameShape s s'
  others : ∀ b', b'≠b → s'.tables b'=s.tables b'
  consistent : (s'.tables b).Consistent s.numTuples s.numRows
  valid : (s'.tables b).validTuples=(s.tables b).validTuples+1

theorem grown_setTable {t : Rit}
    (hc : t.Consistent s.numTuples s.numRows) (hv : t.validTuples=(s.tables b).validTuples+1) :
    Grown s b (s.setTable b t) := by
  refine ⟨rfl,fun b' hb' => update_of_ne hb' ..,?_,?_⟩
  · simpa only [setTable,update_self] using hc
  · simpa only [setTable,update_self] using hv

theorem installTuple_post (hs : s.Sane) (hb : s.hasBank b) {X Y : ℕ} (hXY : Y≠X) (hX : X<s.numRows) (hY : Y<s.numRows)
    (hfX : (s.tables b).rowHasEntry.get X=0) (hfY : (s.tables b).rowHasEntry.get Y=0) :
    Post (s.installTuple b X Y) (Grown s b) := by
  obtain ⟨hc,hv⟩:=hs.table hb
  unfold installTuple
  refine Post.bind ((Rit.install_post hc hs.tuples_lt (hv.trans_lt hs.demand_lt) hXY.symm hX hY
    hfX hfY).mono (fun _ h => h) fun _ h => h.elim) fun t ht => ?_
  exact grown_setTable ht.1 ht.2

theorem reswapTuple_post (hs : s.Sane) (hb : s.hasBank b) {X Y : ℕ} (hXY : Y≠X) (hX : X<s.numRows) (hY : Y<s.numRows)
    (hhas : (s.tables b).rowHasEntry.get X≠0) (hfY : (s.tables b).rowHasEntry.get Y=0) :
    Post (s.reswapTuple b ((s.tables b).rowHasEntry.get X-1) X Y) (Grown s b) := by
  obtain ⟨hc,hv⟩:=hs.table hb
  obtain ⟨hlt,hvalid,hrow⟩:=hc.entry hX hhas
  unfold reswapTuple
  refine Post.bind ((Rit.reswap_post hc hlt hvalid hrow hXY hY hfY).mono (fun _ h => h)
    fun _ h => h.elim) ?_
  rintro ⟨t,A⟩ ⟨htc,htv,hA,hfA⟩
  refine Post.bind (generateRandomRowAddr_post (s.setTable b t) A b).partly ?_
  rintro ⟨u,B⟩ ⟨hsearched,hB,hBA,hfB⟩
  refine Post.bind (recordSwaps_looked trivial u A B) fun w hw => ?_
  have hlookw:=hsearched.looked.trans hw
  have htable : w.tables b=t := by
    rw [hlookw.2]
    exact update_self ..
  have hfB' : t.rowHasEntry.get B=0 := by simpa only [setTable,update_self] using hfB
  rw [htable,show w.numTuples=s.numTuples from hlookw.1.numTuples]
  refine Post.bind ((Rit.install_post htc hs.tuples_lt
    (by rw [htv]; exact hv.trans_lt hs.demand_lt) hBA.symm hA hB hfA hfB').mono (fun _ h => h)
    fun _ h => h.elim) fun t' ht' => ?_
  refine ⟨hlookw.1,?_,?_,?_⟩
  · intro b' hb'
    simp only [setTable,update_of_ne hb']
    rw [hlookw.2]
    exact update_of_ne hb' ..
  · simpa only [setTable,update_self] using ht'.1
  · have hvt:=ht'.2
    simp only [setTable,update_self]
    omega

theorem unswapExcess_post {s s' : RandomizedRowSwap} (hs : s.Sane) (hb : s.hasBank b)
    (hg : Grown s b s') : Post (s'.unswapExcess b) (fun u => SameShape s u ∧ u.Sane) := by
  have hold:=(hs.table hb).2
  have hothers : ∀ t, t.Consistent s.numTuples s.numRows → t.validTuples ≤ s.maxValidTuples →
      ∀ u : RandomizedRowSwap, Looked s' u → (u.setTable b t).Sane := by
    intro t htc htv u hlook
    have hshape : SameShape s (u.setTable b t) := hg.shape.trans hlook.1
    unfold Sane
    rw [hshape]
    refine ⟨hs.tuples_lt,hs.demand_lt,fun b' hb' => ?_⟩
    by_cases h : b'=b
    · subst h
      simp only [setTable,update_self]
      exact ⟨htc,htv⟩
    · simp only [setTable,update_of_ne h]
      rw [hlook.2,hg.others b' h]
      exact hs.table hb'
  unfold unswapExcess
  rw [post_ite]
  constructor
  · intro _
    rw [hg.shape.numTuples]
    refine Post.bind ((Rit.evict_post hg.consistent hs.tuples_lt).forget fun _ h => h) ?_
    rintro ⟨t,x,y⟩ ⟨htc,htv⟩
    refine Post.bind (recordSwaps_looked trivial s' x y) fun u hu => ?_
    dsimp only at htc htv
    have hvalid:=hg.valid
    exact ⟨hg.shape.trans hu.1,hothers t htc (by omega) u hu⟩
  · intro hle
    refine ⟨hg.shape,?_⟩
    have hself : s'.setTable b (s'.tables b)=s' := by simp [setTable]
    rw [← hself]
    refine hothers _ hg.consistent ?_ s' ⟨rfl,rfl⟩
    rw [hg.shape.maxValidTuples] at hle
    omega

theorem insertTuple_post (hs : s.Sane) (X : ℕ) (b : Bank) :
    Post (s.insertTuple X b) (fun s' => SameShape s s' ∧ s'.Sane) := by
  rw [insertTuple]
  refine Post.bind (R := fun _ => s.hasBank b) (by simp) fun _ hb => ?_
  refine (post_true _).bind fun d _ => ?_
  refine Post.bind (generateRandomRowAddr_post {s with decision := d} X b).partly ?_
  rintro ⟨g,Y⟩ ⟨hsearched,hY,hYX,hfY⟩
  refine (post_true _).bind fun d' _ => ?_
  have hlook : Looked s {g with decision := d'} := hsearched.looked
  generalize {g with decision := d'}=t at hlook
  have hst : t.Sane := hs.of_tables hlook.1 hlook.2
  have hbt : t.hasBank b := (hlook.1.hasBank b).mpr hb
  have hYt : Y<t.numRows := hlook.1.numRows.symm ▸ hY
  have hfYt : (t.tables b).rowHasEntry.get Y=0 := by
    rw [hlook.2]
    exact hfY
  refine insertDrawn_rule (R := Grown t b) (hst.table hbt).1 (fun _ => trivial)
    (fun hX h => installTuple_post hst hbt hYX hX hYt h hfYt)
    (fun hX h => reswapTuple_post hst hbt hYX hX hYt h hfYt) fun u hu => ?_
  refine (unswapExcess_post hst hbt hu).imp fun w hw => ⟨fun _ stats => ?_,fun _ => trivial⟩
  exact ⟨hlook.1.trans hw.1,hw.2.of_tables rfl rfl⟩

inductive Action where
  | insertTuple (row : ℕ) (b : Bank)
  | reset
  | resetDecision
  | getRemappedAddr (row : ℕ) (b : Bank) (isFuncLookup : Bool)
  | access (currTick : UInt64) (row : ℕ) (b : Bank)

def perform (s : RandomizedRowSwap) : Action → Except Fault RandomizedRowSwap
  | .insertTuple row b => s.insertTuple row b
  | .reset => s.reset
  | .resetDecision => pure {s with decision := .fresh}
  | .getRemappedAddr row b isFuncLookup => do
    let r ← s.getRemappedAddr row b isFuncLookup
    pure r.1
  | .access currTick row b => s.access currTick row b

inductive Reachable (s0 : RandomizedRowSwap) : RandomizedRowSwap → Prop
  | start : Reachable s0 s0
  | step (s s' : RandomizedRowSwap) (a : Action) : Reachable s0 s → s.perform a = .ok s' →
      Reachable s0 s'

theorem reset_post (hs : s.Sane) : Post s.reset (fun s' => SameShape s s' ∧ s'.Sane) := by
  unfold reset
  refine (post_true _).bind fun swept _ => ?_
  refine ⟨rfl,hs.tuples_lt,hs.demand_lt,?_⟩
  intro b hb
  have hb' : s.hasBank b := hb
  obtain ⟨hc,hv⟩:=hs.table hb'
  simp only [hb',if_true]
  exact ⟨Rit.unlock_consistent hc,hv⟩

theorem getRemappedAddr_post (row : ℕ) (b : Bank) (f : Bool) :
    Post (s.getRemappedAddr row b f) (fun p => Looked s p.1) := by
  simp only [getRemappedAddr,post_bind,post_check,Cells.post_read,implies_true,and_true]
  intro _ _
  rw [post_ite]
  refine ⟨fun _ => ?_,fun _ => ⟨rfl,rfl⟩⟩
  simp only [post_bind,post_check,Cells.post_read,implies_true,and_true,post_pure]
  exact fun _ _ => ⟨rfl,rfl⟩

theorem access_post (hs : s.Sane) (currTick : UInt64) (row : ℕ) (b : Bank) :
    Post (s.access currTick row b) (fun s' => SameShape s s' ∧ s'.Sane) := by
  unfold access
  refine Post.bind (R := fun t => SameShape s t ∧ t.Sane) ?_ fun t ht => ?_
  · rw [post_ite]
    exact ⟨fun _ => reset_post (hs.of_tables rfl rfl),fun _ => ⟨rfl,hs.of_tables rfl rfl⟩⟩
  · simp only [post_bind,Cells.post_read,implies_true,and_true]
    intro _
    rw [post_within]
    cases t.detector.access row b false with
    | error e => trivial
    | ok r =>
      rw [post_ok,post_ite]
      refine ⟨fun _ => ?_,fun _ => ⟨ht.1,ht.2.of_tables rfl rfl⟩⟩
      refine Post.bind (insertTuple_post ?_ row b) fun u hu => ?_
      · exact ht.2.of_tables rfl rfl
      · exact ⟨ht.1.trans hu.1,hu.2.of_tables rfl rfl⟩

theorem perform_post (hs : s.Sane) (a : Action) :
    Post (s.perform a) (fun s' => SameShape s s' ∧ s'.Sane) := by
  cases a with
  | insertTuple row b => exact insertTuple_post hs row b
  | reset => exact reset_post hs
  | resetDecision => exact ⟨rfl,hs.of_tables rfl rfl⟩
  | getRemappedAddr row b f =>
    refine Post.bind (getRemappedAddr_post row b f) fun r hr => ?_
    exact ⟨hr.1,hs.of_tables hr.1 hr.2⟩
  | access currTick row b => exact access_post hs currTick row b

theorem reachable_sane {s0 s : RandomizedRowSwap} (h0 : s0.Sane) (h : Reachable s0 s) : SameShape s0 s ∧ s.Sane := by
  induction h with
  | start => exact ⟨rfl,h0⟩
  | step s s' a _ hstep ih =>
    obtain ⟨hshape,hs'⟩:=(perform_post ih.2 a).of_ok hstep
    exact ⟨ih.1.trans hshape,hs'⟩

theorem lt_tupleCount {demandTuples n : ℕ} (h3 : 3≤demandTuples)
    (h : tupleCount demandTuples = .ok n) : demandTuples<n ∧ n<2^32 := by
  have hfloat:=roundBits_ge (show 0<24 by omega) demandTuples
  have hdouble:=roundBits_ge (show 0<53 by omega)
    (6433711823272297*roundBits 24 demandTuples)
  unfold tupleCount at h
  generalize roundBits 24 demandTuples=asFloat at hfloat hdouble h
  generalize roundBits 53 (6433711823272297*asFloat)=product at hdouble h
  norm_num only at hfloat hdouble h
  split at h
  · obtain rfl:=Except.ok.inj h
    omega
  · cases h

theorem construct_sane {demandTuples numRows threshold numBanks numRanks numChannels : ℕ}
    {detector : MisraGries} {swapDelay sramRitAccDelay : UInt64} {randSeq : ℕ → ℕ} {stats : Stats}
    (h3 : 3≤demandTuples)
    (h : construct demandTuples numRows threshold numBanks numRanks numChannels detector swapDelay
      sramRitAccDelay randSeq stats = .ok s) : s.Sane := by
  obtain ⟨n,hn,hs⟩:=bind_ok h
  obtain rfl:=Except.ok.inj hs
  obtain ⟨hlt,hlt32⟩:=lt_tupleCount h3 hn
  exact ⟨hlt32,hlt,fun b _ => ⟨Rit.calloc_consistent n numRows,Nat.zero_le _⟩⟩

theorem getRemappedAddr_eq (hb : s.hasBank b)
    (hc : (s.tables b).Consistent s.numTuples s.numRows) {r : ℕ} (hr : r<s.numRows) (f : Bool) :
    ∃ s', s.getRemappedAddr r b f = .ok (s',(s.tables b).partner r) := by
  have hpost : Post (s.getRemappedAddr r b f) (fun p => p.2=(s.tables b).partner r)
      fun _ => False := by
    simp only [getRemappedAddr,post_bind,post_check,hb,Cells.post_read,hc.index_size,hr,
      not_true_eq_false,false_implies,and_true,true_implies]
    rw [post_ite]
    constructor
    · intro h
      obtain ⟨hi,hv,hrow⟩:=hc.entry hr h
      simp only [post_bind,post_check,Cells.post_read,hc.tuples_size,hi,hv,hrow,and_self,
        not_true_eq_false,false_implies,and_true,true_implies,post_pure]
      rw [Rit.partner,if_neg h]
    · intro h
      exact (if_pos (not_not.mp h)).symm
  obtain ⟨⟨s',p⟩,hok,rfl⟩:=hpost.returns
  exact ⟨s',hok⟩

/-- In every reachable state the index array of a bank agrees with its tuples, the tuples are
disjoint pairs within the demand, and `getRemappedAddr` is an involution of the bank's rows. -/
theorem remap_involution {demandTuples numRows threshold numBanks numRanks numChannels : ℕ}
    {detector : MisraGries} {swapDelay sramRitAccDelay : UInt64} {randSeq : ℕ → ℕ} {stats : Stats}
    {s0 s : RandomizedRowSwap} (h3 : 3≤demandTuples)
    (h0 : construct demandTuples numRows threshold numBanks numRanks numChannels detector swapDelay
      sramRitAccDelay randSeq stats = .ok s0) (h : Reachable s0 s) {b : Bank} (hb : s.hasBank b) :
    s.maxValidTuples<s.numTuples ∧
    (∀ r<s.numRows, ∀ i<s.numTuples, (s.tables b).rowHasEntry.get r=i+1 ↔
      ((s.tables b).tuples.get i).valid=true ∧ ((s.tables b).tuples.get i).has r) ∧
    (∀ i<s.numTuples, ((s.tables b).tuples.get i).valid=true →
      ((s.tables b).tuples.get i).origRowID≠((s.tables b).tuples.get i).remappedRowID) ∧
    (∀ i<s.numTuples, ∀ j<s.numTuples, ∀ r, ((s.tables b).tuples.get i).valid=true →
      ((s.tables b).tuples.get j).valid=true → ((s.tables b).tuples.get i).has r →
      ((s.tables b).tuples.get j).has r → i=j) ∧
    (s.tables b).validTuples =
      ((Finset.range s.numTuples).filter fun i => ((s.tables b).tuples.get i).valid=true).card ∧
    (s.tables b).validTuples ≤ s.maxValidTuples ∧
    ∃ σ : Equiv.Perm (Fin s.numRows), (∀ r, σ (σ r)=r) ∧
      ∀ (r : Fin s.numRows) (f : Bool), ∃ s', s.getRemappedAddr r b f = .ok (s',(σ r : ℕ)) := by
  obtain ⟨_,hs⟩:=reachable_sane (construct_sane h3 h0) h
  obtain ⟨hc,hle⟩:=hs.table hb
  refine ⟨hs.demand_lt,hc.index,hc.distinct,?_,hc.count,hle,?_⟩
  · intro i hi j hj r hvi hvj hri hrj
    have hr:=hc.inRange i hi hvi r hri
    have hidx:=(hc.index r hr i hi).mpr ⟨hvi,hri⟩
    have hidx':=(hc.index r hr j hj).mpr ⟨hvj,hrj⟩
    omega
  · have hinv : Function.Involutive fun r : Fin s.numRows =>
        (⟨(s.tables b).partner r,hc.partner_lt r.isLt⟩ : Fin s.numRows) :=
      fun r => Fin.ext (hc.partner_partner r.isLt)
    exact ⟨hinv.toPerm,hinv,fun r f => getRemappedAddr_eq hb hc r.isLt f⟩

theorem remap_involution_of_insert :
    ∃ s0 s, construct 3 8 2 1 1 1 (.construct 2 2 8 1 1 1 fun _ => .zeroed) 0 0 id
        ⟨0,0,0,0,0,0,0,0,⟨0,.calloc 4 0⟩⟩ = .ok s0 ∧ s0.insertTuple 5 ⟨0,0,0⟩ = .ok s ∧
      ∃ σ : Equiv.Perm (Fin s.numRows), (∀ r, σ (σ r)=r) ∧ ∀ (r : Fin s.numRows) (f : Bool),
        ∃ s', s.getRemappedAddr r ⟨0,0,0⟩ f = .ok (s',(σ r : ℕ)) := by
  have hrun : Post (do
      let s0 ← construct 3 8 2 1 1 1 (.construct 2 2 8 1 1 1 fun _ => .zeroed) 0 0 id
        ⟨0,0,0,0,0,0,0,0,⟨0,.calloc 4 0⟩⟩
      s0.insertTuple 5 ⟨0,0,0⟩) (fun s => s.hasBank ⟨0,0,0⟩) fun _ => False := by
    decide +kernel
  obtain ⟨s,hs,hb⟩:=hrun.returns
  obtain ⟨s0,h0,hs⟩:=bind_ok hs
  have h:=remap_involution (by decide) h0 (.step _ _ (.insertTuple 5 ⟨0,0,0⟩) .start hs) hb
  exact ⟨s0,s,h0,hs,h.2.2.2.2.2.2⟩

end AquaGem5.Swap.RandomizedRowSwap
