import AquaGem5.Swap.Aside
import AquaGem5.Detector.Flags
import AquaGem5.Detector.Unreset

/-!
# Whatever the demand, the tables stay consistent

`Sane` asks for more tuples than the demand.
-/

namespace AquaGem5.Swap

namespace Rit
open Checked

variable {n rows : ℕ} {t : Rit}

theorem Consistent.full (hs : t.Consistent n rows) (h : ¬t.validTuples<n) : ∀ i<n,(t.tuples.get i).valid=true := by
  have hcard : ((Finset.range n).filter fun i => (t.tuples.get i).valid=true).card =
      (Finset.range n).card := by
    have hle:=hs.valid_le
    rw [← hs.count,Finset.card_range]
    omega
  exact fun i hi => Finset.card_filter_eq_iff.mp hcard i (Finset.mem_range.mpr hi)

theorem install_consistent {x y : ℕ} (hs : t.Consistent n rows) (hn : n<2^32) (hxy : x≠y)
    (hx : x<rows) (hy : y<rows) (hfx : t.rowHasEntry.get x=0) (hfy : t.rowHasEntry.get y=0) :
    Post (t.install n x y) (fun t' => t'.Consistent n rows) fun _ => False := by
  by_cases hroom : t.validTuples<n
  · exact (install_post hs hn hroom hxy hx hy hfx hfy).imp fun _ h => h.1
  · unfold install
    split
    next ii hfind =>
      have hv:=hs.full hroom ii (List.mem_range.mp (List.mem_of_find?_eq_some hfind))
      have hfree:=List.find?_some hfind
      simp [hv] at hfree
    next => exact hs

end Rit

namespace RandomizedRowSwap
open Checked Detector Mitigation

variable {s s' s0 : RandomizedRowSwap} {b : Bank} {E : Fault → Prop} {X Y : ℕ}

structure Kept (s : RandomizedRowSwap) : Prop where
  tuples_lt : s.numTuples<2^32
  tables : ∀ b, s.hasBank b → (s.tables b).Consistent s.numTuples s.numRows ∧
    (s.tables b).validTuples ≤ s.maxValidTuples

/-- Only `randPos`, the statistics and the decision may differ. -/
structure Beside (s s' : RandomizedRowSwap) : Prop where
  shape : SameShape s s'
  tables : s'.tables=s.tables
  detector : s'.detector=s.detector

theorem Kept.of_tables (h : s.Kept) (hs : SameShape s s') (ht : s'.tables=s.tables) : s'.Kept := by
  refine ⟨?_,fun b hb => ?_⟩
  · rw [hs.numTuples]
    exact h.tuples_lt
  · rw [hs.numTuples,hs.numRows,hs.maxValidTuples,ht]
    exact h.tables b ((hs.hasBank b).mp hb)

theorem Kept.setTable (h : s.Kept) {t : Rit} (hc : t.Consistent s.numTuples s.numRows)
    (hv : t.validTuples ≤ s.maxValidTuples) (b : Bank) : (s.setTable b t).Kept := by
  refine ⟨h.tuples_lt,fun b' hb' => ?_⟩
  by_cases hbb : b'=b
  · subst hbb
    rw [tables_setTable]
    exact ⟨hc,hv⟩
  · rw [(aside_setTable b s t).others b' hbb]
    exact h.tables b' hb'

theorem Kept.unlocked (h : s.Kept) (hs : SameShape s s') (ht : s'.tables=s.unlocked) : s'.Kept := by
  refine ⟨?_,fun b hb => ?_⟩
  · rw [hs.numTuples]
    exact h.tuples_lt
  · have hb:=(hs.hasBank b).mp hb
    obtain ⟨hc,hv⟩:=h.tables b hb
    rw [hs.numTuples,hs.numRows,hs.maxValidTuples,ht]
    unfold RandomizedRowSwap.unlocked
    rw [if_pos hb]
    exact ⟨Rit.unlock_consistent hc,hv⟩

def Draws (E : Fault → Prop) (s : RandomizedRowSwap) (b : Bank) : Prop :=
  ∀ u, SameShape s u → u.Kept → u.detector=s.detector → ∀ avoidRow,
    Post (u.generateRandomRowAddr avoidRow b) (fun p => Beside u p.1 ∧ p.2<u.numRows ∧
      p.2≠avoidRow ∧ (u.tables b).rowHasEntry.get p.2=0) E

theorem Searched.beside (h : Searched s s') : Beside s s' := by
  obtain ⟨_,_,rfl⟩:=h
  exact ⟨rfl,rfl,rfl⟩

theorem draws_partly (s : RandomizedRowSwap) (b : Bank) : Draws (fun _ => True) s b := by
  intro u _ _ _ avoidRow
  exact (generateRandomRowAddr_post u avoidRow b).forget fun p hp => ⟨hp.1.beside,hp.2⟩

def NotDry (e : Fault) : Prop := e ≠ .noRandomRow

theorem recordSwap_notDry (d : Decision) (row : ℕ) : Post (d.recordSwap row) (fun _ => True) NotDry := by
  refine (recordSwap_post d row).mono (fun _ _ => trivial) ?_
  rintro _ rfl
  exact fun h => by cases h

theorem recordSwaps_notDry (s : RandomizedRowSwap) (row partner : ℕ) :
    Post (s.recordSwaps row partner) (Beside s) NotDry := by
  refine (recordSwaps_post s row partner).mono ?_ ?_
  · rintro _ ⟨d,_,rfl⟩
    exact ⟨rfl,rfl,rfl⟩
  · rintro _ rfl
    exact fun h => by cases h

structure Swapped (s : RandomizedRowSwap) (b : Bank) (s' : RandomizedRowSwap) : Prop where
  shape : SameShape s s'
  consistent : (s'.tables b).Consistent s.numTuples s.numRows

theorem swapped_setTable {t : Rit} (hs : SameShape s s') (h : t.Consistent s.numTuples s.numRows) :
    Swapped s b (s'.setTable b t) := by
  refine ⟨hs,?_⟩
  rw [tables_setTable]
  exact h

theorem installTuple_swapped (h : s.Kept) (hb : s.hasBank b) (hX : X<s.numRows) (hY : Y<s.numRows)
    (hYX : Y≠X) (hfX : (s.tables b).rowHasEntry.get X=0) (hfY : (s.tables b).rowHasEntry.get Y=0) :
    Post (s.installTuple b X Y) (Swapped s b) E := by
  unfold installTuple
  refine Post.bind ((Rit.install_consistent (h.tables b hb).1 h.tuples_lt hYX.symm hX hY hfX hfY).mono
    (fun _ h => h) fun _ h => h.elim) fun t ht => ?_
  exact swapped_setTable rfl ht

theorem reswapTuple_swapped (h : s.Kept) (hd : Draws E s b) (hE : ∀ e, NotDry e → E e)
    (hb : s.hasBank b) (hX : X<s.numRows) (hY : Y<s.numRows) (hYX : Y≠X)
    (hhas : (s.tables b).rowHasEntry.get X≠0) (hfY : (s.tables b).rowHasEntry.get Y=0) :
    Post (s.reswapTuple b ((s.tables b).rowHasEntry.get X-1) X Y) (Swapped s b) E := by
  obtain ⟨hc,hv⟩:=h.tables b hb
  obtain ⟨hlt,hvalid,hrow⟩:=hc.entry hX hhas
  unfold reswapTuple
  refine Post.bind ((Rit.reswap_post hc hlt hvalid hrow hYX hY hfY).mono (fun _ h => h)
    fun _ h => h.elim) fun p hp => ?_
  obtain ⟨t,A⟩:=p
  obtain ⟨htc,htv,hA,hfA⟩:=hp
  dsimp only at htc htv hA hfA
  -- in the middle of the re-swap
  have hmid : (s.setTable b t).Kept := h.setTable htc (htv.symm ▸ hv) b
  refine Post.bind (hd (s.setTable b t) rfl hmid rfl A) fun g hg => ?_
  obtain ⟨hbeside,hB,hBA,hfB⟩:=hg
  refine Post.bind ((recordSwaps_notDry g.1 A g.2).mono (fun _ h => h) hE) fun w hw => ?_
  have htable : w.tables b=t := by
    rw [hw.tables,hbeside.tables,tables_setTable]
  rw [tables_setTable] at hfB
  rw [htable,hw.shape.numTuples,hbeside.shape.numTuples]
  refine Post.bind ((Rit.install_consistent htc h.tuples_lt hBA.symm hA hB hfA hfB).mono
    (fun _ h => h) fun _ h => h.elim) fun t' ht' => ?_
  exact swapped_setTable (hbeside.shape.trans hw.shape) ht'

theorem unswapExcess_swapped (hE : ∀ e, NotDry e → E e) (hn : s.numTuples<2^32) (h : Swapped s b s') :
    Post (s'.unswapExcess b) (Swapped s b) E := by
  unfold unswapExcess
  rw [post_ite]
  refine ⟨fun _ => ?_,fun _ => h⟩
  rw [h.shape.numTuples]
  refine Post.bind ((Rit.evict_post h.consistent hn).mono (fun _ h => h) fun e he => hE e ?_)
    fun p hp => ?_
  · rw [he]
    exact fun hdry => by cases hdry
  · refine Post.bind ((recordSwaps_notDry s' p.2.1 p.2.2).mono (fun _ h => h) hE) fun w hw => ?_
    exact swapped_setTable (h.shape.trans hw.shape) hp.1

theorem insertTuple_swapped (h : s.Kept) (hE : ∀ e, NotDry e → E e) (X : ℕ)
    (hd : s.hasBank b → Draws E s b) : Post (s.insertTuple X b)
      (fun s' => Swapped s b s' ∧ (s'.tables b).validTuples ≤ s'.maxValidTuples) E := by
  rw [insertTuple]
  refine Post.bind (R := fun _ => s.hasBank b) ?_ fun _ hb => ?_
  · rw [post_check]
    exact ⟨fun h => h,fun _ => hE _ fun h => by cases h⟩
  refine Post.bind ((recordSwap_notDry s.decision X).mono (fun _ h => h) hE) fun d _ => ?_
  refine Post.bind (hd hb {s with decision := d} rfl (h.of_tables rfl rfl) rfl X) fun g hg => ?_
  obtain ⟨hbeside,hY,hYX,hfY⟩:=hg
  refine Post.bind ((recordSwap_notDry g.1.decision g.2).mono (fun _ h => h) hE) fun d' _ => ?_
  have hdrawn : Beside s {g.1 with decision := d'} :=
    ⟨hbeside.shape,hbeside.tables,hbeside.detector⟩
  generalize {g.1 with decision := d'}=t at hdrawn
  have ht : t.Kept := h.of_tables hdrawn.shape hdrawn.tables
  have hdt : Draws E t b := fun u hu hk hdet => hd hb u (hdrawn.shape.trans hu) hk
    (hdet.trans hdrawn.detector)
  have hbt : t.hasBank b := (hdrawn.shape.hasBank b).mpr hb
  have hYt : g.2<t.numRows := hdrawn.shape.numRows.symm ▸ hY
  have hfYt : (t.tables b).rowHasEntry.get g.2=0 := by
    rw [hdrawn.tables]
    exact hfY
  refine insertDrawn_rule (R := Swapped t b) (ht.tables b hbt).1 (fun _ => hE _ fun h => by cases h)
    (fun hX h => installTuple_swapped ht hbt hX hYt hYX h hfYt)
    (fun hX h => reswapTuple_swapped ht hdt hE hbt hX hYt hYX h hfYt) fun u hu => ?_
  refine (unswapExcess_swapped hE ht.tuples_lt hu).imp fun w hw => ⟨fun hle _ => ?_,fun _ => ?_⟩
  · refine ⟨⟨hdrawn.shape.trans hw.shape,?_⟩,hle⟩
    rw [← hdrawn.shape.numTuples,← hdrawn.shape.numRows]
    exact hw.consistent
  · exact hE _ fun h => by cases h

theorem insertTuple_kept (h : s.Kept) (hE : ∀ e, NotDry e → E e) (X : ℕ)
    (hd : s.hasBank b → Draws E s b) : Post (s.insertTuple X b)
      (fun s' => s'.Kept ∧ SameShape s s' ∧ s'.detector=s.detector) E := by
  refine ((insertTuple_swapped h hE X hd).and (insertTuple_aside s X b)).mono (fun s' hs' => ?_)
    fun _ h => h.1
  obtain ⟨⟨hswapped,hle⟩,haside⟩:=hs'
  have htables : s'.tables=(s.setTable b (s'.tables b)).tables := by
    funext b'
    by_cases hb' : b'=b
    · subst hb'
      exact (tables_setTable s b' _).symm
    · rw [haside.others b' hb']
      exact ((aside_setTable b s _).others b' hb').symm
  rw [haside.shape.maxValidTuples] at hle
  exact ⟨(h.setTable hswapped.consistent hle b).of_tables haside.shape htables,haside.shape,
    haside.detector⟩

theorem prepared_kept {currTick : UInt64} {row : ℕ} {m : RandomizedRowSwap} (h : s.Kept)
    (hm : Prepared s currTick row b m) : m.Kept := by
  have htables:=hm.tables
  by_cases hover : windowOver currTick s.lastReset=true
  · rw [if_pos hover] at htables
    exact h.unlocked hm.shape htables
  · rw [if_neg hover] at htables
    exact h.of_tables hm.shape htables

theorem perform_kept (h : s.Kept) (a : Action) : Post (s.perform a) Kept := by
  cases a with
  | insertTuple row b =>
    exact (insertTuple_kept h (fun _ _ => trivial) row fun _ => draws_partly s b).imp fun _ h => h.1
  | reset => exact (reset_tables s).forget fun s' hs' => h.unlocked hs'.1 hs'.2.1
  | resetDecision => exact h.of_tables rfl rfl
  | getRemappedAddr row b f =>
    exact Post.bind (getRemappedAddr_post row b f) fun r hr => h.of_tables hr.1 hr.2
  | access currTick row b =>
    refine access_prepared (fun _ _ _ => trivial) (fun m hm _ => prepared_kept h hm) fun m hm _ => ?_
    exact (insertTuple_kept (prepared_kept h hm) (fun _ _ => trivial) row fun _ => draws_partly m b).imp
      fun u hu _ => hu.1.of_tables rfl rfl

theorem reachable_kept (h₀ : s0.Kept) (h : Reachable s0 s) : s.Kept := by
  induction h with
  | start => exact h₀
  | step s s' a _ hstep ih => exact (perform_kept ih a).of_ok hstep

theorem construct_kept {demandTuples numRows threshold numBanks numRanks numChannels : ℕ}
    {detector : MisraGries} {swapDelay sramRitAccDelay : UInt64} {randSeq : ℕ → ℕ} {stats : Stats}
    (h₀ : construct demandTuples numRows threshold numBanks numRanks numChannels detector swapDelay
      sramRitAccDelay randSeq stats = .ok s0) : s0.Kept := by
  obtain ⟨n,hn,hs⟩:=bind_ok h₀
  obtain rfl:=Except.ok.inj hs
  have hlt : n<2^32 := by
    unfold tupleCount at hn
    dsimp only at hn
    split at hn
    next hlt => exact Except.ok.inj hn ▸ hlt
    next => cases hn
  exact ⟨hlt,fun b _ => ⟨Rit.calloc_consistent n numRows,Nat.zero_le _⟩⟩

end RandomizedRowSwap

/-!
## Drawing a row always succeeds

A valid tuple takes two rows and an entry of the detector one.
-/

open Finset

namespace Rit
open Checked

variable {n rows : ℕ} {t : Rit}

theorem Consistent.entries_le (hs : t.Consistent n rows) :
    ((Finset.range rows).filter fun r => t.rowHasEntry.get r≠0).card≤2*t.validTuples := by
  have hsub : ((range rows).filter fun r => t.rowHasEntry.get r≠0) ⊆
      ((range n).filter fun i => (t.tuples.get i).valid=true).biUnion fun i =>
        {(t.tuples.get i).origRowID,(t.tuples.get i).remappedRowID} := by
    intro r hr
    obtain ⟨hr,hne⟩:=mem_filter.mp hr
    obtain ⟨hlt,hv,hhas⟩:=hs.entry (mem_range.mp hr) hne
    refine mem_biUnion.mpr ⟨_,mem_filter.mpr ⟨mem_range.mpr hlt,hv⟩,?_⟩
    rcases hhas with horig | hremapped
    · simp [horig]
    · simp [hremapped]
  have hcard:=(card_le_card hsub).trans
    (card_biUnion_le_card_mul _ _ 2 fun i _ => card_le_two)
  rw [← hs.count] at hcard
  omega

end Rit

namespace RandomizedRowSwap
open Checked Detector Mitigation

variable {s s' s0 : RandomizedRowSwap} {b : Bank} {avoidRow : ℕ}

structure Answers (s : RandomizedRowSwap) (b : Bank) : Prop where
  index_size : (s.tables b).rowHasEntry.size=s.numRows
  lookup : ∀ row<s.numRows, s.detector.access row b true =
    .ok (s.detector,decide ((s.detector.trackers b).rowHasEntry.get row≠0))

def Free (s : RandomizedRowSwap) (avoidRow : ℕ) (b : Bank) (row : ℕ) : Prop :=
  row≠avoidRow ∧ (s.tables b).rowHasEntry.get row=0 ∧
    (s.detector.trackers b).rowHasEntry.get row=0

instance (row : ℕ) : Decidable (s.Free avoidRow b row) := inferInstanceAs (Decidable (_ ∧ _ ∧ _))

variable {row : ℕ}

theorem canDraw_eq (h : s.Answers b) (hrow : row<s.numRows) :
    s.canDraw avoidRow row b = .ok (s,decide (s.Free avoidRow b row)) := by
  unfold canDraw
  by_cases havoid : row=avoidRow
  · have hnot : ¬s.Free avoidRow b row := fun hf => hf.1 havoid
    rw [if_pos havoid,decide_eq_false hnot]
    rfl
  rw [if_neg havoid,Cells.read_of_lt _ (h.index_size.symm ▸ hrow)]
  by_cases hentry : (s.tables b).rowHasEntry.get row=0
  · have hiff : s.Free avoidRow b row ↔ (s.detector.trackers b).rowHasEntry.get row=0 :=
      ⟨fun hf => hf.2.2,fun hf => ⟨havoid,hentry,hf⟩⟩
    simp only [bind,Except.bind,hentry,ne_eq,not_true_eq_false,if_false,within,h.lookup row hrow,pure,
      Except.pure,decide_not,Bool.not_not,hiff]
  · have hnot : ¬s.Free avoidRow b row := fun hf => hentry hf.2.1
    simp only [bind,Except.bind,ne_eq,hentry,not_false_eq_true,if_true,pure,Except.pure,
      decide_eq_false hnot]

theorem drawRow_ends (h : s.Answers b) (hpos : 0<s.numRows) (tries : ℕ) :
    Post (s.drawRow avoidRow b tries) (fun p => (∃ k, p.1={s with randPos := k}) ∧
      (p.2=s.numRows ∨ p.2<s.numRows ∧ s.Free avoidRow b p.2)) fun _ => False := by
  induction tries generalizing s with
  | zero => exact ⟨⟨s.randPos,rfl⟩,.inl rfl⟩
  | succ tries ih =>
    simp only [drawRow,post_bind,post_umod]
    refine ⟨fun h0 => by omega,fun _ => ?_⟩
    have hanswers : Answers {s with randPos := s.randPos+1} b := ⟨h.index_size,h.lookup⟩
    have hguess : s.randSeq s.randPos%s.numRows<s.numRows := Nat.mod_lt _ hpos
    rw [canDraw_eq hanswers hguess,post_ok,post_ite]
    refine ⟨fun hfree => ⟨⟨_,rfl⟩,.inr ⟨hguess,of_decide_eq_true hfree⟩⟩,fun _ => ?_⟩
    refine (ih hanswers hpos).imp fun p hp => ?_
    obtain ⟨⟨k,hk⟩,hrow⟩:=hp
    exact ⟨⟨k,hk⟩,hrow⟩

theorem firstRow_finds (h : s.Answers b) (fuel ii : ℕ) (hend : ii+fuel ≤ s.numRows)
    (hfree : ∃ r,ii≤r ∧ r < ii+fuel ∧ s.Free avoidRow b r) :
    ∃ row,s.firstRow avoidRow b fuel ii = .ok (s,row) ∧ row<s.numRows ∧ s.Free avoidRow b row := by
  induction fuel generalizing ii with
  | zero =>
    obtain ⟨r,hlo,hhi,_⟩:=hfree
    omega
  | succ fuel ih =>
    have hcan : s.canDraw avoidRow ii b = .ok (s,decide (s.Free avoidRow b ii)) :=
      canDraw_eq h (by omega)
    by_cases hii : s.Free avoidRow b ii
    · refine ⟨ii,?_,by omega,hii⟩
      simp only [firstRow,hcan,bind,Except.bind,decide_eq_true hii,if_true]
      rfl
    · have hnext : s.firstRow avoidRow b (fuel+1) ii=s.firstRow avoidRow b fuel (ii+1) := by
        simp only [firstRow,hcan,bind,Except.bind,decide_eq_false hii,Bool.false_eq_true,if_false]
      rw [hnext]
      obtain ⟨r,hlo,hhi,hr⟩:=hfree
      have hne : r≠ii := by
        rintro rfl
        exact hii hr
      exact ih (ii+1) (by omega) ⟨r,by omega,by omega,hr⟩

structure Roomy (s : RandomizedRowSwap) : Prop where
  kept : s.Kept
  settled : s.detector.Settled
  numRows : s.detector.numRows=s.numRows
  banks : ∀ b, s.hasBank b → s.detector.hasBank b
  room : 2*(s.maxValidTuples+1)+s.detector.numEntries+1<s.numRows

theorem Roomy.of_kept (h : s.Roomy) (hk : s'.Kept) (hs : SameShape s s') (hd : s'.detector.Settled)
    (hrows : s'.detector.numRows=s.detector.numRows) (hentries : s'.detector.numEntries=s.detector.numEntries)
    (hbanks : ∀ b, s'.detector.hasBank b ↔ s.detector.hasBank b) : s'.Roomy := by
  refine ⟨hk,hd,?_,fun b hb => ?_,?_⟩
  · rw [hrows,hs.numRows]
    exact h.numRows
  · exact (hbanks b).mpr (h.banks b ((hs.hasBank b).mp hb))
  · rw [hentries,hs.maxValidTuples,hs.numRows]
    exact h.room

theorem Roomy.of_same (h : s.Roomy) (hk : s'.Kept) (hs : SameShape s s') (hd : s'.detector=s.detector) : s'.Roomy :=
  h.of_kept hk hs (hd ▸ h.settled) (by rw [hd]) (by rw [hd]) fun b => by rw [hd]

theorem Roomy.of_beside (h : s.Roomy) (hs : Beside s s') : s'.Roomy :=
  h.of_same (h.kept.of_tables hs.shape hs.tables) hs.shape hs.detector

theorem Roomy.answers (h : s.Roomy) (hb : s.hasBank b) : s.Answers b :=
  ⟨(h.kept.tables b hb).1.index_size,fun _ hrow => h.settled.lookup (h.numRows.symm ▸ hrow) (h.banks b hb)⟩

theorem Roomy.exists_free (h : s.Roomy) (hb : s.hasBank b) (avoidRow : ℕ) : ∃ r<s.numRows,s.Free avoidRow b r := by
  by_contra hnone
  have hcover : range s.numRows ⊆
      (((range s.numRows).filter fun r => (s.tables b).rowHasEntry.get r≠0) ∪
        ((range s.numRows).filter fun r => (s.detector.trackers b).rowHasEntry.get r≠0)) ∪
          {avoidRow} := by
    intro r hr
    by_contra hout
    simp only [mem_union,mem_filter,mem_singleton,hr,true_and,not_or,
      not_not] at hout
    exact hnone ⟨r,mem_range.mp hr,hout.2,hout.1.1,hout.1.2⟩
  obtain ⟨hc,hv⟩:=h.kept.tables b hb
  have hentries:=hc.entries_le
  have htracked:=(h.settled b (h.banks b hb)).tracked_le
  rw [h.numRows] at htracked
  have hcard:=(card_le_card hcover).trans
    ((card_union_le _ _).trans (Nat.add_le_add_right (card_union_le _ _) _))
  rw [card_range,card_singleton] at hcard
  have hroom:=h.room
  omega

theorem Free.of_beside (h : s'.Free avoidRow b row) (hs : Beside s s') : s.Free avoidRow b row := by
  obtain ⟨hne,hentry,htracked⟩:=h
  rw [hs.tables] at hentry
  rw [hs.detector] at htracked
  exact ⟨hne,hentry,htracked⟩

theorem Roomy.scans (h : s.Roomy) (hb : s.hasBank b) (avoidRow : ℕ) :
    ∃ row,s.firstRow avoidRow b s.numRows 0 = .ok (s,row) ∧ row<s.numRows ∧ s.Free avoidRow b row := by
  obtain ⟨r,hr,hfree⟩:=h.exists_free hb avoidRow
  exact firstRow_finds (h.answers hb) s.numRows 0 (by omega) ⟨r,Nat.zero_le r,by omega,hfree⟩

theorem Roomy.draws (h : s.Roomy) (hb : s.hasBank b) (avoidRow : ℕ) :
    Post (s.generateRandomRowAddr avoidRow b) (fun p => Beside s p.1 ∧ p.2<s.numRows ∧
      s.Free avoidRow b p.2) fun _ => False := by
  have hpos : 0<s.numRows := by
    have hroom:=h.room
    omega
  unfold generateRandomRowAddr
  refine (drawRow_ends (h.answers hb) hpos 10).bind fun p hp => ?_
  obtain ⟨u,row⟩:=p
  obtain ⟨⟨k,hk⟩,hrow⟩:=hp
  dsimp only at hk hrow
  subst hk
  refine Post.bind (R := fun p => Beside s p.1 ∧ p.2<s.numRows ∧ s.Free avoidRow b p.2) ?_
    fun q hq => ?_
  · rw [post_ite]
    refine ⟨fun _ => ?_,fun hne => ⟨⟨rfl,rfl,rfl⟩,hrow.resolve_left hne⟩⟩
    generalize hw : ({s with randPos := k, stats := {s.stats with
      sRandRowGenerationFailed := s.stats.sRandRowGenerationFailed+1} } : RandomizedRowSwap)=w
    have hbeside : Beside s w := by
      rw [← hw]
      exact ⟨rfl,rfl,rfl⟩
    have hrows : w.numRows=s.numRows := hbeside.shape.numRows
    obtain ⟨row,hok,hlt,hf⟩:=(h.of_beside hbeside).scans ((hbeside.shape.hasBank b).mpr hb) avoidRow
    rw [hrows] at hok hlt
    rw [hok]
    exact ⟨hbeside,hlt,hf.of_beside hbeside⟩
  · simp only [post_bind,post_check,post_pure]
    rw [hq.1.shape.numRows]
    exact ⟨fun _ => hq,fun hno => hno hq.2.1⟩

theorem Roomy.draws_in (h : s.Roomy) (hb : s.hasBank b) : Draws NotDry s b := by
  intro u hs hk hd avoidRow
  refine (((h.of_same hk hs hd).draws ((hs.hasBank b).mpr hb) avoidRow)).mono (fun p hp => ?_)
    fun _ h => h.elim
  exact ⟨hp.1,hp.2.1,hp.2.2.1,hp.2.2.2.1⟩

theorem insertTuple_roomy (h : s.Roomy) (X : ℕ) (b : Bank) : Post (s.insertTuple X b) Roomy NotDry :=
  (insertTuple_kept h.kept (fun _ he => he) X fun hb => h.draws_in hb).imp
    fun _ hs' => h.of_same hs'.1 hs'.2.1 hs'.2.2

theorem detected_roomy {flagged : Bool} (h : s.Roomy) (hk : s'.Kept) (hs : SameShape s s')
    (hd : s.detector.access row b false = .ok (s'.detector,flagged)) : s'.Roomy := by
  obtain ⟨hb,hframe,_⟩:=MisraGries.access_ok hd
  have hrow:=MisraGries.row_lt_of_access hd
  rw [(h.settled b hb).index_size] at hrow
  obtain ⟨hsettled,_⟩:=(h.settled.access hrow false).of_ok hd
  exact h.of_kept hk hs hsettled hframe.numRows hframe.numEntries hframe.hasBank

theorem unlocked_roomy (h : s.Roomy) (hs : SameShape s s') (ht : s'.tables=s.unlocked)
    (hd : s'.detector=s.detector.reset) : s'.Roomy :=
  h.of_kept (h.kept.unlocked hs ht) hs (hd ▸ h.settled.reset) (by rw [hd]; rfl) (by rw [hd]; rfl)
    fun b => by rw [hd]; rfl

theorem prepared_roomy {currTick : UInt64} {m : RandomizedRowSwap} (h : s.Roomy)
    (hm : Prepared s currTick row b m) : m.Roomy := by
  have hk:=prepared_kept h.kept hm
  have hdetected:=hm.detected
  by_cases hover : windowOver currTick s.lastReset=true
  · have hreset : Roomy {s with tables := s.unlocked, detector := s.detector.reset} :=
      unlocked_roomy h rfl rfl rfl
    rw [if_pos hover] at hdetected
    exact detected_roomy hreset hk hm.shape hdetected
  · rw [if_neg hover] at hdetected
    exact detected_roomy h hk hm.shape hdetected

theorem perform_roomy (h : s.Roomy) (a : Action) : Post (s.perform a) Roomy NotDry := by
  cases a with
  | insertTuple row b => exact insertTuple_roomy h row b
  | reset =>
    refine (reset_tables s).mono (fun s' hs' => unlocked_roomy h hs'.1 hs'.2.1 hs'.2.2.1) fun e he hdry => ?_
    rcases he with rfl | rfl <;> cases hdry
  | resetDecision => exact h.of_beside ⟨rfl,rfl,rfl⟩
  | getRemappedAddr row b f =>
    simp only [perform,getRemappedAddr,post_bind,post_check,Cells.post_read]
    refine ⟨fun _ => ⟨fun _ => ?_,fun _ he => by cases he⟩,fun _ he => by cases he⟩
    rw [post_ite]
    refine ⟨fun _ => ?_,fun _ => h⟩
    simp only [post_bind,post_check,Cells.post_read,post_pure]
    exact ⟨fun _ => ⟨fun _ => h.of_beside ⟨rfl,rfl,rfl⟩,fun _ he => by cases he⟩,fun _ he => by cases he⟩
  | access currTick row b =>
    refine access_prepared (fun e _ he => he) (fun m hm _ => prepared_roomy h hm) fun m hm _ => ?_
    exact (insertTuple_roomy (prepared_roomy h hm) row b).imp
      fun u hu _ => hu.of_beside ⟨rfl,rfl,rfl⟩

theorem reachable_roomy (h₀ : s0.Roomy) (h : Reachable s0 s) : s.Roomy := by
  induction h with
  | start => exact h₀
  | step s s' a _ hstep ih => exact (perform_roomy ih a).of_ok hstep

/-- The states in which a run draws a row for bank `b`: between two calls, once an access has asked
the detector, in the middle of a re-swap, and each of these with any `rand()` sequence. -/
inductive Drawing (s0 : RandomizedRowSwap) (b : Bank) : RandomizedRowSwap → Prop
  | between (s : RandomizedRowSwap) : Reachable s0 s → Drawing s0 b s
  | detected (s m : RandomizedRowSwap) (currTick : UInt64) (row : ℕ) : Reachable s0 s →
      Prepared s currTick row b m → Drawing s0 b m
  | reswapped (s : RandomizedRowSwap) (t : Rit) (X Y A : ℕ) : Drawing s0 b s → s.hasBank b →
      X<s.numRows → Y<s.numRows → s.Free X b Y → (s.tables b).rowHasEntry.get X≠0 →
      (s.tables b).reswap ((s.tables b).rowHasEntry.get X-1) X Y = .ok (t,A) →
      Drawing s0 b (s.setTable b t)
  | beside (s s' : RandomizedRowSwap) : Drawing s0 b s → Beside s s' → Drawing s0 b s'

theorem drawing_roomy (h₀ : s0.Roomy) (h : Drawing s0 b s) : s.Roomy := by
  induction h with
  | between s h => exact reachable_roomy h₀ h
  | detected s m _ _ h hm => exact prepared_roomy (reachable_roomy h₀ h) hm
  | reswapped s t X Y A _ hb hX hY hfree hhas hreswap ih =>
    obtain ⟨hc,hv⟩:=ih.kept.tables b hb
    obtain ⟨hlt,hvalid,hrow⟩:=hc.entry hX hhas
    obtain ⟨htc,htv,_⟩ :=
      (Rit.reswap_post hc hlt hvalid hrow hfree.1 hY hfree.2.1).of_ok hreswap
    exact ih.of_same (ih.kept.setTable htc (htv.trans_le hv) b) rfl rfl
  | beside s s' _ hs ih => exact ih.of_beside hs

variable {demandTuples numEntries numRows threshold numBanks numRanks numChannels : ℕ}
  {memory : Bank → Tracker} {swapDelay sramRitAccDelay : UInt64} {randSeq : ℕ → ℕ} {stats : Stats}

theorem construct_roomy (hroom : 2*(demandTuples+1)+numEntries+1<numRows) {detThreshold : ℕ}
    (h₀ : construct demandTuples numRows threshold numBanks numRanks numChannels
      (.construct numEntries detThreshold numRows numBanks numRanks numChannels memory) swapDelay
      sramRitAccDelay randSeq stats = .ok s0) : s0.Roomy := by
  have hk:=construct_kept h₀
  obtain ⟨n,hn,hs⟩:=bind_ok h₀
  obtain rfl:=Except.ok.inj hs
  exact ⟨hk,MisraGries.construct_settled numEntries detThreshold numRows numBanks numRanks numChannels
    memory,rfl,fun _ hb => hb,hroom⟩

/-- With more rows than two for each tuple and one more, one for each entry of the detector and the
row to avoid, every draw of every run returns a row that is free and not tracked, and leaves the tables and
the detector as they were; no operation stops at the assert. -/
theorem draws_always (hroom : 2*(demandTuples+1)+numEntries+1<numRows) {detThreshold : ℕ}
    (h₀ : construct demandTuples numRows threshold numBanks numRanks numChannels
      (.construct numEntries detThreshold numRows numBanks numRanks numChannels memory) swapDelay
      sramRitAccDelay randSeq stats = .ok s0) :
    (∀ b s,Drawing s0 b s → s.hasBank b → ∀ avoidRow,
      ∃ s' row,s.generateRandomRowAddr avoidRow b = .ok (s',row) ∧ row<s.numRows ∧ row≠avoidRow ∧
        (s.tables b).rowHasEntry.get row=0 ∧ s.detector.access row b true = .ok (s.detector,false) ∧
        s'.tables=s.tables ∧ s'.detector=s.detector) ∧
    ∀ s a,Reachable s0 s → s.perform a ≠ .error .noRandomRow := by
  have h:=construct_roomy hroom h₀
  refine ⟨fun b s hs hb avoidRow => ?_,fun s a hs hdry => ?_⟩
  · have hroomy:=drawing_roomy h hs
    obtain ⟨⟨s',row⟩,hok,hbeside,hrow,hne,hentry,htracked⟩:=(hroomy.draws hb avoidRow).returns
    refine ⟨s',row,hok,hrow,hne,hentry,?_,hbeside.tables,hbeside.detector⟩
    rw [(hroomy.answers hb).lookup row hrow]
    have hindex : (s.detector.trackers b).rowHasEntry.get row=0 := htracked
    rw [hindex]
    rfl
  · exact (perform_roomy (reachable_roomy h hs) a).of_error hdry rfl

theorem draws_always_of_scan :
    ∃ s0 s row,construct 3 16 2 1 1 1 (.construct 2 2 16 1 1 1 fun _ => .zeroed) 0 0 (fun _ => 5)
        ⟨0,0,0,0,0,0,0,0,⟨0,.calloc 4 0⟩⟩ = .ok s0 ∧
      s0.generateRandomRowAddr 5 ⟨0,0,0⟩ = .ok (s,row) ∧ row≠5 := by
  have hrun : Post (construct 3 16 2 1 1 1 (.construct 2 2 16 1 1 1 fun _ => .zeroed) 0 0 (fun _ => 5)
      ⟨0,0,0,0,0,0,0,0,⟨0,.calloc 4 0⟩⟩) (fun s => s.hasBank ⟨0,0,0⟩) fun _ => False := by
    decide +kernel
  obtain ⟨s0,h₀,hb⟩:=hrun.returns
  obtain ⟨s,row,hok,_,hne,_⟩:=(draws_always (by decide) h₀).1 ⟨0,0,0⟩ s0 (.between s0 .start) hb 5
  exact ⟨s0,s,row,h₀,hok,hne⟩

end RandomizedRowSwap

end AquaGem5.Swap
