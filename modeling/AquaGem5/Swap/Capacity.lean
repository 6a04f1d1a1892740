import AquaGem5.Swap.Aside

/-!
# The locks of one row indirection table

A tuple installed or re-swapped since the last reset is locked.
-/

namespace AquaGem5.Swap.Rit
open Checked Finset

def cleared : RitEntry := ⟨false,false,0,0⟩

def lockedTuples (n : ℕ) (t : Rit) : Finset ℕ := (Finset.range n).filter fun i => (t.tuples.get i).locked=true

structure Guard (n k : ℕ) (t : Rit) : Prop where
  valid : ∀ i<n, (t.tuples.get i).locked=true → (t.tuples.get i).valid=true
  few : (t.lockedTuples n).card≤k

structure Later (n : ℕ) (t t' : Rit) : Prop where
  locked : ∀ i<n, (t.tuples.get i).locked=true →
    (t'.tuples.get i).valid=true ∧ (t'.tuples.get i).locked=true
  changed : ∀ i<n, t'.tuples.get i=t.tuples.get i ∨ (t'.tuples.get i).locked=true ∨
    (t.tuples.get i).locked=false ∧ t'.tuples.get i=cleared

def Holds (n r : ℕ) (t : Rit) : Prop :=
  ∃ i<n, (t.tuples.get i).valid=true ∧ (t.tuples.get i).locked=true ∧ (t.tuples.get i).has r

variable {n k : ℕ} {t t' t'' : Rit}

theorem Guard.later (h : Guard n k t) : Later n t t :=
  ⟨fun i hi hl => ⟨h.valid i hi hl,hl⟩,fun _ _ => .inl rfl⟩

theorem Later.trans (h : Later n t t') (h' : Later n t' t'') : Later n t t'' := by
  refine ⟨fun i hi hl => h'.locked i hi (h.locked i hi hl).2,fun i hi => ?_⟩
  cases h'.changed i hi with
  | inl hsame =>
    rw [hsame]
    exact h.changed i hi
  | inr hchanged =>
    refine .inr (hchanged.imp_right fun hclear => ⟨?_,hclear.2⟩)
    by_contra hlocked
    have hkept:=(h.locked i hi (by simpa using hlocked)).2
    rw [hclear.1] at hkept
    cases hkept

theorem Guard.mono {k' : ℕ} (h : Guard n k t) (hk : k≤k') : Guard n k' t :=
  ⟨h.valid,h.few.trans hk⟩

variable {i : ℕ}

theorem guard_lock {e : RitEntry} (h : Guard n k t) (hv : e.valid=true)
    (heq : t'.tuples=t.tuples.set i e) : Guard n (k+1) t' := by
  refine ⟨fun j hj hl => ?_,?_⟩
  · by_cases hji : j=i
    · rw [heq,hji,Cells.get_set_self]
      exact hv
    · rw [heq,Cells.get_set_ne _ _ hji] at hl ⊢
      exact h.valid j hj hl
  · have hsub : t'.lockedTuples n ⊆ insert i (t.lockedTuples n) := by
      intro j hj
      obtain ⟨hn,hl⟩:=mem_filter.mp hj
      rw [heq,Cells.get_set] at hl
      split at hl
      next hji => exact mem_insert.mpr (.inl hji)
      next => exact mem_insert_of_mem (mem_filter.mpr ⟨hn,hl⟩)
    have hcard:=card_le_card hsub
    have hinsert:=card_insert_le i (t.lockedTuples n)
    have hfew:=h.few
    omega

theorem later_lock {e : RitEntry} (h : Guard n k t) (hv : e.valid=true) (hl : e.locked=true)
    (heq : t'.tuples=t.tuples.set i e) : Later n t t' := by
  refine ⟨fun j hj hlj => ?_,fun j _ => ?_⟩
  · rw [heq,Cells.get_set]
    split
    next => exact ⟨hv,hl⟩
    next => exact ⟨h.valid j hj hlj,hlj⟩
  · rw [heq,Cells.get_set]
    split
    next => exact .inr (.inl hl)
    next => exact .inl rfl

theorem guard_clear (h : Guard n k t) (heq : t'.tuples=t.tuples.set i cleared) : Guard n k t' := by
  have hlocked : ∀ j, (t'.tuples.get j).locked=true → t'.tuples.get j=t.tuples.get j := by
    intro j hl
    by_cases hji : j=i
    · rw [heq,hji,Cells.get_set_self] at hl
      cases hl
    · rw [heq,Cells.get_set_ne _ _ hji]
  refine ⟨fun j hj hl => ?_,(card_le_card fun j hj => ?_).trans h.few⟩
  · have hsame:=hlocked j hl
    rw [hsame] at hl ⊢
    exact h.valid j hj hl
  · obtain ⟨hn,hl⟩:=mem_filter.mp hj
    rw [hlocked j hl] at hl
    exact mem_filter.mpr ⟨hn,hl⟩

theorem later_clear (h : Guard n k t) (hfree : (t.tuples.get i).locked=false)
    (heq : t'.tuples=t.tuples.set i cleared) : Later n t t' := by
  refine ⟨fun j hj hlj => ?_,fun j _ => ?_⟩
  · have hji : j≠i := by
      rintro rfl
      rw [hfree] at hlj
      cases hlj
    rw [heq,Cells.get_set_ne _ _ hji]
    exact ⟨h.valid j hj hlj,hlj⟩
  · rw [heq,Cells.get_set]
    split
    next hji => exact .inr (.inr ⟨hji ▸ hfree,rfl⟩)
    next => exact .inl rfl

theorem reswap_tuples (t : Rit) (i X Y : ℕ) : Post (t.reswap i X Y : Except Fault (Rit × ℕ))
    (fun p => p.1.validTuples=t.validTuples ∧ ∃ e, p.1.tuples=t.tuples.set i e ∧
      e.valid=(t.tuples.get i).valid ∧ e.locked=true ∧
      ((t.tuples.get i).origRowID=X ∧ p.2=(t.tuples.get i).remappedRowID ∧ e.origRowID=X ∧ e.remappedRowID=Y ∨
        (t.tuples.get i).origRowID≠X ∧ p.2=(t.tuples.get i).origRowID ∧
          e.origRowID=Y ∧ e.remappedRowID=(t.tuples.get i).remappedRowID)) fun e => e ≠ .noUnlockedTuple := by
  simp only [reswap]
  rw [post_bind,Cells.post_read]
  refine ⟨fun _ => ?_,fun _ h => by cases h⟩
  split
  next horig =>
    simp only [post_bind,Cells.post_write,post_pure]
    refine ⟨fun _ => ⟨fun _ => ⟨trivial,_,rfl,rfl,rfl,.inl ⟨horig,trivial,horig,rfl⟩⟩,fun _ h => by cases h⟩,
      fun _ h => by cases h⟩
  next horig =>
    simp only [post_bind,Cells.post_write,post_pure]
    refine ⟨fun _ => ⟨fun _ => ⟨trivial,_,rfl,rfl,rfl,.inr ⟨horig,trivial,rfl,rfl⟩⟩,fun _ h => by cases h⟩,
      fun _ h => by cases h⟩

theorem install_tuples (t : Rit) (a b : ℕ) : Post (t.install n a b)
    (fun t' => (∃ i<n, (t.tuples.get i).valid=false ∧ t'.tuples=t.tuples.set i ⟨true,true,a,b⟩) ∨
      (∀ i<n, (t.tuples.get i).valid=true) ∧ t'=t) fun e => e ≠ .noUnlockedTuple := by
  unfold install
  split
  next i hfind =>
    have hi : i<n := List.mem_range.mp (List.mem_of_find?_eq_some hfind)
    have hv : (t.tuples.get i).valid=false := by simpa using List.find?_some hfind
    simp only [post_bind,Cells.post_write,post_pure]
    exact ⟨fun _ => ⟨fun _ => .inl ⟨i,hi,hv,rfl⟩,fun _ h => by cases h⟩,fun _ h => by cases h⟩
  next hfind =>
    refine .inr ⟨fun i hi => ?_,rfl⟩
    have hnone:=List.find?_eq_none.mp hfind i (List.mem_range.mpr hi)
    simpa using hnone

theorem evict_tuples (t : Rit) : Post (t.evict n : Except Fault (Rit × ℕ × ℕ))
    (fun p => ∃ i<n, (t.tuples.get i).valid=true ∧ (t.tuples.get i).locked=false ∧ p.1.tuples=t.tuples.set i cleared ∧
      p.2=((t.tuples.get i).origRowID,(t.tuples.get i).remappedRowID))
    fun e => e = .noUnlockedTuple → ∀ i<n, (t.tuples.get i).valid=true → (t.tuples.get i).locked=true := by
  unfold evict
  split
  next i hfind =>
    have hi : i<n := List.mem_range.mp (List.mem_of_find?_eq_some hfind)
    have hfound:=List.find?_some hfind
    simp only [Bool.decide_and,Bool.and_eq_true,decide_eq_true_eq] at hfound
    simp only [post_bind,Cells.post_write,post_pure]
    exact ⟨fun _ => ⟨fun _ => ⟨i,hi,hfound.1,hfound.2,rfl,rfl⟩,fun _ h => by cases h⟩,fun _ h => by cases h⟩
  next hfind =>
    intro _ i hi hv
    have hnone:=List.find?_eq_none.mp hfind i (List.mem_range.mpr hi)
    simpa [hv] using hnone

theorem Consistent.exists_unlocked {rows : ℕ} (hs : t.Consistent n rows) (h : Guard n k t)
    (hk : k<t.validTuples) : ∃ i<n, (t.tuples.get i).valid=true ∧ (t.tuples.get i).locked=false := by
  by_contra hall
  have hsub : (range n).filter (fun i => (t.tuples.get i).valid=true) ⊆ t.lockedTuples n := by
    intro i hi
    obtain ⟨hn,hv⟩:=mem_filter.mp hi
    refine mem_filter.mpr ⟨hn,?_⟩
    by_contra hl
    exact hall ⟨i,mem_range.mp hn,hv,by simpa using hl⟩
  have hcard:=card_le_card hsub
  have hcount:=hs.count
  have hfew:=h.few
  omega

theorem unlock_tuples (t : Rit) (hi : i<n) :
    (t.unlock n).tuples.get i={t.tuples.get i with locked := false} := if_pos hi

theorem unlock_guard (n : ℕ) (t : Rit) : Guard n 0 (t.unlock n) := by
  have hnone : ∀ i<n, ((t.unlock n).tuples.get i).locked=false := by
    intro i hi
    rw [unlock_tuples t hi]
  refine ⟨fun i hi hl => ?_,?_⟩
  · rw [hnone i hi] at hl
    cases hl
  · refine Nat.le_of_eq (card_eq_zero.mpr (filter_eq_empty_iff.mpr fun i hi hl => ?_))
    rw [hnone i (mem_range.mp hi)] at hl
    cases hl

theorem calloc_guard (n rows : ℕ) : Guard n 0 ⟨.calloc n cleared,.calloc rows 0,0⟩ := by
  refine ⟨fun i _ hl => ?_,?_⟩
  · cases hl
  · refine Nat.le_of_eq (card_eq_zero.mpr (filter_eq_empty_iff.mpr fun i _ hl => ?_))
    cases hl

end AquaGem5.Swap.Rit

/-!
## Capacity of the row indirection table

In a window with at most `maxValidTuples / 2` insertions into a bank a free tuple is always left, and no tuple of the
window is evicted.
-/

namespace AquaGem5.Swap.RandomizedRowSwap
open Checked Detector Mitigation Rit

theorem recordSwap_notStuck (d : Decision) (row : ℕ) : Post (d.recordSwap row) (fun _ => True) NotStuck := by
  refine (recordSwap_post d row).mono (fun _ _ => trivial) ?_
  rintro _ rfl
  exact fun h => by cases h

theorem recordSwaps_notStuck (s : RandomizedRowSwap) (row partner : ℕ) :
    Post (s.recordSwaps row partner) (Looked s) NotStuck :=
  recordSwaps_looked (fun h => by cases h) s row partner

structure Secured (n k X : ℕ) (t t' : Rit) : Prop where
  guard : Guard n k t'
  later : Later n t t'
  holds : Holds n X t'

theorem secured_install {n k X Y : ℕ} {t t' : Rit} (hg : Guard n k t) (hfree : ∃ i<n, (t.tuples.get i).valid=false)
    (h : (∃ i<n, (t.tuples.get i).valid=false ∧ t'.tuples=t.tuples.set i ⟨true,true,X,Y⟩) ∨
      (∀ i<n, (t.tuples.get i).valid=true) ∧ t'=t) : Secured n (k+1) X t t' ∧ ∀ r, Holds n r t → Holds n r t' := by
  obtain ⟨j,hj,hjv⟩:=hfree
  cases h with
  | inr hfull =>
    rw [hfull.1 j hj] at hjv
    cases hjv
  | inl hnew =>
    obtain ⟨i,hi,hv,heq⟩:=hnew
    refine ⟨⟨guard_lock hg rfl heq,later_lock hg rfl rfl heq,i,hi,?_⟩,fun r hr => ?_⟩
    · rw [heq,Cells.get_set_self]
      exact ⟨rfl,rfl,.inl rfl⟩
    · obtain ⟨m,hm,hmv,hml,hmr⟩:=hr
      have hmi : m≠i := by
        rintro rfl
        rw [hv] at hmv
        cases hmv
      refine ⟨m,hm,?_⟩
      rw [heq,Cells.get_set_ne _ _ hmi]
      exact ⟨hmv,hml,hmr⟩

variable {s s' : RandomizedRowSwap} {b : Bank} {k X Y : ℕ}

theorem installTuple_secured (hs : s.Sane) (hb : s.hasBank b) (hg : Guard s.numTuples (2*k) (s.tables b)) :
    Post (s.installTuple b X Y) (fun s' => Secured s.numTuples (2*(k+1)) X (s.tables b) (s'.tables b)) NotStuck := by
  obtain ⟨hc,hv⟩:=hs.table hb
  unfold installTuple
  refine Post.bind (install_tuples (s.tables b) X Y) fun t ht => ?_
  have hsecured:=(secured_install hg (hc.exists_free (hv.trans_lt hs.demand_lt)) ht).1
  show Secured _ _ _ _ ((s.setTable b t).tables b)
  rw [tables_setTable]
  exact ⟨hsecured.guard.mono (by omega),hsecured.later,hsecured.holds⟩

theorem reswapTuple_secured (hs : s.Sane) (hb : s.hasBank b) (hX : X<s.numRows) (hXY : Y≠X)
    (hY : Y<s.numRows) (hfY : (s.tables b).rowHasEntry.get Y=0)
    (hhas : (s.tables b).rowHasEntry.get X≠0) (hg : Guard s.numTuples (2*k) (s.tables b)) :
    Post (s.reswapTuple b ((s.tables b).rowHasEntry.get X-1) X Y)
      (fun s' => Secured s.numTuples (2*(k+1)) X (s.tables b) (s'.tables b)) NotStuck := by
  obtain ⟨hc,hv⟩:=hs.table hb
  obtain ⟨hlt,hvalid,hrow⟩:=hc.entry hX hhas
  have hreswap:=(reswap_post hc hlt hvalid hrow hXY hY hfY).and (reswap_tuples (s.tables b) _ X Y)
  unfold reswapTuple
  refine Post.bind (hreswap.mono (fun _ h => h) fun _ h => h.2) fun p hp => ?_
  obtain ⟨⟨htc,htv,hA,hfA⟩,hsame,e,heq,hev,hel,hrows⟩:=hp
  have hfirst : Secured s.numTuples (2*k+1) X (s.tables b) p.1 := by
    refine ⟨guard_lock hg (hev.trans hvalid) heq,later_lock hg (hev.trans hvalid) hel heq,
      (s.tables b).rowHasEntry.get X-1,hlt,?_⟩
    rw [heq,Cells.get_set_self]
    refine ⟨hev.trans hvalid,hel,?_⟩
    rcases hrows with ⟨_,_,horig,_⟩ | ⟨hne,_,_,hremapped⟩
    · exact .inl horig
    · exact .inr (hremapped.trans (hrow.resolve_left hne))
  refine (generateRandomRowAddr_post (s.setTable b p.1) p.2 b).bind fun g hg => ?_
  refine (recordSwaps_notStuck g.1 p.2 g.2).bind fun w hw => ?_
  have hlook:=hg.1.looked.trans hw
  have htable : w.tables b=p.1 := by
    rw [hlook.2,tables_setTable]
  rw [htable,show w.numTuples=s.numTuples from hlook.1.numTuples]
  refine Post.bind (install_tuples p.1 p.2 g.2) fun t ht => ?_
  have hroom : p.1.validTuples<s.numTuples := by
    rw [htv]
    exact hv.trans_lt hs.demand_lt
  obtain ⟨hsecond,hkept⟩:=secured_install hfirst.guard (htc.exists_free hroom) ht
  show Secured _ _ _ _ ((w.setTable b t).tables b)
  rw [tables_setTable]
  exact ⟨hsecond.guard,hfirst.later.trans hsecond.later,hkept X hfirst.holds⟩

theorem unswapExcess_secured {t : Rit} {n : ℕ} (hn : s'.numTuples=n)
    (hc : (s'.tables b).Consistent n s.numRows) (h : Secured n (2*(k+1)) X t (s'.tables b))
    (hk : 2*(k+1) ≤ s'.maxValidTuples) :
    Post (s'.unswapExcess b) (fun u => Secured n (2*(k+1)) X t (u.tables b)) NotStuck := by
  unfold unswapExcess
  rw [post_ite]
  refine ⟨fun hmax => ?_,fun _ => h⟩
  rw [hn]
  have hevict:=evict_tuples (n := n) (s'.tables b)
  refine Post.bind (hevict.mono (fun _ h => h) fun e he hstuck => ?_) fun p hp => ?_
  · obtain ⟨i,hi,hv,hl⟩:=hc.exists_unlocked h.guard (by omega)
    rw [he hstuck i hi hv] at hl
    cases hl
  · obtain ⟨i,hi,_,hfree,heq,_⟩:=hp
    refine Post.bind (recordSwaps_notStuck s' p.2.1 p.2.2) fun w _ => ?_
    show Secured _ _ _ _ ((w.setTable b p.1).tables b)
    rw [tables_setTable]
    refine ⟨guard_clear h.guard heq,h.later.trans (later_clear h.guard hfree heq),?_⟩
    obtain ⟨j,hj,hjv,hjl,hjX⟩:=h.holds
    have hji : j≠i := by
      rintro rfl
      rw [hfree] at hjl
      cases hjl
    refine ⟨j,hj,?_⟩
    rw [heq,Cells.get_set_ne _ _ hji]
    exact ⟨hjv,hjl,hjX⟩

theorem insertTuple_secured (hs : s.Sane) (hk : 2*(k+1) ≤ s.maxValidTuples)
    (hg : Guard s.numTuples (2*k) (s.tables b)) : Post (s.insertTuple X b)
      (fun s' => Secured s.numTuples (2*(k+1)) X (s.tables b) (s'.tables b)) NotStuck := by
  rw [insertTuple]
  refine Post.bind (R := fun _ => s.hasBank b) ?_ fun _ hb => ?_
  · rw [post_check]
    exact ⟨fun h => h,fun _ h => by cases h⟩
  refine (recordSwap_notStuck s.decision X).bind fun d _ => ?_
  refine (generateRandomRowAddr_post {s with decision := d} X b).bind fun g hdrawn => ?_
  obtain ⟨hsearched,hY,hYX,hfY⟩:=hdrawn
  refine (recordSwap_notStuck g.1.decision g.2).bind fun d' _ => ?_
  have hlook : Looked s {g.1 with decision := d'} := hsearched.looked
  generalize {g.1 with decision := d'}=t at hlook
  have hst : t.Sane := hs.of_tables hlook.1 hlook.2
  have hbt : t.hasBank b := (hlook.1.hasBank b).mpr hb
  have hYt : g.2<t.numRows := hlook.1.numRows.symm ▸ hY
  have hfYt : (t.tables b).rowHasEntry.get g.2=0 := by
    rw [hlook.2]
    exact hfY
  have hgt : Guard t.numTuples (2*k) (t.tables b) := by
    rw [hlook.1.numTuples,hlook.2]
    exact hg
  rw [← hlook.1.numTuples,← hlook.2]
  rw [← hlook.1.maxValidTuples] at hk
  refine insertDrawn_rule (R := fun u => Grown t b u ∧
    Secured t.numTuples (2*(k+1)) X (t.tables b) (u.tables b)) (hst.table hbt).1 (fun _ h => by cases h)
    (fun hX h => ?_) (fun hX h => ?_) fun u hu => ?_
  · exact ((installTuple_post hst hbt hYX hX hYt h hfYt).and (installTuple_secured hst hbt hgt)).mono
      (fun _ h => h) fun _ h => h.2
  · exact ((reswapTuple_post hst hbt hYX hX hYt h hfYt).and
      (reswapTuple_secured hst hbt hX hYX hYt hfYt h hgt)).mono (fun _ h => h) fun _ h => h.2
  · obtain ⟨hgrown,hsecured⟩:=hu
    have hexcess:=unswapExcess_secured (s := t) hgrown.shape.numTuples hgrown.consistent hsecured
      (by rw [hgrown.shape.maxValidTuples]; exact hk)
    exact hexcess.imp fun w hw => ⟨fun _ _ => hw,fun _ h => by cases h⟩

end AquaGem5.Swap.RandomizedRowSwap
