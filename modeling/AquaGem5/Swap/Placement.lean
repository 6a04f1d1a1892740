import AquaGem5.Lib.Exchanges
import AquaGem5.Swap.Drawing
import AquaGem5.Swap.Capacity

/-!
# The swaps a decision records and the placement they make

`partner` says where the contents of a row are.
-/

namespace AquaGem5.Swap
open List

namespace Rit
open Checked

variable {n rows i r X Y : ℕ} {t t' : Rit} {e : RitEntry}

def other (e : RitEntry) (r : ℕ) : ℕ := if e.origRowID=r then e.remappedRowID else e.origRowID

theorem Consistent.partner_of_tuple (hs : t.Consistent n rows) (hi : i<n)
    (hv : (t.tuples.get i).valid=true) (hr : (t.tuples.get i).has r) : t.partner r=other (t.tuples.get i) r :=
  partner_of_has ((hs.index r (hs.inRange i hi hv r hr) i hi).mpr ⟨hv,hr⟩)

theorem Consistent.partner_of_none (hs : t.Consistent n rows) (hr : r<rows)
    (h : ∀ i<n,(t.tuples.get i).valid=true → ¬(t.tuples.get i).has r) : t.partner r=r := by
  refine if_pos ?_
  by_contra hne
  obtain ⟨hi,hv,hhas⟩:=hs.entry hr hne
  exact h _ hi hv hhas

theorem Consistent.paired (hs : t.Consistent n rows) : Paired (·<rows) t.partner :=
  fun _ hr => ⟨hs.partner_lt hr,hs.partner_partner hr⟩

theorem Consistent.tuple_unique {j : ℕ} (hs : t.Consistent n rows) (hi : i<n) (hj : j<n)
    (hvi : (t.tuples.get i).valid=true) (hvj : (t.tuples.get j).valid=true)
    (hri : (t.tuples.get i).has r) (hrj : (t.tuples.get j).has r) : i=j := by
  have hr:=hs.inRange i hi hvi r hri
  have hindex:=(hs.index r hr i hi).mpr ⟨hvi,hri⟩
  have hindex':=(hs.index r hr j hj).mpr ⟨hvj,hrj⟩
  omega

theorem Consistent.partner_replaced (hs : t.Consistent n rows) (hs' : t'.Consistent n rows) (hi : i<n)
    (heq : t'.tuples=t.tuples.set i e) (hr : r<rows) : t'.partner r=if e.valid=true ∧ e.has r then other e r
      else if (t.tuples.get i).valid=true ∧ (t.tuples.get i).has r then r else t.partner r := by
  have hself : t'.tuples.get i=e := by rw [heq,Cells.get_set_self]
  have hrest : ∀ j,j≠i → t'.tuples.get j=t.tuples.get j := fun j hj => by
    rw [heq,Cells.get_set_ne _ _ hj]
  by_cases hnew : e.valid=true ∧ e.has r
  · rw [if_pos hnew,hs'.partner_of_tuple hi (hself ▸ hnew.1) (hself ▸ hnew.2),hself]
  rw [if_neg hnew]
  by_cases hold : (t.tuples.get i).valid=true ∧ (t.tuples.get i).has r
  · rw [if_pos hold]
    refine hs'.partner_of_none hr fun j hj hv hhas => ?_
    by_cases hji : j=i
    · subst hji
      rw [hself] at hv hhas
      exact hnew ⟨hv,hhas⟩
    · rw [hrest j hji] at hv hhas
      exact hji (hs.tuple_unique hj hi hv hold.1 hhas hold.2)
  rw [if_neg hold]
  by_cases hnone : t.rowHasEntry.get r=0
  · rw [show t.partner r=r from if_pos hnone]
    refine hs'.partner_of_none hr fun j hj hv hhas => ?_
    by_cases hji : j=i
    · subst hji
      rw [hself] at hv hhas
      exact hnew ⟨hv,hhas⟩
    · rw [hrest j hji] at hv hhas
      have hindex:=(hs.index r hr j hj).mpr ⟨hv,hhas⟩
      omega
  · obtain ⟨hj,hv,hhas⟩:=hs.entry hr hnone
    have hji : t.rowHasEntry.get r-1≠i := by
      rintro rfl
      exact hold ⟨hv,hhas⟩
    rw [hs.partner_of_tuple hj hv hhas]
    rw [← hrest _ hji] at hv hhas ⊢
    exact hs'.partner_of_tuple hj hv hhas

theorem install_exchanges (hs : t.Consistent n rows) (hn : n<2^32) (hXY : X≠Y) (hX : X<rows)
    (hY : Y<rows) (hfX : t.rowHasEntry.get X=0) (hfY : t.rowHasEntry.get Y=0) :
    Post (t.install n X Y) (fun t' => t'.Consistent n rows ∧
      (t.validTuples<n → ∀ r<rows,t'.partner r=Equiv.swap X Y (t.partner r)) ∧
      (¬t.validTuples<n → t'=t)) fun _ => False := by
  refine ((install_consistent hs hn hXY hX hY hfX hfY).and (install_tuples t X Y)).mono
    (fun t' ht' => ?_) fun _ h => h.1
  obtain ⟨hs',⟨i,hi,hv,heq⟩ | ⟨hfull,rfl⟩⟩:=ht'
  · refine ⟨hs',fun _ => ?_,fun hno => ?_⟩
    · refine pair_exchanges hs.paired (if_pos hfX) (if_pos hfY) fun r hr => ?_
      rw [hs.partner_replaced hs' hi heq hr]
      have hold : ¬((t.tuples.get i).valid=true ∧ (t.tuples.get i).has r) := by
        rw [hv]
        exact fun h => Bool.false_ne_true h.1
      rw [if_neg hold]
      by_cases hrX : r=X
      · subst hrX
        simp [RitEntry.has,other]
      · by_cases hrY : r=Y
        · subst hrY
          simp [RitEntry.has,other,hXY,hrX]
        · simp [RitEntry.has,hrX,hrY,Ne.symm hrX,Ne.symm hrY]
    · have hvalid:=hs.full hno i hi
      rw [hv] at hvalid
      cases hvalid
  · refine ⟨hs',fun hroom => ?_,fun _ => rfl⟩
    obtain ⟨i,hi,hv⟩:=hs.exists_free hroom
    rw [hfull i hi] at hv
    cases hv

theorem reswap_exchanges (hs : t.Consistent n rows) (hi : i<n) (hv : (t.tuples.get i).valid=true)
    (hX : (t.tuples.get i).has X) (hYX : Y≠X) (hY : Y<rows) (hfY : t.rowHasEntry.get Y=0) :
    Post (t.reswap i X Y) (fun p => p.1.Consistent n rows ∧ p.1.validTuples=t.validTuples ∧
      p.2<rows ∧ p.1.rowHasEntry.get p.2=0 ∧ p.1.rowHasEntry.get Y≠0 ∧ p.2=t.partner X ∧ p.2≠X ∧
      ∀ r<rows,p.1.partner r=Equiv.swap X Y (Equiv.swap X p.2 (t.partner r))) fun _ => False := by
  refine ((reswap_post hs hi hv hX hYX hY hfY).and (reswap_tuples t i X Y)).mono (fun p hp => ?_)
    fun _ h => h.1
  obtain ⟨t',A⟩:=p
  obtain ⟨⟨hs',hvt,hA,hfA⟩,_,e,heq,hev,_,hrows⟩:=hp
  dsimp only at hs' hvt hA hfA heq hrows
  have hAX : A=other (t.tuples.get i) X := by
    rcases hrows with ⟨horig,hrow,_⟩ | ⟨hne,hrow,_⟩
    · rw [other,if_pos horig,hrow]
    · rw [other,if_neg hne,hrow]
  have hXrow:=hs.inRange i hi hv X hX
  have hpX : t.partner X=A := (hs.partner_of_tuple hi hv hX).trans hAX.symm
  have hdistinct:=hs.distinct i hi hv
  have hev' : e.valid=true := hev.trans hv
  have hehas : ∀ r,e.has r ↔ r=X ∨ r=Y := by
    intro r
    rcases hrows with ⟨_,_,horig,hremapped⟩ | ⟨hne,_,horig,hremapped⟩
    · simp only [RitEntry.has,horig,hremapped,eq_comm (a := r)]
    · rw [hX.resolve_left hne] at hremapped
      simp only [RitEntry.has,horig,hremapped,eq_comm (a := r)]
      exact Or.comm
  have hhas : ∀ r,(t.tuples.get i).has r ↔ r=X ∨ r=A := by
    intro r
    rw [hAX]
    rcases hX with horig | hremapped
    · simp only [RitEntry.has,other,horig,if_true,eq_comm (a := r)]
    · have hne : (t.tuples.get i).origRowID≠X := fun h => hdistinct (h.trans hremapped.symm)
      simp only [RitEntry.has,other,hne,if_false,hremapped,eq_comm (a := r)]
      exact Or.comm
  have hXA : X≠A := by
    rw [hAX]
    unfold other
    split
    next horig => exact fun h => hdistinct (horig.trans h)
    next horig => exact fun h => horig h.symm
  have hYindex : t'.rowHasEntry.get Y≠0 := by
    have hself : t'.tuples.get i=e := by rw [heq,Cells.get_set_self]
    have hindex:=(hs'.index Y hY i hi).mpr (by rw [hself]; exact ⟨hev',(hehas Y).mpr (.inr rfl)⟩)
    omega
  refine ⟨hs',hvt,hA,hfA,hYindex,hpX.symm,hXA.symm,?_⟩
  refine repair_exchanges hs.paired hXrow hpX hXA (if_pos hfY) fun r hr => ?_
  have hotherX : other e X=Y := by
    rcases hrows with ⟨_,_,horig,hremapped⟩ | ⟨_,_,horig,_⟩
    · rw [other,if_pos horig,hremapped]
    · rw [other,if_neg (by rw [horig]; exact hYX),horig]
  have hotherY : other e Y=X := by
    rcases hrows with ⟨_,_,horig,_⟩ | ⟨hne,_,horig,hremapped⟩
    · rw [other,if_neg (by rw [horig]; exact hYX.symm),horig]
    · rw [other,if_pos horig,hremapped,hX.resolve_left hne]
  rw [hs.partner_replaced hs' hi heq hr]
  simp only [hev',hv,true_and,hehas,hhas]
  by_cases hrX : r=X
  · rw [if_pos (.inl hrX),if_pos hrX,hrX,hotherX]
  by_cases hrY : r=Y
  · rw [if_pos (.inr hrY),if_neg hrX,if_pos hrY,hrY,hotherY]
  rw [if_neg (not_or.mpr ⟨hrX,hrY⟩),if_neg hrX,if_neg hrY]
  by_cases hrA : r=A
  · rw [if_pos (.inr hrA),if_pos hrA,hrA]
  · rw [if_neg (not_or.mpr ⟨hrX,hrA⟩),if_neg hrA]

theorem evict_exchanges (hs : t.Consistent n rows) (hn : n<2^32) : Post (t.evict n) (fun p => p.1.Consistent n rows ∧
      ∀ r<rows,p.1.partner r=Equiv.swap p.2.1 p.2.2 (t.partner r)) fun e => e = .noUnlockedTuple := by
  refine ((evict_post hs hn).and (evict_tuples t)).mono (fun p hp => ?_) fun _ h => h.1
  obtain ⟨t',C,D⟩:=p
  obtain ⟨⟨hs',_⟩,i,hi,hv,_,heq,hrows⟩:=hp
  dsimp only at hs' heq hrows
  obtain ⟨rfl,rfl⟩:=Prod.mk.inj hrows
  refine ⟨hs',?_⟩
  have hdistinct:=hs.distinct i hi hv
  refine unpair_exchanges hs.paired ?_ ?_ fun r hr => ?_
  · rw [hs.partner_of_tuple hi hv (.inl rfl),other,if_pos rfl]
  · rw [hs.partner_of_tuple hi hv (.inr rfl),other,if_neg hdistinct]
  · rw [hs.partner_replaced hs' hi heq hr,if_neg fun h => Bool.false_ne_true h.1]
    simp only [hv,true_and,RitEntry.has,eq_comm (a := r)]

end Rit

namespace RandomizedRowSwap
open Checked Detector Mitigation

variable {s s' m s0 : RandomizedRowSwap} {b : Bank} {X Y a c avoidRow : ℕ} {d : Decision}
  {swaps : List (ℕ × ℕ)}

def exchanges (d : Decision) : List (ℕ × ℕ) :=
  (List.range (d.validAddrs/2)).map fun i => (d.addrs.get (2*i),d.addrs.get (2*i+1))

structure Records (swaps : List (ℕ × ℕ)) (d : Decision) : Prop where
  addrs_size : d.addrs.size=6
  swaps_size : d.isActionSwap.size=6
  validAddrs : d.validAddrs=2*swaps.length
  pairs : exchanges d=swaps

structure RecordsHalf (swaps : List (ℕ × ℕ)) (a : ℕ) (d : Decision) : Prop where
  addrs_size : d.addrs.size=6
  swaps_size : d.isActionSwap.size=6
  validAddrs : d.validAddrs=2*swaps.length+1
  pairs : exchanges d=swaps
  first : d.addrs.get (2*swaps.length)=a

theorem pairs_set {addrs : Cells ℕ} {k i : ℕ} (hi : 2*k ≤ i) (a : ℕ) :
    (List.range k).map (fun j => ((addrs.set i a).get (2*j),(addrs.set i a).get (2*j+1))) =
      (List.range k).map fun j => (addrs.get (2*j),addrs.get (2*j+1)) := by
  refine map_congr_left fun j hj => ?_
  have hlt:=mem_range.mp hj
  rw [Cells.get_set_ne _ _ (by omega),Cells.get_set_ne _ _ (by omega)]

theorem record_first (h : Records swaps d) (hk : swaps.length<3) (a : ℕ) :
    Post (d.recordSwap a : Except Fault Decision) (RecordsHalf swaps a) fun _ => False := by
  have hlt : d.validAddrs<6 := by
    rw [h.validAddrs]
    omega
  have hinc : inc32 d.validAddrs=2*swaps.length+1 := by
    rw [inc32_of_lt (by omega),h.validAddrs]
  simp only [Decision.recordSwap,post_bind,Cells.post_write,post_pure,h.addrs_size,h.swaps_size,hlt,
    not_true_eq_false,false_implies,and_true,true_implies]
  refine ⟨h.addrs_size,h.swaps_size,hinc,?_,?_⟩
  · have hpairs:=h.pairs
    rw [exchanges,h.validAddrs,Nat.mul_div_cancel_left _ (by omega)] at hpairs
    dsimp only [exchanges]
    rw [hinc,show (2*swaps.length+1)/2=swaps.length by omega,h.validAddrs,
      pairs_set (Nat.le_refl _),hpairs]
  · dsimp only
    rw [← h.validAddrs,Cells.get_set_self]

theorem record_second (h : RecordsHalf swaps a d) (hk : swaps.length<3) (c : ℕ) :
    Post (d.recordSwap c : Except Fault Decision) (Records (swaps++[(a,c)])) fun _ => False := by
  have hlt : d.validAddrs<6 := by
    rw [h.validAddrs]
    omega
  have hinc : inc32 d.validAddrs=2*swaps.length+2 := by
    rw [inc32_of_lt (by omega),h.validAddrs]
  simp only [Decision.recordSwap,post_bind,Cells.post_write,post_pure,h.addrs_size,h.swaps_size,hlt,
    not_true_eq_false,false_implies,and_true,true_implies]
  refine ⟨h.addrs_size,h.swaps_size,?_,?_⟩
  · dsimp only
    rw [hinc,length_append,length_singleton]
    omega
  · have hpairs:=h.pairs
    rw [exchanges,h.validAddrs,show (2*swaps.length+1)/2=swaps.length by omega] at hpairs
    dsimp only [exchanges]
    rw [hinc,show (2*swaps.length+2)/2=swaps.length+1 by omega,range_succ,
      map_append,h.validAddrs,pairs_set (by omega),hpairs,map_singleton,
      Cells.get_set_ne _ _ (by omega),Cells.get_set_self,h.first]

theorem recordSwaps_records (h : Records swaps s.decision) (hk : swaps.length<3) (a c : ℕ) :
    Post (s.recordSwaps a c) (fun s' => Looked s s' ∧ Records (swaps++[(a,c)]) s'.decision) fun _ => False := by
  unfold recordSwaps
  refine (record_first h hk a).bind fun d hd => ?_
  exact (record_second hd hk c).bind fun d' hd' => ⟨⟨rfl,rfl⟩,hd'⟩

def InBounds (e : Fault) : Prop := e ≠ .outOfBounds

def Still (s s' : RandomizedRowSwap) : Prop := Looked s s' ∧ s'.decision=s.decision

theorem Searched.still (h : Searched s s') : Still s s' := by
  obtain ⟨_,_,rfl⟩:=h
  exact ⟨⟨rfl,rfl⟩,rfl⟩

theorem canDraw_inBounds {row : ℕ} (hsize : (s.tables b).rowHasEntry.size=s.numRows)
    (hrow : row<s.numRows) : Post (s.canDraw avoidRow row b) (fun p => p.1=s) InBounds := by
  have hbounds : Post (s.canDraw avoidRow row b) (fun _ => True) InBounds := by
    unfold canDraw
    rw [post_ite]
    refine ⟨fun _ => trivial,fun _ => ?_⟩
    simp only [post_bind,Cells.post_read,hsize,hrow,not_true_eq_false,false_implies,and_true,true_implies]
    rw [post_ite]
    refine ⟨fun _ => trivial,fun _ => ?_⟩
    simp only [post_bind,post_within]
    exact (post_true _).mono (fun _ _ => trivial) fun _ _ h => by cases h
  exact ((canDraw_post s avoidRow row b).and hbounds).mono (fun _ h => h.1.1) fun _ h => h.2

theorem drawRow_inBounds (hsize : (s.tables b).rowHasEntry.size=s.numRows) (hpos : 0<s.numRows)
    (tries : ℕ) : Post (s.drawRow avoidRow b tries) (fun _ => True) InBounds := by
  induction tries generalizing s with
  | zero => trivial
  | succ tries ih =>
    simp only [drawRow,post_bind,post_umod]
    refine ⟨fun _ h => (by cases h),fun _ => ?_⟩
    refine (canDraw_inBounds (s := {s with randPos := s.randPos+1}) hsize (Nat.mod_lt _ hpos)).imp
      fun r hr => ?_
    rw [post_ite,hr]
    exact ⟨fun _ => trivial,fun _ => ih hsize hpos⟩

theorem firstRow_inBounds (hsize : (s.tables b).rowHasEntry.size=s.numRows) (fuel ii : ℕ)
    (hend : ii+fuel ≤ s.numRows) : Post (s.firstRow avoidRow b fuel ii) (fun _ => True) InBounds := by
  induction fuel generalizing ii with
  | zero => trivial
  | succ fuel ih =>
    simp only [firstRow,post_bind]
    refine (canDraw_inBounds hsize (by omega)).imp fun r hr => ?_
    rw [post_ite,hr]
    exact ⟨fun _ => trivial,fun _ => ih (ii+1) (by omega)⟩

theorem generateRandomRowAddr_still (hsize : (s.tables b).rowHasEntry.size=s.numRows)
    (hpos : 0<s.numRows) (avoidRow : ℕ) : Post (s.generateRandomRowAddr avoidRow b) (fun p => Still s p.1 ∧
      p.2<s.numRows ∧ p.2≠avoidRow ∧ (s.tables b).rowHasEntry.get p.2=0) InBounds := by
  have hbounds : Post (s.generateRandomRowAddr avoidRow b) (fun _ => True) InBounds := by
    unfold generateRandomRowAddr
    have htries:=(drawRow_post s avoidRow b 10).and (drawRow_inBounds hsize hpos 10)
    refine Post.bind (htries.mono (fun _ h => h.1.1) fun _ h => h.2) fun r hr => ?_
    refine Post.bind (R := fun _ => True) ?_ fun p _ => ?_
    · rw [post_ite]
      refine ⟨fun _ => ?_,fun _ => trivial⟩
      obtain ⟨u,row⟩:=r
      obtain ⟨randPos,stats,rfl⟩:=hr
      refine firstRow_inBounds ?_ _ 0 (Nat.zero_add _).le
      exact hsize
    · simp only [post_bind,post_check,post_pure]
      exact ⟨fun _ => trivial,fun _ h => by cases h⟩
  exact ((generateRandomRowAddr_post s avoidRow b).and hbounds).mono
    (fun p hp => ⟨hp.1.1.still,hp.1.2⟩) fun _ h => h.2

structure Placed (s : RandomizedRowSwap) (b : Bank) (c : Prop) (k : ℕ) (s' : RandomizedRowSwap) : Prop where
  shape : SameShape s s'
  consistent : (s'.tables b).Consistent s.numTuples s.numRows
  recorded : ∃ swaps,Records swaps s'.decision ∧ 0<swaps.length ∧ swaps.length≤k ∧
    (Carries (·<s.numRows) swaps (s.tables b).partner (s'.tables b).partner ↔ c)

def Pairable (s : RandomizedRowSwap) (b : Bank) (X : ℕ) : Prop :=
  (s.tables b).rowHasEntry.get X=0 ∧ (s.tables b).validTuples<s.numTuples

theorem installTuple_placed (h : s.Kept) (hb : s.hasBank b) (hX : X<s.numRows) (hY : Y<s.numRows)
    (hYX : Y≠X) (hfX : (s.tables b).rowHasEntry.get X=0) (hfY : (s.tables b).rowHasEntry.get Y=0)
    (hrec : Records [(X,Y)] s.decision) :
    Post (s.installTuple b X Y) (Placed s b (s.Pairable b X) 2) fun _ => False := by
  unfold installTuple
  refine (Rit.install_exchanges (h.tables b hb).1 h.tuples_lt hYX.symm hX hY hfX hfY).bind fun t ht => ?_
  obtain ⟨hc,hroom,hfull⟩:=ht
  refine ⟨rfl,?_,[(X,Y)],hrec,Nat.zero_lt_one,Nat.le_succ 1,?_⟩
  · rw [tables_setTable]
    exact hc
  rw [tables_setTable]
  by_cases hfree : (s.tables b).validTuples<s.numTuples
  · exact iff_of_true (fun r hr => (hroom hfree r hr).symm) ⟨hfX,hfree⟩
  · refine iff_of_false (fun hcarries => ?_) fun hp => hfree hp.2
    have hat : Equiv.swap X Y ((s.tables b).partner X)=t.partner X := hcarries X hX
    rw [hfull hfree,show (s.tables b).partner X=X from if_pos hfX,Equiv.swap_apply_left] at hat
    exact hYX hat

theorem reswapTuple_placed (h : s.Kept) (hb : s.hasBank b) (hX : X<s.numRows) (hY : Y<s.numRows)
    (hYX : Y≠X) (hhas : (s.tables b).rowHasEntry.get X≠0)
    (hfY : (s.tables b).rowHasEntry.get Y=0) (hrec : Records [(X,Y)] s.decision) :
    Post (s.reswapTuple b ((s.tables b).rowHasEntry.get X-1) X Y) (Placed s b (s.Pairable b X) 2) InBounds := by
  obtain ⟨hc,hv⟩:=h.tables b hb
  obtain ⟨hlt,hvalid,hrow⟩:=hc.entry hX hhas
  unfold reswapTuple
  refine Post.bind ((Rit.reswap_exchanges hc hlt hvalid hrow hYX hY hfY).mono (fun _ h => h)
    fun _ h => h.elim) fun p hp => ?_
  obtain ⟨t,A⟩:=p
  obtain ⟨htc,htv,hA,hfA,hhasY,hpA,hAX,hreswap⟩:=hp
  dsimp only at htc htv hA hfA hhasY hpA hAX hreswap
  have hsize : ((s.setTable b t).tables b).rowHasEntry.size=(s.setTable b t).numRows := by
    rw [tables_setTable]
    exact htc.index_size
  refine (generateRandomRowAddr_still hsize (Nat.zero_lt_of_lt hX) A).bind fun g hg => ?_
  obtain ⟨hstill,hB,hBA,hfB⟩:=hg
  rw [tables_setTable] at hfB
  have hdec : Records [(X,Y)] g.1.decision := by
    rw [hstill.2]
    exact hrec
  refine Post.bind ((recordSwaps_records hdec (by simp) A g.2).mono (fun _ h => h) fun _ h => h.elim)
    fun w hw => ?_
  obtain ⟨hlook,hrecw⟩:=hw
  have htable : w.tables b=t := by
    rw [hlook.2,hstill.1.2,tables_setTable]
  rw [htable,hlook.1.numTuples,hstill.1.1.numTuples]
  refine Post.bind ((Rit.install_exchanges htc h.tuples_lt hBA.symm hA hB hfA hfB).mono (fun _ h => h)
    fun _ h => h.elim) fun t' ht' => ?_
  obtain ⟨htc',hroom,hfull⟩:=ht'
  refine ⟨hstill.1.1.trans hlook.1,?_,[(X,Y),(A,g.2)],hrecw,Nat.zero_lt_succ 1,Nat.le_refl 2,?_⟩
  · rw [tables_setTable]
    exact htc'
  rw [tables_setTable]
  refine iff_of_false (fun hcarries => ?_) fun hp => hhas hp.1
  -- the recorded pairs leave row `X` at `B`, the table has it at `Y`
  have hAY : A≠Y := by
    rintro rfl
    exact hhasY hfA
  have hBY : g.2≠Y := by
    rintro rfl
    exact hhasY hfB
  have hmid : t.partner X=Y := by
    rw [hreswap X hX,← hpA,Equiv.swap_apply_right,Equiv.swap_apply_left]
  have hend : t'.partner X=Y := by
    by_cases hfree : t.validTuples<s.numTuples
    · rw [hroom hfree X hX,hmid,Equiv.swap_apply_of_ne_of_ne hAY.symm hBY.symm]
    · rw [hfull hfree,hmid]
  have hat : Equiv.swap A g.2 (Equiv.swap X Y ((s.tables b).partner X))=t'.partner X := hcarries X hX
  rw [hend,← hpA,Equiv.swap_apply_of_ne_of_ne hAX hAY,Equiv.swap_apply_left] at hat
  exact hBY hat

theorem unswapExcess_placed {c : Prop} (hn : s.numTuples<2^32) (h : Placed s b c 2 s') :
    Post (s'.unswapExcess b) (Placed s b c 3) InBounds := by
  obtain ⟨hshape,hconsistent,swaps,hrec,hpos,hlen,hcarries⟩:=h
  unfold unswapExcess
  rw [post_ite]
  refine ⟨fun _ => ?_,fun _ => ⟨hshape,hconsistent,swaps,hrec,hpos,by omega,hcarries⟩⟩
  rw [hshape.numTuples]
  refine Post.bind ((Rit.evict_exchanges hconsistent hn).mono (fun _ h => h) fun e he => ?_) fun p hp => ?_
  · rw [he]
    exact fun h => by cases h
  obtain ⟨hc,hunpair⟩:=hp
  refine Post.bind ((recordSwaps_records hrec (by omega) p.2.1 p.2.2).mono (fun _ h => h)
    fun _ h => h.elim) fun w hw => ?_
  refine ⟨hshape.trans hw.1.1,?_,swaps++[(p.2.1,p.2.2)],hw.2,?_,?_,?_⟩
  · rw [tables_setTable]
    exact hc
  · rw [length_append]
    omega
  · rw [length_append,length_singleton]
    omega
  · rw [tables_setTable,carries_snoc hunpair]
    exact hcarries

theorem insertTuple_placed (h : s.Kept) (hb : s.hasBank b) (hX : X<s.numRows) (hrec : Records [] s.decision) :
    Post (s.insertTuple X b) (Placed s b (s.Pairable b X) 3) InBounds := by
  rw [insertTuple]
  refine Post.bind (R := fun _ => True) ?_ fun _ _ => ?_
  · rw [post_check]
    exact ⟨fun _ => trivial,fun hno => (hno hb).elim⟩
  refine Post.bind ((record_first hrec (by simp) X).mono (fun _ h => h) fun _ h => h.elim) fun d hd => ?_
  have hsize : (s.tables b).rowHasEntry.size=s.numRows := (h.tables b hb).1.index_size
  have hdraw:=generateRandomRowAddr_still (s := {s with decision := d}) (b := b) hsize
    (Nat.zero_lt_of_lt hX) X
  refine hdraw.bind fun g hg => ?_
  obtain ⟨hstill,hY,hYX,hfY⟩:=hg
  have hdg : RecordsHalf [] X g.1.decision := by
    rw [hstill.2]
    exact hd
  refine Post.bind ((record_second hdg (by simp) g.2).mono (fun _ h => h) fun _ h => h.elim)
    fun d' hd' => ?_
  have hdrawn : Looked s {g.1 with decision := d'} := hstill.1
  have hdt : Records [(X,g.2)] ({g.1 with decision := d'} : RandomizedRowSwap).decision := hd'
  generalize {g.1 with decision := d'}=t at hdrawn hdt
  have ht : t.Kept := h.of_tables hdrawn.1 hdrawn.2
  have hbt : t.hasBank b := (hdrawn.1.hasBank b).mpr hb
  have hrows:=hdrawn.1.numRows
  have hpairable : t.Pairable b X ↔ s.Pairable b X := by
    unfold Pairable
    rw [hdrawn.2,hdrawn.1.numTuples]
  have hYt : g.2<t.numRows := hrows.symm ▸ hY
  have hXt : X<t.numRows := hrows.symm ▸ hX
  have hfYt : (t.tables b).rowHasEntry.get g.2=0 := by
    rw [hdrawn.2]
    exact hfY
  refine insertDrawn_rule (R := Placed t b (t.Pairable b X) 2) (ht.tables b hbt).1
    (fun hge => (hge.not_gt hXt).elim) (fun _ h => ?_)
    (fun _ h => reswapTuple_placed ht hbt hXt hYt hYX h hfYt hdt) fun u hu => ?_
  · exact (installTuple_placed ht hbt hXt hYt hYX h hfYt hdt).mono (fun _ h => h) fun _ h => h.elim
  · refine (unswapExcess_placed ht.tuples_lt hu).imp fun w hw => ⟨fun _ _ => ?_,fun _ h => by cases h⟩
    obtain ⟨hshape,hconsistent,swaps,hrec',hpos,hlen,hcarries⟩:=hw
    rw [hdrawn.1.numTuples,hrows] at hconsistent
    rw [hrows,hpairable,hdrawn.2] at hcarries
    exact ⟨hdrawn.1.trans hshape,hconsistent,swaps,hrec',hpos,hlen,hcarries⟩

/-- An insertion begins on reachable tables, perhaps just unlocked, with the decision reset. -/
structure Begins (s0 m : RandomizedRowSwap) : Prop where
  reached : ∃ s,Reachable s0 s ∧ SameShape s m ∧ (m.tables=s.tables ∨ m.tables=s.unlocked)
  decision : Records [] m.decision

theorem Begins.kept (h : Begins s0 m) (h0 : s0.Kept) : m.Kept := by
  obtain ⟨s,hs,hshape,htables | htables⟩:=h.reached
  · exact (reachable_kept h0 hs).of_tables hshape htables
  · exact (reachable_kept h0 hs).unlocked hshape htables

theorem fresh_records : Records [] Decision.fresh := ⟨rfl,rfl,rfl,rfl⟩

theorem insertTuple_in_range (h : s.Kept) (X : ℕ) (b : Bank) :
    Post (s.insertTuple X b) (fun _ => s.hasBank b ∧ X<s.numRows) := by
  unfold insertTuple
  refine Post.bind (R := fun _ => s.hasBank b) (by simp) fun _ hb => ?_
  refine (post_true _).bind fun d _ => ?_
  refine Post.bind (generateRandomRowAddr_post {s with decision := d} X b).partly fun g hg => ?_
  refine (post_true _).bind fun d' _ => ?_
  rw [insertDrawn,post_bind,Cells.post_read]
  refine ⟨fun hX => ?_,fun _ => trivial⟩
  have htables : g.1.tables=s.tables := hg.1.looked.2
  have hX' : X<(g.1.tables b).rowHasEntry.size := hX
  rw [htables,(h.tables b hb).1.index_size] at hX'
  exact (post_true _).imp fun _ _ => ⟨hb,hX'⟩

/-- Exchanging the recorded pairs in order takes every row from where `getRemappedAddr` had it to where
it has it now. -/
def Implements (m s' : RandomizedRowSwap) (b : Bank) : Prop :=
  ∀ r < m.numRows,∃ u u' p p',m.getRemappedAddr r b true = .ok (u,p) ∧
    s'.getRemappedAddr r b true = .ok (u',p') ∧ exchange (exchanges s'.decision) p=p'

theorem implements_iff (hm : m.hasBank b) (hs : SameShape m s') (hc : (m.tables b).Consistent m.numTuples m.numRows)
    (hc' : (s'.tables b).Consistent m.numTuples m.numRows) : Implements m s' b ↔
      Carries (· < m.numRows) (exchanges s'.decision) (m.tables b).partner (s'.tables b).partner := by
  have hcs : (s'.tables b).Consistent s'.numTuples s'.numRows := by
    rw [hs.numTuples,hs.numRows]
    exact hc'
  refine forall₂_congr fun r hr => ?_
  obtain ⟨u,hu⟩:=getRemappedAddr_eq hm hc hr true
  obtain ⟨u',hu'⟩:=getRemappedAddr_eq ((hs.hasBank b).mpr hm) hcs (hs.numRows.symm ▸ hr) true
  constructor
  · intro h
    obtain ⟨_,_,p,p',hp,hp',hex⟩:=h
    rw [hu] at hp
    rw [hu'] at hp'
    cases hp
    cases hp'
    exact hex
  · exact fun h => ⟨u,u',_,_,hu,hu',h⟩

/-- On every reachable table an insertion records one, two or three pairs, which are the exchanges from
the old placement to the new one exactly when the row had no tuple and one was free for it. -/
theorem insertTuple_implements_iff {demandTuples numRows threshold numBanks numRanks numChannels : ℕ}
    {detector : MisraGries} {swapDelay sramRitAccDelay : UInt64} {randSeq : ℕ → ℕ} {stats : Stats}
    (h0 : construct demandTuples numRows threshold numBanks numRanks numChannels detector swapDelay
      sramRitAccDelay randSeq stats = .ok s0) (hm : Begins s0 m) (X : ℕ) (b : Bank) :
    (m.hasBank b → X < m.numRows → m.insertTuple X b ≠ .error .outOfBounds) ∧
    ∀ s',m.insertTuple X b = .ok s' →
      (s'.decision.validAddrs=2 ∨ s'.decision.validAddrs=4 ∨ s'.decision.validAddrs=6) ∧
      (Implements m s' b ↔
        (m.tables b).rowHasEntry.get X=0 ∧ (m.tables b).validTuples < m.numTuples) := by
  have hk:=hm.kept (construct_kept h0)
  refine ⟨fun hb hX hfault => ?_,fun s' hs' => ?_⟩
  · exact (insertTuple_placed hk hb hX hm.decision).of_error hfault rfl
  · obtain ⟨hb,hX⟩:=(insertTuple_in_range hk X b).of_ok hs'
    obtain ⟨hshape,hc,swaps,hrec,hpos,hlen,hcarries⟩ :=
      (insertTuple_placed hk hb hX hm.decision).of_ok hs'
    have hvalid:=hrec.validAddrs
    refine ⟨by omega,?_⟩
    rw [implements_iff hb hshape (hk.tables b hb).1 hc,hrec.pairs]
    exact hcarries

theorem insertTuple_implements_iff_of_install :
    ∃ s0 s',construct 3 16 2 1 1 1 (.construct 2 2 16 1 1 1 fun _ => .zeroed) 0 0 id
        ⟨0,0,0,0,0,0,0,0,⟨0,.calloc 4 0⟩⟩ = .ok s0 ∧ s0.insertTuple 5 ⟨0,0,0⟩ = .ok s' ∧
      Implements s0 s' ⟨0,0,0⟩ := by
  have hrun : Post (do
      let s0 ← construct 3 16 2 1 1 1 (.construct 2 2 16 1 1 1 fun _ => .zeroed) 0 0 id
        ⟨0,0,0,0,0,0,0,0,⟨0,.calloc 4 0⟩⟩
      let s' ← s0.insertTuple 5 ⟨0,0,0⟩
      pure (s0,s')) (fun p => (p.1.tables ⟨0,0,0⟩).rowHasEntry.get 5=0 ∧
        (p.1.tables ⟨0,0,0⟩).validTuples<p.1.numTuples) fun _ => False := by
    decide +kernel
  obtain ⟨p,hp,hfree⟩:=hrun.returns
  obtain ⟨s0,h0,hp⟩:=bind_ok hp
  obtain ⟨s',hs',hp⟩:=bind_ok hp
  cases hp
  have hdecision : s0.decision = .fresh := by
    obtain ⟨n,_,hs⟩:=bind_ok h0
    cases hs
    rfl
  have hbegins : Begins s0 s0 := ⟨⟨s0,.start,rfl,.inl rfl⟩,hdecision ▸ fresh_records⟩
  exact ⟨s0,s',h0,hs',((insertTuple_implements_iff h0 hbegins 5 ⟨0,0,0⟩).2 s' hs').2.mpr hfree⟩

/-- Row 5, swapped before, is inserted again: the two pairs recorded leave its contents elsewhere. -/
theorem reswap_misplaces :
    ∃ s0 s m s',construct 3 16 2 1 1 1 (.construct 2 2 16 1 1 1 fun _ => .zeroed) 0 0 id
        ⟨0,0,0,0,0,0,0,0,⟨0,.calloc 4 0⟩⟩ = .ok s0 ∧ s0.perform (.insertTuple 5 ⟨0,0,0⟩) = .ok s ∧
      s.perform .resetDecision = .ok m ∧ Begins s0 m ∧ m.insertTuple 5 ⟨0,0,0⟩ = .ok s' ∧
      ¬Implements m s' ⟨0,0,0⟩ := by
  have hrun : Post (do
      let s0 ← construct 3 16 2 1 1 1 (.construct 2 2 16 1 1 1 fun _ => .zeroed) 0 0 id
        ⟨0,0,0,0,0,0,0,0,⟨0,.calloc 4 0⟩⟩
      let s ← s0.perform (.insertTuple 5 ⟨0,0,0⟩)
      let m ← s.perform .resetDecision
      let s' ← m.insertTuple 5 ⟨0,0,0⟩
      let u ← m.getRemappedAddr 5 ⟨0,0,0⟩ true
      let u' ← s'.getRemappedAddr 5 ⟨0,0,0⟩ true
      pure (m,s',u,u')) (fun p => 5<p.1.numRows ∧
        exchange (exchanges p.2.1.decision) p.2.2.1.2≠p.2.2.2.2) fun _ => False := by
    decide +kernel
  obtain ⟨p,hp,hrow,hne⟩:=hrun.returns
  obtain ⟨s0,h0,hp⟩:=bind_ok hp
  obtain ⟨s,hs,hp⟩:=bind_ok hp
  obtain ⟨m,hm,hp⟩:=bind_ok hp
  obtain ⟨s',hs',hp⟩:=bind_ok hp
  obtain ⟨u,hu,hp⟩:=bind_ok hp
  obtain ⟨u',hu',hp⟩:=bind_ok hp
  cases hp
  have hreach : Reachable s0 m := .step s m .resetDecision (.step s0 s _ .start hs) hm
  have hbegins : Begins s0 m := by
    refine ⟨⟨m,hreach,rfl,.inl rfl⟩,?_⟩
    cases hm
    exact fresh_records
  refine ⟨s0,s,m,s',h0,hs,hm,hbegins,hs',fun himp => ?_⟩
  obtain ⟨_,_,_,_,hv,hv',hex⟩:=himp 5 hrow
  rw [hu] at hv
  rw [hu'] at hv'
  cases hv
  cases hv'
  exact hne hex

end RandomizedRowSwap

end AquaGem5.Swap
