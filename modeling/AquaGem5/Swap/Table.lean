import AquaGem5.Swap.RowSwap

/-!
# The invariant of one row indirection table

Every update of a table replaces one tuple and re-points the index for the rows the old and the new tuple hold.
-/

namespace AquaGem5.Swap.Rit
open Checked Finset

structure Consistent (numTuples numRows : ℕ) (t : Rit) : Prop where
  tuples_size : t.tuples.size=numTuples
  index_size : t.rowHasEntry.size=numRows
  index : ∀ r<numRows, ∀ i<numTuples, t.rowHasEntry.get r=i+1 ↔
    (t.tuples.get i).valid=true ∧ (t.tuples.get i).has r
  index_le : ∀ r<numRows, t.rowHasEntry.get r≤numTuples
  distinct : ∀ i<numTuples, (t.tuples.get i).valid=true →
    (t.tuples.get i).origRowID≠(t.tuples.get i).remappedRowID
  inRange : ∀ i<numTuples, (t.tuples.get i).valid=true → ∀ r, (t.tuples.get i).has r → r<numRows
  count : t.validTuples =
    ((Finset.range numTuples).filter fun i => (t.tuples.get i).valid=true).card

variable {n rows : ℕ} {t : Rit}

theorem Consistent.entry (hs : t.Consistent n rows) {r : ℕ} (hr : r<rows)
    (h : t.rowHasEntry.get r≠0) : t.rowHasEntry.get r-1<n ∧ (t.tuples.get (t.rowHasEntry.get r-1)).valid=true ∧
      (t.tuples.get (t.rowHasEntry.get r-1)).has r := by
  have hle:=hs.index_le r hr
  have hlt : t.rowHasEntry.get r-1<n := by omega
  exact ⟨hlt,(hs.index r hr _ hlt).mp (by omega)⟩

theorem Consistent.replace (hs : t.Consistent n rows) {i : ℕ} (hi : i<n)
    (e : RitEntry) (index : Cells ℕ) (valid : ℕ) (hsize : index.size=rows)
    (hindex : ∀ r<rows, index.get r=if e.valid=true ∧ e.has r then i+1
      else if (t.tuples.get i).valid=true ∧ (t.tuples.get i).has r then 0 else t.rowHasEntry.get r)
    (hfree : e.valid=true → ∀ r, e.has r → r<rows ∧ (t.rowHasEntry.get r=0 ∨ t.rowHasEntry.get r=i+1))
    (hne : e.valid=true → e.origRowID≠e.remappedRowID)
    (hvalid : valid+(if (t.tuples.get i).valid=true then 1 else 0) =
      t.validTuples+if e.valid=true then 1 else 0) : Consistent n rows ⟨t.tuples.set i e,index,valid⟩ := by
  refine ⟨hs.tuples_size,hsize,?_,?_,?_,?_,?_⟩
  · intro r hr j hj
    have hold:=hs.index r hr
    dsimp only
    rw [hindex r hr,Cells.get_set]
    by_cases he : e.valid=true ∧ e.has r
    · have hf:=(hfree he.1 r he.2).2
      by_cases hji : j=i
      · simp [he,hji]
      · have hj':=hold j hj
        rw [if_pos he,if_neg hji,← hj']
        omega
    · rw [if_neg he]
      by_cases ho : (t.tuples.get i).valid=true ∧ (t.tuples.get i).has r
      · have hi':=(hold i hi).mpr ho
        by_cases hji : j=i
        · simp [he,hji,ho]
        · have hj':=hold j hj
          rw [if_pos ho,if_neg hji,← hj']
          omega
      · rw [if_neg ho]
        by_cases hji : j=i
        · subst hji
          have hi':=hold j hj
          simp only [if_true,hi',he,ho]
        · rw [if_neg hji]
          exact hold j hj
  · intro r hr
    have hle:=hs.index_le r hr
    dsimp only
    rw [hindex r hr]
    split
    · omega
    · split <;> omega
  · intro j hj hv
    rw [Cells.get_set] at hv ⊢
    by_cases hji : j=i
    · rw [if_pos hji] at hv ⊢
      exact hne hv
    · rw [if_neg hji] at hv ⊢
      exact hs.distinct j hj hv
  · intro j hj hv r hr
    rw [Cells.get_set] at hv hr
    by_cases hji : j=i
    · rw [if_pos hji] at hv hr
      exact (hfree hv r hr).1
    · rw [if_neg hji] at hv hr
      exact hs.inRange j hj hv r hr
  · have hcard:=Cells.card_set t.tuples (fun _ e => e.valid=true) hi e
    have hc:=hs.count
    dsimp only at hcard ⊢
    omega

theorem Consistent.valid_le (hs : t.Consistent n rows) : t.validTuples≤n := by
  rw [hs.count]
  exact (card_filter_le _ _).trans (by rw [card_range])

theorem Consistent.exists_free (hs : t.Consistent n rows)
    (h : t.validTuples<n) : ∃ i<n, (t.tuples.get i).valid=false := by
  by_contra hall
  have hfull : (range n).filter (fun i => (t.tuples.get i).valid=true)=range n := by
    refine filter_true_of_mem fun i hi => ?_
    by_contra hv
    exact hall ⟨i,mem_range.mp hi,by simpa using hv⟩
  have hc:=hs.count
  rw [hfull,card_range] at hc
  omega

def partner (t : Rit) (r : ℕ) : ℕ :=
  let e := t.tuples.get (t.rowHasEntry.get r-1)
  if t.rowHasEntry.get r=0 then r else if e.origRowID=r then e.remappedRowID else e.origRowID

theorem partner_of_has {i r : ℕ} (h : t.rowHasEntry.get r=i+1) :
    t.partner r=if (t.tuples.get i).origRowID=r then (t.tuples.get i).remappedRowID
      else (t.tuples.get i).origRowID := by
  simp only [partner,h,Nat.add_sub_cancel,Nat.succ_ne_zero,if_false]

theorem Consistent.partner_cases (hs : t.Consistent n rows) {r : ℕ}
    (hr : r<rows) : (t.rowHasEntry.get r=0 ∧ t.partner r=r) ∨
      ∃ i, t.rowHasEntry.get r=i+1 ∧ t.rowHasEntry.get (t.partner r)=i+1 ∧
        t.partner r<rows ∧ t.partner (t.partner r)=r := by
  by_cases h0 : t.rowHasEntry.get r=0
  · exact .inl ⟨h0,if_pos h0⟩
  · obtain ⟨hi,hv,hrow⟩:=hs.entry hr h0
    have hidx : t.rowHasEntry.get r=t.rowHasEntry.get r-1+1 := by omega
    generalize t.rowHasEntry.get r-1=i at hi hv hrow hidx
    have hne:=hs.distinct i hi hv
    have hp:=partner_of_has hidx
    -- the other row of the tuple
    obtain ⟨hpart,hback⟩ : (t.tuples.get i).has (t.partner r) ∧
        (if (t.tuples.get i).origRowID=t.partner r then (t.tuples.get i).remappedRowID
          else (t.tuples.get i).origRowID)=r := by
      by_cases ho : (t.tuples.get i).origRowID=r
      · rw [if_pos ho] at hp
        rw [hp,if_neg hne]
        exact ⟨.inr rfl,ho⟩
      · rw [if_neg ho] at hp
        rw [hp,if_pos rfl]
        exact ⟨.inl rfl,hrow.resolve_left ho⟩
    have hlt:=hs.inRange i hi hv _ hpart
    have hidx':=(hs.index _ hlt i hi).mpr ⟨hv,hpart⟩
    exact .inr ⟨i,hidx,hidx',hlt,(partner_of_has hidx').trans hback⟩

theorem Consistent.partner_lt (hs : t.Consistent n rows) {r : ℕ} (hr : r<rows) : t.partner r<rows := by
  rcases hs.partner_cases hr with ⟨_,h⟩ | ⟨_,_,_,h,_⟩
  · rwa [h]
  · exact h

theorem Consistent.partner_partner (hs : t.Consistent n rows) {r : ℕ} (hr : r<rows) : t.partner (t.partner r)=r := by
  rcases hs.partner_cases hr with ⟨_,h⟩ | ⟨_,_,_,_,h⟩
  · rw [h,h]
  · exact h

theorem calloc_consistent (n rows : ℕ) : Consistent n rows ⟨.calloc n ⟨false,false,0,0⟩,.calloc rows 0,0⟩ := by
  refine ⟨rfl,rfl,?_,?_,?_,?_,?_⟩ <;> simp

theorem unlock_consistent (hs : t.Consistent n rows) : (t.unlock n).Consistent n rows := by
  have hsame : ∀ i, ((t.unlock n).tuples.get i).valid=(t.tuples.get i).valid ∧
      ((t.unlock n).tuples.get i).origRowID=(t.tuples.get i).origRowID ∧
      ((t.unlock n).tuples.get i).remappedRowID=(t.tuples.get i).remappedRowID := by
    intro i
    simp only [unlock]
    split <;> exact ⟨rfl,rfl,rfl⟩
  have hhas : ∀ i r, ((t.unlock n).tuples.get i).has r ↔ (t.tuples.get i).has r := by
    intro i r
    simp only [RitEntry.has,(hsame i).2.1,(hsame i).2.2]
  refine ⟨hs.tuples_size,hs.index_size,?_,hs.index_le,?_,?_,?_⟩
  · intro r hr i hi
    rw [(hsame i).1,hhas]
    exact hs.index r hr i hi
  · intro i hi hv
    rw [(hsame i).1] at hv
    rw [(hsame i).2.1,(hsame i).2.2]
    exact hs.distinct i hi hv
  · intro i hi hv r hr
    rw [(hsame i).1] at hv
    exact hs.inRange i hi hv r ((hhas i r).mp hr)
  · simp only [(hsame _).1]
    exact hs.count

theorem reswap_post {n rows X Y i : ℕ} (hs : t.Consistent n rows) (hi : i<n)
    (hv : (t.tuples.get i).valid=true) (hX : (t.tuples.get i).has X) (hXY : Y≠X)
    (hY : Y<rows) (hfree : t.rowHasEntry.get Y=0) :
    Post (t.reswap i X Y) (fun p => p.1.Consistent n rows ∧ p.1.validTuples=t.validTuples ∧
      p.2<rows ∧ p.1.rowHasEntry.get p.2=0) fun _ => False := by
  have hiff:=fun r hr => (hs.index r hr i hi)
  -- `A` is the row the tuple pairs with `X`, `e` the tuple with `Y` in its place
  have key : ∀ A e, e.valid=true → (∀ r, e.has r ↔ r=X ∨ r=Y) → e.origRowID≠e.remappedRowID →
      (∀ r, (t.tuples.get i).has r ↔ r=X ∨ r=A) → A≠X → A<rows →
      Post (do
        let index ← t.rowHasEntry.write A 0
        let index ← index.write Y (i+1)
        pure ((⟨t.tuples.set i e,index,t.validTuples⟩,A) : Rit × ℕ) : Except Fault (Rit × ℕ))
        (fun p => p.1.Consistent n rows ∧ p.1.validTuples=t.validTuples ∧
          p.2<rows ∧ p.1.rowHasEntry.get p.2=0) fun _ => False := by
    intro A e hev hehas hene hthas hAX hA
    have hXrow:=hs.inRange i hi hv X ((hthas X).mpr (.inl rfl))
    have hXi : t.rowHasEntry.get X=i+1 := (hiff X hXrow).mpr ⟨hv,(hthas X).mpr (.inl rfl)⟩
    have hAi : t.rowHasEntry.get A=i+1 := (hiff A hA).mpr ⟨hv,(hthas A).mpr (.inr rfl)⟩
    have hAY : A≠Y := by
      rintro rfl
      omega
    simp only [post_bind,Cells.post_write,Cells.size_set,hs.index_size,hA,hY,not_true_eq_false,
      false_implies,and_true,true_implies,post_pure,Cells.get_set,hAY,if_false,if_true]
    refine hs.replace hi e _ _ hs.index_size ?_ ?_ (fun _ => hene) (by simp [hv,hev])
    · intro r hr
      simp only [Cells.get_set,hev,hv,true_and,hehas,hthas]
      by_cases hrY : r=Y
      · simp [hrY]
      · by_cases hrX : r=X
        · simp [hrX,hXY.symm,hAX.symm,hXi]
        · by_cases hrA : r=A <;> simp [hrY,hrX,hrA,hAX,hAY]
    · intro _ r hr
      rcases (hehas r).mp hr with rfl | rfl
      · exact ⟨hXrow,.inr hXi⟩
      · exact ⟨hY,.inl hfree⟩
  have hd:=hs.distinct i hi hv
  have hin:=hs.inRange i hi hv
  simp only [reswap]
  rw [post_bind,Cells.post_read]
  refine ⟨fun _ => ?_,fun h => h (hs.tuples_size ▸ hi)⟩
  by_cases ho : (t.tuples.get i).origRowID=X
  · simp only [ho,if_true]
    refine key _ _ hv ?_ ?_ ?_ ?_ (hin _ (.inr rfl))
    · intro r
      simp only [RitEntry.has,eq_comm (b := r)]
    · exact fun h => hXY (Eq.symm h)
    · intro r
      simp only [RitEntry.has,ho,eq_comm (b := r)]
    · exact fun h => hd (ho.trans h.symm)
  · have hrem : (t.tuples.get i).remappedRowID=X := hX.resolve_left ho
    simp only [ho,if_false]
    refine key _ _ hv ?_ ?_ ?_ ho (hin _ (.inl rfl))
    · intro r
      simp only [RitEntry.has,hrem,eq_comm (b := r)]
      exact Or.comm
    · exact fun h => hXY (h.trans hrem)
    · intro r
      simp only [RitEntry.has,hrem,eq_comm (b := r)]
      exact Or.comm

theorem install_post {n rows a b : ℕ} (hs : t.Consistent n rows) (hn : n<2^32)
    (hroom : t.validTuples<n) (hab : a≠b) (ha : a<rows) (hb : b<rows)
    (hfa : t.rowHasEntry.get a=0) (hfb : t.rowHasEntry.get b=0) :
    Post (t.install n a b) (fun t' => t'.Consistent n rows ∧ t'.validTuples=t.validTuples+1) fun _ => False := by
  unfold install
  split
  · rename_i ii hfind
    have hi : ii<n := List.mem_range.mp (List.mem_of_find?_eq_some hfind)
    have hv : (t.tuples.get ii).valid=false := by simpa using List.find?_some hfind
    have hinc : inc32 t.validTuples=t.validTuples+1 := inc32_of_lt (by omega)
    simp only [post_bind,Cells.post_write,Cells.size_set,hs.index_size,ha,hb,not_true_eq_false,
      false_implies,and_true,true_implies,post_pure,hinc]
    refine hs.replace hi _ _ _ hs.index_size ?_ ?_ (fun _ => hab) (by simp [hv])
    · intro r hr
      simp only [Cells.get_set,RitEntry.has,hv,true_and,Bool.false_eq_true,false_and,if_false,
        eq_comm (b := r)]
      by_cases hrb : r=b
      · simp [hrb]
      · by_cases hra : r=a <;> simp [hra,hrb]
    · rintro _ r (rfl | rfl)
      · exact ⟨ha,.inl hfa⟩
      · exact ⟨hb,.inl hfb⟩
  · rename_i hnone
    obtain ⟨i,hi,hv⟩:=hs.exists_free hroom
    have := List.find?_eq_none.mp hnone i (List.mem_range.mpr hi)
    simp [hv] at this

theorem evict_post (hs : t.Consistent n rows) (hn : n<2^32) :
    Post (t.evict n) (fun p => p.1.Consistent n rows ∧ p.1.validTuples+1=t.validTuples)
      fun e => e = .noUnlockedTuple := by
  unfold evict
  split
  · rename_i ii hfind
    have hi : ii<n := List.mem_range.mp (List.mem_of_find?_eq_some hfind)
    have hv : (t.tuples.get ii).valid=true := by
      have := List.find?_some hfind
      simp only [Bool.decide_and,Bool.and_eq_true,decide_eq_true_eq] at this
      exact this.1
    have ho:=hs.inRange ii hi hv _ (.inl rfl)
    have hr:=hs.inRange ii hi hv _ (.inr rfl)
    have hpos : 0<t.validTuples := by
      rw [hs.count,card_pos]
      exact ⟨ii,mem_filter.mpr ⟨mem_range.mpr hi,hv⟩⟩
    have hdec : dec32 t.validTuples=t.validTuples-1 :=
      dec32_of_pos hpos (hs.valid_le.trans_lt hn)
    simp only [post_bind,Cells.post_write,Cells.size_set,hs.index_size,ho,hr,not_true_eq_false,
      false_implies,and_true,true_implies,post_pure,hdec]
    refine ⟨hs.replace hi _ _ _ hs.index_size ?_ (by simp) (by simp) (by simp [hv]; omega),by omega⟩
    intro r _
    simp only [Cells.get_set,RitEntry.has,hv,true_and,Bool.false_eq_true,false_and,if_false,
      eq_comm (b := r)]
    by_cases h1 : r=(t.tuples.get ii).remappedRowID
    · simp [h1]
    · by_cases h2 : r=(t.tuples.get ii).origRowID <;> simp [h1,h2]
  · exact rfl

end AquaGem5.Swap.Rit
