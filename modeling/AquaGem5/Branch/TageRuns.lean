import AquaGem5.Branch.Tage

/-!
# The histories over a run

`live` lists the recorded branches that have not been squashed, newest first.
-/

namespace AquaGem5.Branch
open Folding Function List

structure Recorded where
  info : BranchInfo
  taken : Bool
  pathbit : Bool
  peak : ℕ

def outcomes (live : List Recorded) (i : ℕ) : Bool := (live[i]?.map (·.taken)).getD false

def deepen (n : ℕ) (live : List Recorded) : List Recorded := live.map fun r => {r with peak := max r.peak n}

namespace TAGEBase

def path (tage : TAGEBase) : List Recorded → BitVec 32
  | [] => 0
  | r::older => tage.updatePath (tage.path older) r.pathbit

/-- Recording, replacing the newest outcome and squashing, where `Fits` says which records are squashed. -/
inductive Run (tage : TAGEBase) (Fits : List Recorded → Recorded → List Recorded → Prop) :
    ThreadHistory → List Recorded → Prop
  | init : Run tage Fits tage.init []
  | record {t t' live branchPc taken bi bi'} : Run tage Fits t live →
    tage.updateHistories t branchPc taken bi true = .ok (t',bi') →
    Run tage Fits t' (⟨bi',taken,tage.pathbit branchPc,live.length+1⟩::deepen (live.length+1) live)
  | btb {t t' r older} : Run tage Fits t (r::older) → tage.btbUpdate t r.info = .ok t' →
    Run tage Fits t' ({r with taken := false}::older)
  | squash {t later r older} (taken : Bool) : Run tage Fits t (later++r::older) → Fits later r older →
    Run tage Fits (tage.squash t taken r.info) ({r with taken := taken}::older)

def Near (tage : TAGEBase) (later : List Recorded) (_ : Recorded) (_ : List Recorded) : Prop :=
  later.length<tage.histBufferSize-2*tage.maxHist

def Kept (tage : TAGEBase) (_ : List Recorded) (r : Recorded) (older : List Recorded) : Prop :=
  r.peak<older.length+1+(tage.histBufferSize-2*tage.maxHist)

/-- The histories are those of the live branches. -/
structure Shows (tage : TAGEBase) (t : ThreadHistory) (live : List Recorded) : Prop where
  newest : t.gHist=t.ptGhist
  outcome : ∀ j≤tage.maxHist, t.globalHistory (t.gHist+j)=outcomes live j
  path : t.pathHist=tage.path live
  indices : ∀ i, 1 ≤ i → i≤tage.nHistoryTables → (t.computeIndices i).comp =
    fold 32 (tage.logTagTableSizes i) (outcomes live) (tage.histLengths i)
  tags : ∀ i, 1 ≤ i → i≤tage.nHistoryTables → (t.computeTags 0 i).comp =
    fold 32 (tage.tagTableTagWidths i) (outcomes live) (tage.histLengths i) ∧
    (t.computeTags 1 i).comp=fold 32 (tage.tagTableTagWidths i-1) (outcomes live) (tage.histLengths i)

/-- The history lengths are those of the buffer, and the registers have a bit at least and are smaller than a word. -/
structure Sizes (tage : TAGEBase) : Prop where
  speculative : tage.speculativeHistUpdate=true
  buffer : 2*tage.maxHist<tage.histBufferSize
  lengths : ∀ i, 1 ≤ i → i≤tage.nHistoryTables → tage.histLengths i≤tage.maxHist
  indices : ∀ i, 1 ≤ i → i≤tage.nHistoryTables → 1≤tage.logTagTableSizes i ∧ tage.logTagTableSizes i≤31
  tags : ∀ i, 1 ≤ i → i≤tage.nHistoryTables → 1≤tage.tagTableTagWidths i-1 ∧ tage.tagTableTagWidths i≤31

end TAGEBase

structure FoldedHistory.Of (f : FoldedHistory) (len c : ℕ) : Prop where
  length : f.origLength=len
  compLength : f.compLength=c
  outpoint : f.outpoint=len%c

theorem byte_eq (b : Bool) (p : ℕ) : byte b <<< p=bit 32 b p := by
  cases b with
  | false => exact BitVec.zero_shiftLeft p
  | true => exact (BitVec.twoPow_eq 32 p).symm

theorem byte_zero (b : Bool) : byte b=bit 32 b 0 := by
  rw [← byte_eq,BitVec.shiftLeft_zero]

theorem FoldedHistory.Of.update {f : FoldedHistory} {len c : ℕ} (hf : f.Of len c) (h : ℕ → Bool) : (f.update h).Of len c :=
  ⟨hf.length,hf.compLength,hf.outpoint⟩

theorem FoldedHistory.Of.update_comp {f : FoldedHistory} {len c : ℕ} (hf : f.Of len c) (h1 : 1≤c) (h31 : c≤31)
    {h g : ℕ → Bool} {b : Bool} (hcomp : f.comp=fold 32 c g len) (hh : ∀ j≤len, h j=push b g j) :
    (f.update h).comp=fold 32 c (push b g) len := by
  have h0 : h 0=b := hh 0 (Nat.zero_le _)
  rw [← fold_update (by omega) (by omega) b g len,FoldedHistory.update]
  simp only [hf.length,hf.compLength,hf.outpoint,h0,hh len le_rfl,hcomp,byte_eq,byte_zero b]
  rfl

theorem outcomes_cons (r : Recorded) (live : List Recorded) : outcomes (r::live)=push r.taken (outcomes live) := by
  funext i
  cases i with
  | zero | succ i => rfl

theorem outcomes_deepen (n : ℕ) (live : List Recorded) : outcomes (deepen n live)=outcomes live := by
  funext i
  rw [outcomes,outcomes,deepen,getElem?_map,Option.map_map]
  rfl

theorem deepen_length (n : ℕ) (live : List Recorded) : (deepen n live).length=live.length := List.length_map ..

namespace TAGEBase

variable {tage : TAGEBase} {t t' : ThreadHistory} {live later older : List Recorded} {r : Recorded}
  {Fits : List Recorded → Recorded → List Recorded → Prop}

theorem path_deepen (n : ℕ) (live : List Recorded) : tage.path (deepen n live)=tage.path live := by
  induction live with
  | nil => rfl
  | cons r live ih =>
    rw [deepen,map_cons,path,path]
    exact congrArg (tage.updatePath · r.pathbit) ih

structure Registers (tage : TAGEBase) (t : ThreadHistory) : Prop where
  indices : ∀ i, (t.computeIndices i).Of (tage.histLengths i) (tage.logTagTableSizes i)
  tags0 : ∀ i, (t.computeTags 0 i).Of (tage.histLengths i) (tage.tagTableTagWidths i)
  tags1 : ∀ i, (t.computeTags 1 i).Of (tage.histLengths i) (tage.tagTableTagWidths i-1)

structure Saved (tage : TAGEBase) (r : Recorded) (older : List Recorded) : Prop where
  path : r.info.pathHist=tage.path (r::older)
  indices : ∀ i, 1 ≤ i → i≤tage.nHistoryTables →
    r.info.ci i=fold 32 (tage.logTagTableSizes i) (outcomes older) (tage.histLengths i)
  tags : ∀ i, 1 ≤ i → i≤tage.nHistoryTables →
    r.info.ct0 i=fold 32 (tage.tagTableTagWidths i) (outcomes older) (tage.histLengths i) ∧
    r.info.ct1 i=fold 32 (tage.tagTableTagWidths i-1) (outcomes older) (tage.histLengths i)

theorem shows_updateFolded (hz : Sizes tage) (hreg : Registers tage t) {b : Bool} {g : ℕ → Bool}
    (hind : ∀ i, 1 ≤ i → i≤tage.nHistoryTables →
      (t.computeIndices i).comp=fold 32 (tage.logTagTableSizes i) g (tage.histLengths i))
    (htag : ∀ i, 1 ≤ i → i≤tage.nHistoryTables →
      (t.computeTags 0 i).comp=fold 32 (tage.tagTableTagWidths i) g (tage.histLengths i) ∧
      (t.computeTags 1 i).comp=fold 32 (tage.tagTableTagWidths i-1) g (tage.histLengths i))
    (hnew : t.gHist=t.ptGhist) (hout : ∀ j≤tage.maxHist, t.globalHistory (t.gHist+j)=push b g j)
    (hlive : outcomes live=push b g) (hpath : t.pathHist=tage.path live) :
    Shows tage (tage.updateFolded t) live ∧ Registers tage (tage.updateFolded t) := by
  have hread : ∀ i, 1 ≤ i → i≤tage.nHistoryTables → ∀ j≤tage.histLengths i,
      t.globalHistory (t.gHist+j)=push b g j := fun i h1 hi j hj => hout j (hj.trans (hz.lengths i h1 hi))
  refine ⟨⟨hnew,fun j hj => ?_,hpath,fun i h1 hi => ?_,fun i h1 hi => ?_⟩,fun i => ?_,fun i => ?_,fun i => ?_⟩
  · rw [hlive]
    exact hout j hj
  · rw [updateFolded,hlive]
    dsimp only
    rw [if_pos ⟨h1,hi⟩]
    exact (hreg.indices i).update_comp (hz.indices i h1 hi).1 (hz.indices i h1 hi).2 (hind i h1 hi) (hread i h1 hi)
  · obtain ⟨hlo,hhi⟩:=hz.tags i h1 hi
    rw [updateFolded,hlive]
    dsimp only
    rw [if_pos ⟨h1,hi⟩,if_pos ⟨h1,hi⟩]
    exact ⟨(hreg.tags0 i).update_comp (by omega) hhi (htag i h1 hi).1 (hread i h1 hi),
      (hreg.tags1 i).update_comp hlo (by omega) (htag i h1 hi).2 (hread i h1 hi)⟩
  · rw [updateFolded]
    dsimp only
    split
    · exact (hreg.indices i).update _
    · exact hreg.indices i
  · rw [updateFolded]
    dsimp only
    split
    · exact (hreg.tags0 i).update _
    · exact hreg.tags0 i
  · rw [updateFolded]
    dsimp only
    split
    · exact (hreg.tags1 i).update _
    · exact hreg.tags1 i

theorem shows_refold (hz : Sizes tage) (hreg : Registers tage t) (hs : Saved tage r older) (hnew : t.gHist=t.ptGhist)
    (hpath : t.pathHist=r.info.pathHist) (taken : Bool)
    (hout : ∀ j, 1≤j → j≤tage.maxHist → t.globalHistory (t.gHist+j)=outcomes older (j-1)) :
    Shows tage (tage.refold t taken r.info) ({r with taken := taken}::older) ∧
      Registers tage (tage.refold t taken r.info) := by
  rw [refold]
  refine shows_updateFolded hz ⟨fun i => ?_,fun i => ?_,fun i => ?_⟩ (fun i h1 hi => ?_) (fun i h1 hi => ?_) hnew
    (fun j hj => ?_) (outcomes_cons ..) (hpath.trans hs.path)
  · rw [restoreFolded]
    dsimp only
    split
    · exact ⟨(hreg.indices i).length,(hreg.indices i).compLength,(hreg.indices i).outpoint⟩
    · exact hreg.indices i
  · rw [restoreFolded]
    dsimp only
    split
    · exact ⟨(hreg.tags0 i).length,(hreg.tags0 i).compLength,(hreg.tags0 i).outpoint⟩
    · exact hreg.tags0 i
  · rw [restoreFolded]
    dsimp only
    split
    · exact ⟨(hreg.tags1 i).length,(hreg.tags1 i).compLength,(hreg.tags1 i).outpoint⟩
    · exact hreg.tags1 i
  · rw [restoreFolded]
    dsimp only
    rw [if_pos ⟨h1,hi⟩]
    exact hs.indices i h1 hi
  · rw [restoreFolded]
    dsimp only
    have hin : 1 ≤ i ∧ i≤tage.nHistoryTables := ⟨h1,hi⟩
    rw [if_pos hin,if_pos hin]
    exact hs.tags i h1 hi
  · show update t.globalHistory t.gHist taken (t.gHist+j)=push taken (outcomes older) j
    cases j with
    | zero => exact update_self ..
    | succ j =>
      rw [update_of_ne (by omega)]
      exact hout (j+1) (by omega) hj

def top : List Recorded → ℕ
  | [] => 0
  | r::_ => r.info.ptGhist

def below (tage : TAGEBase) (pt : ℕ) : ℕ := if pt=0 then tage.histBufferSize-tage.maxHist-1 else pt-1

theorem top_deepen (n : ℕ) (live : List Recorded) : top (deepen n live)=top live := by
  cases live <;> rfl

theorem rollOver_eq (hz : Sizes tage) (tab : ℕ → Bool) (x : ℕ) : tage.rollOver tab x =
    if tage.histBufferSize-tage.maxHist≤x ∧ x<tage.histBufferSize then
      tab (x-(tage.histBufferSize-tage.maxHist)) else tab x := by
  have hbuf:=hz.buffer
  have hloop : ∀ n≤tage.maxHist, ∀ x, (range n).foldl
      (fun tab i => update tab (tage.histBufferSize-tage.maxHist+i) (tab i)) tab x =
      if tage.histBufferSize-tage.maxHist≤x ∧ x<tage.histBufferSize-tage.maxHist+n then
        tab (x-(tage.histBufferSize-tage.maxHist)) else tab x := by
    intro n
    induction n with
    | zero =>
      intro _ x
      rw [if_neg (by omega)]
      rfl
    | succ n ih =>
      intro hn x
      have ih:=ih (by omega)
      rw [range_succ,foldl_append,foldl_cons,foldl_nil,update_apply]
      by_cases hx : x=tage.histBufferSize-tage.maxHist+n
      · rw [if_pos hx,ih,if_neg (by omega),if_pos (by omega),hx,Nat.add_sub_cancel_left]
      · rw [if_neg hx,ih]
        exact if_congr (by omega) rfl rfl
  rw [rollOver,hloop tage.maxHist le_rfl x]
  exact if_congr (by omega) rfl rfl

theorem updateGHist_buffer (hnew : t.gHist=t.ptGhist) (dir : Bool) :
    (tage.updateGHist t dir).ptGhist=below tage t.ptGhist ∧ (tage.updateGHist t dir).gHist=below tage t.ptGhist ∧
      ∀ x, (tage.updateGHist t dir).globalHistory x=if x=below tage t.ptGhist then dir
        else if t.ptGhist=0 then tage.rollOver t.globalHistory x else t.globalHistory x := by
  rw [updateGHist,below]
  by_cases h0 : t.ptGhist=0
  · rw [if_pos h0,if_pos h0]
    exact ⟨rfl,rfl,fun x => by rw [if_pos h0]; exact update_apply ..⟩
  · rw [if_neg h0,if_neg h0]
    exact ⟨rfl,hnew ▸ rfl,fun x => by rw [if_neg h0,← hnew]; exact update_apply ..⟩

theorem updateGHist_frame (tage : TAGEBase) (t : ThreadHistory) (dir : Bool) :
    (tage.updateGHist t dir).pathHist=t.pathHist ∧ (tage.updateGHist t dir).computeIndices=t.computeIndices ∧
      (tage.updateGHist t dir).computeTags=t.computeTags := by
  rw [updateGHist]
  dsimp only
  split
  · exact ⟨rfl,rfl,rfl⟩
  · exact ⟨rfl,rfl,rfl⟩

def Window (tage : TAGEBase) (tab : ℕ → Bool) (r : Recorded) (older : List Recorded) : Prop :=
  Kept tage [] r older → ∀ j, 1≤j → j≤tage.maxHist → tab (r.info.ptGhist+j)=outcomes older (j-1)

def Placed (tage : TAGEBase) : List Recorded → Prop
  | [] => True
  | r::older => r.info.ptGhist=below tage (top older) ∧ Placed tage older

theorem Placed.append (h : Placed tage (later++r::older)) : Placed tage (r::older) := by
  induction later with
  | nil => exact h
  | cons q later ih => exact ih h.2

theorem placed_deepen (n : ℕ) (live : List Recorded) (h : Placed tage live) : Placed tage (deepen n live) := by
  induction live with
  | nil => trivial
  | cons r live ih => exact ⟨h.1.trans (congrArg (below tage) (top_deepen n live).symm),ih h.2⟩

theorem Placed.top_eq (hz : Sizes tage) (h : Placed tage (later++r::older))
    (hn : later.length<tage.histBufferSize-2*tage.maxHist) :
    (later.length≤r.info.ptGhist → top (later++r::older)=r.info.ptGhist-later.length) ∧ (r.info.ptGhist<later.length →
      top (later++r::older)=tage.histBufferSize-tage.maxHist-(later.length-r.info.ptGhist)) := by
  have hbuf:=hz.buffer
  induction later with
  | nil => exact ⟨fun _ => rfl,fun hlt => (Nat.not_lt_zero _ hlt).elim⟩
  | cons q later ih =>
    rw [length_cons] at hn ⊢
    obtain ⟨hle,hlt⟩:=ih h.2 (by omega)
    have hq : q.info.ptGhist=below tage (top (later++r::older)) := h.1
    show (_ → q.info.ptGhist=_) ∧ (_ → q.info.ptGhist=_)
    rw [hq,below]
    constructor
    · intro hl
      have htop:=hle (by omega)
      rw [htop,if_neg (by omega)]
      omega
    · intro hl
      rcases Nat.lt_or_ge r.info.ptGhist later.length with hp | hp
      · rw [hlt hp,if_neg (by omega)]
        omega
      · rw [hle hp,if_pos (by omega)]
        omega

theorem Placed.next_ne (hz : Sizes tage) (h : Placed tage (later++r::older))
    (hn : later.length+1<tage.histBufferSize-2*tage.maxHist) {j : ℕ} (hj : j≤tage.maxHist) :
    below tage (top (later++r::older))≠r.info.ptGhist+j := by
  have hbuf:=hz.buffer
  obtain ⟨hle,hlt⟩:=h.top_eq hz (by omega)
  rw [below]
  rcases Nat.lt_or_ge r.info.ptGhist later.length with hp | hp
  · rw [hlt hp,if_neg (by omega)]
    omega
  · rw [hle hp]
    split
    · omega
    · omega

theorem Placed.lt_copy (hz : Sizes tage) (h : Placed tage (later++r::older))
    (hn : later.length+1<tage.histBufferSize-2*tage.maxHist) (h0 : top (later++r::older)=0) {j : ℕ}
    (hj : j≤tage.maxHist) : r.info.ptGhist+j<tage.histBufferSize-tage.maxHist := by
  obtain ⟨hle,hlt⟩:=h.top_eq hz (by omega)
  rw [h0] at hle hlt
  rcases Nat.lt_or_ge r.info.ptGhist later.length with hp | hp
  · have htop:=hlt hp
    omega
  · have htop:=hle hp
    omega

structure Sound (tage : TAGEBase) (t : ThreadHistory) (live : List Recorded) : Prop where
  shows : Shows tage t live
  registers : Registers tage t
  top : t.ptGhist=top live
  placed : Placed tage live
  saved : ∀ later r older, live=later++r::older → Saved tage r older
  window : ∀ later r older, live=later++r::older → Window tage t.globalHistory r older
  peak : ∀ r∈live, live.length≤r.peak

theorem deepen_split {n : ℕ} {live later older : List Recorded} {r : Recorded} (h : deepen n live=later++r::older) :
    ∃ later0 r0 older0, live=later0++r0::older0 ∧ later.length=later0.length ∧
      r={r0 with peak := max r0.peak n} ∧ older=deepen n older0 := by
  obtain ⟨l1,l2,rfl,h₁,h2⟩:=map_eq_append_iff.mp h
  obtain ⟨r0,older0,rfl,hr,ho⟩:=map_eq_cons_iff.mp h2
  exact ⟨l1,r0,older0,rfl,by rw [← h₁,length_map],hr.symm,ho.symm⟩

theorem fold_false (w c n : ℕ) : fold w c (fun _ => false) n=0#w := by
  induction n with
  | zero => rfl
  | succ n ih =>
    rw [fold,ih]
    exact BitVec.xor_zero

theorem sound_init (tage : TAGEBase) : Sound tage tage.init [] := by
  have hout : outcomes []=fun _ => false := rfl
  have hsplit : ∀ (later : List Recorded) r older, []≠later++r::older := fun later r older he => by
    have hlen:=congrArg List.length he
    rw [length_append,length_cons,length_nil] at hlen
    omega
  refine ⟨⟨rfl,fun j _ => rfl,rfl,fun i _ _ => ?_,fun i _ _ => ⟨?_,?_⟩⟩,⟨fun i => ⟨rfl,rfl,rfl⟩,fun i => ⟨rfl,rfl,rfl⟩,
    fun i => ⟨rfl,rfl,rfl⟩⟩,rfl,trivial,fun later r older he => (hsplit later r older he).elim,
    fun later r older he => (hsplit later r older he).elim,fun r hr => (not_mem_nil hr).elim⟩
  · rw [hout,fold_false]
    rfl
  · rw [hout,fold_false]
    rfl
  · rw [hout,fold_false]
    rfl

theorem Sound.refold (hz : Sizes tage) (h : Sound tage t (later++r::older)) (hreg : Registers tage t')
    (hg : t'.gHist=r.info.ptGhist) (hp : t'.ptGhist=r.info.ptGhist) (hpath : t'.pathHist=r.info.pathHist)
    (htab : t'.globalHistory=t.globalHistory) (taken : Bool)
    (hout : ∀ j, 1≤j → j≤tage.maxHist → t.globalHistory (r.info.ptGhist+j)=outcomes older (j-1)) :
    Sound tage (tage.refold t' taken r.info) ({r with taken := taken}::older) := by
  have hs:=h.saved later r older rfl
  obtain ⟨hshows,hregs⟩:=shows_refold hz hreg hs (hg.trans hp.symm) hpath taken fun j h1 hj => by
    rw [htab,hg]
    exact hout j h1 hj
  have hplaced : Placed tage ({r with taken := taken}::older) := h.placed.append
  have hbuf : (tage.refold t' taken r.info).globalHistory=update t.globalHistory r.info.ptGhist taken := by
    rw [← htab,← hg]
    rfl
  refine ⟨hshows,hregs,hp,hplaced,fun later' q older' he => ?_,fun later' q older' he hk j h1 hj => ?_,fun q hq => ?_⟩
  · cases later' with
    | nil =>
      cases he
      exact ⟨hs.path,hs.indices,hs.tags⟩
    | cons q' later' =>
      have ho : older=later'++q::older' := (List.cons.inj he).2
      exact h.saved (later++r::later') q older' (by rw [ho,append_assoc,cons_append])
  · rw [hbuf]
    cases later' with
    | nil =>
      cases he
      rw [update_of_ne (by dsimp only; omega)]
      exact hout j h1 hj
    | cons q' later' =>
      have ho : older=later'++q::older' := (List.cons.inj he).2
      have hall : later++r::older=later++r::later'++q::older' := by
        rw [ho,append_assoc,cons_append]
      have hpeak:=h.peak q (by rw [hall]; exact mem_append_right _ (mem_cons_self ..))
      have hlen:=congrArg List.length hall
      simp only [length_append,length_cons] at hlen hpeak
      have hne : r.info.ptGhist≠q.info.ptGhist+j := by
        obtain ⟨hr,hrest⟩:=h.placed.append
        rw [ho] at hr hrest
        rw [Kept] at hk
        rw [hr]
        exact hrest.next_ne hz (by omega) hj
      rw [update_of_ne hne.symm]
      exact h.window (later++r::later') q older' hall hk j h1 hj
  · have hlen : ({r with taken := taken}::older).length≤(later++r::older).length := by
      rw [length_append,length_cons,length_cons]
      omega
    rcases mem_cons.mp hq with rfl | hq
    · exact hlen.trans (h.peak r (mem_append_right _ (mem_cons_self ..)))
    · exact hlen.trans (h.peak q (mem_append_right _ (mem_cons_of_mem _ hq)))

theorem Sound.squash (hz : Sizes tage) (h : Sound tage t (later++r::older)) (hk : Kept tage later r older) (taken : Bool) :
    Sound tage (tage.squash t taken r.info) ({r with taken := taken}::older) := by
  rw [TAGEBase.squash,if_pos hz.speculative]
  let t0 : ThreadHistory := {t with pathHist := r.info.pathHist, ptGhist := r.info.ptGhist, gHist := r.info.ptGhist}
  have hreg : Registers tage t0 := ⟨h.registers.indices,h.registers.tags0,h.registers.tags1⟩
  exact h.refold hz hreg rfl rfl rfl rfl taken (h.window later r older rfl hk)

theorem Sound.btbUpdate (hz : Sizes tage) (h : Sound tage t (r::older)) :
    ∃ t', tage.btbUpdate t r.info = .ok t' ∧ Sound tage t' ({r with taken := false}::older) := by
  have hp : t.ptGhist=r.info.ptGhist := h.top
  have hg:=h.shows.newest
  refine ⟨tage.refold t false r.info,by rw [TAGEBase.btbUpdate,if_pos hz.speculative,if_pos hg],?_⟩
  have h' : Sound tage t ([]++r::older) := h
  refine h'.refold hz h.registers (hg.trans hp) hp ?_ rfl false fun j h1 hj => ?_
  · exact h.shows.path.trans (h.saved [] r older rfl).path.symm
  · rw [← hp,← hg,h.shows.outcome j hj,outcomes_cons]
    obtain ⟨i,rfl⟩:=Nat.exists_eq_add_of_le' h1
    rfl

theorem Sound.behind (hz : Sizes tage) (h : Sound tage t live) (taken : Bool) {j : ℕ} (h1 : 1≤j) (hj : j≤tage.maxHist) :
    (tage.updateGHist t taken).globalHistory (below tage t.ptGhist+j)=outcomes live (j-1) := by
  have hbuf:=hz.buffer
  rw [← h.shows.outcome (j-1) (by omega),h.shows.newest,(updateGHist_buffer h.shows.newest taken).2.2,
    if_neg (by omega),below]
  by_cases h0 : t.ptGhist=0
  · rw [if_pos h0,if_pos h0,rollOver_eq hz,if_pos (by omega),h0]
    exact congrArg t.globalHistory (by omega)
  · rw [if_neg h0,if_neg h0]
    exact congrArg t.globalHistory (by omega)

theorem Sound.window_updateGHist (hz : Sizes tage) (h : Sound tage t (later++r::older)) (taken : Bool)
    (hn : later.length+1<tage.histBufferSize-2*tage.maxHist) {j : ℕ} (hj : j≤tage.maxHist) :
    (tage.updateGHist t taken).globalHistory (r.info.ptGhist+j)=t.globalHistory (r.info.ptGhist+j) := by
  have hne : below tage t.ptGhist≠r.info.ptGhist+j := by
    rw [h.top]
    exact h.placed.next_ne hz hn hj
  rw [(updateGHist_buffer h.shows.newest taken).2.2,if_neg hne.symm]
  by_cases h0 : t.ptGhist=0
  · have hfar:=h.placed.lt_copy hz hn (h.top.symm.trans h0) hj
    rw [if_pos h0,rollOver_eq hz,if_neg (by omega)]
  · rw [if_neg h0]

theorem Saved.deepen {n : ℕ} (h : Saved tage r older) : Saved tage {r with peak := max r.peak n} (deepen n older) := by
  refine ⟨?_,?_,?_⟩
  · show r.info.pathHist=tage.updatePath (tage.path (Branch.deepen n older)) r.pathbit
    rw [path_deepen]
    exact h.path
  · rw [outcomes_deepen]
    exact h.indices
  · rw [outcomes_deepen]
    exact h.tags

theorem Sound.saved_save (h : Sound tage t live) {t2 : ThreadHistory} (bi : BranchInfo) (taken b : Bool) (n : ℕ)
    (hpath : t2.pathHist=tage.updatePath (tage.path live) b) (hind : t2.computeIndices=t.computeIndices)
    (htag : t2.computeTags=t.computeTags) : Saved tage ⟨tage.save t2 bi,taken,b,n⟩ live := by
  refine ⟨hpath,fun i h1 hi => ?_,fun i h1 hi => ?_⟩
  · rw [← h.shows.indices i h1 hi,← hind]
    exact if_pos ⟨h1,hi⟩
  · rw [← (h.shows.tags i h1 hi).1,← (h.shows.tags i h1 hi).2,← htag]
    exact ⟨if_pos ⟨h1,hi⟩,if_pos ⟨h1,hi⟩⟩

theorem Sound.updateHistories (hz : Sizes tage) (h : Sound tage t live) (branchPc : BitVec 64) (taken : Bool)
    (bi : BranchInfo) : ∃ t' bi', tage.updateHistories t branchPc taken bi true = .ok (t',bi') ∧
      Sound tage t' (⟨bi',taken,tage.pathbit branchPc,live.length+1⟩::deepen (live.length+1) live) := by
  obtain ⟨hpt,hg,hbuffer⟩:=updateGHist_buffer h.shows.newest taken
  obtain ⟨hgpath,hgind,hgtag⟩:=updateGHist_frame tage t taken
  let t1:=tage.updateGHist t taken
  let t2 : ThreadHistory := {t1 with pathHist := tage.updatePath t1.pathHist (tage.pathbit branchPc)}
  let bi':=tage.save t2 bi
  have hind : t2.computeIndices=t.computeIndices := hgind
  have htag : t2.computeTags=t.computeTags := hgtag
  have hpath : t2.pathHist=tage.updatePath (tage.path live) (tage.pathbit branchPc) := by
    rw [← h.shows.path,← hgpath]
  have hgp : t2.gHist=t2.ptGhist := hg.trans hpt.symm
  have hsaved : Saved tage ⟨bi',taken,tage.pathbit branchPc,live.length+1⟩ live :=
    h.saved_save bi taken _ _ hpath hind htag
  refine ⟨tage.updateFolded t2,bi',?_,?_⟩
  · rw [TAGEBase.updateHistories,if_neg (by rw [hz.speculative]; exact not_not_intro rfl)]
    exact if_pos hgp
  have hreg : Registers tage t2 := ⟨by rw [hind]; exact h.registers.indices,by rw [htag]; exact h.registers.tags0,
    by rw [htag]; exact h.registers.tags1⟩
  have hout : ∀ j≤tage.maxHist, t2.globalHistory (t2.gHist+j)=push taken (outcomes live) j := by
    intro j hj
    rw [show t2.gHist=below tage t.ptGhist from hg]
    cases j with
    | zero => exact (hbuffer _).trans (if_pos rfl)
    | succ j => exact h.behind hz taken (by omega) hj
  obtain ⟨hshows,hregs⟩ : Shows tage (tage.updateFolded t2)
      (⟨bi',taken,tage.pathbit branchPc,live.length+1⟩::deepen (live.length+1) live) ∧
      Registers tage (tage.updateFolded t2) := shows_updateFolded hz hreg
    (by rw [hind]; exact h.shows.indices) (by rw [htag]; exact h.shows.tags) hgp hout
    (by rw [outcomes_cons,outcomes_deepen]) (by rw [hpath,path,path_deepen])
  have hplaced : Placed tage (⟨bi',taken,tage.pathbit branchPc,live.length+1⟩::deepen (live.length+1) live) :=
    ⟨hpt.trans (by rw [top_deepen,h.top]),placed_deepen _ _ h.placed⟩
  refine ⟨hshows,hregs,rfl,hplaced,fun later q older he => ?_,fun later q older he hk j h1 hj => ?_,fun q hq => ?_⟩
  · cases later with
    | nil =>
      cases he
      refine ⟨by rw [path,path_deepen]; exact hpath,?_,?_⟩
      · rw [outcomes_deepen]
        exact hsaved.indices
      · rw [outcomes_deepen]
        exact hsaved.tags
    | cons q' later =>
      have he : deepen (live.length+1) live=later++q::older := (List.cons.inj he).2
      obtain ⟨later0,q0,older0,hl,_,rfl,rfl⟩:=deepen_split he
      exact (h.saved later0 q0 older0 hl).deepen
  · cases later with
    | nil =>
      cases he
      rw [outcomes_deepen,show bi'.ptGhist=below tage t.ptGhist from hpt]
      exact h.behind hz taken h1 hj
    | cons q' later =>
      have he : deepen (live.length+1) live=later++q::older := (List.cons.inj he).2
      obtain ⟨later0,q0,older0,hl,hlen,rfl,rfl⟩:=deepen_split he
      rw [Kept,deepen_length] at hk
      dsimp only at hk ⊢
      have hlive:=congrArg List.length hl
      rw [length_append,length_cons] at hlive
      have hk0 : Kept tage [] q0 older0 := by
        rw [Kept]
        omega
      rw [outcomes_deepen,← h.window later0 q0 older0 hl hk0 j h1 hj]
      rw [hl] at h
      exact h.window_updateGHist hz taken (by omega) hj
  · rw [length_cons,deepen_length]
    rcases mem_cons.mp hq with rfl | hq
    · exact le_rfl
    · obtain ⟨q0,_,rfl⟩:=mem_map.mp hq
      exact Nat.le_max_right ..

theorem Run.sound (hz : Sizes tage) (hr : Run tage (Kept tage) t live) : Sound tage t live := by
  induction hr with
  | init => exact sound_init tage
  | @record t t' live branchPc taken bi bi' hr hs ih =>
    obtain ⟨u,bu,hu,hsound⟩:=ih.updateHistories hz branchPc taken bi
    cases hs.symm.trans hu
    exact hsound
  | btb hr hs ih =>
    obtain ⟨u,hu,hsound⟩:=ih.btbUpdate hz
    cases hs.symm.trans hu
    exact hsound
  | squash taken hr hk ih => exact ih.squash hz hk taken

/-- While no branch is squashed to after the buffer has lost what it is restored from, the histories are those of
the live branches, and no assertion fires. -/
theorem histories_shown (hz : Sizes tage) (hr : Run tage (Kept tage) t live) :
    Shows tage t live ∧
      (∀ branchPc taken bi, ∃ t' bi', tage.updateHistories t branchPc taken bi true = .ok (t',bi')) ∧
      ∀ r older, live=r::older → ∃ t', tage.btbUpdate t r.info = .ok t' := by
  have h:=hr.sound hz
  refine ⟨h.shows,fun branchPc taken bi => ?_,fun r older he => ?_⟩
  · obtain ⟨t',bi',ht',_⟩:=h.updateHistories hz branchPc taken bi
    exact ⟨t',bi',ht'⟩
  · subst he
    obtain ⟨t',ht',_⟩:=h.btbUpdate hz
    exact ⟨t',ht'⟩

def small : TAGEBase := ⟨1,4,1,1,0,fun _ => 1,fun _ => 2,fun _ => 3,true⟩

theorem small_sizes : Sizes small := by
  have hi : 1≤2 ∧ 2≤31 := by decide
  have ht : 1≤2 ∧ 3≤31 := by decide
  exact ⟨rfl,by decide,fun _ _ _ => le_rfl,fun _ _ _ => hi,fun _ _ _ => ht⟩

theorem histories_shown_two : ∃ t live, live.length=1 ∧ Shows small t live ∧ outcomes live 0=true := by
  obtain ⟨_,hrec,_⟩:=histories_shown small_sizes (.init : Run small (Kept small) small.init [])
  obtain ⟨t1,bi1,h₁⟩:=hrec 0 false .new
  have hr1 : Run small (Kept small) _ _ := Run.init.record h₁
  obtain ⟨_,hrec,_⟩:=histories_shown small_sizes hr1
  obtain ⟨t2,bi2,h2⟩:=hrec 0 true .new
  have hr2 : Run small (Kept small) t2 ([_]++_::[]) := hr1.record h2
  have hr3:=hr2.squash true (show 2<3 by decide)
  obtain ⟨hshows,_⟩:=histories_shown small_sizes hr3
  exact ⟨_,_,rfl,hshows,rfl⟩

/-- A squashed branch is the one whose outcome is written over what an older branch is restored from. -/
theorem near_not_shown : ¬∀ (tage : TAGEBase) (t : ThreadHistory) (live : List Recorded),
    Sizes tage → Run tage (Near tage) t live → Shows tage t live := by
  intro hall
  have hr0 : Run small (Near small) small.init [] := .init
  have hr1:=hr0.record (rfl : small.updateHistories small.init 0 false .new true = .ok (_,_))
  have hr2:=hr1.record (rfl : small.updateHistories _ 0 false .new true = .ok (_,_))
  have hr3:=hr2.record (rfl : small.updateHistories _ 0 false .new true = .ok (_,_))
  have hr4:=hr3.record (rfl : small.updateHistories _ 0 false .new true = .ok (_,_))
  have hr5 : Run small (Near small) _ ([_]++_::_) :=
    hr4.record (rfl : small.updateHistories _ 0 true .new true = .ok (_,_))
  have hr6 : Run small (Near small) _ ([_]++_::_) := hr5.squash false (by rw [Near]; decide)
  have hr7:=hr6.squash false (by rw [Near]; decide)
  -- the outcome before the newest one was not taken, and is read as taken
  have hout:=(hall _ _ _ small_sizes hr7).outcome 1 le_rfl
  exact absurd hout (by decide)

end TAGEBase

end AquaGem5.Branch
