import AquaGem5.Lib.Dyadic
import AquaGem5.StackDist.Calc
import Mathlib.Tactic.Ring

/-! # Partial sums along the way to the root -/

namespace AquaGem5.StackDist
open Checked Dyadic

def Closed (n : ℕ) (S : Finset ℕ) (l k : ℕ) : Prop := (k+1)*2^l≤n ∧ count S l k=0

structure Fits (n depth : ℕ) (S : Finset ℕ) (l k : ℕ) (nd : Node) : Prop where
  nodeIndex : nd.nodeIndex=k
  isLeftNode : nd.isLeftNode=(k%2 == 0)
  parent : nd.parent=if l+1=depth then none else some (l+2,k/2)
  sumLeft : nd.sumLeft=count S l (2*k)
  sumRight : nd.sumRight=count S l (2*k+1)
  discardLeft : nd.discardLeft=true → Closed n S l (2*k)
  discardRight : nd.discardRight=true → Closed n S l (2*k+1)

structure Sound (n : ℕ) (size : ℕ → ℕ) (T : ℕ → Finset ℕ) (t : Tree) : Prop where
  depth_pos : 0<t.depth
  layer : ∀ l k,t.layer l k=if (t.heap (l,k)).isSome then some (l,k) else none
  nextIndex : ∀ l<t.depth,t.nextIndex (l+1)=(size (l+1)-1)/2^(l+1)+1
  node : ∀ l k nd,l<t.depth → k<t.nextIndex (l+1) → t.heap (l+1,k)=some nd → Fits n t.depth (T l) l k nd
  gone : ∀ l k,l<t.depth → k<t.nextIndex (l+1) → t.heap (l+1,k)=none → Closed n (T l) (l+1) k
  root : (t.heap (t.depth,0)).isSome
  top : ∀ l k,t.depth<l → t.heap (l,k)=none

def Leaves (L : Finset ℕ) (mark : ℕ → Bool) (t : Tree) : Prop :=
  ∀ i∈L,∃ nd,t.heap (0,i)=some nd ∧ nd.isMarked=mark i ∧ nd.isLeftNode=(i%2 == 0) ∧ nd.parent=some (1,i/2)

def upTo (m : ℕ) (S' S : Finset ℕ) (l : ℕ) : Finset ℕ := if l < m then S' else S

theorem oneShl_of_lt {n : ℕ} (h : n<31) : oneShl n = .ok (2^n) := if_pos h

theorem notNull_some (q : Ptr) : notNull (some q) = .ok q := rfl

namespace Tree

variable {t : Tree} {q r : Ptr} {nd : Node} {l l' k k' : ℕ} {p : Option Ptr}

theorem deref_eq (h : t.heap q=some nd) : t.deref q = .ok nd := by rw [deref,h]

theorem put_layer (t : Tree) (l k : ℕ) (p : Option Ptr) (l' k' : ℕ) :
    (t.put l k p).layer l' k'=if l'=l ∧ k'=k then p else t.layer l' k' := by
  unfold put
  by_cases hl : l'=l
  · subst hl
    by_cases hk : k'=k
    · subst hk
      simp
    · simp [hk]
  · simp [hl]

theorem update_heap (heap : Ptr → Option Node) (l k : ℕ) (o : Option Node) (l' k' : ℕ) :
    Function.update heap (l,k) o (l',k')=if l'=l ∧ k'=k then o else heap (l',k') := by
  rw [Function.update_apply]
  by_cases h : l'=l ∧ k'=k
  · rw [if_pos h,if_pos (Prod.ext h.1 h.2)]
  · rw [if_neg h,if_neg fun heq => h ⟨congrArg Prod.fst heq,congrArg Prod.snd heq⟩]

theorem store_heap (t : Tree) (l k : ℕ) (nd : Node) (l' k' : ℕ) :
    (t.store (l,k) nd).heap (l',k')=if l'=l ∧ k'=k then some nd else t.heap (l',k') :=
  update_heap t.heap l k (some nd) l' k'

theorem delete_heap (t : Tree) (l k : ℕ) (l' k' : ℕ) :
    (t.delete (l,k)).heap (l',k')=if l'=l ∧ k'=k then none else t.heap (l',k') :=
  update_heap t.heap l k none l' k'

section WriteBack

variable (t) (q) (l) (nd) (unused : Bool)

@[simp] theorem writeBack_depth : (t.writeBack q l nd unused).depth=t.depth := by cases unused <;> rfl

@[simp] theorem writeBack_nextIndex : (t.writeBack q l nd unused).nextIndex=t.nextIndex := by
  cases unused <;> rfl

theorem writeBack_heap (m k l' k' : ℕ) : (t.writeBack (m,k) l nd unused).heap (l',k') =
    if l'=m ∧ k'=k then if unused then none else some nd else t.heap (l',k') := by
  cases unused with
  | false => exact store_heap t m k nd l' k'
  | true =>
    have hdeleted : (t.writeBack (m,k) l nd true).heap (l',k')=((t.store (m,k) nd).delete (m,k)).heap (l',k') := rfl
    rw [hdeleted,delete_heap,store_heap]
    by_cases hr : l'=m ∧ k'=k <;> simp [hr]

theorem writeBack_layer (l' k' : ℕ) : (t.writeBack q l nd unused).layer l' k' =
    if unused ∧ l'=l ∧ k'=nd.nodeIndex then none else t.layer l' k' := by
  cases unused with
  | false => simp [writeBack,store]
  | true =>
    have hput : (t.writeBack q l nd true).layer l' k'=(((t.store q nd).delete q).put l nd.nodeIndex none).layer l' k' := rfl
    rw [hput,put_layer]
    simp [store,delete]

end WriteBack

end Tree

section Path

variable {n depth : ℕ} {S S' : Finset ℕ} {i l k m : ℕ} {nd : Node} {discardNode : Bool}

theorem Closed.mono {n' : ℕ} (h : Closed n S l k) (hn : n≤n') : Closed n' S l k := ⟨h.1.trans hn,h.2⟩

theorem Closed.join (hleft : Closed n S l (2*k)) (hright : Closed n S l (2*k+1)) : Closed n S (l+1) k := by
  refine ⟨?_,by rw [count_succ,hleft.2,hright.2]⟩
  have hfull:=hright.1
  have hsize : (2*k+1+1)*2^l=(k+1)*2^(l+1) := by
    rw [Nat.pow_succ]
    ring
  omega

theorem Closed.congr (hoff : ∀ j,j≠i → (j∈S' ↔ j∈S)) (hk : i/2^l≠k) (h : Closed n S l k) :
    Closed n S' l k := ⟨h.1,by rw [count_congr hoff hk,h.2]⟩

theorem not_closed (hlive : i∈S ∨ n ≤ i) (l : ℕ) : ¬Closed n S l (i/2^l) := by
  intro h
  rcases hlive with hi | hi
  · have hpos:=count_pos hi l
    have hzero:=h.2
    omega
  · have hlt:=lt_block (i := i) (m := l) rfl
    have hfull:=h.1
    omega

theorem Fits.congr (hoff : ∀ j,j≠i → (j∈S' ↔ j∈S)) (hk : i/2^(l+1)≠k) (h : Fits n depth S l k nd) :
    Fits n depth S' l k nd := by
  rw [div_succ] at hk
  have hleft : i/2^l≠2*k := by omega
  have hright : i/2^l≠2*k+1 := by omega
  exact {
    nodeIndex := h.nodeIndex
    isLeftNode := h.isLeftNode
    parent := h.parent
    sumLeft := by rw [count_congr hoff hleft,h.sumLeft]
    sumRight := by rw [count_congr hoff hright,h.sumRight]
    discardLeft := fun hd => (h.discardLeft hd).congr hoff hleft
    discardRight := fun hd => (h.discardRight hd).congr hoff hright}

theorem Fits.arrive (hoff : ∀ j,j≠i → (j∈S' ↔ j∈S)) (hlive : i∈S ∨ n ≤ i)
    (h : Fits n depth S m (i/2^(m+1)) nd) (hdiscard : discardNode=true → Closed n S' m (i/2^m)) :
    Fits n depth S' m (i/2^(m+1)) (nd.arrive (i/2^m%2 == 0) (count S' m (i/2^m)) discardNode) := by
  have hopen:=not_closed hlive m
  obtain ⟨hindex,hisLeft,hparent,hsumLeft,hsumRight,hdiscardLeft,hdiscardRight⟩:=h
  by_cases heven : i/2^m%2=0
  · have hblock : i/2^m=2*(i/2^(m+1)) := by rw [div_succ]; omega
    have hother : i/2^m≠2*(i/2^(m+1))+1 := by omega
    have hfrom : (i/2^m%2 == 0)=true := by simpa using heven
    rw [hfrom,Node.arrive,if_pos rfl]
    rw [← hblock] at hdiscardLeft
    exact {
      nodeIndex := hindex
      isLeftNode := hisLeft
      parent := hparent
      sumLeft := by rw [← hblock]
      sumRight := hsumRight.trans (count_congr hoff hother).symm
      discardLeft := by
        intro hd
        rcases (Bool.or_eq_true _ _).mp hd with hold | hnew
        · exact (hopen (hdiscardLeft hold)).elim
        · rw [← hblock]
          exact hdiscard ((Bool.and_eq_true _ _).mp hnew).1
      discardRight := fun hd => (hdiscardRight hd).congr hoff hother}
  · have hblock : i/2^m=2*(i/2^(m+1))+1 := by rw [div_succ]; omega
    have hother : i/2^m≠2*(i/2^(m+1)) := by omega
    have hfrom : (i/2^m%2 == 0)=false := by simpa using heven
    rw [hfrom,Node.arrive,if_neg (by simp)]
    rw [← hblock] at hdiscardRight
    exact {
      nodeIndex := hindex
      isLeftNode := hisLeft
      parent := hparent
      sumLeft := hsumLeft.trans (count_congr hoff hother).symm
      sumRight := by rw [← hblock]
      discardLeft := fun hd => (hdiscardLeft hd).congr hoff hother
      discardRight := by
        intro hd
        rcases (Bool.or_eq_true _ _).mp hd with hold | hnew
        · exact (hopen (hdiscardRight hold)).elim
        · rw [← hblock]
          exact hdiscard ((Bool.and_eq_true _ _).mp hnew).1}

theorem Fits.sum (h : Fits n depth S m k nd) : nd.sumLeft+nd.sumRight=count S (m+1) k := by
  rw [count_succ,h.sumLeft,h.sumRight]

theorem Fits.unused (h : Fits n depth S m k nd) {sumFromBelow : ℕ} (hunused : nd.unused sumFromBelow discardNode=true) :
    Closed n S (m+1) k ∧ m+1≠depth := by
  simp only [Node.unused,Bool.and_eq_true] at hunused
  obtain ⟨⟨⟨⟨hleft,hright⟩,_⟩,hparent⟩,_⟩:=hunused
  refine ⟨(h.discardLeft hleft).join (h.discardRight hright),?_⟩
  intro heq
  rw [h.parent,if_pos heq] at hparent
  simp at hparent

theorem Fits.checkSums (verifyStack : Bool) (h : Fits n depth S m k nd) (hm : m<31) :
    checkSums verifyStack nd (m+1) = .ok () := by
  unfold StackDist.checkSums
  cases verifyStack with
  | false => rfl
  | true =>
    have hleft : nd.sumLeft≤2^m := h.sumLeft ▸ count_le S m _
    have hright : nd.sumRight≤2^m := h.sumRight ▸ count_le S m _
    simp only [if_true,Nat.add_sub_cancel,oneShl_of_lt hm,bind,Except.bind,check,if_pos hleft,if_pos hright]

theorem Fits.dist (h : Fits n depth S m (i/2^(m+1)) nd) :
    (if (i/2^m%2 == 0)=true then after S i m+nd.sumRight else after S i m)=after S i (m+1) := by
  by_cases heven : i/2^m%2=0
  · have hblock : i/2^m=2*(i/2^(m+1)) := by rw [div_succ]; omega
    rw [if_pos (by simpa using heven),after_succ_left S heven,h.sumRight,hblock]
  · rw [if_neg (by simpa using heven),after_succ_right S heven]

end Path

theorem upTo_ne {l m : ℕ} {S' S : Finset ℕ} (h : l≠m) : upTo (m+1) S' S l=upTo m S' S l := by
  unfold upTo
  have hiff : l < m+1 ↔ l < m := by omega
  simp only [hiff]

theorem upTo_new (m : ℕ) (S' S : Finset ℕ) : upTo (m+1) S' S m=S' := if_pos (Nat.lt_succ_self m)

theorem upTo_old {l m : ℕ} (h : m≤l) (S' S : Finset ℕ) : upTo m S' S l=S := if_neg (by omega)

namespace Sound

variable {n : ℕ} {size : ℕ → ℕ} {T T' : ℕ → Finset ℕ} {t : Tree}

theorem congr (h : Sound n size T t) (hT : ∀ l<t.depth,T' l=T l) : Sound n size T' t where
  depth_pos := h.depth_pos
  layer := h.layer
  nextIndex := h.nextIndex
  node := by
    intro l k nd hl hk hnd
    rw [hT l hl]
    exact h.node l k nd hl hk hnd
  gone := by
    intro l k hl hk hnone
    rw [hT l hl]
    exact h.gone l k hl hk hnone
  root := h.root
  top := h.top

section Path

variable {S S' : Finset ℕ} {i m sz : ℕ}

theorem lt_nextIndex (h : Sound n (fun _ => sz) T t) (hi : i<sz) {l : ℕ} (hl : l<t.depth) :
    i/2^(l+1)<t.nextIndex (l+1) := by
  rw [h.nextIndex l hl]
  exact Nat.lt_succ_of_le (Nat.div_le_div_right (by omega))

theorem exists_node (h : Sound n (fun _ => sz) T t) (hi : i<sz) {l : ℕ} (hl : l<t.depth)
    (hlive : i∈T l ∨ n ≤ i) : ∃ nd,t.heap (l+1,i/2^(l+1))=some nd := by
  cases hnode : t.heap (l+1,i/2^(l+1)) with
  | some nd => exact ⟨nd,rfl⟩
  | none => exact (not_closed hlive (l+1) (h.gone l _ hl (h.lt_nextIndex hi hl) hnode)).elim

variable (hoff : ∀ j,j≠i → (j∈S' ↔ j∈S))

include hoff in
theorem writeBack {nd : Node} (h : Sound n (fun _ => sz) (upTo m S' S) t) (sumFromBelow : ℕ) (discardNode : Bool)
    (hm : m<t.depth) (hthere : (t.heap (m+1,i/2^(m+1))).isSome) (hnd : Fits n t.depth S' m (i/2^(m+1)) nd) :
    Sound n (fun _ => sz) (upTo (m+1) S' S)
      (t.writeBack (m+1,i/2^(m+1)) (m+1) nd (nd.unused sumFromBelow discardNode)) where
  depth_pos := by
    rw [Tree.writeBack_depth]
    exact h.depth_pos
  layer := by
    intro l k
    rw [Tree.writeBack_layer,Tree.writeBack_heap,h.layer,hnd.nodeIndex]
    by_cases hlk : l=m+1 ∧ k=i/2^(m+1)
    · cases hunused : nd.unused sumFromBelow discardNode with
      | true => simp [hlk]
      | false =>
        simp [hlk,hthere]
    · simp [hlk]
  nextIndex := by
    rw [Tree.writeBack_depth,Tree.writeBack_nextIndex]
    exact h.nextIndex
  node := by
    intro l k nd' hl hk hget
    rw [Tree.writeBack_depth] at hl ⊢
    rw [Tree.writeBack_nextIndex] at hk
    rw [Tree.writeBack_heap] at hget
    by_cases hlm : l=m
    · subst hlm
      rw [upTo_new]
      by_cases hki : k=i/2^(l+1)
      · subst hki
        rw [if_pos ⟨rfl,rfl⟩] at hget
        split at hget
        · cases hget
        · rw [← Option.some.inj hget]
          exact hnd
      · rw [if_neg (fun hc => hki hc.2)] at hget
        have hfits:=h.node l k nd' hl hk hget
        rw [upTo_old (Nat.le_refl l)] at hfits
        exact hfits.congr hoff fun hc => hki hc.symm
    · rw [if_neg (by omega)] at hget
      rw [upTo_ne hlm]
      exact h.node l k nd' hl hk hget
  gone := by
    intro l k hl hk hget
    rw [Tree.writeBack_depth] at hl
    rw [Tree.writeBack_nextIndex] at hk
    rw [Tree.writeBack_heap] at hget
    by_cases hlm : l=m
    · subst hlm
      rw [upTo_new]
      by_cases hki : k=i/2^(l+1)
      · subst hki
        rw [if_pos ⟨rfl,rfl⟩] at hget
        split at hget
        · rename_i hunused
          exact (hnd.unused hunused).1
        · cases hget
      · rw [if_neg (fun hc => hki hc.2)] at hget
        have hclosed:=h.gone l k hl hk hget
        rw [upTo_old (Nat.le_refl l)] at hclosed
        exact hclosed.congr hoff fun hc => hki hc.symm
    · rw [if_neg (by omega)] at hget
      rw [upTo_ne hlm]
      exact h.gone l k hl hk hget
  root := by
    rw [Tree.writeBack_depth,Tree.writeBack_heap]
    split
    · rename_i heq
      cases hunused : nd.unused sumFromBelow discardNode with
      | false => rfl
      | true => exact ((hnd.unused hunused).2 heq.1.symm).elim
    · exact h.root
  top := by
    intro l k hl
    rw [Tree.writeBack_depth] at hl
    rw [Tree.writeBack_heap,if_neg (by omega)]
    exact h.top l k hl

include hoff in
theorem updateSum_step (verifyStack discardNode : Bool) (h : Sound n (fun _ => sz) (upTo m S' S) t) (hi : i<sz)
    (hlive : i∈S ∨ n ≤ i) (hlow : m<31) (hm : m<t.depth)
    (hdiscard : discardNode=true → Closed n S' m (i/2^m)) (fuel : ℕ) :
    ∃ t' discard',Sound n (fun _ => sz) (upTo (m+1) S' S) t' ∧ t'.depth=t.depth ∧ t'.nextIndex=t.nextIndex ∧
      (∀ j,t'.heap (0,j)=t.heap (0,j)) ∧ (discard'=true → Closed n S' (m+1) (i/2^(m+1))) ∧
      t.updateSum verifyStack (fuel+1) (some (m+1,i/2^(m+1))) (i/2^m%2 == 0) (count S' m (i/2^m)) m
          (after S' i m) discardNode=if m+1=t.depth then .ok (t',after S' i (m+1))
        else t'.updateSum verifyStack fuel (some (m+2,i/2^(m+2))) (i/2^(m+1)%2 == 0)
          (count S' (m+1) (i/2^(m+1))) (m+1) (after S' i (m+1)) discard' := by
  obtain ⟨old,hget⟩:=h.exists_node hi hm (by rwa [upTo_old (Nat.le_refl m)])
  have hold:=h.node m _ old hm (h.lt_nextIndex hi hm) hget
  rw [upTo_old (Nat.le_refl m)] at hold
  have hnew:=hold.arrive hoff hlive hdiscard
  have hcheck:=hold.checkSums verifyStack hlow
  have hdist:=hnew.dist
  have hsum:=hnew.sum
  have hunused : (old.arrive (i/2^m%2 == 0) (count S' m (i/2^m)) discardNode).unused (count S' m (i/2^m))
      discardNode=true → Closed n S' (m+1) (i/2^(m+1)) := fun hu => (hnew.unused hu).1
  have hthere : (t.heap (m+1,i/2^(m+1))).isSome := by rw [hget]; rfl
  have hsound:=h.writeBack hoff (count S' m (i/2^m)) discardNode hm hthere hnew
  refine ⟨_,_,hsound,Tree.writeBack_depth ..,Tree.writeBack_nextIndex ..,?_,hunused,?_⟩
  · intro j
    rw [Tree.writeBack_heap,if_neg (by omega)]
  · rw [Tree.updateSum]
    simp only [notNull_some,Tree.deref_eq hget,hcheck,bind,Except.bind,hdist,hsum,hnew.isLeftNode,hnew.parent]
    by_cases hroot : m+1=t.depth
    · rw [if_pos hroot,if_pos hroot]
      rfl
    · rw [if_neg hroot,if_neg hroot,div_succ i (m+1)]
      rfl

include hoff in
theorem updateSum (verifyStack : Bool) (hi : i<sz) (hlive : i∈S ∨ n ≤ i) (fuel : ℕ) :
    ∀ {m t} discardNode,Sound n (fun _ => sz) (upTo m S' S) t → t.depth≤31 → m+(fuel+1)=t.depth →
      (discardNode=true → Closed n S' m (i/2^m)) →
      ∃ t',Sound n (fun _ => sz) (fun _ => S') t' ∧ t'.depth=t.depth ∧ t'.nextIndex=t.nextIndex ∧
        (∀ j,t'.heap (0,j)=t.heap (0,j)) ∧
        t.updateSum verifyStack (fuel+1) (some (m+1,i/2^(m+1))) (i/2^m%2 == 0) (count S' m (i/2^m)) m
          (after S' i m) discardNode = .ok (t',after S' i t.depth) := by
  induction fuel with
  | zero =>
    intro m t discardNode h hdepth hfuel hdiscard
    have hm : m<t.depth := by omega
    obtain ⟨t',_,hsound,hdepth',hnext,hleaf,_,hstep⟩ :=
      h.updateSum_step hoff verifyStack discardNode hi hlive (by omega) hm hdiscard 0
    have hroot : m+1=t.depth := by omega
    rw [if_pos hroot] at hstep
    refine ⟨t',hsound.congr ?_,hdepth',hnext,hleaf,by rw [hstep,hroot]⟩
    intro l hl
    rw [upTo,if_pos (by omega)]
  | succ fuel ih =>
    intro m t discardNode h hdepth hfuel hdiscard
    have hm : m<t.depth := by omega
    obtain ⟨t1,discard1,hsound,hdepth1,hnext1,hleaf1,hclosed,hstep⟩ :=
      h.updateSum_step hoff verifyStack discardNode hi hlive (by omega) hm hdiscard (fuel+1)
    rw [if_neg (by omega)] at hstep
    obtain ⟨t2,hsound2,hdepth2,hnext2,hleaf2,hrest⟩:=ih discard1 hsound (by omega) (by omega) hclosed
    rw [hstep,hrest]
    refine ⟨t2,hsound2,hdepth2.trans hdepth1,hnext2.trans hnext1,?_,by rw [hdepth1]⟩
    intro j
    rw [hleaf2,hleaf1]

include hoff in
theorem updateSum_shift (hi : i<sz) (hlive : i∈S ∨ n ≤ i) (steps : ℕ) :
    ∀ {m t} discardNode fuel,Sound n (fun _ => sz) (upTo m S' S) t → 31<t.depth → m+steps=31 →
      (discardNode=true → Closed n S' m (i/2^m)) →
      t.updateSum true (fuel+steps+1) (some (m+1,i/2^(m+1))) (i/2^m%2 == 0) (count S' m (i/2^m)) m
        (after S' i m) discardNode = .error .shift := by
  induction steps with
  | zero =>
    intro m t discardNode fuel h hdepth hm _
    obtain ⟨old,hget⟩:=h.exists_node (l := m) hi (by omega) (by rwa [upTo_old (Nat.le_refl m)])
    have hcheck : checkSums true old (m+1) = .error .shift := by
      rw [checkSums,if_pos rfl,Nat.add_sub_cancel,oneShl,if_neg (by omega)]
      rfl
    rw [Tree.updateSum]
    simp only [notNull_some,Tree.deref_eq hget,hcheck,bind,Except.bind]
  | succ steps ih =>
    intro m t discardNode fuel h hdepth hm hdiscard
    obtain ⟨t1,discard1,hsound,hdepth1,_,_,hclosed,hstep⟩ :=
      h.updateSum_step hoff true discardNode hi hlive (by omega) (by omega) hdiscard (fuel+steps+1)
    rw [if_neg (by omega)] at hstep
    exact hstep.trans (ih discard1 fuel hsound (by omega) (by omega) hclosed)

theorem getSum (h : Sound n (fun _ => sz) (fun _ => S) t) (hi : i<sz) (hlive : i∈S) (fuel : ℕ) :
    ∀ {m} sumFromBelow level,m+(fuel+1)=t.depth →
      t.getSum (fuel+1) (some (m+1,i/2^(m+1))) (i/2^m%2 == 0) sumFromBelow (after S i m) level =
        .ok (after S i t.depth) := by
  induction fuel with
  | zero =>
    intro m sumFromBelow level hfuel
    have hm : m<t.depth := by omega
    obtain ⟨nd,hget⟩:=h.exists_node hi hm (.inl hlive)
    have hnd:=h.node m _ nd hm (h.lt_nextIndex hi hm) hget
    have hroot : m+1=t.depth := by omega
    simp only [Tree.getSum,notNull_some,Tree.deref_eq hget,bind,Except.bind,hnd.dist,hnd.parent,if_pos hroot]
    rw [hroot]
    rfl
  | succ fuel ih =>
    intro m sumFromBelow level hfuel
    have hm : m<t.depth := by omega
    obtain ⟨nd,hget⟩:=h.exists_node hi hm (.inl hlive)
    have hnd:=h.node m _ nd hm (h.lt_nextIndex hi hm) hget
    have hroot : ¬m+1=t.depth := by omega
    have hrest:=ih (nd.sumLeft+nd.sumRight) (level+1) (m := m+1) (by omega)
    rw [Tree.getSum]
    simp only [notNull_some,Tree.deref_eq hget,bind,Except.bind,hnd.dist,hnd.parent,if_neg hroot,hnd.isLeftNode]
    rw [div_succ i (m+1)] at hrest
    exact hrest

theorem climb (h : Sound n (fun _ => sz) (fun _ => S) t) (hi : i<sz) (hlive : i∈S) (steps : ℕ) :
    ∀ {m},m+1+steps=t.depth →
      StackDistCalc.climb t steps (some (m+1,i/2^(m+1))) = .ok (some (t.depth,i/2^t.depth)) := by
  induction steps with
  | zero =>
    intro m hm
    have hroot : m+1=t.depth := by omega
    rw [hroot]
    rfl
  | succ steps ih =>
    intro m hm
    have hlt : m<t.depth := by omega
    obtain ⟨nd,hget⟩:=h.exists_node hi hlt (.inl hlive)
    have hnd:=h.node m _ nd hlt (h.lt_nextIndex hi hlt) hget
    have hroot : ¬m+1=t.depth := by omega
    have hparent : nd.parent=some (m+2,i/2^(m+2)) := by rw [hnd.parent,if_neg hroot,← div_succ]
    have hrest:=ih (m := m+1) (by omega)
    rw [StackDistCalc.climb]
    simp only [notNull_some,Tree.deref_eq hget,bind,Except.bind,hparent,check,Option.isSome_some,if_true]
    exact hrest

end Path

end Sound

end AquaGem5.StackDist
