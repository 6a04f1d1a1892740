import AquaGem5.StackDist.Sums

/-! # Growth of the tree -/

namespace AquaGem5.StackDist
open Checked Dyadic Nat Function

def sizeFrom (n i l : ℕ) : ℕ := if i<l then n+1 else n

def Tight (n depth : ℕ) : Prop := n≤2^depth ∧ (2^(depth-1)<n ∨ depth=1)

namespace Tree

structure SameLeaves (t t' : Tree) : Prop where
  heap : ∀ j,t'.heap (0,j)=t.heap (0,j)
  nextIndex : t'.nextIndex 0=t.nextIndex 0

theorem SameLeaves.trans {t t' t'' : Tree} (h : SameLeaves t t') (h' : SameLeaves t' t'') : SameLeaves t t'' where
  heap := fun j => (h'.heap j).trans (h.heap j)
  nextIndex := h'.nextIndex.trans h.nextIndex

section Create

variable (t : Tree) (l k : ℕ) (nd : Node) (l' k' : ℕ)

theorem create_heap : (t.create l k nd).heap (l',k') =
    if l'=l ∧ k'=t.nextIndex l then some nd else t.heap (l',k') := store_heap t l (t.nextIndex l) nd l' k'

theorem create_layer : (t.create l k nd).layer l' k' =
    if l'=l ∧ k'=k then some (l,t.nextIndex l) else t.layer l' k' :=
  put_layer (t.store (l,t.nextIndex l) nd) l k (some (l,t.nextIndex l)) l' k'

theorem create_nextIndex : (t.create l k nd).nextIndex l'=if l'=l then t.nextIndex l+1 else t.nextIndex l' :=
  update_apply t.nextIndex l (t.nextIndex l+1) l'

@[simp] theorem create_depth : (t.create l k nd).depth=t.depth := rfl

theorem sameLeaves_create (hl : l≠0) : SameLeaves t (t.create l k nd) where
  heap := by
    intro j
    rw [create_heap,if_neg (by omega)]
  nextIndex := by rw [create_nextIndex,if_neg hl.symm]

end Create

section AddRoot

variable (t : Tree) (old : Node) (l k : ℕ)

@[simp] theorem addRoot_depth (q : Ptr) : (t.addRoot q old).depth=t.depth+1 := rfl

theorem addRoot_heap : (t.addRoot (t.depth,0) old).heap (l,k) =
    if l=t.depth ∧ k=0 then some {old with parent := some (t.depth+1,0)}
    else if l=t.depth+1 ∧ k=0 then some {Node.init with
      sumLeft := old.sumRight+old.sumLeft
      discardLeft := old.discardLeft&&old.discardRight}
    else t.heap (l,k) := by
  rw [addRoot]
  simp only [store_heap,create_heap,update_self]

theorem addRoot_layer (q : Ptr) : (t.addRoot q old).layer l k =
    if l=t.depth+1 then if k=0 then some (t.depth+1,0) else none else t.layer l k := by
  have hcreate : (t.addRoot q old).layer l k=update (update t.layer (t.depth+1) fun _ => none)
      (t.depth+1) (update (update t.layer (t.depth+1) (fun _ => none) (t.depth+1)) 0
        (some (t.depth+1,update t.nextIndex (t.depth+1) 0 (t.depth+1)))) l k := rfl
  rw [hcreate]
  by_cases hl : l=t.depth+1
  · subst hl
    simp [update_apply]
  · simp [hl]

theorem addRoot_nextIndex (q : Ptr) : (t.addRoot q old).nextIndex l=if l=t.depth+1 then 1 else t.nextIndex l := by
  have hcreate : (t.addRoot q old).nextIndex l=update (update t.nextIndex (t.depth+1) 0)
      (t.depth+1) (update t.nextIndex (t.depth+1) 0 (t.depth+1)+1) l := rfl
  rw [hcreate]
  by_cases hl : l=t.depth+1
  · subst hl
    simp
  · simp [hl]

end AddRoot

end Tree

namespace Fits

variable {n depth l k : ℕ} {S : Finset ℕ} {nd old : Node}

theorem raise (h : Fits n depth S l k nd) (hl : l+1<depth) : Fits n (depth+1) S l k nd where
  nodeIndex := h.nodeIndex
  isLeftNode := h.isLeftNode
  parent := by rw [h.parent,if_neg (by omega),if_neg (by omega)]
  sumLeft := h.sumLeft
  sumRight := h.sumRight
  discardLeft := h.discardLeft
  discardRight := h.discardRight

theorem under (h : Fits n (l+1) S l 0 old) : Fits n (l+1+1) S l 0 {old with parent := some (l+1+1,0)} where
  nodeIndex := h.nodeIndex
  isLeftNode := h.isLeftNode
  parent := by rw [if_neg (by omega)]
  sumLeft := h.sumLeft
  sumRight := h.sumRight
  discardLeft := h.discardLeft
  discardRight := h.discardRight

theorem above (h : Fits n (l+1) S l 0 old) (hS : ∀ j∈S,j<n) (hfull : n=2^(l+1)) :
    Fits n (l+1+1) S (l+1) 0 {Node.init with
      sumLeft := old.sumRight+old.sumLeft
      discardLeft := old.discardLeft&&old.discardRight} where
  nodeIndex := rfl
  isLeftNode := rfl
  parent := by rw [if_pos rfl]; rfl
  sumLeft := by rw [Nat.add_comm,h.sum]
  sumRight := (count_of_bound hS (by omega)).symm
  discardLeft := by
    intro hboth
    obtain ⟨hleft,hright⟩:=(Bool.and_eq_true _ _).mp hboth
    exact (h.discardLeft hleft).join (h.discardRight hright)
  discardRight := fun hd => (by cases hd)

end Fits

theorem isPowerOf2_iff (n : ℕ) : isPowerOf2 n=true ↔ ∃ d,n=2^d := by
  have hiff:=ne_zero_and_sub_one_eq_zero_iff_isPowerOfTwo (n := n)
  simpa [isPowerOf2,isPowerOfTwo] using hiff

namespace Sound

variable {n : ℕ} {size size' : ℕ → ℕ} {T : ℕ → Finset ℕ} {S : Finset ℕ} {t : Tree} {l : ℕ} {nd : Node}

theorem resize (h : Sound n size T t)
    (hsize : ∀ l<t.depth,(size' (l+1)-1)/2^(l+1)=(size (l+1)-1)/2^(l+1)) : Sound n size' T t where
  depth_pos := h.depth_pos
  layer := h.layer
  nextIndex := by
    intro l hl
    rw [hsize l hl]
    exact h.nextIndex l hl
  node := h.node
  gone := h.gone
  root := h.root
  top := h.top

theorem create (h : Sound n size T t) (hl : l<t.depth) (hnd : Fits n t.depth (T l) l (t.nextIndex (l+1)) nd)
    (hnew : (size' (l+1)-1)/2^(l+1)=t.nextIndex (l+1))
    (hsize : ∀ l'<t.depth,l'≠l → (size' (l'+1)-1)/2^(l'+1)=(size (l'+1)-1)/2^(l'+1)) :
    Sound n size' T (t.create (l+1) (t.nextIndex (l+1)) nd) where
  depth_pos := h.depth_pos
  layer := by
    intro l' k'
    rw [Tree.create_layer,Tree.create_heap,h.layer]
    by_cases hlk : l'=l+1 ∧ k'=t.nextIndex (l+1)
    · simp [hlk]
    · rw [if_neg hlk,if_neg hlk]
  nextIndex := by
    intro l' hl'
    rw [Tree.create_nextIndex]
    by_cases hll : l'=l
    · rw [hll,if_pos rfl,hnew]
    · rw [if_neg (by omega),hsize l' hl' hll]
      exact h.nextIndex l' hl'
  node := by
    intro l' k' nd' hl' hk hget
    rw [Tree.create_nextIndex] at hk
    rw [Tree.create_heap] at hget
    by_cases hlk : l'+1=l+1 ∧ k'=t.nextIndex (l+1)
    · obtain ⟨hll,hkk⟩:=hlk
      obtain rfl : l'=l := by omega
      rw [if_pos ⟨hll,hkk⟩] at hget
      rw [hkk,← Option.some.inj hget]
      exact hnd
    · rw [if_neg hlk] at hget
      refine h.node l' k' nd' hl' ?_ hget
      split at hk
      · rename_i hll
        rw [hll] at hlk ⊢
        omega
      · exact hk
  gone := by
    intro l' k' hl' hk hget
    rw [Tree.create_nextIndex] at hk
    rw [Tree.create_heap] at hget
    by_cases hlk : l'+1=l+1 ∧ k'=t.nextIndex (l+1)
    · rw [if_pos hlk] at hget
      cases hget
    · rw [if_neg hlk] at hget
      refine h.gone l' k' hl' ?_ hget
      split at hk
      · rename_i hll
        rw [hll] at hlk ⊢
        omega
      · exact hk
  root := by
    rw [Tree.create_depth,Tree.create_heap]
    split
    · rfl
    · exact h.root
  top := by
    intro l' k' hl'
    rw [Tree.create_depth] at hl'
    rw [Tree.create_heap,if_neg (by omega)]
    exact h.top l' k' hl'

section Grow

variable {i : ℕ} (hS : ∀ j∈S,j<n)

include hS in
theorem newINode (h : Sound n (sizeFrom n (i+1)) (fun _ => S) t) (hi : i+1<t.depth) (hpos : 0<n)
    (hdvd : 2^(i+1)∣n) : Sound n (sizeFrom n i) (fun _ => S) (t.newINode (i+1)) := by
  have hmul : n/2^(i+1)*2^(i+1)=n := Nat.div_mul_cancel hdvd
  have hindex : t.nextIndex (i+1)=n/2^(i+1) := by
    have hsucc:=Nat.succ_div (a := n-1) (b := 2^(i+1))
    rw [Nat.sub_add_cancel hpos,if_pos hdvd] at hsucc
    rw [h.nextIndex i (by omega),sizeFrom,if_neg (by omega),hsucc]
  have habove : t.nextIndex (i+1+1)=n/2^(i+2)+1 := by
    rw [h.nextIndex (i+1) hi,sizeFrom,if_pos (by omega),Nat.add_sub_cancel]
  have hparent : t.layer (i+1+1) (t.nextIndex (i+1+1)-1)=some (i+2,n/2^(i+1)/2) := by
    rw [habove,Nat.add_sub_cancel,h.layer,div_succ n (i+1)]
    cases hget : t.heap (i+1+1,n/2^(i+1)/2) with
    | some nd => rfl
    | none =>
      have hclosed:=h.gone (i+1) (n/2^(i+1)/2) hi
        (by rw [habove,div_succ n (i+1)]; exact lt_succ_self _) hget
      rw [← div_succ] at hclosed
      exact (not_closed (.inr (le_refl n)) (i+2) hclosed).elim
  have hsplit : n/2^(i+1)*2^(i+1)=2*(n/2^(i+1))*2^i := by
    rw [pow_succ]
    ring
  have hfits : Fits n t.depth S i (t.nextIndex (i+1)) {Node.init with
      isLeftNode := t.nextIndex (i+1)%2 == 0
      parent := t.layer (i+1+1) (t.nextIndex (i+1+1)-1)
      nodeIndex := t.nextIndex (i+1)} := {
    nodeIndex := rfl
    isLeftNode := rfl
    parent := by rw [if_neg (by omega),hparent,hindex]
    sumLeft := (count_of_bound hS (by rw [hindex]; omega)).symm
    sumRight := (count_of_bound hS (by rw [hindex,Nat.add_mul]; omega)).symm
    discardLeft := fun hd => (by cases hd)
    discardRight := fun hd => (by cases hd)}
  refine h.create (by omega) hfits ?_ ?_
  · rw [sizeFrom,if_pos (by omega),hindex,Nat.add_sub_cancel]
  · intro l hl hne
    have hiff : i<l+1 ↔ i+1<l+1 := by omega
    simp only [sizeFrom,hiff]

theorem skipINode (h : Sound n (sizeFrom n (i+1)) (fun _ => S) t) (hpos : 0<n) (hdvd : ¬2^(i+1)∣n) :
    Sound n (sizeFrom n i) (fun _ => S) t := by
  apply h.resize
  intro l hl
  by_cases hli : l=i
  · have hsucc:=Nat.succ_div (a := n-1) (b := 2^(i+1))
    rw [Nat.sub_add_cancel hpos,if_neg hdvd] at hsucc
    rw [hli,sizeFrom,sizeFrom,if_pos (by omega),if_neg (by omega),Nat.add_sub_cancel,hsucc,add_zero]
  · have hiff : i<l+1 ↔ i+1<l+1 := by omega
    simp only [sizeFrom,hiff]

include hS in
theorem chain (hpos : 0<n) (i : ℕ) : ∀ {t},Sound n (sizeFrom n i) (fun _ => S) t → i<t.depth → 2^i∣n →
      Sound n (sizeFrom n 0) (fun _ => S) (t.chain i) ∧ (t.chain i).depth=t.depth ∧ t.SameLeaves (t.chain i) := by
  induction i with
  | zero =>
    intro t h _ _
    exact ⟨h,rfl,fun _ => rfl,rfl⟩
  | succ i ih =>
    intro t h hi hdvd
    have hnode:=h.newINode hS hi hpos hdvd
    have hlow : 2^i∣n := (pow_dvd_pow 2 (le_succ i)).trans hdvd
    have hi' : i<(t.newINode (i+1)).depth := lt_of_succ_lt hi
    obtain ⟨hsound,hdepth,hsame⟩:=ih hnode hi' hlow
    exact ⟨hsound,hdepth,(Tree.sameLeaves_create t (i+1) _ _ (by omega)).trans hsame⟩

include hS in
theorem addINodes (i : ℕ) : ∀ {t},Sound n (sizeFrom n i) (fun _ => S) t → i<t.depth → i<31 → 0<n ∨ i=0 →
      ∃ t',t.addINodes n i = .ok t' ∧ Sound n (sizeFrom n 0) (fun _ => S) t' ∧ t'.depth=t.depth ∧
        t.SameLeaves t' := by
  induction i with
  | zero =>
    intro t h _ _ _
    exact ⟨t,rfl,h,rfl,fun _ => rfl,rfl⟩
  | succ i ih =>
    intro t h hi hlt hpos
    have hn : 0<n := by omega
    rw [Tree.addINodes,oneShl_of_lt hlt]
    simp only [bind,Except.bind]
    by_cases hmod : n%2^(i+1)=0
    · have hnode:=h.newINode hS hi hn (dvd_of_mod_eq_zero hmod)
      have hi' : i<(t.newINode (i+1)).depth := lt_of_succ_lt hi
      obtain ⟨t',hrun,hsound,hdepth,hsame⟩:=ih hnode hi' (by omega) (.inl hn)
      rw [if_pos hmod]
      exact ⟨t',hrun,hsound,hdepth,(Tree.sameLeaves_create t (i+1) _ _ (by omega)).trans hsame⟩
    · have hskip:=h.skipINode hn fun hdvd => hmod (mod_eq_zero_of_dvd hdvd)
      rw [if_neg hmod]
      exact ih hskip (by omega) (by omega) (.inl hn)

theorem nextIndex_depth (h : Sound n (fun _ => n) (fun _ => S) t) (hfull : n=2^t.depth) : t.nextIndex t.depth=1 := by
  have hpow:=Nat.two_pow_pos t.depth
  obtain ⟨d,hd⟩:=Nat.exists_eq_add_of_le' h.depth_pos
  rw [hd,h.nextIndex d (by omega),← hd,Nat.div_eq_of_lt (by omega)]

theorem addRoot_cases (h : Sound n (fun _ => n) (fun _ => S) t) (hfull : n=2^t.depth) {old : Node} {k : ℕ}
    (hl : l<t.depth+1) (hk : k<(t.addRoot (t.depth,0) old).nextIndex (l+1)) :
    (l+1=t.depth ∧ k=0 ∧
      (t.addRoot (t.depth,0) old).heap (l+1,k)=some {old with parent := some (t.depth+1,0)}) ∨
    (l=t.depth ∧ k=0 ∧ (t.addRoot (t.depth,0) old).heap (l+1,k)=some {Node.init with
      sumLeft := old.sumRight+old.sumLeft
      discardLeft := old.discardLeft&&old.discardRight}) ∨
    (l+1<t.depth ∧ k<t.nextIndex (l+1) ∧
      (t.addRoot (t.depth,0) old).heap (l+1,k)=t.heap (l+1,k)) := by
  rw [Tree.addRoot_nextIndex] at hk
  rw [Tree.addRoot_heap]
  by_cases hlast : l+1=t.depth+1
  · rw [if_pos hlast] at hk
    obtain rfl : k=0 := by omega
    rw [if_neg (by omega),if_pos ⟨hlast,rfl⟩]
    exact .inr (.inl ⟨by omega,rfl,rfl⟩)
  rw [if_neg hlast] at hk
  by_cases hroot : l+1=t.depth
  · rw [hroot,h.nextIndex_depth hfull] at hk
    obtain rfl : k=0 := by omega
    rw [if_pos ⟨hroot,rfl⟩]
    exact .inl ⟨hroot,rfl,rfl⟩
  · rw [if_neg fun he => hroot he.1,if_neg fun he => hlast he.1]
    exact .inr (.inr ⟨by omega,hk,rfl⟩)

include hS in
theorem addRoot (h : Sound n (fun _ => n) (fun _ => S) t) (hfull : n=2^t.depth) {old : Node}
    (hget : t.heap (t.depth,0)=some old) : Sound n (sizeFrom n t.depth) (fun _ => S) (t.addRoot (t.depth,0) old) := by
  obtain ⟨d,hd⟩:=Nat.exists_eq_add_of_le' h.depth_pos
  have hold : Fits n (d+1) S d 0 old := by
    rw [← hd]
    apply h.node d 0 old (by omega)
    · rw [← hd,h.nextIndex_depth hfull]
      omega
    · rw [← hd]
      exact hget
  exact {
    depth_pos := succ_pos _
    layer := by
      intro l k
      rw [Tree.addRoot_layer,Tree.addRoot_heap,h.layer]
      by_cases hl : l=t.depth+1
      · subst hl
        by_cases hk : k=0
        · simp [hk]
        · simp [hk,h.top (t.depth+1) k (lt_succ_self _)]
      · by_cases hlk : l=t.depth ∧ k=0
        · obtain ⟨rfl,rfl⟩:=hlk
          simp [hget]
        · simp [hl,hlk]
    nextIndex := by
      intro l hl
      rw [Tree.addRoot_nextIndex]
      by_cases hlast : l+1=t.depth+1
      · have hsmall : n<2^(t.depth+1) := by
          rw [hfull]
          exact Nat.pow_lt_pow_succ (by omega)
        rw [if_pos hlast,hlast,sizeFrom,if_pos (lt_succ_self _),Nat.add_sub_cancel,Nat.div_eq_of_lt hsmall]
      · have hlt : l<t.depth := by
          rw [Tree.addRoot_depth] at hl
          omega
        rw [if_neg hlast,sizeFrom,if_neg (by omega),h.nextIndex l hlt]
    node := by
      intro l k nd hl hk hnd
      rcases h.addRoot_cases hfull hl hk with ⟨hl',rfl,hheap⟩ | ⟨rfl,rfl,hheap⟩ | ⟨hl',hk',hheap⟩
      · obtain rfl : l=d := by omega
        rw [← Option.some.inj (hheap.symm.trans hnd),Tree.addRoot_depth,hd]
        exact hold.under
      · rw [← Option.some.inj (hheap.symm.trans hnd),Tree.addRoot_depth,hd]
        exact hold.above hS (hd ▸ hfull)
      · exact (h.node l k nd (by omega) hk' (hheap.symm.trans hnd)).raise hl'
    gone := by
      intro l k hl hk hnone
      rcases h.addRoot_cases hfull hl hk with ⟨_,_,hheap⟩ | ⟨_,_,hheap⟩ | ⟨hl',hk',hheap⟩
      · cases hheap.symm.trans hnone
      · cases hheap.symm.trans hnone
      · exact h.gone l k (by omega) hk' (hheap.symm.trans hnone)
    root := by
      rw [Tree.addRoot_depth,Tree.addRoot_heap,if_neg (by omega),if_pos ⟨rfl,rfl⟩]
      rfl
    top := by
      intro l k hl
      rw [Tree.addRoot_depth] at hl
      rw [Tree.addRoot_heap,if_neg (by omega),if_neg (by omega)]
      exact h.top l k (by omega)}

include hS in
theorem raise (h : Sound n (fun _ => n) (fun _ => S) t) (hfull : n=2^t.depth) :
    ∃ rooted,t.newRoot = .ok rooted ∧ rooted.depth=t.depth+1 ∧
      Sound n (sizeFrom n 0) (fun _ => S) (rooted.chain t.depth) ∧ (rooted.chain t.depth).depth=t.depth+1 ∧
      t.SameLeaves (rooted.chain t.depth) := by
  obtain ⟨old,hget⟩:=Option.isSome_iff_exists.mp h.root
  have hlayer : t.layer t.depth 0=some (t.depth,0) := by
    rw [h.layer,hget]
    rfl
  have hn : 0<n := by
    rw [hfull]
    exact Nat.two_pow_pos _
  have hpos:=h.depth_pos
  have hsame : t.SameLeaves (t.addRoot (t.depth,0) old) := {
    heap := by
      intro j
      rw [Tree.addRoot_heap,if_neg (by omega),if_neg (by omega)]
    nextIndex := by rw [Tree.addRoot_nextIndex,if_neg (by omega)]}
  obtain ⟨hsound,hdepth,hsame'⟩ :=
    (h.addRoot hS hfull hget).chain hS hn t.depth (lt_succ_self _) (by rw [hfull])
  refine ⟨t.addRoot (t.depth,0) old,?_,rfl,hsound,hdepth,hsame.trans hsame'⟩
  rw [Tree.newRoot,hlayer]
  simp only [notNull_some,Tree.deref_eq hget,bind,Except.bind]

end Grow

end Sound

theorem Tight.depth_le {n depth : ℕ} (h : Tight n depth) (hn : n≤2^31) : depth≤31 := by
  rcases h.2 with hlt | hone
  · have hpow : 2^(depth-1)<2^31 := by omega
    have hexp:=(Nat.pow_lt_pow_iff_right (by omega : 1<2)).mp hpow
    omega
  · omega

theorem Tight.eq_pow {d depth : ℕ} (h : Tight (2^d) depth) (hdepth : 0<depth) (heven : 2^d%2=0) : d=depth := by
  have hle : d≤depth := (Nat.pow_le_pow_iff_right (by omega : 1<2)).mp h.1
  have hpos : d≠0 := by
    intro hzero
    rw [hzero] at heven
    omega
  rcases h.2 with hlt | hone
  · have hexp:=(Nat.pow_lt_pow_iff_right (by omega : 1<2)).mp hlt
    omega
  · omega

theorem Tight.succ {n depth : ℕ} (h : Tight n depth) (hne : n≠2^depth) : Tight (n+1) depth := by
  have hle:=h.1
  refine ⟨by omega,h.2.imp_left fun hlt => by omega⟩

theorem Sound.updateTree {n : ℕ} {S : Finset ℕ} {t : Tree} (h : Sound n (fun _ => n) (fun _ => S) t)
    (hS : ∀ j∈S,j<n) (htight : Tight n t.depth) (heven : n%2=0) (hn : n≤2^31) :
    ∃ t',t.updateTree n = .ok t' ∧ Sound n (fun _ => n+1) (fun _ => S) t' ∧ Tight (n+1) t'.depth ∧ t.SameLeaves t' := by
  have hroom : ∀ t' : Tree,Sound n (sizeFrom n 0) (fun _ => S) t' → Sound n (fun _ => n+1) (fun _ => S) t' := by
    intro t' h'
    apply h'.resize
    intro l _
    rw [sizeFrom,if_pos (succ_pos l)]
  unfold Tree.updateTree
  by_cases hpow : isPowerOf2 n=true
  · obtain ⟨d,hd⟩:=(isPowerOf2_iff n).mp hpow
    obtain rfl:=Tight.eq_pow (hd ▸ htight) h.depth_pos (hd ▸ heven)
    obtain ⟨rooted,hroot,hdepth,hsound,hdepth',hsame⟩:=h.raise hS hd
    rw [if_pos hpow,hroot]
    simp only [bind,Except.bind,hdepth,Nat.add_sub_cancel]
    refine ⟨_,rfl,hroom _ hsound,?_,hsame⟩
    rw [hdepth',hd]
    have hpos:=Nat.two_pow_pos t.depth
    refine ⟨by rw [pow_succ]; omega,.inl ?_⟩
    rw [Nat.add_sub_cancel]
    exact lt_succ_self _
  · have hne : n≠2^t.depth := fun hd => hpow ((isPowerOf2_iff n).mpr ⟨_,hd⟩)
    have htight':=htight.succ hne
    have hless : n≠2^31 := fun hd => hpow ((isPowerOf2_iff n).mpr ⟨31,hd⟩)
    have hdepth:=htight'.depth_le (by omega)
    have hpos:=h.depth_pos
    have hstart : Sound n (sizeFrom n (t.depth-1)) (fun _ => S) t := by
      apply h.resize
      intro l hl
      by_cases hlast : t.depth-1<l+1
      · have hroot : l+1=t.depth := by omega
        have hle:=htight.1
        rw [sizeFrom,if_pos hlast,hroot,Nat.add_sub_cancel,Nat.div_eq_of_lt (by omega),Nat.div_eq_of_lt (by omega)]
      · rw [sizeFrom,if_neg hlast]
    have hmany : 0<n ∨ t.depth-1=0 := by
      rcases htight.2 with hlt | hone
      · exact .inl (lt_of_le_of_lt (zero_le _) hlt)
      · exact .inr (by omega)
    obtain ⟨t',hrun,hsound,hdepth',hsame⟩:=hstart.addINodes hS (t.depth-1) (by omega) (by omega) hmany
    rw [if_neg hpow]
    exact ⟨t',hrun,hroom t' hsound,hdepth' ▸ htight',hsame⟩

theorem Sound.room {n : ℕ} {S : Finset ℕ} {t : Tree} (h : Sound n (fun _ => n) (fun _ => S) t)
    (htight : Tight n t.depth) (hodd : n%2≠0) : Sound n (fun _ => n+1) (fun _ => S) t ∧ Tight (n+1) t.depth := by
  constructor
  · apply h.resize
    intro l _
    have hdvd : ¬2^(l+1)∣n := by
      intro hdvd
      have htwo : 2∣n := (Dvd.intro_left (2^l) (pow_succ ..).symm).trans hdvd
      omega
    have hsucc:=Nat.succ_div (a := n-1) (b := 2^(l+1))
    rw [Nat.sub_add_cancel (by omega),if_neg hdvd] at hsucc
    rw [Nat.add_sub_cancel,hsucc,add_zero]
  · apply htight.succ
    intro heq
    have htwo : 2∣n := by
      rw [heq]
      exact dvd_pow_self 2 (ne_of_gt h.depth_pos)
    omega

end AquaGem5.StackDist
