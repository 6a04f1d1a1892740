import AquaGem5.Lib.Ancestors
import AquaGem5.Lib.Rounding

/-!
# Tree pseudo-LRU (tree_plru_rp.cc)

A tree holds its inner nodes only, from the root at the index 0. The index of an entry is the one its leaf would have.
-/

namespace AquaGem5.Cache.TreePlru
open Ancestors Function List Nat

/-- The policy; `num_leaves` is an `int`. -/
structure TreePLRURP where
  numLeaves : ℕ
  pow : numLeaves.isPowerOfTwo
  lt : numLeaves<2^31

abbrev PLRUTree : Type := List Bool

inductive Fault where
  | outOfRange
  | assertion
  /-- The rounds given to a loop were too few. -/
  | running
  deriving DecidableEq

/-- The trees are known by the order of their allocation, from 1. -/
structure TreePLRUReplData where
  index : ℕ
  tree : ℕ
  deriving DecidableEq

structure State where
  count : ℕ
  treeInstance : ℕ
  trees : ℕ → PLRUTree

/-- `std::floor` of an integer returns a `double`. -/
def parentIndex (index : ℕ) : ℕ := roundBits 53 ((index+(2^64-1))%2^64/2)

def leftSubtreeIndex (index : ℕ) : ℕ := (2*index+1)%2^64

def rightSubtreeIndex (index : ℕ) : ℕ := (2*index+2)%2^64

def isRightSubtree (index : ℕ) : Bool := decide (index%2=0)

def walkUp (mark : Bool → Bool) : ℕ → PLRUTree → ℕ → Except Fault PLRUTree
  | 0,_,_ => .error .running
  | rounds+1,tree,tree_index =>
    let right := isRightSubtree tree_index
    let tree_index := parentIndex tree_index
    if tree_index<tree.length then
      let tree := tree.set tree_index (mark right)
      if tree_index≠0 then walkUp mark rounds tree tree_index else .ok tree
    else .error .outOfRange

def walkDown : ℕ → PLRUTree → ℕ → Except Fault ℕ
  | 0,_,_ => .error .running
  | rounds+1,tree,tree_index =>
    if tree_index<tree.length then
      match tree[tree_index]? with
      | some true => walkDown rounds tree (rightSubtreeIndex tree_index)
      | some false => walkDown rounds tree (leftSubtreeIndex tree_index)
      | none => .error .outOfRange
    else .ok tree_index

namespace State

variable (rounds : ℕ) (s : State) (replacement_data : TreePLRUReplData)

def setTree (t : ℕ) (tree : PLRUTree) : State := {s with trees := Function.update s.trees t tree}

@[simp] theorem setTree_trees (t : ℕ) (tree : PLRUTree) : (s.setTree t tree).trees t=tree := by
  simp only [setTree,update_self]

theorem setTree_trees_of_ne {t u : ℕ} (h : u≠t) (tree : PLRUTree) : (s.setTree t tree).trees u=s.trees u := by
  simp only [setTree,update_of_ne h]

def invalidate : Except Fault State :=
  (walkUp id rounds (s.trees replacement_data.tree) replacement_data.index).map (s.setTree replacement_data.tree)

def touch : Except Fault State :=
  (walkUp (!·) rounds (s.trees replacement_data.tree) replacement_data.index).map (s.setTree replacement_data.tree)

def reset : Except Fault State := s.touch rounds replacement_data

/-- The victim's place among the candidates, which the code reads without a check. -/
def getVictim (p : TreePLRURP) (candidates : List TreePLRUReplData) : Except Fault ℕ :=
  match candidates with
  | [] => .error .assertion
  | first::_ =>
    (walkDown rounds (s.trees first.tree) 0).map fun tree_index =>
      (tree_index+(2^64-(p.numLeaves-1)))%2^64

def newTree (p : TreePLRURP) : State :=
  {s.setTree (s.treeInstance+1) (List.replicate (p.numLeaves-1) false) with treeInstance := s.treeInstance+1}

def instantiateEntry (p : TreePLRURP) : TreePLRUReplData × State :=
  let s := if s.count%p.numLeaves=0 then s.newTree p else s
  (⟨s.count%p.numLeaves+p.numLeaves-1,s.treeInstance⟩,{s with count := (s.count+1)%2^64})

def init : State := ⟨0,0,fun _ => []⟩

end State

def bits (tree : PLRUTree) (m : ℕ) : Bool := (false::tree)[m]?.getD false

variable {tree : PLRUTree} {tree_index d k rounds : ℕ} {mark : Bool → Bool}

theorem bits_set (h : tree_index<tree.length) (b : Bool) :
    bits (tree.set tree_index b)=update (bits tree) (tree_index+1) b := by
  funext m
  rw [bits,← set_cons_succ,getElem?_set]
  by_cases hm : tree_index+1=m
  · subst hm
    rw [if_pos rfl,if_pos (by rw [length_cons]; omega),update_self]
    rfl
  · rw [if_neg hm,update_of_ne (Ne.symm hm)]
    rfl

theorem getElem?_bits (h : tree_index<tree.length) : tree[tree_index]?=some (bits tree (tree_index+1)) := by
  rw [bits,getElem?_cons_succ,getElem?_eq_getElem h]
  rfl

theorem isRightSubtree_eq (tree_index : ℕ) : isRightSubtree tree_index=isRight (tree_index+1) := by
  rw [isRightSubtree,isRight,decide_eq_decide]
  omega

theorem parentIndex_of_pos (hpos : 0<tree_index) (hlt : tree_index<2^53) :
    parentIndex tree_index=(tree_index-1)/2 := by
  have hwrap : (tree_index+(2^64-1))%2^64=tree_index-1 := by omega
  rw [parentIndex,hwrap]
  exact roundBits_of_lt (by omega) (by omega)

theorem parentIndex_add_one (h : AtDepth (k+1) (tree_index+1)) (hlt : tree_index<2^53) :
    parentIndex tree_index+1=(tree_index+1)/2 := by
  have hpos:=h.half.pos
  rw [parentIndex_of_pos (by omega) hlt]
  omega

theorem walkUp_round (rounds : ℕ) (mark : Bool → Bool) (hsize : tree.length+1=2^d) (hd : d≤52)
    (hindex : AtDepth (k+1) (tree_index+1)) (hk : k<d) :
    ∃ parent tree',parent+1=(tree_index+1)/2 ∧ tree'.length=tree.length ∧
      bits tree'=update (bits tree) ((tree_index+1)/2) (mark (isRight (tree_index+1))) ∧
      walkUp mark (rounds+1) tree tree_index=if parent≠0 then walkUp mark rounds tree' parent else .ok tree' := by
  have hpow : 2^d≤2^52 := Nat.pow_le_pow_right Nat.two_pos hd
  have hlevel : 2^(k+1)≤2^d := Nat.pow_le_pow_right Nat.two_pos hk
  have hhigh:=(atDepth_iff.mp hindex).2
  have hhalf:=(atDepth_iff.mp hindex.half).2
  rw [pow_succ] at hhigh
  have hparent:=parentIndex_add_one hindex (by omega)
  have hin : parentIndex tree_index<tree.length := by omega
  refine ⟨parentIndex tree_index,tree.set (parentIndex tree_index) (mark (isRightSubtree tree_index)),hparent,
    length_set,?_,?_⟩
  · rw [bits_set hin,isRightSubtree_eq,hparent]
  · rw [walkUp]
    exact if_pos hin

theorem walkUp_spec (hsize : tree.length+1=2^d) (hd : d≤52) (hindex : AtDepth (k+1) (tree_index+1))
    (hk : k<d) (hrounds : k<rounds) :
    ∃ tree',walkUp mark rounds tree tree_index = .ok tree' ∧ tree'.length=tree.length ∧
      Marked mark (k+1) (tree_index+1) (bits tree) (bits tree') := by
  induction rounds generalizing tree tree_index k with
  | zero => omega
  | succ rounds ih =>
    obtain ⟨parent,tree1,hparent,hlength,hbits,hwalk⟩:=walkUp_round rounds mark hsize hd hindex hk
    have hup : AtDepth k (parent+1) := hparent ▸ hindex.half
    have hmarked:=hindex.half.pos
    cases k with
    | zero =>
      have hroot : parent=0 := succ_inj.mp hup.root
      refine ⟨tree1,by rw [hwalk,hroot]; rfl,hlength,Marked.succ hmarked ?_⟩
      rw [hbits]
      exact Marked.zero _ _ _
    | succ k =>
      have hinner : parent≠0 := by
        have := (atDepth_iff.mp hup).1
        have := Nat.one_lt_two_pow (Nat.succ_ne_zero k)
        omega
      obtain ⟨tree',hrest,hlength',hmark⟩:=ih (by rw [hlength,hsize]) hup (by omega) (by omega)
      refine ⟨tree',by rw [hwalk,if_pos hinner,hrest],hlength'.trans hlength,Marked.succ hmarked ?_⟩
      rwa [← hbits,← hparent]

theorem walkDown_round (rounds : ℕ) (hin : tree_index<tree.length) (hsize : tree.length<2^53) :
    ∃ child,(child+1)/2=tree_index+1 ∧ isRight (child+1)=bits tree (tree_index+1) ∧
      walkDown (rounds+1) tree tree_index=walkDown rounds tree child := by
  have hbit:=getElem?_bits hin
  cases hright : bits tree (tree_index+1) with
  | false =>
    refine ⟨leftSubtreeIndex tree_index,?_,?_,by rw [walkDown,if_pos hin,hbit,hright]⟩
    · rw [leftSubtreeIndex]
      omega
    · rw [leftSubtreeIndex,isRight,decide_eq_false_iff_not]
      omega
  | true =>
    refine ⟨rightSubtreeIndex tree_index,?_,?_,by rw [walkDown,if_pos hin,hbit,hright]⟩
    · rw [rightSubtreeIndex]
      omega
    · rw [rightSubtreeIndex,isRight,decide_eq_true_eq]
      omega

theorem walkDown_spec (hsize : tree.length+1=2^d) (hd : d≤52) {j : ℕ} (hindex : AtDepth j (tree_index+1))
    (hk : j+k=d) (hrounds : k<rounds) :
    ∃ leaf,walkDown rounds tree tree_index = .ok leaf ∧ ancestor (leaf+1) k=tree_index+1 ∧
      ∀ l<k,Toward (bits tree) (leaf+1) l := by
  have hpow : 2^d≤2^52 := Nat.pow_le_pow_right Nat.two_pos hd
  obtain ⟨hlow,hhigh⟩:=atDepth_iff.mp hindex
  induction k generalizing tree_index rounds j with
  | zero =>
    obtain ⟨rounds,rfl⟩:=exists_eq_succ_of_ne_zero (Nat.ne_of_gt hrounds)
    rw [add_zero] at hk
    subst hk
    exact ⟨tree_index,by rw [walkDown,if_neg (by omega)],ancestor_zero _,fun l hl => absurd hl (not_lt_zero l)⟩
  | succ k ih =>
    obtain ⟨rounds,rfl⟩:=exists_eq_succ_of_ne_zero (Nat.ne_of_gt (zero_lt_of_lt hrounds))
    have hlevel : 2^(j+1)≤2^d := Nat.pow_le_pow_right Nat.two_pos (by omega)
    obtain ⟨child,hhalf,hright,hround⟩:=walkDown_round rounds (by omega : tree_index<tree.length) (by omega)
    have hchild : AtDepth (j+1) (child+1) := by rwa [AtDepth,ancestor_succ',hhalf]
    obtain ⟨hlow',hhigh'⟩:=atDepth_iff.mp hchild
    obtain ⟨leaf,hwalk,habove,htoward⟩:=ih hchild (by omega) (lt_of_succ_lt_succ hrounds) hlow' hhigh'
    have hup : ancestor (leaf+1) (k+1)=tree_index+1 := by rw [ancestor_succ,habove,hhalf]
    refine ⟨leaf,hround.trans hwalk,hup,fun l hl => ?_⟩
    rcases Nat.lt_succ_iff_lt_or_eq.mp hl with hl | rfl
    · exact htoward l hl
    · rw [Toward,hup,habove,hright]

namespace TreePLRURP

variable (p : TreePLRURP)

def leaf (t l : ℕ) : TreePLRUReplData := ⟨l+p.numLeaves-1,t⟩

def candidates (t : ℕ) : List TreePLRUReplData := (List.range p.numLeaves).map (p.leaf t)

def Sized (s : State) (t : ℕ) : Prop := (s.trees t).length=p.numLeaves-1

variable {p} {s s' : State} {d t l rounds : ℕ}

theorem exists_depth_succ (p : TreePLRURP) (h : 2≤p.numLeaves) : ∃ d,p.numLeaves=2^(d+1) := by
  obtain ⟨d,hd⟩:=p.pow
  cases d with
  | zero => rw [hd] at h; omega
  | succ d => exact ⟨d,hd⟩

theorem depth_lt (hd : p.numLeaves=2^d) : d<31 :=
  (Nat.pow_lt_pow_iff_right Nat.one_lt_two).mp (hd ▸ p.lt)

theorem Sized.length (hs : p.Sized s t) (hd : p.numLeaves=2^d) : (s.trees t).length+1=2^d := by
  have := Nat.two_pow_pos d
  rw [hs,hd]
  omega

theorem leaf_number (hd : p.numLeaves=2^d) : (p.leaf t l).index+1=l+2^d := by
  have := Nat.two_pow_pos d
  rw [show (p.leaf t l).index=l+p.numLeaves-1 from rfl,hd]
  omega

theorem leaf_atDepth (t : ℕ) (hd : p.numLeaves=2^d) (hl : l<p.numLeaves) : AtDepth d ((p.leaf t l).index+1) := by
  rw [hd] at hl
  rw [leaf_number hd,atDepth_iff,pow_succ]
  omega

theorem candidates_eq (p : TreePLRURP) (t : ℕ) : ∃ rest,p.candidates t=p.leaf t 0::rest := by
  obtain ⟨d,hd⟩:=p.pow
  obtain ⟨n,hn⟩:=Nat.exists_eq_add_one_of_ne_zero (Nat.ne_of_gt (hd ▸ Nat.two_pow_pos d : 0<p.numLeaves))
  exact ⟨_,by rw [candidates,hn,range_succ_eq_map,map_cons]⟩

theorem walkUp_leaf (mark : Bool → Bool) (hd : p.numLeaves=2^(d+1)) (hs : p.Sized s t) (hl : l<p.numLeaves)
    (hrounds : 31≤rounds) :
    ∃ tree',walkUp mark rounds (s.trees t) (p.leaf t l).index = .ok tree' ∧ tree'.length=p.numLeaves-1 ∧
      Marked mark (d+1) ((p.leaf t l).index+1) (bits (s.trees t)) (bits tree') := by
  have hdepth:=depth_lt hd
  obtain ⟨tree',hwalk,hlength,hmarked⟩ :=
    walkUp_spec (hs.length hd) (by omega) (leaf_atDepth t hd hl) (lt_succ_self d) (by omega : d<rounds)
  exact ⟨tree',hwalk,hlength.trans hs,hmarked⟩

theorem walkDown_root (hd : p.numLeaves=2^d) (hs : p.Sized s t) (hrounds : 31≤rounds) :
    ∃ leaf,walkDown rounds (s.trees t) 0 = .ok leaf ∧ AtDepth d (leaf+1) ∧
      ∀ k<d,Toward (bits (s.trees t)) (leaf+1) k := by
  have hdepth:=depth_lt hd
  exact walkDown_spec (hs.length hd) (by omega) (ancestor_zero 1) (zero_add d) (by omega : d<rounds)

theorem getVictim_spec (hd : p.numLeaves=2^d) (hs : p.Sized s t) (hrounds : 31≤rounds) :
    ∃ v<p.numLeaves,s.getVictim rounds p (p.candidates t) = .ok v ∧
      ∀ k<d,Toward (bits (s.trees t)) ((p.leaf t v).index+1) k := by
  have hdepth:=depth_lt hd
  obtain ⟨leaf,hwalk,hroot,htoward⟩:=walkDown_root hd hs hrounds
  obtain ⟨hlow,hhigh⟩:=atDepth_iff.mp hroot
  have hpow : 2^d≤2^30 := Nat.pow_le_pow_right Nat.two_pos (by omega)
  rw [pow_succ] at hhigh
  obtain ⟨rest,hcandidates⟩:=p.candidates_eq t
  refine ⟨leaf+1-2^d,by omega,?_,?_⟩
  · rw [hcandidates,State.getVictim,TreePLRURP.leaf,hwalk,hd]
    refine congrArg Except.ok ?_
    dsimp only
    omega
  · rw [leaf_number hd,Nat.sub_add_cancel hlow]
    exact htoward

end TreePLRURP

inductive Access where
  | touch (replacement_data : TreePLRUReplData)
  | reset (replacement_data : TreePLRUReplData)

namespace Access

def entry : Access → TreePLRUReplData
  | touch replacement_data => replacement_data
  | reset replacement_data => replacement_data

def run (rounds : ℕ) (s : State) : Access → Except Fault State
  | touch replacement_data => s.touch rounds replacement_data
  | reset replacement_data => s.reset rounds replacement_data

theorem run_eq (rounds : ℕ) (s : State) (a : Access) : a.run rounds s=s.touch rounds a.entry := by
  cases a <;> rfl

end Access

namespace TreePLRURP

variable {p : TreePLRURP} {s s' : State} {d t t' l l' rounds : ℕ}

theorem Sized.setTree {tree : PLRUTree} (hs : p.Sized s t) (htree : tree.length=p.numLeaves-1) :
    p.Sized (s.setTree t' tree) t := by
  rw [Sized]
  by_cases h : t=t'
  · rw [h,State.setTree_trees,htree]
  · rw [State.setTree_trees_of_ne s h,hs]

theorem invalidate_spec (hd : p.numLeaves=2^(d+1)) (hs : p.Sized s t) (hl : l<p.numLeaves) (hrounds : 31≤rounds) :
    ∃ s',s.invalidate rounds (p.leaf t l) = .ok s' ∧ (∀ u,p.Sized s u → p.Sized s' u) ∧
      Marked id (d+1) ((p.leaf t l).index+1) (bits (s.trees t)) (bits (s'.trees t)) := by
  obtain ⟨tree',hwalk,hlength,hmarked⟩:=walkUp_leaf id hd hs hl hrounds
  refine ⟨s.setTree t tree',congrArg (Except.map _) hwalk,fun u hu => hu.setTree hlength,?_⟩
  rwa [State.setTree_trees]

theorem touch_spec (hd : p.numLeaves=2^(d+1)) (hs : p.Sized s t) (hl : l<p.numLeaves) (hrounds : 31≤rounds) :
    ∃ s',s.touch rounds (p.leaf t l) = .ok s' ∧ (∀ u,p.Sized s u → p.Sized s' u) ∧ (∀ u,u≠t → s'.trees u=s.trees u) ∧
      Marked (!·) (d+1) ((p.leaf t l).index+1) (bits (s.trees t)) (bits (s'.trees t)) := by
  obtain ⟨tree',hwalk,hlength,hmarked⟩:=walkUp_leaf (!·) hd hs hl hrounds
  refine ⟨s.setTree t tree',congrArg (Except.map _) hwalk,fun u hu => hu.setTree hlength,
    fun u hu => s.setTree_trees_of_ne hu tree',?_⟩
  rwa [State.setTree_trees]

theorem accesses_spec (hd : p.numLeaves=2^(d+1)) (hl : l<p.numLeaves) (hrounds : 31≤rounds)
    {calls : List Access} (hs : p.Sized s t)
    (hcalls : ∀ a∈calls,∃ t',p.Sized s t' ∧ ∃ l'<p.numLeaves,a.entry=p.leaf t' l') :
    ∃ s',calls.foldlM (Access.run rounds) s = .ok s' ∧ p.Sized s' t ∧
      (towards (bits (s'.trees t)) (d+1) ((p.leaf t l).index+1)).card ≤
        (towards (bits (s.trees t)) (d+1) ((p.leaf t l).index+1)).card+calls.countP (·.entry.tree=t) := by
  induction calls generalizing s with
  | nil => exact ⟨s,rfl,hs,le_refl _⟩
  | cons a calls ih =>
    obtain ⟨t',hsized,l',hl',hentry⟩:=hcalls a mem_cons_self
    obtain ⟨s1,htouch,hkeep,hother,hmarked⟩:=touch_spec hd hsized hl' hrounds
    have hrun : a.run rounds s = .ok s1 := by rw [a.run_eq,hentry,htouch]
    obtain ⟨s',hrest,hs',hle⟩:=ih (hkeep t hs) fun b hb => by
      obtain ⟨u,hu,l,hl,hb⟩:=hcalls b (mem_cons_of_mem a hb)
      exact ⟨u,hkeep u hu,l,hl,hb⟩
    refine ⟨s',by rw [foldlM_cons,hrun]; exact hrest,hs',?_⟩
    rw [countP_cons,hentry]
    by_cases ht : t'=t
    · subst ht
      have := hmarked.towards_le (leaf_atDepth t' hd hl) (leaf_atDepth t' hd hl')
      rw [if_pos (decide_eq_true (show (p.leaf t' l').tree=t' from rfl))]
      omega
    · rw [hother t (Ne.symm ht)] at hle
      omega

/-- After an invalidation the entry is the victim; after an access it is not, until as many further accesses to its
tree as the tree has levels. -/
theorem getVictim_guarantee (p : TreePLRURP) (hleaves : 2≤p.numLeaves) (s : State) (t : ℕ) (hs : p.Sized s t)
    (l : ℕ) (hl : l<p.numLeaves) (rounds : ℕ) (hrounds : 31≤rounds) :
    (∃ v<p.numLeaves,s.getVictim rounds p (p.candidates t) = .ok v) ∧
      (∃ s',s.invalidate rounds (p.leaf t l) = .ok s' ∧ s'.getVictim rounds p (p.candidates t) = .ok l) ∧
      ∃ s',s.touch rounds (p.leaf t l) = .ok s' ∧
        ∀ calls : List Access,(∀ a∈calls,∃ t',p.Sized s t' ∧ ∃ l'<p.numLeaves,a.entry=p.leaf t' l') →
          calls.countP (·.entry.tree=t)<Nat.log2 p.numLeaves →
          ∃ s'' v,calls.foldlM (Access.run rounds) s' = .ok s'' ∧
            s''.getVictim rounds p (p.candidates t) = .ok v ∧ v<p.numLeaves ∧ v≠l := by
  obtain ⟨d,hd⟩:=p.exists_depth_succ hleaves
  refine ⟨?_,?_,?_⟩
  · obtain ⟨v,hv,hvictim,-⟩:=getVictim_spec hd hs hrounds
    exact ⟨v,hv,hvictim⟩
  · obtain ⟨s',hinvalidate,hkeep,hmarked⟩:=invalidate_spec hd hs hl hrounds
    obtain ⟨v,hv,hvictim,htoward⟩:=getVictim_spec hd (hkeep t hs) hrounds
    have hsame:=eq_of_toward (leaf_atDepth t hd hv) (leaf_atDepth t hd hl) htoward hmarked.toward
    rw [leaf_number hd,leaf_number hd] at hsame
    exact ⟨s',hinvalidate,by rw [hvictim,Nat.add_right_cancel hsame]⟩
  · obtain ⟨s',htouch,hkeep,-,hmarked⟩:=touch_spec hd hs hl hrounds
    refine ⟨s',htouch,fun calls hcalls hfew => ?_⟩
    obtain ⟨s'',hrun,hs'',hle⟩:=accesses_spec hd hl hrounds (hkeep t hs) fun a ha => by
      obtain ⟨u,hu,rest⟩:=hcalls a ha
      exact ⟨u,hkeep u hu,rest⟩
    obtain ⟨v,hv,hvictim,htoward⟩:=getVictim_spec hd hs'' hrounds
    refine ⟨s'',v,hrun,hvictim,hv,?_⟩
    rintro rfl
    -- a victim has all bits of its path
    rw [towards_of_all htoward,hmarked.towards_away] at hle
    rw [hd,Nat.log2_two_pow] at hfew
    omega

end TreePLRURP

def fourLeaves : TreePLRURP := ⟨4,⟨2,rfl⟩,Nat.lt_of_sub_pos (Nat.zero_lt_succ _)⟩

def State.fresh (p : TreePLRURP) : State := ⟨0,0,fun _ => List.replicate (p.numLeaves-1) false⟩

/-- Two accesses are needed before the leaf 1 can be the victim again. -/
theorem getVictim_guarantee_four :
    ∃ s',(State.fresh fourLeaves).touch 31 (fourLeaves.leaf 0 1) = .ok s' ∧
      ∃ s'' v,[Access.reset (fourLeaves.leaf 0 0)].foldlM (Access.run 31) s' = .ok s'' ∧
        s''.getVictim 31 fourLeaves (fourLeaves.candidates 0) = .ok v ∧ v<4 ∧ v≠1 := by
  obtain ⟨-,-,s',htouch,hlater⟩ :=
    fourLeaves.getVictim_guarantee (by decide) (State.fresh fourLeaves) 0 rfl 1 (by decide) 31 (Nat.le_refl 31)
  refine ⟨s',htouch,hlater [.reset (fourLeaves.leaf 0 0)] (fun a ha => ⟨0,rfl,0,by decide,?_⟩) (by decide)⟩
  rw [List.mem_singleton.mp ha]
  rfl

inductive Reaches (p : TreePLRURP) : State → List TreePLRUReplData → Prop
  | init : Reaches p .init []
  | instantiateEntry {s entries} (h : Reaches p s entries) :
    Reaches p (s.instantiateEntry p).2 ((s.instantiateEntry p).1::entries)
  | invalidate {s s' entries replacement_data} (rounds : ℕ) (h : Reaches p s entries)
    (hentry : replacement_data∈entries) (hs : s.invalidate rounds replacement_data = .ok s') : Reaches p s' entries
  | access {s s' entries} (rounds : ℕ) (a : Access) (h : Reaches p s entries) (hentry : a.entry∈entries)
    (hs : a.run rounds s = .ok s') : Reaches p s' entries

def Inside (p : TreePLRURP) : Prop :=
  ∀ s entries,Reaches p s entries → ∀ r∈entries,∀ rounds,31≤rounds →
    (∃ s',s.invalidate rounds r = .ok s') ∧ (∃ s',s.touch rounds r = .ok s') ∧
      ∀ candidates,∃ v,s.getVictim rounds p (r::candidates) = .ok v

structure Inv (p : TreePLRURP) (s : State) (entries : List TreePLRUReplData) : Prop where
  leaf : ∀ r∈entries,∃ t ≤ s.treeInstance,p.Sized s t ∧ ∃ l<p.numLeaves,r=p.leaf t l
  current : s.count%p.numLeaves≠0 → p.Sized s s.treeInstance

variable {p : TreePLRURP} {s s' : State} {entries : List TreePLRUReplData} {r : TreePLRUReplData} {rounds t : ℕ}

structure Grows (p : TreePLRURP) (s s' : State) : Prop where
  instances : s.treeInstance ≤ s'.treeInstance
  sized : ∀ t ≤ s.treeInstance,p.Sized s t → p.Sized s' t

theorem Inv.leaf_grows (h : Inv p s entries) (hs : Grows p s s') (hr : r∈entries) :
    ∃ t ≤ s'.treeInstance,p.Sized s' t ∧ ∃ l<p.numLeaves,r=p.leaf t l := by
  obtain ⟨t,ht,hsized,rest⟩:=h.leaf r hr
  exact ⟨t,ht.trans hs.instances,hs.sized t ht hsized,rest⟩

theorem newTree_sized (p : TreePLRURP) (s : State) : p.Sized (s.newTree p) (s.newTree p).treeInstance :=
  (congrArg length (s.setTree_trees _ _)).trans length_replicate

theorem newTree_grows (p : TreePLRURP) (s : State) : Grows p s (s.newTree p) :=
  ⟨le_succ _,fun _ ht hs =>
    (congrArg length (s.setTree_trees_of_ne (Nat.ne_of_lt (Nat.lt_succ_of_le ht)) _)).trans hs⟩

theorem Inv.next (h : Inv p s entries) : Grows p s (if s.count%p.numLeaves=0 then s.newTree p else s) ∧
      p.Sized (if s.count%p.numLeaves=0 then s.newTree p else s)
        (if s.count%p.numLeaves=0 then s.newTree p else s).treeInstance := by
  split
  · exact ⟨newTree_grows p s,newTree_sized p s⟩
  next hc => exact ⟨⟨le_refl _,fun _ _ => id⟩,h.current hc⟩

theorem Inv.instantiateEntry (h : Inv p s entries) :
    Inv p (s.instantiateEntry p).2 ((s.instantiateEntry p).1::entries) := by
  obtain ⟨hgrows,hsized⟩:=h.next
  have hpos : 0<p.numLeaves := by
    obtain ⟨d,hd⟩:=p.pow
    exact hd ▸ Nat.two_pow_pos d
  have hcount : (if s.count%p.numLeaves=0 then s.newTree p else s).count=s.count := by
    split <;> rfl
  refine ⟨fun r hr => ?_,fun _ => hsized⟩
  rcases mem_cons.mp hr with rfl | hr
  · exact ⟨_,le_refl _,hsized,s.count%p.numLeaves,mod_lt _ hpos,by
      rw [State.instantiateEntry,TreePLRURP.leaf]
      dsimp only
      rw [hcount]⟩
  · have hgrows' : Grows p s (s.instantiateEntry p).2 := ⟨hgrows.instances,hgrows.sized⟩
    exact h.leaf_grows hgrows' hr

theorem walkUp_length {mark : Bool → Bool} {tree tree' : PLRUTree} {tree_index : ℕ}
    (h : walkUp mark rounds tree tree_index = .ok tree') : tree'.length=tree.length := by
  induction rounds generalizing tree tree_index with
  | zero => cases h
  | succ rounds ih =>
    rw [walkUp] at h
    dsimp only at h
    split at h
    · split at h
      · exact (ih h).trans length_set
      · cases h
        exact length_set
    · cases h

theorem Inv.walkUp (h : Inv p s entries) {mark : Bool → Bool}
    (hwalk : (walkUp mark rounds (s.trees r.tree) r.index).map (s.setTree r.tree) = .ok s') : Inv p s' entries := by
  cases htree : TreePlru.walkUp mark rounds (s.trees r.tree) r.index with
  | error e => rw [htree] at hwalk; cases hwalk
  | ok tree' =>
    rw [htree] at hwalk
    cases hwalk
    have hkeep : ∀ t,p.Sized s t → p.Sized (s.setTree r.tree tree') t := by
      intro t hs
      rw [TreePLRURP.Sized]
      by_cases ht : t=r.tree
      · rw [ht,State.setTree_trees,walkUp_length htree,← ht,hs]
      · rw [State.setTree_trees_of_ne s ht,hs]
    exact ⟨fun r hr => h.leaf_grows ⟨le_refl _,fun t _ => hkeep t⟩ hr,fun hc => hkeep _ (h.current hc)⟩

theorem Reaches.inv (h : Reaches p s entries) : Inv p s entries := by
  induction h with
  | init => exact ⟨fun r hr => absurd hr not_mem_nil,fun hc => absurd (zero_mod _) hc⟩
  | instantiateEntry h ih => exact ih.instantiateEntry
  | invalidate rounds h hentry hs ih => exact ih.walkUp hs
  | access rounds a h hentry hs ih =>
    rw [a.run_eq] at hs
    exact ih.walkUp hs

theorem walkUp_root (mark : Bool → Bool) (rounds : ℕ) : walkUp mark (rounds+1) [] 0 = .error .outOfRange := rfl

theorem not_inside (h : p.numLeaves=1) : ¬Inside p := by
  intro hinside
  have hreach : Reaches p _ _ := .instantiateEntry .init
  obtain ⟨-,⟨s',htouch⟩,-⟩:=hinside _ _ hreach _ mem_cons_self 31 (le_refl 31)
  have hindex : (State.init.instantiateEntry p).1.index=0 := by
    rw [State.instantiateEntry,h]
    rfl
  have htree : (State.init.instantiateEntry p).2.trees (State.init.instantiateEntry p).1.tree=[] := by
    refine eq_nil_of_length_eq_zero ?_
    have hsized:=newTree_sized p .init
    rw [TreePLRURP.Sized,h] at hsized
    rw [State.instantiateEntry,h]
    exact hsized
  rw [State.touch,hindex,htree,walkUp_root] at htouch
  cases htouch

/-- The accesses stay inside the trees for every number of leaves but one. -/
theorem inside_iff (p : TreePLRURP) : Inside p ↔ 2≤p.numLeaves := by
  refine ⟨fun h => ?_,fun hleaves s entries hreach r hr rounds hrounds => ?_⟩
  · obtain ⟨d,hd⟩:=p.pow
    have := hd ▸ Nat.two_pow_pos d
    exact Nat.lt_of_not_le fun hle => not_inside (by omega) h
  · obtain ⟨d,hd⟩:=p.exists_depth_succ hleaves
    obtain ⟨t,-,hs,l,hl,rfl⟩:=hreach.inv.leaf r hr
    obtain ⟨s1,hinvalidate,-⟩:=TreePLRURP.invalidate_spec hd hs hl hrounds
    obtain ⟨s2,htouch,-⟩:=TreePLRURP.touch_spec hd hs hl hrounds
    obtain ⟨leaf,hwalk,-⟩:=TreePLRURP.walkDown_root hd hs hrounds
    exact ⟨⟨s1,hinvalidate⟩,⟨s2,htouch⟩,fun candidates => ⟨_,congrArg (Except.map _) hwalk⟩⟩

def oneLeaf : TreePLRURP := ⟨1,⟨0,rfl⟩,Nat.lt_of_sub_pos (Nat.zero_lt_succ _)⟩

/-- In a direct-mapped cache the first access of its only entry is out of range. -/
theorem not_inside_one : ¬Inside oneLeaf := not_inside rfl

end AquaGem5.Cache.TreePlru
