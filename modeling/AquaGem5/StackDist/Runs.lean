import AquaGem5.StackDist.Leaves

/-!
# The calculator against the naive stack
-/

namespace AquaGem5.StackDist
open List Nat
open Address (Addr)
open StackDistCalc (stackDistance)
open Checked Dyadic LruStack Function

structure Holds (n : ℕ) (es : List Entry) (mark : ℕ → Bool) (t : Tree) : Prop where
  sound : Sound n (fun _ => n) (fun _ => live es) t
  tight : Tight n t.depth
  leaves : Leaves (live es) mark t
  nextIndex : t.nextIndex 0=n
  entries : Entries n es

structure Matches (xs : Naive) (es : List Entry) (mark : ℕ → Bool) (s : StackDistCalc) : Prop where
  holds : Holds s.index es mark s.tree
  aiMap : ∀ a i,s.aiMap a=some i ↔ (a,i)∈es
  stack : xs=es.map fun e => (e.1,mark e.2)

namespace Holds

variable {n i : ℕ} {es : List Entry} {mark : ℕ → Bool} {t : Tree} {a : Addr}

theorem leaf (h : Holds n es mark t) (hi : i∈live es) :
    ∃ nd,t.layer 0 i=some (0,i) ∧ t.heap (0,i)=some nd ∧ nd.isMarked=mark i ∧ nd.isLeftNode=(i%2 == 0) ∧
      nd.parent=some (1,i/2) := by
  obtain ⟨nd,hget,hmark,hleft,hparent⟩:=h.leaves i hi
  refine ⟨nd,?_,hget,hmark,hleft,hparent⟩
  rw [h.sound.layer,hget]
  rfl

variable {s : StackDistCalc}

theorem discardLeaf (h : Holds n es mark s.tree) (hn : n≤2^31) (hmem : (a,i)∈es) :
    ∃ t',s.discardLeaf i = .ok (t',⟨stackDistance (es.map Prod.fst) a,mark i⟩) ∧ Holds n (without es a) mark t' := by
  have hlive : i∈live es := mem_live.mpr ⟨a,hmem⟩
  obtain ⟨nd,hlayer,hget,hmark,hleft,hparent⟩:=h.leaf hlive
  have hS : ∀ j∈(live es).erase i,j<n := fun j hj => h.entries.lt (Finset.mem_of_mem_erase hj)
  have hzero : count ((live es).erase i) 0 i=0 := by
    rw [Dyadic.count_zero,if_neg (Finset.notMem_erase i _)]
  have hclosed : Closed n ((live es).erase i) 0 i := by
    have hlt:=h.entries.lt hlive
    exact ⟨by omega,hzero⟩
  have hstored:=h.sound.store_leaf (by rw [hget]; rfl) {nd with sumLeft := 0}
  obtain ⟨t1,hsound,hdepth,hnext,hheap,hrun⟩:=hstored.updateSum_leaf ((live es).erase i) s.verifyStack
    (fun j hj => by simp [hj]) (h.entries.lt hlive) (.inl hlive) (h.tight.depth_le hn) h.tight.1 hS
    true (fun _ => hclosed) hzero.symm
  have hget1 : t1.heap (0,i)=some {nd with sumLeft := 0} := by
    rw [hheap,Tree.store_heap,if_pos ⟨rfl,rfl⟩]
  have hlayer1 : t1.layer 0 i=some (0,i) := by
    rw [hsound.layer,hget1]
    rfl
  have hcard : (((live es).erase i).filter fun j => i<j).card=stackDistance (es.map Prod.fst) a := by
    rw [← h.entries.card_after hmem,Finset.filter_erase,Finset.erase_eq_of_notMem (by simp)]
  have hupdate : s.tree.updateSumsLeavesToRoot s.verifyStack (s.tree.layer 0 i) false =
      .ok (t1,(((live es).erase i).filter fun j => i<j).card) := by
    rw [← hparent,← hleft] at hrun
    rw [Tree.updateSumsLeavesToRoot,hlayer]
    simp only [notNull_some,Tree.deref_eq hget,bind,Except.bind,Bool.false_eq_true,if_false]
    exact hrun
  refine ⟨(t1.delete (0,i)).put 0 i none,?_,?_⟩
  · rw [StackDistCalc.discardLeaf,hupdate]
    simp only [notNull_some,Tree.deref_eq hget1,bind,Except.bind,hlayer1,hcard,hmark]
  · have hlast:=hsound.delete_leaf i
    rw [← h.entries.live_without hmem] at hlast
    exact {
      sound := hlast
      tight := hdepth ▸ h.tight
      leaves := by
        intro j hj
        rw [h.entries.live_without hmem,Finset.mem_erase] at hj
        obtain ⟨nd',hget',hrest⟩:=h.leaves j hj.2
        refine ⟨nd',?_,hrest⟩
        have hheap' : ((t1.delete (0,i)).put 0 i none).heap (0,j)=(t1.delete (0,i)).heap (0,j) := rfl
        rw [hheap',Tree.delete_heap,if_neg fun hc => hj.1 hc.2,hheap,Tree.store_heap,if_neg fun hc => hj.1 hc.2]
        exact hget'
      nextIndex := by
        have hnext' : ((t1.delete (0,i)).put 0 i none).nextIndex=t1.nextIndex := rfl
        rw [hnext',hnext]
        exact h.nextIndex
      entries := h.entries.filter a}

theorem inspectLeaf (h : Holds n es mark s.tree) (hmem : (a,i)∈es) (m : Bool) :
    ∃ t',s.inspectLeaf i m = .ok (t',⟨stackDistance (es.map Prod.fst) a,mark i⟩) ∧
      Holds n es (update mark i m) t' := by
  have hlive : i∈live es := mem_live.mpr ⟨a,hmem⟩
  obtain ⟨nd,hlayer,hget,hmark,hleft,hparent⟩:=h.leaf hlive
  have hS : ∀ j∈live es,j<n := fun j hj => h.entries.lt hj
  have hstored:=h.sound.store_leaf (by rw [hget]; rfl) {nd with isMarked := m}
  have hnew : (s.tree.store (0,i) {nd with isMarked := m}).heap (0,i)=some {nd with isMarked := m} := by
    rw [Tree.store_heap,if_pos ⟨rfl,rfl⟩]
  have hlayer' : (s.tree.store (0,i) {nd with isMarked := m}).layer 0 i=some (0,i) := hlayer
  have hrun:=hstored.getSum_leaf hlive h.tight.1 hS
  have hsum : (s.tree.store (0,i) {nd with isMarked := m}).getSumsLeavesToRoot (some (0,i)) =
      .ok (stackDistance (es.map Prod.fst) a) := by
    rw [← hparent,← hleft] at hrun
    rw [Tree.getSumsLeavesToRoot]
    simp only [notNull_some,Tree.deref_eq hnew,bind,Except.bind]
    rw [← h.entries.card_after hmem]
    exact hrun
  refine ⟨s.tree.store (0,i) {nd with isMarked := m},?_,?_⟩
  · rw [StackDistCalc.inspectLeaf,hlayer]
    simp only [notNull_some,Tree.deref_eq hget,bind,Except.bind,hlayer',hsum,hmark]
  · exact {
      sound := hstored
      tight := h.tight
      leaves := by
        intro j hj
        obtain ⟨nd',hget',hmark',hrest⟩:=h.leaves j hj
        by_cases hji : j=i
        · subst hji
          exact ⟨_,hnew,by rw [update_self],hleft,hparent⟩
        · refine ⟨nd',?_,?_,hrest⟩
          · rw [Tree.store_heap,if_neg fun hc => hji hc.2]
            exact hget'
          · rw [update_of_ne hji]
            exact hmark'
      nextIndex := h.nextIndex
      entries := h.entries}

theorem growTree (h : Holds s.index es mark s.tree) (hn : s.index≤2^31) :
    ∃ t',s.growTree = .ok t' ∧ Sound s.index (fun _ => s.index+1) (fun _ => live es) t' ∧
      Tight (s.index+1) t'.depth ∧ s.tree.SameLeaves t' := by
  unfold StackDistCalc.growTree
  by_cases heven : s.index%2=0
  · rw [if_pos heven]
    exact h.sound.updateTree (fun j hj => h.entries.lt hj) h.tight heven hn
  · obtain ⟨hsound,htight⟩:=h.sound.room h.tight heven
    rw [if_neg heven]
    exact ⟨s.tree,rfl,hsound,htight,fun _ => rfl,rfl⟩

theorem addTree_eq {grown : Tree} {q : Ptr} {nd : Node} (hgrow : s.growTree = .ok grown)
    (hlayer : (grown.create 0 s.index (s.newLeaf grown)).layer 0 s.index=some q)
    (hget : (grown.create 0 s.index (s.newLeaf grown)).heap q=some nd) :
    s.addTree=(((grown.create 0 s.index (s.newLeaf grown)).store q {nd with sumLeft := 1}).updateSum s.verifyStack
      (grown.create 0 s.index (s.newLeaf grown)).depth nd.parent nd.isLeftNode 1 0 0 false).map Prod.fst := by
  rw [StackDistCalc.addTree,hgrow]
  simp only [bind,Except.bind,Tree.updateSumsLeavesToRoot,hlayer,notNull_some,Tree.deref_eq hget,if_true]
  cases ((grown.create 0 s.index (s.newLeaf grown)).store q {nd with sumLeft := 1}).updateSum s.verifyStack
      (grown.create 0 s.index (s.newLeaf grown)).depth nd.parent nd.isLeftNode 1 0 0 false with
  | error e => rfl
  | ok r => rfl

theorem plant (h : Holds s.index es mark s.tree) (hn : s.index≤2^31) :
    ∃ planted leaf,Sound s.index (fun _ => s.index+1) (fun _ => live es) planted ∧
      Tight (s.index+1) planted.depth ∧ planted.nextIndex 0=s.index+1 ∧
      planted.heap (0,s.index)=some leaf ∧ leaf.isMarked=false ∧ leaf.isLeftNode=(s.index%2 == 0) ∧
      leaf.parent=some (1,s.index/2) ∧ (∀ j,j≠s.index → planted.heap (0,j)=s.tree.heap (0,j)) ∧
      s.addTree=(planted.updateSum s.verifyStack planted.depth (some (1,s.index/2)) (s.index%2 == 0) 1 0 0
        false).map Prod.fst := by
  obtain ⟨grown,hgrow,hsound,htight,hsame⟩:=h.growTree hn
  have hindex : grown.nextIndex 0=s.index := hsame.nextIndex.trans h.nextIndex
  have hparent : grown.layer 1 (grown.nextIndex 1-1)=some (1,s.index/2) := by
    obtain ⟨nd,hnd⟩:=hsound.exists_node (lt_succ_self s.index) hsound.depth_pos (.inr (le_refl _))
    rw [hsound.nextIndex 0 hsound.depth_pos,Nat.add_sub_cancel,Nat.add_sub_cancel,hsound.layer]
    rw [zero_add,pow_one] at hnd ⊢
    rw [hnd]
    rfl
  have hplanted:=hsound.create_leaf (s.newLeaf grown)
  rw [hindex] at hplanted
  have hlayer : (grown.create 0 s.index (s.newLeaf grown)).layer 0 s.index=some (0,s.index) := by
    rw [Tree.create_layer,if_pos ⟨rfl,rfl⟩,hindex]
  have hget : (grown.create 0 s.index (s.newLeaf grown)).heap (0,s.index)=some (s.newLeaf grown) := by
    rw [Tree.create_heap,if_pos ⟨rfl,hindex.symm⟩]
  have hleaf : (s.newLeaf grown).parent=some (1,s.index/2) := hparent
  refine ⟨(grown.create 0 s.index (s.newLeaf grown)).store (0,s.index) {s.newLeaf grown with sumLeft := 1},
    {s.newLeaf grown with sumLeft := 1},hplanted.store_leaf (by rw [hget]; rfl) _,htight,?_,?_,rfl,rfl,hleaf,?_,?_⟩
  · have hstore : ((grown.create 0 s.index (s.newLeaf grown)).store (0,s.index)
      {s.newLeaf grown with sumLeft := 1}).nextIndex 0=(grown.create 0 s.index (s.newLeaf grown)).nextIndex 0 := rfl
    rw [hstore,Tree.create_nextIndex,if_pos rfl,hindex]
  · rw [Tree.store_heap,if_pos ⟨rfl,rfl⟩]
  · intro j hj
    rw [Tree.store_heap,if_neg fun hc => hj hc.2,Tree.create_heap,if_neg fun hc => hj (hc.2.trans hindex),hsame.heap]
  · exact (addTree_eq hgrow hlayer hget).trans (congrArg (fun p => Except.map Prod.fst
      (Tree.updateSum s.verifyStack _ _ p (s.index%2 == 0) 1 0 0 false)) hleaf)

theorem addTree (h : Holds s.index es mark s.tree) (hn : s.index<2^31)
    (ha : a∉es.map Prod.fst) : ∃ t',s.addTree = .ok t' ∧
      Holds (s.index+1) ((a,s.index)::es) (update mark s.index false) t' := by
  obtain ⟨planted,leaf,hsound,htight,hnext,hget,hmark,hleft,hparent,hothers,hadd⟩:=h.plant (by omega)
  have hS : ∀ j∈insert s.index (live es),j<s.index+1 := by
    intro j hj
    rcases Finset.mem_insert.mp hj with rfl | hj
    · exact lt_succ_self _
    · exact lt_succ_of_lt (h.entries.lt hj)
  have hone : count (insert s.index (live es)) 0 s.index=1 := by
    rw [Dyadic.count_zero,if_pos (Finset.mem_insert_self ..)]
  obtain ⟨t',hsound',hdepth',hnext',hheap',hrun⟩:=hsound.updateSum_leaf (insert s.index (live es))
    s.verifyStack (fun j hj => by simp [hj]) (lt_succ_self s.index) (.inr (le_refl _))
    (htight.depth_le (by omega)) htight.1 hS false (fun hd => (by cases hd)) hone.symm
  refine ⟨t',?_,?_⟩
  · rw [hadd,hrun]
    rfl
  · exact {
      sound := by
        rw [live_cons]
        exact hsound'.mono (le_succ _)
      tight := hdepth' ▸ htight
      leaves := by
        intro j hj
        rw [live_cons] at hj
        rcases Finset.mem_insert.mp hj with rfl | hj
        · refine ⟨leaf,(hheap' _).trans hget,?_,hleft,hparent⟩
          rw [update_self]
          exact hmark
        · have hne : j≠s.index := Nat.ne_of_lt (h.entries.lt hj)
          obtain ⟨nd,hnd,hmarked,hrest⟩:=h.leaves j hj
          refine ⟨nd,?_,?_,hrest⟩
          · rw [hheap',hothers j hne]
            exact hnd
          · rw [update_of_ne hne]
            exact hmarked
      nextIndex := by rw [hnext',hnext]
      entries := h.entries.cons ha}

theorem addTree_shift (h : Holds s.index es mark s.tree) (hn : s.index=2^31)
    (hv : s.verifyStack=true) : s.addTree = .error .shift := by
  obtain ⟨planted,leaf,hsound,htight,_,_,_,_,_,_,hadd⟩:=h.plant (le_of_eq hn)
  have hdeep : 31<planted.depth := by
    by_contra hle
    have hpow : 2^planted.depth≤2^31 := Nat.pow_le_pow_right Nat.two_pos (by omega)
    have hroom:=htight.1
    omega
  have hone : count (insert s.index (live es)) 0 s.index=1 := by
    rw [Dyadic.count_zero,if_pos (Finset.mem_insert_self ..)]
  have hstart : Sound s.index (fun _ => s.index+1) (upTo 0 (insert s.index (live es)) (live es)) planted :=
    hsound.congr fun l _ => upTo_old (zero_le l) _ _
  have hrun:=hstart.updateSum_shift (fun j hj => by simp [hj]) (lt_succ_self s.index) (.inr (le_refl _)) 31
    false (planted.depth-32) hdeep rfl (fun hd => (by cases hd))
  rw [Nat.pow_zero,Nat.div_one,after_zero,hone,show planted.depth-32+31+1=planted.depth by omega] at hrun
  rw [hadd,hv]
  exact congrArg (Except.map Prod.fst) hrun

theorem sanityCheckTree (h : Holds n es mark t) (hi : i∈live es) :
    StackDistCalc.sanityCheckTree t (t.layer 0 i) = .ok () := by
  obtain ⟨nd,hlayer,hget,_,_,hparent⟩:=h.leaf hi
  have hlt:=h.entries.lt hi
  have hpos:=h.sound.depth_pos
  obtain ⟨d,hd⟩ : ∃ d,t.depth=d+1 := ⟨t.depth-1,by omega⟩
  have hclimb:=h.sound.climb hlt hi d (m := 0) (by omega)
  rw [zero_add,pow_one] at hclimb
  obtain ⟨root,hroot⟩:=h.sound.exists_node hlt (l := d) (by omega) (.inl hi)
  have hfits:=h.sound.node d _ root (by omega) (h.sound.lt_nextIndex hlt (by omega)) hroot
  have hnone : root.parent=none := by rw [hfits.parent,if_pos hd.symm]
  rw [← hd] at hroot
  rw [StackDistCalc.sanityCheckTree,hlayer]
  simp only [notNull_some,Tree.deref_eq hget,bind,Except.bind,hparent,hd,Nat.add_sub_cancel,hclimb]
  rw [← hd]
  simp only [Tree.deref_eq hroot,check,hnone,if_true]

end Holds

theorem derefAll_ok {t : Tree} {qs : List Ptr} (h : ∀ q∈qs,∃ nd,t.heap q=some nd) :
    StackDistCalc.derefAll t qs = .ok () := by
  induction qs with
  | nil => rfl
  | cons q qs ih =>
    obtain ⟨nd,hnd⟩:=h q mem_cons_self
    rw [StackDistCalc.derefAll,Tree.deref_eq hnd]
    exact ih fun r hr => h r (mem_cons_of_mem q hr)

theorem printStack_ok {n : ℕ} {size : ℕ → ℕ} {T : ℕ → Finset ℕ} {s : StackDistCalc} (h : Sound n size T s.tree) :
    s.printStack = .ok () := by
  apply derefAll_ok
  intro q hq
  obtain ⟨k,_,hk⟩:=mem_filterMap.mp (mem_of_mem_take hq)
  rw [h.layer] at hk
  split at hk
  · rename_i hthere
    rw [← Option.some.inj hk]
    exact Option.isSome_iff_exists.mp hthere
  · cases hk

theorem verifyAdded_eq {n : ℕ} {size : ℕ → ℕ} {T : ℕ → Finset ℕ} {s : StackDistCalc} (h : Sound n size T s.tree)
    (hsanity : StackDistCalc.sanityCheckTree s.tree (s.tree.layer 0 s.index) = .ok ()) (a : Addr) (d : ℕ) :
    s.verifyAdded a d =
      if s.verifyStack=true ∧ stackDistance s.stack a≠d then .error .panic
      else .ok {s with stack := if s.verifyStack then touch s.stack a else s.stack} := by
  have hprint : (s.pushStack a).printStack = .ok () := printStack_ok (s := s.pushStack a) h
  rw [StackDistCalc.verifyAdded]
  cases hv : s.verifyStack with
  | false =>
    rw [if_neg (by simp),if_neg (by simp),if_neg (by simp),← hv]
  | true =>
    rw [if_pos rfl,if_pos rfl,hsanity]
    by_cases hd : stackDistance s.stack a=d
    · have hverify : s.verifyStackDist a=d := hd
      simp only [bind,Except.bind,check,if_pos hverify,hprint]
      rw [if_neg (by simp [hd]),StackDistCalc.pushStack,← hv]
      rfl
    · have hverify : ¬s.verifyStackDist a=d := hd
      simp only [bind,Except.bind,check,if_neg hverify]
      rw [if_pos ⟨trivial,hd⟩]

namespace Matches

variable {xs : Naive} {es : List Entry} {mark : ℕ → Bool} {s : StackDistCalc} {a : Addr} {i : ℕ}

theorem addrs (h : Matches xs es mark s) : xs.map Prod.fst=es.map Prod.fst := by
  rw [h.stack,map_map]
  rfl

theorem result_present (h : Matches xs es mark s) (hmem : (a,i)∈es) :
    xs.result a=⟨stackDistance (es.map Prod.fst) a,mark i⟩ := by
  have hmark : (a,true)∈xs ↔ mark i=true := by
    rw [h.stack,mem_map]
    constructor
    · rintro ⟨e,he,heq⟩
      obtain ⟨rfl,htrue⟩:=Prod.ext_iff.mp heq
      rw [h.holds.entries.unique hmem he]
      exact htrue
    · intro htrue
      exact ⟨_,hmem,by rw [htrue]⟩
  rw [Naive.result,h.addrs]
  simp [hmark]

theorem not_mem_of_aiMap (h : Matches xs es mark s) (hnone : s.aiMap a=none) : a∉es.map Prod.fst := by
  intro hmem
  obtain ⟨e,he,rfl⟩:=mem_map.mp hmem
  rw [(h.aiMap e.1 e.2).mpr he] at hnone
  cases hnone

theorem result_absent (h : Matches xs es mark s) (ha : a∉es.map Prod.fst) : xs.result a=⟨Infinity,false⟩ := by
  have hnot : (a,true)∉xs := by
    intro hmem
    rw [← h.addrs] at ha
    exact ha (mem_map_of_mem hmem)
  rw [Naive.result,h.addrs,stackDistance,if_neg ha]
  simp [hnot]

theorem lookup (h : Matches xs es mark s) (hn : s.index≤2^31) (a : Addr) (addNewNode : Bool) :
    ∃ t',s.lookup a addNewNode = .ok ({s with
        tree := t'
        aiMap := update s.aiMap a (if addNewNode then some s.index else none)},xs.result a) ∧
      Holds s.index (without es a) mark t' := by
  unfold StackDistCalc.lookup
  cases hmap : s.aiMap a with
  | none =>
    have ha:=h.not_mem_of_aiMap hmap
    refine ⟨s.tree,by rw [h.result_absent ha],?_⟩
    rw [without_of_not_mem ha]
    exact h.holds
  | some i =>
    have hmem:=(h.aiMap a i).mp hmap
    obtain ⟨t',hrun,hholds⟩:=h.holds.discardLeaf hn hmem
    refine ⟨t',?_,hholds⟩
    simp only [hrun,bind,Except.bind]
    rw [h.result_present hmem]

theorem aiMap_without (h : Matches xs es mark s) (a b : Addr) (i : ℕ) :
    update s.aiMap a none b=some i ↔ (b,i)∈without es a := by
  rw [mem_without,update_apply]
  by_cases hb : b=a
  · simp [hb]
  · rw [if_neg hb,h.aiMap]
    simp [hb]

theorem aiMap_added (h : Matches xs es mark s) (a b : Addr) (n i : ℕ) :
    update s.aiMap a (some n) b=some i ↔ (b,i)∈(a,n)::without es a := by
  rw [mem_cons,mem_without,update_apply]
  by_cases hb : b=a
  · simp [hb,eq_comm]
  · rw [if_neg hb,h.aiMap]
    simp [hb]

theorem stack_without (h : Matches xs es mark s) (a : Addr) :
    (xs.filter fun e => e.1 != a)=(without es a).map fun e => (e.1,mark e.2) := by
  rw [h.stack,filter_map]
  rfl

structure Served (s : StackDistCalc) (xs : Naive) (c : Call) (s' : StackDistCalc) : Prop where
  holds : ∃ es mark,Matches (xs.step c) es mark s'
  verifyStack : s'.verifyStack=s.verifyStack
  index : s'.index=s.index+(adds [c]).length
  stack : s'.stack=if s.verifyStack then (adds [c]).foldl touch s.stack else s.stack

def Passes (s : StackDistCalc) (xs : Naive) (c : Call) : Prop :=
  s.verifyStack=true → c.verifies=true → stackDistance s.stack c.addr=(xs.result c.addr).stackDist

theorem remove (h : Matches xs es mark s) (hn : s.index≤2^31) (a : Addr) :
    ∃ s',s.call (.update a false) = .ok (s',xs.result a) ∧ Served s xs (.update a false) s' := by
  obtain ⟨t',hlookup,hholds⟩:=h.lookup hn a false
  refine ⟨{s with tree := t', aiMap := update s.aiMap a none},?_,?_⟩
  · rw [StackDistCalc.call,StackDistCalc.calcStackDistAndUpdate,hlookup]
    rfl
  · exact {
      holds := ⟨without es a,mark,hholds,h.aiMap_without a,h.stack_without a⟩
      verifyStack := rfl
      index := rfl
      stack := by
        have hadds : adds [.update a false]=[] := rfl
        rw [hadds]
        simp}

theorem added (h : Matches xs es mark s) (a : Addr) : xs.step (.update a true) =
    ((a,s.index)::without es a).map fun e => (e.1,update mark s.index false e.2) := by
  rw [Naive.step,h.stack_without,map_cons,update_self]
  congr 1
  apply map_congr_left
  intro e he
  have hlt:=h.holds.entries.bound e (mem_without.mp he).1
  rw [update_of_ne (by omega)]

theorem add (h : Matches xs es mark s) (hn : s.index<2^31) (a : Addr) :
    (Passes s xs (.update a true) → ∃ s',s.call (.update a true) = .ok (s',xs.result a) ∧
      Served s xs (.update a true) s') ∧
    (¬Passes s xs (.update a true) → s.call (.update a true) = .error .panic) := by
  obtain ⟨t1,hlookup,hholds⟩:=h.lookup (le_of_lt hn) a true
  have ha : a∉(without es a).map Prod.fst := by
    intro hmem
    obtain ⟨e,he,heq⟩:=mem_map.mp hmem
    exact (mem_without.mp he).2 heq
  obtain ⟨t2,hadd,hholds2⟩:=Holds.addTree
    (s := {s with tree := t1, aiMap := update s.aiMap a (some s.index)}) hholds hn ha
  have hsanity:=hholds2.sanityCheckTree (mem_live.mpr ⟨a,mem_cons_self⟩)
  have hverify:=verifyAdded_eq
    (s := {s with tree := t2, aiMap := update s.aiMap a (some s.index)}) hholds2.sound hsanity a
      (xs.result a).stackDist
  have hiff : Passes s xs (.update a true) ↔
      ¬(s.verifyStack=true ∧ stackDistance s.stack a≠(xs.result a).stackDist) := by
    unfold Passes
    constructor
    · intro hpass hbad
      exact hbad.2 (hpass hbad.1 rfl)
    · intro hgood hv _
      by_contra hne
      exact hgood ⟨hv,hne⟩
  have hcall : s.call (.update a true) =
      if s.verifyStack=true ∧ stackDistance s.stack a≠(xs.result a).stackDist then .error .panic
      else .ok (⟨t2,s.index+1,update s.aiMap a (some s.index),
        if s.verifyStack then touch s.stack a else s.stack,s.verifyStack⟩,xs.result a) := by
    rw [StackDistCalc.call,StackDistCalc.calcStackDistAndUpdate,hlookup]
    simp only [bind,Except.bind,if_true,StackDistCalc.addLeaf,hadd,hverify]
    by_cases hbad : s.verifyStack=true ∧ stackDistance s.stack a≠(xs.result a).stackDist
    · rw [if_pos hbad,if_pos hbad]
    · rw [if_neg hbad,if_neg hbad]
  constructor
  · intro hpass
    rw [hcall,if_neg (hiff.mp hpass)]
    refine ⟨_,rfl,?_⟩
    exact {
      holds := ⟨(a,s.index)::without es a,update mark s.index false,hholds2,
        fun b i => h.aiMap_added a b s.index i,h.added a⟩
      verifyStack := rfl
      index := rfl
      stack := rfl}
  · intro hfail
    rw [hcall,if_pos (by_contra fun hgood => hfail (hiff.mpr hgood))]

theorem add_shift (h : Matches xs es mark s) (hn : s.index=2^31) (hv : s.verifyStack=true) (a : Addr) :
    s.call (.update a true) = .error .shift := by
  obtain ⟨t1,hlookup,hholds⟩:=h.lookup (le_of_eq hn) a true
  have hadd:=Holds.addTree_shift
    (s := {s with tree := t1, aiMap := update s.aiMap a (some s.index)}) hholds hn hv
  rw [StackDistCalc.call,StackDistCalc.calcStackDistAndUpdate,hlookup]
  simp only [bind,Except.bind,if_true,StackDistCalc.addLeaf,hadd]

theorem inspected (h : Matches xs es mark s) (hmem : (a,i)∈es) (m : Bool) :
    xs.step (.inspect a m)=es.map fun e => (e.1,update mark i m e.2) := by
  rw [Naive.step,h.stack,map_map]
  apply map_congr_left
  intro e he
  simp only [Function.comp_apply]
  by_cases hea : e.1=a
  · have hei : e.2=i := h.holds.entries.unique (by rw [← hea]; exact he) hmem
    rw [if_pos hea,hei,update_self,hea]
  · have hne : e.2≠i := by
      intro hei
      exact hea (h.holds.entries.unique_addr hmem (by rw [← hei]; exact he))
    rw [if_neg hea,update_of_ne hne]

theorem inspect_absent (h : Matches xs es mark s) (ha : a∉es.map Prod.fst) (m : Bool) :
    xs.step (.inspect a m)=xs := by
  rw [← h.addrs] at ha
  have hsame : ∀ e∈xs,(if e.1=a then (a,m) else e)=id e :=
    fun e he => if_neg fun (heq : e.1=a) => ha (heq ▸ mem_map_of_mem he)
  exact (map_congr_left hsame).trans (map_id xs)

theorem inspect (h : Matches xs es mark s) (a : Addr) (m : Bool) :
    (Passes s xs (.inspect a m) → ∃ s',s.call (.inspect a m) = .ok (s',xs.result a) ∧ Served s xs (.inspect a m) s') ∧
    (¬Passes s xs (.inspect a m) → s.call (.inspect a m) = .error .panic) := by
  obtain ⟨t',hinspect,es',mark',hmatches⟩ : ∃ t',s.inspect a m = .ok ({s with tree := t'},xs.result a) ∧
      ∃ es' mark',Matches (xs.step (.inspect a m)) es' mark' {s with tree := t'} := by
    unfold StackDistCalc.inspect
    cases hmap : s.aiMap a with
    | none =>
      have ha:=h.not_mem_of_aiMap hmap
      rw [h.inspect_absent ha]
      exact ⟨s.tree,by rw [h.result_absent ha],es,mark,h⟩
    | some i =>
      have hmem:=(h.aiMap a i).mp hmap
      obtain ⟨t',hrun,hholds⟩:=h.holds.inspectLeaf hmem m
      refine ⟨t',?_,es,update mark i m,hholds,h.aiMap,h.inspected hmem m⟩
      simp only [hrun,bind,Except.bind]
      rw [h.result_present hmem]
  have hprint:=printStack_ok (s := {s with tree := t'}) hmatches.holds.sound
  have hserved : Served s xs (.inspect a m) {s with tree := t'} := {
    holds := ⟨es',mark',hmatches⟩
    verifyStack := rfl
    index := rfl
    stack := by
      have hadds : adds [.inspect a m]=[] := rfl
      rw [hadds]
      simp}
  rw [StackDistCalc.call,StackDistCalc.calcStackDist,hinspect]
  simp only [bind,Except.bind]
  by_cases hv : s.verifyStack=true
  · have hverify : StackDistCalc.verifyStackDist {s with tree := t'} a=stackDistance s.stack a := rfl
    rw [if_pos hv,hverify,hprint]
    constructor
    · intro hpass
      have heq : stackDistance s.stack a=(xs.result a).stackDist := hpass hv rfl
      rw [check,if_pos heq]
      exact ⟨_,rfl,hserved⟩
    · intro hfail
      have hne : ¬stackDistance s.stack a=(xs.result a).stackDist := fun heq => hfail fun _ _ => heq
      rw [check,if_neg hne]
  · rw [if_neg hv]
    constructor
    · intro _
      exact ⟨_,rfl,hserved⟩
    · intro hfail
      exact (hfail fun hv' => (hv hv').elim).elim

theorem call (h : Matches xs es mark s) (c : Call) (hn : s.index+(adds [c]).length≤2^31) :
    (Passes s xs c → ∃ s',s.call c = .ok (s',xs.result c.addr) ∧ Served s xs c s') ∧
    (¬Passes s xs c → s.call c = .error .panic) := by
  cases c with
  | update a addNewNode =>
    cases addNewNode with
    | true =>
      have hone : (adds [.update a true]).length=1 := rfl
      exact h.add (by omega) a
    | false =>
      refine ⟨fun _ => h.remove ((le_add_right _ _).trans hn) a,fun hfail => ?_⟩
      exact (hfail fun _ hv => (by cases hv)).elim
  | inspect a m => exact h.inspect a m

end Matches

theorem holds_init : Holds 0 [] (fun _ => false) Tree.init where
  sound := by
    have hheap : ∀ l k,Tree.init.heap (l,k)=if l=1 ∧ k=0 then some Node.init else none :=
      fun l k => Tree.update_heap (fun _ => none) 1 0 (some Node.init) l k
    have hdepth : Tree.init.depth=1 := rfl
    exact {
      depth_pos := one_pos
      layer := by
        intro l k
        have hput : Tree.init.layer l k =
            (Tree.put ⟨fun _ => none,fun _ _ => none,1,fun _ => 0⟩ 1 0 (some (1,0))).layer l k := rfl
        rw [hput,Tree.put_layer,hheap]
        by_cases hlk : l=1 ∧ k=0
        · simp [hlk]
        · simp [hlk]
      nextIndex := by
        intro l hl
        obtain rfl : l=0 := by omega
        rfl
      node := by
        intro l k nd hl hk hnd
        obtain rfl : l=0 := by omega
        obtain rfl : k=0 := lt_one_iff.mp hk
        rw [hheap,if_pos ⟨rfl,rfl⟩] at hnd
        rw [← Option.some.inj hnd]
        exact ⟨rfl,rfl,rfl,rfl,rfl,fun h => (by cases h),fun h => (by cases h)⟩
      gone := by
        intro l k hl hk hnone
        obtain rfl : l=0 := by omega
        obtain rfl : k=0 := lt_one_iff.mp hk
        rw [hheap,if_pos ⟨rfl,rfl⟩] at hnone
        cases hnone
      root := rfl
      top := by
        intro l k hl
        rw [hheap,if_neg (by omega)]}
  tight := ⟨by decide,.inr rfl⟩
  leaves := by
    intro i hi
    simp [live] at hi
  nextIndex := rfl
  entries := ⟨Pairwise.nil,nodup_nil,fun e he => (by cases he)⟩

def Verifiable (t cs : List Call) : Prop :=
  ∀ u c,u++[c] <+: cs → c.verifies=true → Settled (t++u) c.addr

theorem verifiable_cons {t cs : List Call} {c : Call} :
    Verifiable t (c::cs) ↔ (c.verifies=true → Settled t c.addr) ∧ Verifiable (t++[c]) cs := by
  constructor
  · intro h
    constructor
    · intro hc
      have hfirst:=h [] c ⟨cs,rfl⟩ hc
      rwa [append_nil] at hfirst
    · intro u c' hpre hc'
      rw [append_assoc]
      exact h (c::u) c' (cons_prefix_cons.mpr ⟨rfl,hpre⟩) hc'
  · intro h u c' hpre hc'
    cases u with
    | nil =>
      obtain ⟨rfl,_⟩:=cons_prefix_cons.mp hpre
      rw [append_nil]
      exact h.1 hc'
    | cons d u =>
      obtain ⟨rfl,hrest⟩:=cons_prefix_cons.mp hpre
      have hlater:=h.2 u c' hrest hc'
      rwa [append_assoc] at hlater

structure Called (t : List Call) (s : StackDistCalc) : Prop where
  matches_after : ∃ es mark,Matches (Naive.after t) es mark s
  index : s.index=(adds t).length
  stack : s.verifyStack=true → s.stack=stack (adds t)

theorem called_init (verifyStack : Bool) : Called [] (StackDistCalc.init verifyStack) where
  matches_after := by
    refine ⟨[],fun _ => false,holds_init,?_,rfl⟩
    intro a i
    constructor
    · intro h
      cases h
    · intro h
      cases h
  index := rfl
  stack := fun _ => rfl

namespace Called

variable {t cs : List Call} {c : Call} {s s' : StackDistCalc}

theorem next (h : Called t s) (hserved : Matches.Served s (Naive.after t) c s') : Called (t++[c]) s' where
  matches_after := by
    rw [after_snoc]
    exact hserved.holds
  index := by rw [hserved.index,h.index,adds_append,length_append]
  stack := by
    intro hv
    rw [hserved.verifyStack] at hv
    rw [hserved.stack,if_pos hv,h.stack hv,adds_append,LruStack.stack,LruStack.stack,foldl_append]

theorem passes_iff (h : Called t s) (hfew : (adds t).length≤2^31) : Matches.Passes s (Naive.after t) c ↔
    (s.verifyStack=true → c.verifies=true → Settled t c.addr) := by
  have hshort : (adds t).length<Infinity := lt_of_le_of_lt hfew (by decide)
  unfold Matches.Passes
  constructor
  · intro hpass hv hc
    rw [← settled_iff hshort,← h.stack hv]
    exact (hpass hv hc).symm
  · intro hsettled hv hc
    rw [h.stack hv]
    exact ((settled_iff hshort c.addr).mpr (hsettled hv hc)).symm

theorem run (cs : List Call) : ∀ {t : List Call} {s : StackDistCalc},Called t s → (adds (t++cs)).length≤2^31 →
    ((s.verifyStack=true → Verifiable t cs) → ∃ s',s.run cs = .ok (s',Naive.run (Naive.after t) cs) ∧
      Called (t++cs) s' ∧ s'.verifyStack=s.verifyStack) ∧
    (¬(s.verifyStack=true → Verifiable t cs) → s.run cs = .error .panic) := by
  induction cs with
  | nil =>
    intro t s h _
    refine ⟨fun _ => ⟨s,rfl,?_,rfl⟩,fun hfail => (hfail fun _ u c hpre => ?_).elim⟩
    · rwa [append_nil]
    · simp at hpre
  | cons c cs ih =>
    intro t s h hfew
    have hsplit : t++c::cs=t++[c]++cs := by simp
    rw [hsplit] at hfew ⊢
    have hcount : (adds (t++[c]++cs)).length=(adds t).length+(adds [c]).length+(adds cs).length := by
      rw [adds_append,adds_append,length_append,length_append]
    have hpasses:=h.passes_iff (c := c) (by omega)
    obtain ⟨es,mark,hmatches⟩:=h.matches_after
    obtain ⟨hgood,hbad⟩:=hmatches.call c (by rw [h.index]; omega)
    rw [StackDistCalc.run,verifiable_cons]
    by_cases hpass : Matches.Passes s (Naive.after t) c
    · obtain ⟨s',hcall,hserved⟩:=hgood hpass
      obtain ⟨hrest,hfail⟩:=ih (h.next hserved) hfew
      rw [hserved.verifyStack] at hrest hfail
      rw [hcall]
      constructor
      · intro hall
        obtain ⟨s'',hrun,hcalled,hverify⟩:=hrest fun hv => (hall hv).2
        rw [after_snoc] at hrun
        exact ⟨s'',by simp only [bind,Except.bind,hrun]; rfl,hcalled,hverify⟩
      · intro hall
        have hrun:=hfail fun hlater => hall fun hv => ⟨hpasses.mp hpass hv,hlater hv⟩
        simp only [bind,Except.bind,hrun]
    · rw [hbad hpass]
      constructor
      · intro hall
        exact (hpass (hpasses.mpr fun hv => (hall hv).1)).elim
      · intro _
        rfl

end Called

/-- Without verification every run gives the naive stack's results; with it, exactly the runs do in which
every check is made at a settled address. No run comes to a deleted node, or to any other fault than a
failed check. -/
theorem run_naive_iff (verifyStack : Bool) (cs : List Call) (hfew : (adds cs).length<2^31) :
    Naive.run [] cs=expected [] cs ∧
    ((∃ s,(StackDistCalc.init verifyStack).run cs = .ok (s,Naive.run [] cs)) ↔
      (verifyStack=true → ∀ t c,t++[c] <+: cs → c.verifies=true → Settled t c.addr)) ∧
    ∀ e,(StackDistCalc.init verifyStack).run cs = .error e → e = .panic := by
  obtain ⟨hgood,hbad⟩:=(called_init verifyStack).run cs (Nat.le_of_lt hfew)
  refine ⟨run_after cs [],?_,?_⟩
  · constructor
    · rintro ⟨s,hrun⟩
      by_contra hfail
      rw [hbad hfail] at hrun
      cases hrun
    · intro h
      obtain ⟨s,hrun,_⟩:=hgood h
      exact ⟨s,hrun⟩
  · intro e hrun
    by_cases h : verifyStack=true → Verifiable [] cs
    · obtain ⟨s,hok,_⟩:=hgood h
      rw [hok] at hrun
      cases hrun
    · rw [hbad h] at hrun
      exact (Except.error.inj hrun).symm

theorem run_naive_iff_marked : Naive.run [] [.update 1 true,.update 2 true,.inspect 1 true,.update 1 true] =
      expected [] [.update 1 true,.update 2 true,.inspect 1 true,.update 1 true] ∧
    ((∃ s,(StackDistCalc.init true).run [.update 1 true,.update 2 true,.inspect 1 true,.update 1 true] =
        .ok (s,Naive.run [] [.update 1 true,.update 2 true,.inspect 1 true,.update 1 true])) ↔
      (true=true → ∀ t c,t++[c] <+: [.update 1 true,.update 2 true,.inspect 1 true,.update 1 true] →
        c.verifies=true → Settled t c.addr)) ∧
    ∀ e,(StackDistCalc.init true).run [.update 1 true,.update 2 true,.inspect 1 true,.update 1 true] = .error e →
      e = .panic :=
  run_naive_iff true [.update 1 true,.update 2 true,.inspect 1 true,.update 1 true] (by decide)

/-- The debug stack still holds an address that was removed. -/
theorem removed_panics : ¬∃ s,(StackDistCalc.init true).run [.update 0 true,.update 0 false,.inspect 0 false] =
    .ok (s,Naive.run [] [.update 0 true,.update 0 false,.inspect 0 false]) := by
  have hrun : (StackDistCalc.init true).run [.update 0 true,.update 0 false,.inspect 0 false] = .error .panic := rfl
  rw [hrun]
  rintro ⟨s,hs⟩
  cases hs

end AquaGem5.StackDist
