import AquaGem5.StackDist.Growth
import AquaGem5.StackDist.Naive

/-! # Leaves of the tree and entries of the stack -/

namespace AquaGem5.StackDist
open List
open Address (Addr)
open StackDistCalc (stackDistance)
open Checked Dyadic

abbrev Entry := Addr × ℕ

def live (es : List Entry) : Finset ℕ := (es.map Prod.snd).toFinset

structure Entries (n : ℕ) (es : List Entry) : Prop where
  sorted : es.Pairwise fun e e' => e'.2<e.2
  nodup : (es.map Prod.fst).Nodup
  bound : ∀ e∈es,e.2<n

def without (es : List Entry) (a : Addr) : List Entry := es.filter fun e => e.1 != a

section Entries

variable {n i j : ℕ} {es : List Entry} {a : Addr}

theorem mem_live : i∈live es ↔ ∃ a,(a,i)∈es := by
  rw [live,mem_toFinset,mem_map]
  constructor
  · rintro ⟨e,he,rfl⟩
    exact ⟨e.1,he⟩
  · rintro ⟨a,ha⟩
    exact ⟨_,ha,rfl⟩

theorem live_cons (es : List Entry) (a : Addr) (n : ℕ) : live ((a,n)::es)=insert n (live es) := by
  rw [live,map_cons,toFinset_cons]
  rfl

theorem mem_without {e : Entry} : e∈without es a ↔ e∈es ∧ e.1≠a := by
  rw [without,mem_filter]
  simp

theorem without_of_not_mem (h : a∉es.map Prod.fst) : without es a=es := by
  apply filter_eq_self.mpr
  intro e he
  have hne : e.1≠a := fun heq => h (heq ▸ mem_map_of_mem he)
  simpa using hne

namespace Entries

theorem filter (h : Entries n es) (a : Addr) : Entries n (without es a) where
  sorted := h.sorted.filter _
  nodup := h.nodup.sublist (List.filter_sublist.map _)
  bound := fun e he => h.bound e (mem_without.mp he).1

theorem cons (h : Entries n es) (ha : a∉es.map Prod.fst) : Entries (n+1) ((a,n)::es) where
  sorted := List.pairwise_cons.mpr ⟨h.bound,h.sorted⟩
  nodup := List.nodup_cons.mpr ⟨ha,h.nodup⟩
  bound := by
    intro e he
    rcases mem_cons.mp he with rfl | he
    · exact Nat.lt_succ_self n
    · exact Nat.lt_succ_of_lt (h.bound e he)

theorem lt (h : Entries n es) (hi : i∈live es) : i<n := by
  obtain ⟨a,ha⟩:=mem_live.mp hi
  exact h.bound _ ha

theorem split (h : Entries n es) (hmem : (a,i)∈es) : ∃ ys zs,es=ys++(a,i)::zs ∧ a∉ys.map Prod.fst ∧
    a∉zs.map Prod.fst ∧ (∀ e∈ys,i<e.2) ∧ (∀ e∈zs,e.2 < i) ∧ (ys.map Prod.snd).Nodup := by
  obtain ⟨ys,zs,rfl⟩:=append_of_mem hmem
  have hnodup:=h.nodup
  rw [map_append,map_cons,nodup_append,nodup_cons] at hnodup
  obtain ⟨_,⟨hzs,_⟩,hdisj⟩:=hnodup
  obtain ⟨hys,hrest,hacross⟩:=pairwise_append.mp h.sorted
  refine ⟨ys,zs,rfl,fun ha => hdisj a ha a mem_cons_self rfl,hzs,
    fun e he => hacross e he (a,i) mem_cons_self,(pairwise_cons.mp hrest).1,?_⟩
  exact pairwise_map.mpr (hys.imp fun hlt => (Nat.ne_of_lt hlt).symm)

theorem unique (h : Entries n es) (hi : (a,i)∈es) (hj : (a,j)∈es) : i=j := by
  obtain ⟨ys,zs,rfl,hys,hzs,_⟩:=h.split hi
  rcases mem_append.mp hj with hj | hj
  · exact (hys (mem_map_of_mem hj)).elim
  · rcases mem_cons.mp hj with hj | hj
    · exact (Prod.ext_iff.mp hj).2.symm
    · exact (hzs (mem_map_of_mem hj)).elim

theorem unique_addr {b : Addr} (h : Entries n es) (ha : (a,i)∈es) (hb : (b,i)∈es) : b=a := by
  obtain ⟨ys,zs,rfl,_,_,hafter,hbefore,_⟩:=h.split ha
  rcases mem_append.mp hb with hb | hb
  · exact (Nat.lt_irrefl _ (hafter _ hb)).elim
  · rcases mem_cons.mp hb with hb | hb
    · exact (Prod.ext_iff.mp hb).1
    · exact (Nat.lt_irrefl _ (hbefore _ hb)).elim

theorem card_after (h : Entries n es) (hmem : (a,i)∈es) :
    ((live es).filter fun j => i<j).card=stackDistance (es.map Prod.fst) a := by
  obtain ⟨ys,zs,rfl,hys,_,hafter,hbefore,hnodup⟩:=h.split hmem
  have hset : (live (ys++(a,i)::zs)).filter (fun j => i<j)=live ys := by
    ext j
    rw [Finset.mem_filter,mem_live,mem_live]
    constructor
    · rintro ⟨⟨b,hb⟩,hlt⟩
      rcases mem_append.mp hb with hb | hb
      · exact ⟨b,hb⟩
      · rcases mem_cons.mp hb with hb | hb
        · have heq : j=i := (Prod.ext_iff.mp hb).2
          omega
        · have hgt:=hbefore _ hb
          exact (Nat.lt_asymm hlt hgt).elim
    · rintro ⟨b,hb⟩
      exact ⟨⟨b,mem_append_left _ hb⟩,hafter _ hb⟩
  rw [hset,live,toFinset_card_of_nodup hnodup,length_map,map_append,map_cons,
    stackDistance_append hys,length_map]

theorem live_without (h : Entries n es) (hmem : (a,i)∈es) : live (without es a)=(live es).erase i := by
  ext j
  rw [Finset.mem_erase,mem_live,mem_live]
  constructor
  · rintro ⟨b,hb⟩
    obtain ⟨hb,hne⟩:=mem_without.mp hb
    refine ⟨?_,b,hb⟩
    rintro rfl
    exact hne (h.unique_addr hmem hb)
  · rintro ⟨hne,b,hb⟩
    refine ⟨b,mem_without.mpr ⟨hb,?_⟩⟩
    rintro rfl
    exact hne (h.unique hb hmem)

end Entries

end Entries

structure Tree.SameAbove (t t' : Tree) : Prop where
  depth : t'.depth=t.depth
  heap : ∀ l k,t'.heap (l+1,k)=t.heap (l+1,k)
  layer : ∀ l k,t'.layer (l+1) k=t.layer (l+1) k
  nextIndex : ∀ l,t'.nextIndex (l+1)=t.nextIndex (l+1)

section Layer

variable {n sz i : ℕ} {size : ℕ → ℕ} {T : ℕ → Finset ℕ} {t t' : Tree} {S : Finset ℕ}

theorem Sound.of_above (h : Sound n size T t) (ha : t.SameAbove t')
    (hleaf : ∀ k,t'.layer 0 k=if (t'.heap (0,k)).isSome then some (0,k) else none) : Sound n size T t' where
  depth_pos := by
    rw [ha.depth]
    exact h.depth_pos
  layer := by
    intro l k
    cases l with
    | zero => exact hleaf k
    | succ l =>
      rw [ha.layer,ha.heap]
      exact h.layer (l+1) k
  nextIndex := by
    intro l hl
    rw [ha.nextIndex]
    exact h.nextIndex l (ha.depth ▸ hl)
  node := by
    intro l k nd hl hk hnd
    rw [ha.depth] at hl ⊢
    rw [ha.nextIndex] at hk
    rw [ha.heap] at hnd
    exact h.node l k nd hl hk hnd
  gone := by
    intro l k hl hk hnone
    rw [ha.depth] at hl
    rw [ha.nextIndex] at hk
    rw [ha.heap] at hnone
    exact h.gone l k hl hk hnone
  root := by
    obtain ⟨d,hd⟩ : ∃ d,t.depth=d+1 := ⟨t.depth-1,by have := h.depth_pos; omega⟩
    have hroot:=h.root
    rw [hd] at hroot
    rw [ha.depth,hd,ha.heap]
    exact hroot
  top := by
    intro l k hl
    obtain ⟨l',rfl⟩ : ∃ l',l=l'+1 := ⟨l-1,by omega⟩
    rw [ha.heap]
    exact h.top (l'+1) k (ha.depth ▸ hl)

theorem Sound.mono {n' : ℕ} (h : Sound n size T t) (hn : n≤n') : Sound n' size T t where
  depth_pos := h.depth_pos
  layer := h.layer
  nextIndex := h.nextIndex
  node := by
    intro l k nd hl hk hnd
    have hfits:=h.node l k nd hl hk hnd
    exact {
      nodeIndex := hfits.nodeIndex
      isLeftNode := hfits.isLeftNode
      parent := hfits.parent
      sumLeft := hfits.sumLeft
      sumRight := hfits.sumRight
      discardLeft := fun hd => (hfits.discardLeft hd).mono hn
      discardRight := fun hd => (hfits.discardRight hd).mono hn}
  gone := fun l k hl hk hnone => (h.gone l k hl hk hnone).mono hn
  root := h.root
  top := h.top

theorem Sound.create_leaf (h : Sound n size T t) (nd : Node) : Sound n size T (t.create 0 (t.nextIndex 0) nd) := by
  apply h.of_above
  · exact {
      depth := rfl
      heap := fun l k => by rw [Tree.create_heap,if_neg (by omega)]
      layer := fun l k => by rw [Tree.create_layer,if_neg (by omega)]
      nextIndex := fun l => by rw [Tree.create_nextIndex,if_neg (by omega)]}
  · intro k
    rw [Tree.create_layer,Tree.create_heap,h.layer]
    by_cases hk : k=t.nextIndex 0 <;> simp [hk]

theorem Sound.store_leaf (h : Sound n size T t) (hthere : (t.heap (0,i)).isSome) (nd : Node) :
    Sound n size T (t.store (0,i) nd) := by
  apply h.of_above
  · exact {
      depth := rfl
      heap := fun l k => by rw [Tree.store_heap,if_neg (by omega)]
      layer := fun _ _ => rfl
      nextIndex := fun _ => rfl}
  · intro k
    have hlayer : (t.store (0,i) nd).layer 0 k=t.layer 0 k := rfl
    rw [hlayer,Tree.store_heap,h.layer]
    by_cases hk : k=i
    · subst hk
      simp [hthere]
    · simp [hk]

theorem Sound.delete_leaf (h : Sound n size T t) (i : ℕ) : Sound n size T ((t.delete (0,i)).put 0 i none) := by
  have hheap : ∀ l k,((t.delete (0,i)).put 0 i none).heap (l,k)=if l=0 ∧ k=i then none else t.heap (l,k) :=
    fun l k => Tree.delete_heap t 0 i l k
  apply h.of_above
  · exact {
      depth := rfl
      heap := fun l k => by rw [hheap,if_neg (by omega)]
      layer := by
        intro l k
        rw [Tree.put_layer,if_neg (by omega)]
        rfl
      nextIndex := fun _ => rfl}
  · intro k
    have hlayer : (t.delete (0,i)).layer 0 k=t.layer 0 k := rfl
    rw [Tree.put_layer,hheap,hlayer,h.layer]
    by_cases hk : k=i <;> simp [hk]

theorem Sound.updateSum_leaf (h : Sound n (fun _ => sz) (fun _ => S) t) (S' : Finset ℕ) (verifyStack : Bool)
    (hoff : ∀ j,j≠i → (j∈S' ↔ j∈S)) (hi : i<sz) (hlive : i∈S ∨ n ≤ i) (hdepth : t.depth≤31)
    (hpow : sz≤2^t.depth) (hS : ∀ j∈S',j<sz) (discardNode : Bool)
    (hdiscard : discardNode=true → Closed n S' 0 i) {sum : ℕ} (hsum : sum=count S' 0 i) :
    ∃ t',Sound n (fun _ => sz) (fun _ => S') t' ∧ t'.depth=t.depth ∧ t'.nextIndex=t.nextIndex ∧
      (∀ j,t'.heap (0,j)=t.heap (0,j)) ∧
      t.updateSum verifyStack t.depth (some (1,i/2)) (i%2 == 0) sum 0 0 discardNode =
        .ok (t',(S'.filter fun j => i<j).card) := by
  have hpos:=h.depth_pos
  have hstart : Sound n (fun _ => sz) (upTo 0 S' S) t := h.congr fun l _ => upTo_old (Nat.zero_le l) S' S
  obtain ⟨t',hsound,hdepth',hnext,hleaf,hrun⟩:=hstart.updateSum hoff verifyStack hi hlive (t.depth-1)
    discardNode hdepth (by omega) (by rw [Nat.pow_zero,Nat.div_one]; exact hdiscard)
  refine ⟨t',hsound,hdepth',hnext,hleaf,?_⟩
  rw [Nat.sub_add_cancel hpos,Nat.pow_zero,Nat.div_one,after_zero,
    after_all (fun j hj => Nat.lt_of_lt_of_le (hS j hj) hpow) (Nat.lt_of_lt_of_le hi hpow)] at hrun
  rw [hsum]
  exact hrun

theorem Sound.getSum_leaf (h : Sound n (fun _ => sz) (fun _ => S) t) (hi : i∈S) (hpow : sz≤2^t.depth)
    (hS : ∀ j∈S,j<sz) : t.getSum t.depth (some (1,i/2)) (i%2 == 0) 0 0 0 = .ok (S.filter fun j => i<j).card := by
  have hpos:=h.depth_pos
  have hrun:=h.getSum (hS i hi) hi (t.depth-1) (m := 0) 0 0 (by omega)
  rw [Nat.sub_add_cancel hpos,Nat.pow_zero,Nat.div_one,after_zero,
    after_all (fun j hj => Nat.lt_of_lt_of_le (hS j hj) hpow) (Nat.lt_of_lt_of_le (hS i hi) hpow)] at hrun
  exact hrun

end Layer

end AquaGem5.StackDist
