import AquaGem5.Ruby.Network.Topology

/-!
# Routing by the tables

A router offers a destination to the links that a shortest walk starts with.
-/

namespace AquaGem5.Ruby.Topology
open Checked Walks RoutingUnit List

variable {t : Topology} {v d s : ℕ} {link : BasicLink} {entry : ℕ → Finset ℕ} {ports : List OutPort} {p : OutPort}

def Wired (t : Topology) : Prop :=
  ∀ e∈t.linkMap,(e.src<t.nodes ∧ 2*t.nodes≤e.dest) ∨ (2*t.nodes≤e.src ∧ t.nodes≤e.dest)

theorem addLink_wired {t' : Topology} {src dest : ℕ} (ht : t.Wired)
    (hlink : (src<t.nodes ∧ 2*t.nodes≤dest) ∨ (2*t.nodes ≤ src ∧ t.nodes≤dest))
    (h : t.addLink src dest link = .ok t') : t'.Wired ∧ t'.nodes=t.nodes := by
  simp only [addLink] at h
  split at h
  · split at h
    · cases h
      constructor
      · intro e he
        simp only [mem_append,mem_singleton] at he
        cases he with
        | inl he => exact ht e he
        | inr he =>
          subst he
          exact hlink
      · rfl
    · cases h
  · cases h

theorem addExtLink_wired {nodes : ℕ} {t' : Topology} {extLink : BasicExtLink nodes} (ht : t.Wired) (hn : t.nodes=nodes)
    (h : t.addExtLink extLink = .ok t') : t'.Wired ∧ t'.nodes=nodes := by
  have hlt:=extLink.extNode_lt
  obtain ⟨t1,hin,hout⟩:=bind_ok h
  obtain ⟨hw1,hn1⟩:=addLink_wired ht (by omega) hin
  obtain ⟨hw,hn'⟩:=addLink_wired hw1 (by omega) hout
  exact ⟨hw,by omega⟩

theorem foldlM_wired {α : Type} {nodes : ℕ} {f : Topology → α → Except TopologyFault Topology}
    (hf : ∀ t a t',t.Wired → t.nodes=nodes → f t a = .ok t' → t'.Wired ∧ t'.nodes=nodes)
    {l : List α} {t' : Topology} (ht : t.Wired) (hn : t.nodes=nodes) (h : l.foldlM f t = .ok t') :
    t'.Wired ∧ t'.nodes=nodes := by
  induction l generalizing t with
  | nil =>
    cases h
    exact ⟨ht,hn⟩
  | cons a l ih =>
    rw [foldlM_cons] at h
    obtain ⟨t1,ha,hl⟩:=bind_ok h
    obtain ⟨hw1,hn1⟩:=hf t a t1 ht hn ha
    exact ih hw1 hn1 hl

theorem construct_wired {nodes numRouters numVnets : ℕ} {extLinks : List (BasicExtLink nodes)}
    {intLinks : List BasicIntLink} (h : construct nodes numRouters numVnets extLinks intLinks = .ok t) : t.Wired := by
  simp only [construct] at h
  split at h
  · obtain ⟨t1,hext,hint⟩:=bind_ok h
    have hnone : (⟨nodes,numRouters,numVnets,[]⟩ : Topology).Wired := by simp [Wired]
    obtain ⟨hw1,hn1⟩:=foldlM_wired (fun _ _ _ => addExtLink_wired) hnone rfl hext
    refine (foldlM_wired (fun t a t' ht hn hadd => ?_) hw1 hn1 hint).1
    obtain ⟨hw,hn'⟩:=addLink_wired ht (by omega) hadd
    exact ⟨hw,by omega⟩
  · cases h

variable {i j : ℕ}

theorem Wired.out (ht : t.Wired) {x : ℤ} (h : t.Linked v i j x) : i<t.nodes ∨ 2*t.nodes ≤ i := by
  obtain ⟨link,hmem,_⟩:=h
  have hends:=ht _ (mem_group.mp hmem)
  simp only at hends
  omega

theorem Wired.of_walk (ht : t.Wired) {n : ℤ} (hge : t.nodes ≤ i) (hlt : i<2*t.nodes)
    (h : Walk (t.Linked v) i j n) : i=j := by
  by_cases hij : i=j
  · exact hij
  · obtain ⟨k,x,_,hlink,_⟩:=h.first hij
    have hout:=ht.out hlink
    omega

def portsOf (t : Topology) (weights dist : ℕ → ℕ → ℕ → ℤ) (i j : ℕ) : List OutPort :=
  (t.group i j).map fun link => ⟨j,linkRoute (t.routingMap weights dist i j) link,link.mWeight⟩

theorem makeLink_spec (ht : t.Wired) (routers : ℕ → List OutPort) (hgroup : t.group i j≠[])
    (weights dist : ℕ → ℕ → ℕ → ℤ) :
    ∃ routers',t.makeLink routers i j (t.routingMap weights dist i j) = .ok routers' ∧
      ∀ r q,q∈routers' r ↔ q∈routers r ∨ (i=r+2*t.nodes ∧ q∈t.portsOf weights dist i j) := by
  obtain ⟨link,hlink⟩:=exists_mem_of_ne_nil _ hgroup
  have hends:=ht _ (mem_group.mp hlink)
  simp only at hends
  have hports : 2*t.nodes ≤ i → ∀ r q,q∈t.addOutPorts routers i j (t.routingMap weights dist i j) r ↔
      q∈routers r ∨ (i=r+2*t.nodes ∧ q∈t.portsOf weights dist i j) := by
    intro hi r q
    simp only [addOutPorts,portsOf]
    by_cases hr : r=i-2*t.nodes
    · have heq : i=r+2*t.nodes := by omega
      rw [← hr,Function.update_self,mem_append]
      simp [← heq]
    · have hne : ¬i=r+2*t.nodes := by omega
      simp [Function.update_of_ne hr,hne]
  simp only [makeLink]
  rw [if_pos (by omega)]
  by_cases hin : i<t.nodes
  · rw [if_pos hin]
    refine ⟨routers,rfl,fun r q => ?_⟩
    have hne : ¬i=r+2*t.nodes := by omega
    simp [hne]
  · have hi : 2*t.nodes ≤ i := by omega
    rw [if_neg hin]
    rw [if_pos hi,if_pos (by omega : t.nodes≤j)]
    split
    · exact ⟨_,rfl,hports hi⟩
    · exact ⟨_,rfl,hports hi⟩

def Real (t : Topology) (weights : ℕ → ℕ → ℕ → ℤ) (p : ℕ × ℕ) : Prop :=
  (List.range t.vnets).any (realLink weights p.1 p.2)=true

theorem realLink_iff {weights : ℕ → ℕ → ℕ → ℤ} :
    realLink weights i j v=true ↔ 0<weights v i j ∧ weights v i j≠infiniteLatency := by
  simp [realLink]

theorem group_of_real {w : Weights} (hw : t.fillWeights = .ok w) {p : ℕ × ℕ} (h : t.Real w.topologyWeights p) :
    t.group p.1 p.2≠[] := by
  intro hnil
  simp only [Real,any_eq_true] at h
  obtain ⟨v,_,hreal⟩:=h
  have hnone : ∀ x,¬t.Linked v p.1 p.2 x := by
    intro x ⟨link,hmem,_⟩
    rw [hnil] at hmem
    cases hmem
  obtain ⟨hpos,hne⟩:=realLink_iff.mp hreal
  rw [(fillWeights_spec hw v p.1 p.2).2 hnone] at hpos hne
  split at hpos
  · exact (lt_irrefl _ hpos).elim
  · rename_i hpne
    exact hne (if_neg hpne)

theorem foldlM_makeLink (ht : t.Wired) {w : Weights} (hw : t.fillWeights = .ok w) (dist : ℕ → ℕ → ℕ → ℤ)
    (routers : ℕ → List OutPort) (l : List (ℕ × ℕ)) : ∃ routers',l.foldlM (fun routers p =>
        if (List.range t.vnets).any (realLink w.topologyWeights p.1 p.2) then
          t.makeLink routers p.1 p.2 (t.routingMap w.topologyWeights dist p.1 p.2)
        else .ok routers) routers = .ok routers' ∧
      ∀ r q,q∈routers' r ↔ q∈routers r ∨ ∃ p∈l,t.Real w.topologyWeights p ∧ p.1=r+2*t.nodes ∧
        q∈t.portsOf w.topologyWeights dist p.1 p.2 := by
  induction l generalizing routers with
  | nil => exact ⟨routers,rfl,by simp⟩
  | cons p l ih =>
    by_cases hreal : t.Real w.topologyWeights p
    · obtain ⟨routers1,hmake,hports⟩:=makeLink_spec ht routers (group_of_real hw hreal) w.topologyWeights dist
      obtain ⟨routers',hrun,hrest⟩:=ih routers1
      refine ⟨routers',?_,fun r q => ?_⟩
      · rw [foldlM_cons]
        unfold Real at hreal
        simpa [hreal,hmake,bind,Except.bind] using hrun
      · rw [hrest,hports]
        simp [hreal,or_assoc]
    · obtain ⟨routers',hrun,hrest⟩:=ih routers
      refine ⟨routers',?_,fun r q => ?_⟩
      · rw [foldlM_cons]
        unfold Real at hreal
        simpa [hreal,bind,Except.bind] using hrun
      · rw [hrest]
        simp [hreal]

structure Creates (t : Topology) (w : Weights) (c : Links) : Prop where
  small : ∀ v,Small (w.topologyWeights v)
  settled : ∀ v<t.vnets,Settled t v (c.dist v)
  port : ∀ r q,q∈c.routers r ↔ ∃ p∈t.pairs,t.Real w.topologyWeights p ∧ p.1=r+2*t.nodes ∧
    q∈t.portsOf w.topologyWeights c.dist p.1 p.2

theorem createLinks_ends (ht : t.Wired) (hpos : t.Positive) (hlight : t.Light) {w : Weights}
    (hw : t.fillWeights = .ok w) :
    ∃ rounds c,(∀ rounds'≥rounds,t.createLinks rounds' = .ok c) ∧ Creates t w c := by
  obtain ⟨rounds,dist,hends,hsettled⟩:=shortestPath_ends hpos hlight hw
  obtain ⟨routers,hrun,hports⟩:=foldlM_makeLink ht hw dist (fun _ => []) t.pairs
  refine ⟨rounds,⟨dist,routers⟩,fun rounds' hge => ?_,weights_small hpos hlight hw,hsettled,by simpa using hports⟩
  simp only [createLinks,hw,hends rounds' hge,bind,Except.bind]
  rw [hrun]

def Offers (v : ℕ) (msgDestination : Finset ℕ) (p : OutPort) : Prop := (msgDestination ∩ p.route v).Nonempty

theorem foldl_lookup (v : ℕ) (msgDestination : Finset ℕ) (ports : List OutPort) (m : ℤ) :
    let least:=ports.foldl (fun minWeight p =>
      if (msgDestination ∩ p.route v).Nonempty ∧ p.weight ≤ minWeight then p.weight else minWeight) m
    (∀ p∈ports,Offers v msgDestination p → least≤p.weight) ∧ least ≤ m ∧
      (least=m ∨ ∃ p∈ports,Offers v msgDestination p ∧ p.weight=least) := by
  induction ports generalizing m with
  | nil => simp
  | cons q ports ih =>
    simp only [foldl_cons,forall_mem_cons,exists_mem_cons_iff]
    obtain ⟨hall,hle,hmem⟩:=ih (if (msgDestination ∩ q.route v).Nonempty ∧ q.weight ≤ m then q.weight else m)
    by_cases hq : (msgDestination ∩ q.route v).Nonempty ∧ q.weight ≤ m
    · simp only [if_pos hq] at hall hle hmem ⊢
      refine ⟨⟨fun _ => hle,hall⟩,by omega,?_⟩
      cases hmem with
      | inl hmem => exact .inr (.inl ⟨hq.1,hmem.symm⟩)
      | inr hmem => exact .inr (.inr hmem)
    · simp only [if_neg hq] at hall hle hmem ⊢
      refine ⟨⟨fun hoffers => ?_,hall⟩,hle,hmem.imp_right .inr⟩
      by_cases hqle : q.weight ≤ m
      · exact (hq ⟨hoffers,hqle⟩).elim
      · omega

theorem lookup_mem {ordered : Bool} {msgDestination : Finset ℕ} {draw : ℕ}
    (h : lookupRoutingTable ports v ordered msgDestination draw = .ok p) : p∈ports ∧ Offers v msgDestination p := by
  simp only [lookupRoutingTable] at h
  split at h
  · cases h
  · rename_i q hq
    cases h
    have hmem:=mem_of_getElem? hq
    simp only [mem_filter,decide_eq_true_eq] at hmem
    exact ⟨hmem.1,hmem.2.1⟩

theorem lookup_finds {msgDestination : Finset ℕ} (hp : p∈ports) (hoffers : Offers v msgDestination p)
    (hweight : p.weight ≤ infiniteLatency) (ordered : Bool) (draw : ℕ) :
    ∃ q,lookupRoutingTable ports v ordered msgDestination draw = .ok q := by
  obtain ⟨hall,hle,hmem⟩:=foldl_lookup v msgDestination ports infiniteLatency
  have hleast : ∃ q∈ports,Offers v msgDestination q ∧ q.weight=lookupWeight ports v msgDestination := by
    cases hmem with
    | inl hmem =>
      have hpw:=hall p hp hoffers
      exact ⟨p,hp,hoffers,by simp only [lookupWeight]; omega⟩
    | inr hmem => exact hmem
  obtain ⟨q,hq,hqoffers,hqw⟩:=hleast
  have hcandidate : q∈ports.filter fun p =>
      (msgDestination ∩ p.route v).Nonempty ∧ p.weight=lookupWeight ports v msgDestination := by
    simp only [mem_filter,decide_eq_true_eq]
    exact ⟨hq,hqoffers,hqw⟩
  have hlt:=length_pos_of_mem hcandidate
  simp only [lookupRoutingTable]
  split
  · rename_i hnone
    rw [getElem?_eq_none_iff] at hnone
    have hmod:=Nat.mod_lt draw hlt
    split at hnone <;> omega
  · exact ⟨_,rfl⟩

/-- Whatever the lookups choose, each of them finds a route, the packet comes nearer with every hop, and in
the end it is at its destination. -/
inductive Delivers (t : Topology) (c : Links) (v d : ℕ) : ℕ → Prop
  | arrived : Delivers t c v d (d+t.nodes)
  | hop (s : ℕ) : 2*t.nodes ≤ s →
    (∀ ordered draw,∃ p,lookupRoutingTable (c.routers (s-2*t.nodes)) v ordered {d} draw = .ok p) →
    (∀ ordered draw p,lookupRoutingTable (c.routers (s-2*t.nodes)) v ordered {d} draw = .ok p →
      c.dist v p.dest (d+t.nodes)<c.dist v s (d+t.nodes)) →
    (∀ ordered draw p,lookupRoutingTable (c.routers (s-2*t.nodes)) v ordered {d} draw = .ok p →
      Delivers t c v d p.dest) → Delivers t c v d s

section Delivery

variable {w : Weights} {c : Links}

theorem offers_iff : Offers v {d} p ↔ d∈p.route v := by
  simp [Offers,Finset.Nonempty]

theorem mem_routingMap {weights dist : ℕ → ℕ → ℕ → ℤ} {i j : ℕ} (hw : Small (weights v)) (hd : Small (dist v)) :
    d∈t.routingMap weights dist i j v ↔
    realLink weights i j v=true ∧ d<t.nodes ∧ weights v i j+dist v j (d+t.nodes)=dist v i (d+t.nodes) := by
  simp only [routingMap]
  split
  · rename_i hreal
    simp [shortestPathToNode,linkIsShortestPathToNode,sum32_eq (hw i j) (hd j _),hreal]
  · rename_i hreal
    simp [hreal]

theorem mem_linkRoute : d∈linkRoute entry link v → d∈entry v := by
  intro h
  simp only [linkRoute] at h
  split at h
  · exact h
  · dsimp only at h
    split at h
    · exact h
    · simp at h

theorem linkRoute_of_supports (h : link.supports t.vnets v) : linkRoute entry link v=entry v := by
  simp only [linkRoute]
  split
  · rfl
  · rename_i hne
    simp only [List.isEmpty_iff] at hne
    exact if_pos (h.2.resolve_left hne)

theorem hop_decreases (hc : Creates t w c) (hv : v<t.vnets) (hp : p∈c.routers (s-2*t.nodes)) (hs : 2*t.nodes ≤ s)
    (hd : d∈p.route v) : c.dist v p.dest (d+t.nodes)<c.dist v s (d+t.nodes) ∧ ∃ link,link∈t.group s p.dest := by
  obtain ⟨⟨i,j⟩,_,_,hi,hport⟩:=(hc.port _ _).mp hp
  simp only [portsOf,mem_map] at hport
  obtain ⟨link,hlink,rfl⟩:=hport
  have his : i=s := by simp only at hi; omega
  subst his
  obtain ⟨hreal,_,hsum⟩:=(mem_routingMap (hc.small v) (hc.settled v hv).small).mp (mem_linkRoute hd)
  obtain ⟨hpos,_⟩:=realLink_iff.mp hreal
  exact ⟨by simp only; omega,link,hlink⟩

theorem exists_offer (ht : t.Wired) (hpos : t.Positive) (hb : t.Bounded) (hw : t.fillWeights = .ok w)
    (hc : Creates t w c) (hv : v<t.vnets) (hd : d<t.nodes) (hs : 2*t.nodes ≤ s) {n : ℤ}
    (hwalk : Walk (t.Linked v) s (d+t.nodes) n) :
    ∃ p∈c.routers (s-2*t.nodes),d∈p.route v ∧ p.weight ≤ infiniteLatency := by
  have hsettled:=hc.settled v hv
  have hlinkpos : ∀ i j x,t.Linked v i j x → 0<x := fun _ _ _ h => h.pos hpos
  obtain ⟨m,hm⟩:=exists_shortest hlinkpos hwalk
  have hne : s≠d+t.nodes := by omega
  obtain ⟨k,x,rest,hlinked,hrest,hsum⟩:=hm.1.first hne
  have hdist:=(hsettled.exact_ne hb hv hne).1 m hm
  have hbound:=hb v hv _ _ m hm
  have hself : ∀ y,¬t.Linked v (d+t.nodes) (d+t.nodes) y := by
    intro y hy
    have hout:=ht.out hy
    omega
  -- the rest of a shortest walk is a shortest walk
  have hk : c.dist v k (d+t.nodes)≤rest := by
    by_cases hkd : k=d+t.nodes
    · rw [hkd,hsettled.self _ hself]
      exact hrest.nonneg hlinkpos
    · obtain ⟨m',hm'⟩:=exists_shortest hlinkpos hrest
      rw [(hsettled.exact_ne hb hv hkd).1 m' hm']
      exact hm'.2 rest hrest
  have hends:=hlinked.ends
  have htriangle:=hsettled.closed s hends.1 _ (hrest.last_mem (fun _ _ _ h => h.ends) hends.2) k hends.2
  have hsk:=hsettled.estimate.link s k x hlinked
  have hnonneg:=hsettled.estimate.nonneg k (d+t.nodes)
  have hx:=hlinkpos _ _ _ hlinked
  obtain ⟨link,hlink,hsupports,hweight⟩:=id hlinked
  have hcell:=(fillWeights_spec hw v s k).1 x hlinked
  have hreal : realLink w.topologyWeights s k v=true := realLink_iff.mpr ⟨by omega,by omega⟩
  have hroute : d∈t.routingMap w.topologyWeights c.dist s k v :=
    (mem_routingMap (hc.small v) hsettled.small).mpr ⟨hreal,hd,by omega⟩
  have hmem : (⟨k,linkRoute (t.routingMap w.topologyWeights c.dist s k) link,link.mWeight⟩ : OutPort) ∈
      t.portsOf w.topologyWeights c.dist s k := mem_map.mpr ⟨link,hlink,rfl⟩
  have hpair : t.Real w.topologyWeights (s,k) :=
    any_eq_true.mpr ⟨v,mem_range.mpr hv,hreal⟩
  refine ⟨_,(hc.port _ _).mpr ⟨(s,k),mem_pairs.mpr (lt_numSwitches hlink),hpair,by simp only; omega,hmem⟩,?_,?_⟩
  · simp only [linkRoute_of_supports hsupports]
    exact hroute
  · simp only
    omega

theorem delivers_of_walk (ht : t.Wired) (hpos : t.Positive) (hb : t.Bounded) (hw : t.fillWeights = .ok w)
    (hc : Creates t w c) (hv : v<t.vnets) (hd : d<t.nodes) (hs : 2*t.nodes ≤ s) {n : ℤ}
    (hwalk : Walk (t.Linked v) s (d+t.nodes) n) : Delivers t c v d s := by
  induction hk : (c.dist v s (d+t.nodes)).toNat using Nat.strong_induction_on generalizing s n with
  | h k ih =>
    obtain ⟨q,hq,hqd,hqw⟩:=exists_offer ht hpos hb hw hc hv hd hs hwalk
    have hnearer : ∀ ordered draw p,lookupRoutingTable (c.routers (s-2*t.nodes)) v ordered {d} draw = .ok p →
        c.dist v p.dest (d+t.nodes)<c.dist v s (d+t.nodes) ∧ ∃ link,link∈t.group s p.dest := by
      intro ordered draw p hp
      obtain ⟨hmem,hoffers⟩:=lookup_mem hp
      exact hop_decreases hc hv hmem hs (offers_iff.mp hoffers)
    refine .hop s hs (lookup_finds hq (offers_iff.mpr hqd) hqw) (fun ordered draw p hp => (hnearer ordered draw p hp).1) ?_
    intro ordered draw p hp
    obtain ⟨hlt,link,hlink⟩:=hnearer ordered draw p hp
    have hsettled:=hc.settled v hv
    -- the next switch is nearer than infinity, so a walk leads on from it
    have hne : s≠d+t.nodes := by omega
    obtain ⟨m,hm⟩:=exists_shortest (fun _ _ _ h => h.pos hpos) hwalk
    have hdist:=(hsettled.exact_ne hb hv hne).1 m hm
    have hbound:=hb v hv _ _ m hm
    have hon:=hsettled.estimate.walk p.dest (d+t.nodes) (by omega)
    have hnonneg:=hsettled.estimate.nonneg p.dest (d+t.nodes)
    have hends:=ht _ (mem_group.mp hlink)
    simp only at hends
    by_cases hrouter : 2*t.nodes≤p.dest
    · exact ih _ (by omega) hrouter hon rfl
    · rw [ht.of_walk (by omega) (by omega) hon]
      exact .arrived

end Delivery

structure RoutesShortest (t : Topology) (c : Links) : Prop where
  exact : ∀ v<t.vnets,t.Exact v (c.dist v)
  delivers : ∀ v<t.vnets,∀ d<t.nodes,∀ r,(∃ n,Walk (t.Linked v) (r+2*t.nodes) (d+t.nodes) n) →
    Delivers t c v d (r+2*t.nodes)

/-- Unless the weights are so large that a sum of two could wrap, the loops end with shortest-path routing tables
exactly when no link leads from a switch to itself. -/
theorem routes_shortest_iff {nodes numRouters numVnets : ℕ} {extLinks : List (BasicExtLink nodes)}
    {intLinks : List BasicIntLink} (ht : construct nodes numRouters numVnets extLinks intLinks = .ok t)
    (hpos : t.Positive) (hlight : t.Light) (hb : t.Bounded) (hw : ∃ w,t.fillWeights = .ok w) :
    (∃ rounds c,(∀ rounds'≥rounds,t.createLinks rounds' = .ok c) ∧ t.RoutesShortest c) ↔
      ∀ v<t.vnets,∀ i x,¬t.Linked v i i x := by
  have hwired:=construct_wired ht
  obtain ⟨w,hw⟩:=hw
  obtain ⟨rounds,c,hends,hc⟩:=createLinks_ends hwired hpos hlight hw
  constructor
  · intro ⟨rounds',c',hends',hroutes⟩ v hv
    have hsame:=(hends (max rounds rounds') (by omega)).symm.trans (hends' (max rounds rounds') (by omega))
    cases hsame
    exact ((hc.settled v hv).exact_iff hpos hb hv).mp (hroutes.exact v hv)
  · intro hself
    refine ⟨rounds,c,hends,fun v hv => ?_,fun v hv d hd r hreach => ?_⟩
    · exact ((hc.settled v hv).exact_iff hpos hb hv).mpr (hself v hv)
    · obtain ⟨n,hn⟩:=hreach
      exact delivers_of_walk hwired hpos hb hw hc hv hd (by omega) hn

theorem bounded_of_rank {f : ℕ → ℤ} (hf : ∀ i,0≤f i ∧ f i < infiniteLatency)
    (hlink : ∀ e∈t.linkMap,e.src=e.dest ∨ e.link.mWeight+f e.dest≤f e.src) : t.Bounded := by
  have hwalk : ∀ v i j n,Walk (t.Linked v) i j n → ∃ m≤f i,Walk (t.Linked v) i j m := by
    intro v i j n h
    induction h with
    | nil i => exact ⟨0,(hf i).1,.nil i⟩
    | cons i k j x n hlinked _ ih =>
      obtain ⟨m,hm,hrest⟩:=ih
      obtain ⟨link,hmem,hsupports,hx⟩:=id hlinked
      cases hlink _ (mem_group.mp hmem) with
      | inl hself =>
        have hik : i=k := hself
        exact ⟨m,hik ▸ hm,hik ▸ hrest⟩
      | inr hle =>
        simp only [hx] at hle
        exact ⟨x+m,by omega,.cons i k j x m hlinked hrest⟩
  intro v _ i j n hn
  obtain ⟨m,hm,hmwalk⟩:=hwalk v i j n hn.1
  have hle:=hn.2 m hmwalk
  have hi:=hf i
  omega

def unitLink : BasicLink := ⟨1,1,[]⟩

def oneRouter (loops : List LinkEntry) : Topology :=
  ⟨2,1,1,[⟨0,4,unitLink⟩,⟨4,2,unitLink⟩,⟨1,4,unitLink⟩,⟨4,3,unitLink⟩]++loops⟩

theorem construct_oneRouter (intLinks : List BasicIntLink) (loops : List LinkEntry)
    (h : intLinks.foldlM addIntLink (oneRouter []) = .ok (oneRouter loops)) :
    construct 2 1 1 [⟨0,0,unitLink,by decide⟩,⟨1,0,unitLink,by decide⟩] intLinks = .ok (oneRouter loops) := h

def oneRouterRank (i : ℕ) : ℤ := if i<2 then 2 else if i=4 then 1 else 0

theorem oneRouter_bounded {loops : List LinkEntry} (h : ∀ e∈loops,e.src=e.dest) : (oneRouter loops).Bounded := by
  have hrank : ∀ i,0≤oneRouterRank i ∧ oneRouterRank i < infiniteLatency := by
    intro i
    simp only [oneRouterRank,infiniteLatency]
    split
    · omega
    · split <;> omega
  apply bounded_of_rank hrank
  intro e he
  cases mem_append.mp he with
  | inl he =>
    have hall : ∀ e∈([⟨0,4,unitLink⟩,⟨4,2,unitLink⟩,⟨1,4,unitLink⟩,⟨4,3,unitLink⟩] : List LinkEntry),
        e.link.mWeight+oneRouterRank e.dest≤oneRouterRank e.src := by decide
    exact .inr (hall e he)
  | inr he => exact .inl (h e he)

/-- The router with a link to itself is not at distance zero from itself. -/
theorem routes_not_shortest : ∃ t,
    construct 2 1 1 [⟨0,0,unitLink,by decide⟩,⟨1,0,unitLink,by decide⟩] [⟨0,0,unitLink⟩] = .ok t ∧
    t.Positive ∧ t.Light ∧ t.Bounded ∧ Shortest (t.Linked 0) 4 4 0 ∧
    ∃ rounds c,(∀ rounds'≥rounds,t.createLinks rounds' = .ok c) ∧ c.dist 0 4 4≠0 ∧ ¬t.RoutesShortest c := by
  have hpos : (oneRouter [⟨4,4,unitLink⟩]).Positive := by
    unfold Positive
    decide
  have hlight : (oneRouter [⟨4,4,unitLink⟩]).Light := by
    unfold Light
    decide
  have hb : (oneRouter [⟨4,4,unitLink⟩]).Bounded := oneRouter_bounded (by decide)
  have hw : ∃ w,(oneRouter [⟨4,4,unitLink⟩]).fillWeights = .ok w := ⟨_,rfl⟩
  have ht:=construct_oneRouter [⟨0,0,unitLink⟩] [⟨4,4,unitLink⟩] rfl
  obtain ⟨w,hw⟩:=hw
  obtain ⟨rounds,c,hends,hc⟩:=createLinks_ends (construct_wired ht) hpos hlight hw
  have hv : 0<(oneRouter [⟨4,4,unitLink⟩]).vnets := by decide
  have hself : (oneRouter [⟨4,4,unitLink⟩]).Linked 0 4 4 1 := ⟨unitLink,by decide,⟨hv,.inl rfl⟩,rfl⟩
  have hdist:=(hc.settled 0 hv).estimate.positive 4 4 (.inr ⟨1,hself⟩)
  refine ⟨_,ht,hpos,hlight,hb,shortest_self (fun _ _ _ h => h.pos hpos) 4,rounds,c,hends,by omega,fun hroutes => ?_⟩
  exact ((hc.settled 0 hv).exact_iff hpos hb hv).mp (hroutes.exact 0 hv) 4 1 hself

theorem routes_shortest_oneRouter : ∃ rounds c,
    (∀ rounds'≥rounds,(oneRouter []).createLinks rounds' = .ok c) ∧ (oneRouter []).RoutesShortest c := by
  have hpos : (oneRouter []).Positive := by
    unfold Positive
    decide
  have hlight : (oneRouter []).Light := by
    unfold Light
    decide
  have hnoloop : ∀ v<(oneRouter []).vnets,∀ i x,¬(oneRouter []).Linked v i i x := by
    intro v _ i x hlinked
    have hall : ∀ e∈(oneRouter []).linkMap,e.src≠e.dest := by decide
    obtain ⟨link,hmem,_⟩:=hlinked
    exact hall _ (mem_group.mp hmem) rfl
  exact (routes_shortest_iff (construct_oneRouter [] [] rfl) hpos hlight (oneRouter_bounded (by simp)) ⟨_,rfl⟩).mpr hnoloop

end AquaGem5.Ruby.Topology
