import Mathlib.Data.Finset.Filter
import Mathlib.Data.Finset.Lattice.Basic
import Mathlib.Data.Finset.Range
import AquaGem5.Lib.Checked
import AquaGem5.Lib.Walks

/-!
# The topology of a network and its routing tables (Topology.cc, RoutingUnit.cc)

The first `nodes` switches are the links into the network, the next `nodes` are its output queues, and the
routers follow. The link map is kept as the list of its links in the order they were added, so that the entry
of a pair of switches is what the list has for them. The sums of distances wrap as `int` does, and a `while`
loop has a number of rounds in which it has to end.
-/

namespace AquaGem5.Ruby
open Checked Walks

inductive TopologyFault where
  | assertion
  /-- "Two links connecting same src and destination cannot support same vnets". -/
  | sameVnets
  /-- "Not enough virtual networks". -/
  | notEnoughVnets
  /-- "No Route exists from this Router". -/
  | noRoute
  /-- The loop has not ended yet. -/
  | unfinished

def infiniteLatency : ℤ := 10000

structure BasicLink where
  mLatency : ℤ
  mWeight : ℤ
  mVnets : List ℕ
  deriving DecidableEq

structure BasicExtLink (nodes : ℕ) where
  extNode : ℕ
  intNode : ℕ
  link : BasicLink
  extNode_lt : extNode<nodes

structure BasicIntLink where
  srcNode : ℕ
  dstNode : ℕ
  link : BasicLink

structure LinkEntry where
  src : ℕ
  dest : ℕ
  link : BasicLink

structure Topology where
  nodes : ℕ
  numberOfSwitches : ℕ
  vnets : ℕ
  linkMap : List LinkEntry

def BasicLink.supports (link : BasicLink) (vnets v : ℕ) : Prop := v<vnets ∧ (link.mVnets=[] ∨ v∈link.mVnets)

namespace Topology

/-- The links of one pair, `m_link_map[src_dest]`. -/
def group (t : Topology) (src dest : ℕ) : List BasicLink :=
  (t.linkMap.filter fun e => e.src=src ∧ e.dest=dest).map (·.link)

def addLink (t : Topology) (src dest : ℕ) (link : BasicLink) : Except TopologyFault Topology :=
  if src≤t.numberOfSwitches+t.nodes+t.nodes then
    if dest≤t.numberOfSwitches+t.nodes+t.nodes then .ok {t with linkMap := t.linkMap++[⟨src,dest,link⟩]}
    else .error .assertion
  else .error .assertion

def addExtLink {nodes : ℕ} (t : Topology) (extLink : BasicExtLink nodes) : Except TopologyFault Topology := do
  let extIdx1 := extLink.extNode
  let extIdx2 := extIdx1+t.nodes
  let intIdx := extLink.intNode+2*t.nodes
  let t ← t.addLink extIdx1 intIdx extLink.link
  t.addLink intIdx extIdx2 extLink.link

def addIntLink (t : Topology) (intLink : BasicIntLink) : Except TopologyFault Topology :=
  t.addLink (intLink.srcNode+2*t.nodes) (intLink.dstNode+2*t.nodes) intLink.link

def construct (nodes numRouters numVnets : ℕ) (extLinks : List (BasicExtLink nodes)) (intLinks : List BasicIntLink) :
    Except TopologyFault Topology :=
  if 1<nodes then do
    let t ← extLinks.foldlM addExtLink ⟨nodes,numRouters,numVnets,[]⟩
    intLinks.foldlM addIntLink t
  else .error .assertion

/-- The matrices that the links fill in, and the virtual networks done for the pair at hand. -/
structure Weights where
  topologyWeights : ℕ → ℕ → ℕ → ℤ
  componentLatencies : ℕ → ℕ → ℕ → ℤ
  vnetDone : ℕ → Bool

def setVnet (src dst : ℕ) (link : BasicLink) (s : Weights) (v : ℕ) : Except TopologyFault Weights :=
  if s.vnetDone v then .error .sameVnets
  else .ok ⟨Function.update s.topologyWeights v (assign (s.topologyWeights v) src dst link.mWeight),
    Function.update s.componentLatencies v (assign (s.componentLatencies v) src dst link.mLatency),
    Function.update s.vnetDone v true⟩

def fillLink (t : Topology) (src dst : ℕ) (s : Weights) (link : BasicLink) : Except TopologyFault Weights :=
  if link.mVnets.isEmpty then (List.range t.vnets).foldlM (setVnet src dst link) s
  else link.mVnets.foldlM (fun s vnet => if t.vnets≤vnet then .error .notEnoughVnets else setVnet src dst link s vnet) s

def fillGroup (t : Topology) (s : Weights) (srcDest : ℕ × ℕ) : Except TopologyFault Weights :=
  (t.group srcDest.1 srcDest.2).foldlM (t.fillLink srcDest.1 srcDest.2) {s with vnetDone := fun _ => false}

def numSwitches (t : Topology) : ℕ := t.linkMap.foldl (fun m e => max (max m e.src) e.dest) 0+1

def pairs (t : Topology) : List (ℕ × ℕ) := (List.range t.numSwitches).product (List.range t.numSwitches)

/-- The identity weights are zero, and there are no links yet. -/
def identityWeights : Weights := ⟨fun _ i j => if i=j then 0 else infiniteLatency,fun _ _ _ => -1,fun _ => false⟩

def fillWeights (t : Topology) : Except TopologyFault Weights := t.pairs.foldlM t.fillGroup identityWeights

structure Paths where
  currentDist : ℕ → ℕ → ℤ
  latencies : ℕ → ℕ → ℤ
  interSwitches : ℕ → ℕ → ℤ

structure Scan where
  minimum : ℤ
  intermediateSwitch : Option ℕ
  interSwitches : ℕ → ℕ → ℤ

/-- The sum of two `int`s. -/
def sum32 (x y : ℤ) : ℤ := (x+y).bmod (2^32)

def scanSwitch (dist : ℕ → ℕ → ℤ) (i j : ℕ) (s : Scan) (k : ℕ) : Scan :=
  let minimum := min s.minimum (sum32 (dist i k) (dist k j))
  if s.minimum≠minimum then
    ⟨minimum,some k,assign s.interSwitches i j (sum32 (sum32 (s.interSwitches i k) (s.interSwitches k j)) 1)⟩
  else {s with minimum := minimum}

def extendPair (t : Topology) (s : Paths × Bool) (p : ℕ × ℕ) : Except TopologyFault (Paths × Bool) :=
  let (i,j) := p
  let scan := (List.range t.numSwitches).foldl (scanSwitch s.1.currentDist i j) ⟨s.1.currentDist i j,none,s.1.interSwitches⟩
  if s.1.currentDist i j≠scan.minimum then
    match scan.intermediateSwitch with
    | none => .error .assertion
    | some k =>
      if k<t.numSwitches then
        .ok (⟨assign s.1.currentDist i j scan.minimum,
          assign s.1.latencies i j (sum32 (s.1.latencies i k) (s.1.latencies k j)),scan.interSwitches⟩,true)
      else .error .assertion
  else .ok ({s.1 with interSwitches := scan.interSwitches},s.2)

def extendVnet (t : Topology) : ℕ → Paths → Except TopologyFault Paths
  | 0,_ => .error .unfinished
  | rounds+1,p => do
    let (p,change) ← t.pairs.foldlM t.extendPair (p,false)
    if change then t.extendVnet rounds p else .ok p

def extendShortestPath (t : Topology) (rounds : ℕ) (m : ℕ → Paths) : Except TopologyFault (ℕ → Paths) :=
  (List.range t.vnets).foldlM (fun m v => do
    let p ← t.extendVnet rounds (m v)
    .ok (Function.update m v p)) m

def shortestPath (t : Topology) (rounds : ℕ) (w : Weights) : Except TopologyFault (ℕ → ℕ → ℕ → ℤ) := do
  let m ← t.extendShortestPath rounds fun v => ⟨w.topologyWeights v,w.componentLatencies v,fun _ _ => 0⟩
  .ok fun v => (m v).currentDist

def linkIsShortestPathToNode (weights dist : ℕ → ℕ → ℕ → ℤ) (src next final vnet : ℕ) : Bool :=
  sum32 (weights vnet src next) (dist vnet next final)=dist vnet src final

def shortestPathToNode (t : Topology) (weights dist : ℕ → ℕ → ℕ → ℤ) (src next vnet : ℕ) : Finset ℕ :=
  (Finset.range t.nodes).filter fun d => linkIsShortestPathToNode weights dist src next (d+t.nodes) vnet

/-- What a router keeps of an output port: where it leads, the route of each virtual network and the weight. -/
structure OutPort where
  dest : ℕ
  route : ℕ → Finset ℕ
  weight : ℤ

def realLink (weights : ℕ → ℕ → ℕ → ℤ) (i j v : ℕ) : Bool := 0<weights v i j ∧ weights v i j≠infiniteLatency

def routingMap (t : Topology) (weights dist : ℕ → ℕ → ℕ → ℤ) (i j v : ℕ) : Finset ℕ :=
  if realLink weights i j v then t.shortestPathToNode weights dist i j v else ∅

def linkRoute (routingTableEntry : ℕ → Finset ℕ) (link : BasicLink) : ℕ → Finset ℕ :=
  if link.mVnets.isEmpty then routingTableEntry else fun v => if v∈link.mVnets then routingTableEntry v else ∅

/-- `addOutPort` of the router of a switch, once for each link of the pair. -/
def addOutPorts (t : Topology) (routers : ℕ → List OutPort) (src dest : ℕ) (entry : ℕ → Finset ℕ) : ℕ → List OutPort :=
  Function.update routers (src-2*t.nodes) (routers (src-2*t.nodes) ++
    (t.group src dest).map fun link => ⟨dest,linkRoute entry link,link.mWeight⟩)

/-- A link into the network starts at an interface, which has no routing table. -/
def makeLink (t : Topology) (routers : ℕ → List OutPort) (src dest : ℕ) (entry : ℕ → Finset ℕ) :
    Except TopologyFault (ℕ → List OutPort) :=
  if 2*t.nodes ≤ src ∨ 2*t.nodes≤dest then
    if src<t.nodes then .ok routers
    else if dest<2*t.nodes then
      if t.nodes≤dest then .ok (t.addOutPorts routers src dest entry) else .error .assertion
    else if 2*t.nodes ≤ src then .ok (t.addOutPorts routers src dest entry)
    else .error .assertion
  else .error .assertion

/-- What `createLinks` leaves: its distances, and the output ports of every router. -/
structure Links where
  dist : ℕ → ℕ → ℕ → ℤ
  routers : ℕ → List OutPort

def createLinks (t : Topology) (rounds : ℕ) : Except TopologyFault Links := do
  let w ← t.fillWeights
  let dist ← t.shortestPath rounds w
  let routers ← t.pairs.foldlM (fun routers p =>
    if (List.range t.vnets).any (realLink w.topologyWeights p.1 p.2) then
      t.makeLink routers p.1 p.2 (t.routingMap w.topologyWeights dist p.1 p.2)
    else .ok routers) fun _ => []
  .ok ⟨dist,routers⟩

end Topology

namespace RoutingUnit
open Ruby.Topology

def lookupWeight (ports : List OutPort) (vnet : ℕ) (msgDestination : Finset ℕ) : ℤ :=
  ports.foldl (fun minWeight p =>
    if (msgDestination ∩ p.route vnet).Nonempty ∧ p.weight ≤ minWeight then p.weight else minWeight) infiniteLatency

/-- The candidates are output ports; `draw` is the value of `rand()`. -/
def lookupRoutingTable (ports : List OutPort) (vnet : ℕ) (ordered : Bool) (msgDestination : Finset ℕ) (draw : ℕ) :
    Except TopologyFault OutPort :=
  let minWeight := lookupWeight ports vnet msgDestination
  let candidates := ports.filter fun p => (msgDestination ∩ p.route vnet).Nonempty ∧ p.weight=minWeight
  let candidate := if ordered then 0 else draw%candidates.length
  match candidates[candidate]? with
  | none => .error .noRoute
  | some p => .ok p

end RoutingUnit

end AquaGem5.Ruby

/-! ## The distances of a topology -/

namespace AquaGem5.Ruby.Topology
open Checked Walks List Function

variable {t : Topology} {s s' : Weights} {src dst v : ℕ} {link : BasicLink} {links : List BasicLink}

def Linked (t : Topology) (v src dest : ℕ) (x : ℤ) : Prop :=
  ∃ link∈t.group src dest,link.supports t.vnets v ∧ link.mWeight=x

theorem mem_group : link∈t.group src dst ↔ ⟨src,dst,link⟩∈t.linkMap := by
  simp only [group,mem_map,mem_filter,decide_eq_true_eq]
  constructor
  · intro h
    obtain ⟨e,⟨he,hsrc,hdst⟩,hlink⟩:=h
    subst hsrc hdst hlink
    exact he
  · intro h
    exact ⟨_,⟨h,rfl,rfl⟩,rfl⟩

theorem foldl_max_le (l : List LinkEntry) (m : ℕ) : m≤l.foldl (fun m e => max (max m e.src) e.dest) m ∧
    ∀ e∈l,e.src≤l.foldl (fun m e => max (max m e.src) e.dest) m ∧
      e.dest≤l.foldl (fun m e => max (max m e.src) e.dest) m := by
  induction l generalizing m with
  | nil => simp
  | cons e l ih =>
    obtain ⟨hm,hl⟩:=ih (max (max m e.src) e.dest)
    simp only [foldl_cons,forall_mem_cons]
    exact ⟨by omega,⟨by omega,by omega⟩,hl⟩

theorem lt_numSwitches (h : link∈t.group src dst) : src<t.numSwitches ∧ dst<t.numSwitches := by
  have hmax:=(foldl_max_le t.linkMap 0).2 _ (mem_group.mp h)
  exact ⟨Nat.lt_succ_of_le hmax.1,Nat.lt_succ_of_le hmax.2⟩

theorem mem_pairs {p : ℕ × ℕ} : p∈t.pairs ↔ p.1<t.numSwitches ∧ p.2<t.numSwitches := by
  obtain ⟨i,j⟩:=p
  simp [pairs,pair_mem_product]

structure Fills (P : ℕ → Prop) (src dst : ℕ) (x : ℤ) (s s' : Weights) : Prop where
  fresh : ∀ v,P v → s.vnetDone v=false ∧ s'.vnetDone v=true
  weight : ∀ v,P v → s'.topologyWeights v=assign (s.topologyWeights v) src dst x
  rest : ∀ v,¬P v → s'.vnetDone v=s.vnetDone v ∧ s'.topologyWeights v=s.topologyWeights v

theorem setVnet_fills (h : setVnet src dst link s v = .ok s') : Fills (·=v) src dst link.mWeight s s' := by
  simp only [setVnet] at h
  split at h
  · cases h
  · rename_i hdone
    cases h
    constructor
    · intro u hu
      simp [hu,hdone]
    · intro u hu
      simp [hu]
    · intro u hu
      simp [update_of_ne hu]

theorem foldlM_fills {f : Weights → ℕ → Except TopologyFault Weights} {Q : ℕ → Prop}
    (hf : ∀ s u s',f s u = .ok s' → Q u ∧ setVnet src dst link s u = .ok s') {l : List ℕ}
    (h : l.foldlM f s = .ok s') : (∀ u∈l,Q u) ∧ Fills (·∈l) src dst link.mWeight s s' := by
  induction l generalizing s with
  | nil =>
    cases h
    exact ⟨by simp,by simp,by simp,by simp⟩
  | cons u l ih =>
    rw [foldlM_cons] at h
    obtain ⟨s1,hu,hl⟩:=bind_ok h
    obtain ⟨hq,hset⟩:=hf s u s1 hu
    have hfirst:=setVnet_fills hset
    obtain ⟨hqs,hrest⟩:=ih hl
    have hnot : u∉l := by
      intro hmem
      have hdone:=(hfirst.fresh u rfl).2
      rw [(hrest.fresh u hmem).1] at hdone
      cases hdone
    have hne : ∀ w∈l,w≠u := fun w hw hwu => hnot (hwu ▸ hw)
    constructor
    · simpa using ⟨hq,hqs⟩
    constructor
    · intro w hw
      cases hw with
      | head => exact ⟨(hfirst.fresh u rfl).1,by rw [(hrest.rest u hnot).1]; exact (hfirst.fresh u rfl).2⟩
      | tail _ hw =>
        have hsame:=hfirst.rest w (hne w hw)
        exact ⟨by rw [← hsame.1]; exact (hrest.fresh w hw).1,(hrest.fresh w hw).2⟩
    · intro w hw
      cases hw with
      | head => rw [(hrest.rest u hnot).2,hfirst.weight u rfl]
      | tail _ hw => rw [hrest.weight w hw,(hfirst.rest w (hne w hw)).2]
    · intro w hw
      simp only [mem_cons,not_or] at hw
      have hsame:=hfirst.rest w hw.1
      have hsame':=hrest.rest w hw.2
      exact ⟨by rw [hsame'.1,hsame.1],by rw [hsame'.2,hsame.2]⟩

theorem fillLink_fills (h : t.fillLink src dst s link = .ok s') :
    Fills (link.supports t.vnets) src dst link.mWeight s s' := by
  simp only [fillLink] at h
  split at h
  · rename_i hall
    have hfills:=(foldlM_fills (Q := fun _ => True) (fun _ _ _ hset => ⟨trivial,hset⟩) h).2
    have hsupports : ∀ v,link.supports t.vnets v ↔ v∈range t.vnets := by
      simp [BasicLink.supports,List.isEmpty_iff.mp hall]
    simpa only [← hsupports] using hfills
  · rename_i hsome
    obtain ⟨hlt,hfills⟩:=foldlM_fills (Q := (·<t.vnets)) (fun s u s' hu => by
      split at hu
      · cases hu
      · exact ⟨by omega,hu⟩) h
    have hsupports : ∀ v,link.supports t.vnets v ↔ v∈link.mVnets := by
      intro v
      simp only [BasicLink.supports,List.isEmpty_iff] at hsome ⊢
      constructor
      · intro ⟨_,hv⟩
        exact hv.resolve_left hsome
      · intro hv
        exact ⟨hlt v hv,.inr hv⟩
    simpa only [← hsupports] using hfills

theorem foldlM_fillLink (h : links.foldlM (t.fillLink src dst) s = .ok s') (v : ℕ) :
    (∀ link∈links,link.supports t.vnets v → s.vnetDone v=false ∧ s'.vnetDone v=true ∧
      s'.topologyWeights v=assign (s.topologyWeights v) src dst link.mWeight) ∧
    ((∀ link∈links,¬link.supports t.vnets v) →
      s'.vnetDone v=s.vnetDone v ∧ s'.topologyWeights v=s.topologyWeights v) := by
  induction links generalizing s with
  | nil =>
    cases h
    simp
  | cons link links ih =>
    rw [foldlM_cons] at h
    obtain ⟨s1,hlink,hrest⟩:=bind_ok h
    have hfills:=fillLink_fills hlink
    obtain ⟨hsome,hnone⟩:=ih hrest
    by_cases hv : link.supports t.vnets v
    · have hothers : ∀ link∈links,¬link.supports t.vnets v := by
        intro other hmem hsupports
        have hdone:=(hfills.fresh v hv).2
        rw [(hsome other hmem hsupports).1] at hdone
        cases hdone
      obtain ⟨hdone,hweights⟩:=hnone hothers
      constructor
      · intro other hmem hsupports
        cases hmem with
        | head => exact ⟨(hfills.fresh v hv).1,by rw [hdone]; exact (hfills.fresh v hv).2,
            by rw [hweights,hfills.weight v hv]⟩
        | tail _ hmem => exact (hothers other hmem hsupports).elim
      · intro h
        exact (h link mem_cons_self hv).elim
    · obtain ⟨hdone,hweights⟩:=hfills.rest v hv
      rw [hdone,hweights] at hsome hnone
      constructor
      · intro other hmem hsupports
        cases hmem with
        | head => exact (hv hsupports).elim
        | tail _ hmem => exact hsome other hmem hsupports
      · intro h
        exact hnone fun other hmem => h other (mem_cons_of_mem link hmem)

theorem fillGroup_cell {p : ℕ × ℕ} (h : t.fillGroup s p = .ok s') (v i j : ℕ) :
    (∀ x,(i,j)=p → t.Linked v i j x → s'.topologyWeights v i j=x) ∧
    ((i,j)≠p ∨ (∀ x,¬t.Linked v i j x) → s'.topologyWeights v i j=s.topologyWeights v i j) := by
  obtain ⟨hsome,hnone⟩:=foldlM_fillLink h v
  constructor
  · intro x hp hlinked
    obtain ⟨link,hmem,hsupports,hx⟩:=hlinked
    subst hp
    rw [(hsome link hmem hsupports).2.2,← hx]
    simp
  · intro hor
    by_cases hlinked : ∃ link∈t.group p.1 p.2,link.supports t.vnets v
    · obtain ⟨link,hmem,hsupports⟩:=hlinked
      rw [(hsome link hmem hsupports).2.2]
      have hne : ¬(i=p.1 ∧ j=p.2) := by
        intro hij
        obtain ⟨rfl,rfl⟩:=hij
        cases hor with
        | inl hor => exact hor rfl
        | inr hor => exact hor _ ⟨link,hmem,hsupports,rfl⟩
      simp [assign,hne]
    · rw [(hnone fun link hmem hsupports => hlinked ⟨link,hmem,hsupports⟩).2]

theorem foldlM_fillGroup {l : List (ℕ × ℕ)} (hl : l.Nodup) (h : l.foldlM t.fillGroup s = .ok s') (v i j : ℕ) :
    (∀ x,(i,j)∈l → t.Linked v i j x → s'.topologyWeights v i j=x) ∧
    ((i,j)∉l ∨ (∀ x,¬t.Linked v i j x) → s'.topologyWeights v i j=s.topologyWeights v i j) := by
  induction l generalizing s with
  | nil =>
    cases h
    simp
  | cons p l ih =>
    rw [foldlM_cons] at h
    obtain ⟨s1,hp,hrest⟩:=bind_ok h
    obtain ⟨hnot,hl⟩:=nodup_cons.mp hl
    obtain ⟨hcell,hframe⟩:=fillGroup_cell hp v i j
    obtain ⟨hin,hout⟩:=ih hl hrest
    constructor
    · intro x hmem hlinked
      cases hmem with
      | head => rw [hout (.inl hnot),hcell x rfl hlinked]
      | tail _ hmem => exact hin x hmem hlinked
    · intro hor
      simp only [mem_cons,not_or] at hor
      rw [hout (hor.imp_left And.right),hframe (hor.imp_left And.left)]

theorem fillWeights_spec {w : Weights} (h : t.fillWeights = .ok w) (v i j : ℕ) :
    (∀ x,t.Linked v i j x → w.topologyWeights v i j=x) ∧
    ((∀ x,¬t.Linked v i j x) → w.topologyWeights v i j=if i=j then 0 else infiniteLatency) := by
  have hnodup : t.pairs.Nodup := nodup_range.product nodup_range
  obtain ⟨hin,hout⟩:=foldlM_fillGroup hnodup h v i j
  constructor
  · intro x hlinked
    obtain ⟨link,hmem,_⟩:=id hlinked
    exact hin x (mem_pairs.mpr (lt_numSwitches hmem)) hlinked
  · intro hnone
    exact hout (.inr hnone)

def Positive (t : Topology) : Prop := ∀ e∈t.linkMap,0<e.link.mWeight

/-- The sum of two weights is in the range of `int`. -/
def Light (t : Topology) : Prop := ∀ e∈t.linkMap,e.link.mWeight<2^30

/-- No sum of two of the distances wraps. -/
def Small (dist : ℕ → ℕ → ℤ) : Prop := ∀ i j,0≤dist i j ∧ dist i j<2^30

theorem sum32_eq {x y : ℤ} (hx : 0≤x ∧ x<2^30) (hy : 0≤y ∧ y<2^30) : sum32 x y=x+y :=
  Int.bmod_eq_of_le (by omega) (by omega)

theorem Small.relax {dist : ℕ → ℕ → ℤ} (h : Small dist) (nodes : List ℕ) (p : ℕ × ℕ) : Small (relax nodes dist p) :=
  fun i j => ⟨relax_nonneg (fun a b => (h a b).1) nodes p i j,(relax_le nodes dist p i j).trans_lt (h i j).2⟩

theorem Small.foldl {dist : ℕ → ℕ → ℤ} (h : Small dist) (nodes : List ℕ) (l : List (ℕ × ℕ)) :
    Small (l.foldl (Walks.relax nodes) dist) := by
  induction l generalizing dist with
  | nil => exact h
  | cons p l ih => exact ih (h.relax nodes p)

theorem Linked.pos {i j : ℕ} {x : ℤ} (hpos : t.Positive) (h : t.Linked v i j x) : 0<x := by
  obtain ⟨link,hmem,_,rfl⟩:=h
  exact hpos _ (mem_group.mp hmem)

theorem Linked.ends {i j : ℕ} {x : ℤ} (h : t.Linked v i j x) :
    i∈List.range t.numSwitches ∧ j∈List.range t.numSwitches := by
  obtain ⟨link,hmem,_⟩:=h
  simpa using lt_numSwitches hmem

theorem weights_estimate {w : Weights} (hpos : t.Positive) (h : t.fillWeights = .ok w) (v : ℕ) :
    Estimate (t.Linked v) infiniteLatency (w.topologyWeights v) := by
  have hcell : ∀ i j,(∃ x,t.Linked v i j x ∧ w.topologyWeights v i j=x) ∨ (∀ x,¬t.Linked v i j x) ∧
      w.topologyWeights v i j=if i=j then 0 else infiniteLatency := by
    intro i j
    obtain ⟨hlinked,hnone⟩:=fillWeights_spec h v i j
    by_cases hex : ∃ x,t.Linked v i j x
    · obtain ⟨x,hx⟩:=hex
      exact .inl ⟨x,hx,hlinked x hx⟩
    · have hno : ∀ x,¬t.Linked v i j x := fun x hx => hex ⟨x,hx⟩
      exact .inr ⟨hno,hnone hno⟩
  constructor
  · intro i j
    cases hcell i j with
    | inl hc =>
      obtain ⟨x,hx,heq⟩:=hc
      have hp:=hx.pos hpos
      omega
    | inr hc =>
      rw [hc.2]
      split <;> simp [infiniteLatency]
  · intro i j hor
    cases hcell i j with
    | inl hc =>
      obtain ⟨x,hx,heq⟩:=hc
      have hp:=hx.pos hpos
      omega
    | inr hc =>
      have hne : i≠j := by
        intro hij
        subst hij
        obtain ⟨x,hx⟩:=hor.resolve_left fun hne => hne rfl
        exact hc.1 x hx
      simp [hc.2,hne,infiniteLatency]
  · intro i j x hx
    rw [(fillWeights_spec h v i j).1 x hx]
  · intro i j hnone
    rw [(fillWeights_spec h v i j).2 hnone]
    split <;> simp [infiniteLatency]
  · intro i j hlt
    cases hcell i j with
    | inl hc =>
      obtain ⟨x,hx,heq⟩:=hc
      rw [heq]
      exact .single hx
    | inr hc =>
      by_cases hij : i=j
      · subst hij
        rw [hc.2,if_pos rfl]
        exact .nil i
      · rw [hc.2,if_neg hij] at hlt
        exact (lt_irrefl _ hlt).elim

theorem weights_small {w : Weights} (hpos : t.Positive) (hlight : t.Light) (h : t.fillWeights = .ok w) (v : ℕ) :
    Small (w.topologyWeights v) := by
  intro i j
  have hnonneg:=(weights_estimate hpos h v).nonneg i j
  by_cases hex : ∃ x,t.Linked v i j x
  · obtain ⟨x,hx⟩:=hex
    obtain ⟨link,hmem,_,hweight⟩:=id hx
    have hlt:=hlight _ (mem_group.mp hmem)
    rw [(fillWeights_spec h v i j).1 x hx] at hnonneg ⊢
    exact ⟨hnonneg,hweight ▸ hlt⟩
  · have hle:=(weights_estimate hpos h v).unlinked i j fun x hx => hex ⟨x,hx⟩
    unfold infiniteLatency at hle
    exact ⟨hnonneg,by omega⟩

theorem foldl_scanSwitch {dist : ℕ → ℕ → ℤ} (hd : Small dist) (i j : ℕ) (l : List ℕ) (c : Scan) :
    (l.foldl (scanSwitch dist i j) c).minimum=l.foldl (fun m k => min m (dist i k+dist k j)) c.minimum ∧
    ((l.foldl (scanSwitch dist i j) c).intermediateSwitch=c.intermediateSwitch ∧
        (l.foldl (scanSwitch dist i j) c).minimum=c.minimum ∨
      ∃ k∈l,(l.foldl (scanSwitch dist i j) c).intermediateSwitch=some k) := by
  induction l generalizing c with
  | nil => simp
  | cons k l ih =>
    obtain ⟨hmin,hswitch⟩:=ih (scanSwitch dist i j c k)
    have hsum:=sum32_eq (hd i k) (hd k j)
    have hstep : (scanSwitch dist i j c k).minimum=min c.minimum (dist i k+dist k j) := by
      simp only [scanSwitch,hsum]
      split <;> rfl
    simp only [foldl_cons]
    constructor
    · rw [hmin,hstep]
    · cases hswitch with
      | inr h =>
        obtain ⟨k',hk',h⟩:=h
        exact .inr ⟨k',mem_cons_of_mem k hk',h⟩
      | inl h =>
        by_cases hne : c.minimum≠min c.minimum (dist i k+dist k j)
        · have hk : (scanSwitch dist i j c k).intermediateSwitch=some k := by
            simp only [scanSwitch,hsum,if_pos hne]
          exact .inr ⟨k,mem_cons_self,h.1.trans hk⟩
        · have hk : (scanSwitch dist i j c k).intermediateSwitch=c.intermediateSwitch := by
            simp only [scanSwitch,hsum,if_neg hne]
          rw [not_not] at hne
          exact .inl ⟨h.1.trans hk,h.2.trans (hstep.trans hne.symm)⟩

theorem extendPair_spec (t : Topology) {s : Paths × Bool} (hs : Small s.1.currentDist) (p : ℕ × ℕ) :
    ∃ r,t.extendPair s p = .ok r ∧ r.1.currentDist=relax (List.range t.numSwitches) s.1.currentDist p ∧
      (r.2=true ↔ s.2=true ∨ relax (List.range t.numSwitches) s.1.currentDist p≠s.1.currentDist) := by
  obtain ⟨i,j⟩:=p
  obtain ⟨hmin,hswitch⟩:=foldl_scanSwitch hs i j (range t.numSwitches)
    ⟨s.1.currentDist i j,none,s.1.interSwitches⟩
  change _=through (range t.numSwitches) s.1.currentDist i j at hmin
  have hrelax : relax (range t.numSwitches) s.1.currentDist (i,j)=s.1.currentDist ↔
      through (range t.numSwitches) s.1.currentDist i j=s.1.currentDist i j := relax_eq_iff
  simp only [extendPair]
  rw [hmin] at hswitch ⊢
  by_cases hne : s.1.currentDist i j=through (range t.numSwitches) s.1.currentDist i j
  · rw [if_neg (not_not.mpr hne)]
    refine ⟨_,rfl,(hrelax.mpr hne.symm).symm,?_⟩
    simp [hrelax.mpr hne.symm]
  · rw [if_pos hne]
    obtain ⟨k,hk,heq⟩:=hswitch.resolve_left fun h => hne h.2.symm
    rw [heq]
    dsimp only
    rw [if_pos (mem_range.mp hk)]
    refine ⟨_,rfl,rfl,?_⟩
    simp only [ne_eq,hrelax,true_iff]
    exact .inr fun h => hne h.symm

theorem foldlM_extendPair (t : Topology) {s : Paths × Bool} (hs : Small s.1.currentDist) (l : List (ℕ × ℕ)) :
    ∃ r,l.foldlM t.extendPair s = .ok r ∧
      r.1.currentDist=l.foldl (relax (List.range t.numSwitches)) s.1.currentDist ∧
      (r.2=true ↔ s.2=true ∨ l.foldl (relax (List.range t.numSwitches)) s.1.currentDist≠s.1.currentDist) := by
  induction l generalizing s with
  | nil => exact ⟨s,rfl,rfl,by simp⟩
  | cons p l ih =>
    obtain ⟨s1,hstep,hdist,hchange⟩:=extendPair_spec t hs p
    obtain ⟨r,hrun,hdist',hchange'⟩:=ih (hdist ▸ hs.relax _ p)
    refine ⟨r,?_,?_,?_⟩
    · rw [foldlM_cons,hstep]
      exact hrun
    · rw [hdist',hdist,foldl_cons]
    · rw [hchange',hchange,hdist,foldl_cons,or_assoc]
      by_cases hp : relax (range t.numSwitches) s.1.currentDist p=s.1.currentDist
      · simp [hp]
      · have hcons : (p::l).foldl (relax (range t.numSwitches)) s.1.currentDist≠s.1.currentDist := by
          intro heq
          exact hp (relax_eq_iff.mpr (foldl_relax_eq_iff.mp heq p mem_cons_self))
        rw [foldl_cons] at hcons
        simp [hp,hcons]

structure Extends (t : Topology) (Link : ℕ → ℕ → ℤ → Prop) (inf : ℤ) (p p' : Paths) : Prop where
  estimate : Estimate Link inf p'.currentDist
  le : ∀ a b,p'.currentDist a b≤p.currentDist a b
  closed : Closed (List.range t.numSwitches) p'.currentDist

theorem extendVnet_ends {Link : ℕ → ℕ → ℤ → Prop} {inf : ℤ} {p : Paths} (hp : Estimate Link inf p.currentDist)
    (hs : Small p.currentDist) :
    ∃ rounds p',(∀ rounds'≥rounds,t.extendVnet rounds' p = .ok p') ∧ Extends t Link inf p p' := by
  induction hk : potential t.pairs p.currentDist using Nat.strong_induction_on generalizing p with
  | h k ih =>
    obtain ⟨r,hrun,hdist,hchange⟩:=foldlM_extendPair t (s := (p,false)) hs t.pairs
    change r.1.currentDist=t.pairs.foldl (relax (range t.numSwitches)) p.currentDist at hdist
    have hr : Estimate Link inf r.1.currentDist := by
      rw [hdist]
      exact hp.foldl _ _
    by_cases hsame : t.pairs.foldl (relax (range t.numSwitches)) p.currentDist=p.currentDist
    · have hstop : ∀ rounds'≥1,t.extendVnet rounds' p = .ok r.1 := by
        intro rounds' hge
        obtain ⟨rounds,rfl⟩:=Nat.exists_eq_add_of_le' hge
        simp [extendVnet,hrun,hchange,hsame,bind,Except.bind]
      have hclosed : Closed (range t.numSwitches) p.currentDist := closed_of_foldl hsame
      rw [hsame] at hdist
      exact ⟨1,r.1,hstop,hr,fun a b => by rw [hdist],by rw [hdist]; exact hclosed⟩
    · have hlt:=potential_foldl_relax (fun _ => id) hp.nonneg hsame
      rw [← hdist,hk] at hlt
      obtain ⟨rounds,p',hends,hestimate,hle,hclosed⟩:=ih _ hlt hr (hdist ▸ hs.foldl _ _) rfl
      have hrounds : ∀ rounds'≥rounds+1,t.extendVnet rounds' p = .ok p' := by
        intro rounds' hge
        obtain ⟨more,rfl⟩:=Nat.exists_eq_add_of_le' hge
        have hrest:=hends (more+rounds) (by omega)
        rw [← Nat.add_assoc]
        simpa [extendVnet,hrun,hchange,hsame,bind,Except.bind] using hrest
      have hbelow : ∀ a b,p'.currentDist a b≤p.currentDist a b := by
        intro a b
        have hfold:=foldl_relax_le (range t.numSwitches) t.pairs p.currentDist a b
        have hr:=hle a b
        rw [hdist] at hr
        omega
      exact ⟨rounds+1,p',hrounds,hestimate,hbelow,hclosed⟩

theorem extendShortestPath_ends {Link : ℕ → ℕ → ℕ → ℤ → Prop} {inf : ℤ} (t : Topology) {m : ℕ → Paths}
    (hm : ∀ v,Estimate (Link v) inf (m v).currentDist) (hs : ∀ v,Small (m v).currentDist) :
    ∃ rounds m',(∀ rounds'≥rounds,t.extendShortestPath rounds' m = .ok m') ∧
      (∀ v<t.vnets,Extends t (Link v) inf (m v) (m' v)) ∧ ∀ v≥t.vnets,m' v=m v := by
  simp only [extendShortestPath]
  induction t.vnets with
  | zero => exact ⟨0,m,fun _ _ => rfl,fun v hv => (Nat.not_lt_zero v hv).elim,fun _ _ => rfl⟩
  | succ n ih =>
    obtain ⟨rounds1,m1,hends1,hbelow1,habove1⟩:=ih
    obtain ⟨rounds2,p,hends2,hp⟩:=extendVnet_ends (t := t) (hm n) (hs n)
    have hn:=habove1 n (Nat.le_refl n)
    have hrun : ∀ rounds'≥max rounds1 rounds2,(range (n+1)).foldlM (fun m v => do
        let p ← t.extendVnet rounds' (m v)
        .ok (update m v p)) m = .ok (update m1 n p) := by
      intro rounds' hge
      have hfirst:=hends1 rounds' (by omega)
      have hlast:=hends2 rounds' (by omega)
      rw [range_succ,foldlM_append,hfirst]
      simp [hn,hlast,bind,Except.bind,pure,Except.pure]
    refine ⟨max rounds1 rounds2,update m1 n p,hrun,fun v hv => ?_,fun v hv => ?_⟩
    · by_cases hvn : v=n
      · subst hvn
        simpa using hp
      · simpa [update_of_ne hvn] using hbelow1 v (by omega)
    · have hvn : v≠n := by omega
      simpa [update_of_ne hvn] using habove1 v (by omega)

def Exact (t : Topology) (v : ℕ) (dist : ℕ → ℕ → ℤ) : Prop :=
  ∀ i<t.numSwitches,∀ j<t.numSwitches,(∀ n,Shortest (t.Linked v) i j n → dist i j=n) ∧
    ((∀ n,¬Walk (t.Linked v) i j n) → dist i j=infiniteLatency)

def Bounded (t : Topology) : Prop := ∀ v<t.vnets,∀ i j n,Shortest (t.Linked v) i j n → n < infiniteLatency

structure Settled (t : Topology) (v : ℕ) (dist : ℕ → ℕ → ℤ) : Prop where
  small : Small dist
  estimate : Estimate (t.Linked v) infiniteLatency dist
  closed : Closed (List.range t.numSwitches) dist
  self : ∀ i,(∀ x,¬t.Linked v i i x) → dist i i=0

theorem shortestPath_ends {w : Weights} (hpos : t.Positive) (hlight : t.Light) (h : t.fillWeights = .ok w) :
    ∃ rounds dist,(∀ rounds'≥rounds,t.shortestPath rounds' w = .ok dist) ∧ ∀ v<t.vnets,Settled t v (dist v) := by
  obtain ⟨rounds,m,hends,hbelow,_⟩:=extendShortestPath_ends t
    (m := fun v => ⟨w.topologyWeights v,w.componentLatencies v,fun _ _ => 0⟩) (weights_estimate hpos h)
    (weights_small hpos hlight h)
  have hrun : ∀ rounds'≥rounds,t.shortestPath rounds' w = .ok fun v => (m v).currentDist := by
    intro rounds' hge
    simp [shortestPath,hends rounds' hge,bind,Except.bind]
  refine ⟨rounds,_,hrun,fun v hv => ?_⟩
  obtain ⟨hestimate,hle,hclosed⟩:=hbelow v hv
  have hself : ∀ i,(∀ x,¬t.Linked v i i x) → (m v).currentDist i i=0 := by
    intro i hnone
    have hweight:=(fillWeights_spec h v i i).2 hnone
    have hnonneg:=hestimate.nonneg i i
    have hii : (m v).currentDist i i≤w.topologyWeights v i i := hle i i
    simp only [if_true] at hweight
    omega
  have hsmall : Small (m v).currentDist := fun i j =>
    ⟨hestimate.nonneg i j,(hle i j).trans_lt (weights_small hpos hlight h v i j).2⟩
  exact ⟨hsmall,hestimate,hclosed,hself⟩

variable {dist : ℕ → ℕ → ℤ} {i j : ℕ}

theorem Settled.exact_ne (hd : Settled t v dist) (hb : t.Bounded) (hv : v<t.vnets) (hne : i≠j) :
    (∀ n,Shortest (t.Linked v) i j n → dist i j=n) ∧ ((∀ n,¬Walk (t.Linked v) i j n) → dist i j=infiniteLatency) := by
  obtain ⟨hshort,hnone⟩:=hd.estimate.exact hd.closed (fun _ _ _ h => h.ends) hne
  exact ⟨fun n hn => hshort n hn (hb v hv i j n hn),hnone⟩

theorem Settled.exact_iff (hd : Settled t v dist) (hpos : t.Positive) (hb : t.Bounded) (hv : v<t.vnets) :
    t.Exact v dist ↔ ∀ i x,¬t.Linked v i i x := by
  constructor
  · intro hexact i x hlinked
    have hi:=mem_range.mp hlinked.ends.1
    have hzero:=(hexact i hi i hi).1 0 (shortest_self (fun _ _ _ h => h.pos hpos) i)
    have hp:=hd.estimate.positive i i (.inr ⟨x,hlinked⟩)
    omega
  · intro hself i _ j _
    by_cases hij : i=j
    · subst hij
      constructor
      · intro n hn
        rw [hd.self i (hself i)]
        exact (shortest_self (fun _ _ _ h => h.pos hpos) i).unique hn
      · intro hnone
        exact (hnone 0 (.nil i)).elim
    · exact hd.exact_ne hb hv hij

end AquaGem5.Ruby.Topology
