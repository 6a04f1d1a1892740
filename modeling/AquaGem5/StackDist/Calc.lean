import AquaGem5.Address.AddrRange
import AquaGem5.Lib.Checked

/-!
# The tree of partial sums (stack_dist_calc.cc)

A node is known by its layer and by how many nodes the layer was given before it. These counts (`nextIndex`) only
grow, so a name that is not in the heap any more is that of a deleted node. A layer maps an index to a pointer, with
null for an index it does not hold, as `operator[]` returns it. Sums and indices are 64-bit in the source, where they
stay below the number of leaves.
-/

namespace AquaGem5.StackDist
open Checked

inductive Fault where
  | panic
  | null
  | dangling
  | shift
  | endless
  deriving DecidableEq

abbrev Ptr := ℕ × ℕ

structure Node where
  sumLeft : ℕ
  sumRight : ℕ
  discardLeft : Bool
  discardRight : Bool
  nodeIndex : ℕ
  parent : Option Ptr
  isLeftNode : Bool
  isMarked : Bool
  deriving DecidableEq

def Node.init : Node := ⟨0,0,false,false,0,none,true,false⟩

structure Tree where
  heap : Ptr → Option Node
  layer : ℕ → ℕ → Option Ptr
  depth : ℕ
  nextIndex : ℕ → ℕ

def Infinity : ℕ := 2^64-1

/-- `1 << n`, an `int`. -/
def oneShl (n : ℕ) : Except Fault ℕ := if n<31 then .ok (2^n) else .error .shift

def isPowerOf2 (n : ℕ) : Bool := n≠0&&n &&& (n-1) == 0

def notNull : Option Ptr → Except Fault Ptr
  | none => .error .null
  | some q => .ok q

namespace Tree

def deref (t : Tree) (q : Ptr) : Except Fault Node :=
  match t.heap q with
  | none => .error .dangling
  | some nd => .ok nd

def store (t : Tree) (q : Ptr) (nd : Node) : Tree := {t with heap := Function.update t.heap q (some nd)}

def delete (t : Tree) (q : Ptr) : Tree := {t with heap := Function.update t.heap q none}

def put (t : Tree) (l k : ℕ) (p : Option Ptr) : Tree :=
  {t with layer := Function.update t.layer l (Function.update (t.layer l) k p)}

def bump (t : Tree) (l : ℕ) : Tree :=
  {t with nextIndex := Function.update t.nextIndex l (t.nextIndex l+1)}

def create (t : Tree) (l k : ℕ) (nd : Node) : Tree :=
  ((t.store (l,t.nextIndex l) nd).put l k (some (l,t.nextIndex l))).bump l

/-- The constructor's tree: no leaf, and a root above. -/
def init : Tree where
  heap := Function.update (fun _ => none) (1,0) (some Node.init)
  layer := Function.update (fun _ _ => none) 1 (Function.update (fun _ => none) 0 (some (1,0)))
  depth := 1
  nextIndex := Function.update (fun _ => 0) 1 1

end Tree

def checkSums (verifyStack : Bool) (nd : Node) (level : ℕ) : Except Fault Unit :=
  if verifyStack then do
    let bound ← oneShl (level-1)
    check (nd.sumLeft≤bound) .panic
    check (nd.sumRight≤bound) .panic
  else .ok ()

/-- The new values of a node that `updateSum` comes to. -/
def Node.arrive (nd : Node) (fromLeft : Bool) (sumFromBelow : ℕ) (discardNode : Bool) : Node :=
  let gone := discardNode&&sumFromBelow == 0
  if fromLeft then {nd with sumLeft := sumFromBelow, discardLeft := nd.discardLeft || gone}
  else {nd with sumRight := sumFromBelow, discardRight := nd.discardRight || gone}

def Node.unused (nd : Node) (sumFromBelow : ℕ) (discardNode : Bool) : Bool :=
  nd.discardLeft&&nd.discardRight&&discardNode&&nd.parent.isSome&&sumFromBelow == 0

namespace Tree

def writeBack (t : Tree) (q : Ptr) (level : ℕ) (nd : Node) (unused : Bool) : Tree :=
  if unused then ((t.store q nd).delete q).put level nd.nodeIndex none else t.store q nd

def updateSum (verifyStack : Bool) :
    ℕ → Tree → Option Ptr → Bool → ℕ → ℕ → ℕ → Bool → Except Fault (Tree × ℕ)
  | 0,_,_,_,_,_,_,_ => .error .endless
  | fuel+1,t,p,fromLeft,sumFromBelow,level,stackDist,discardNode => do
    let q ← notNull p
    let old ← t.deref q
    checkSums verifyStack old (level+1)
    let nd := old.arrive fromLeft sumFromBelow discardNode
    let unused := nd.unused sumFromBelow discardNode
    let t' := t.writeBack q (level+1) nd unused
    let dist := if fromLeft then stackDist+nd.sumRight else stackDist
    if nd.parent.isSome then
      updateSum verifyStack fuel t' nd.parent nd.isLeftNode (nd.sumLeft+nd.sumRight) (level+1) dist unused
    else .ok (t',dist)

def updateSumsLeavesToRoot (verifyStack : Bool) (t : Tree) (leaf : Option Ptr) (isNewLeaf : Bool) :
    Except Fault (Tree × ℕ) := do
  let q ← notNull leaf
  let nd ← t.deref q
  if isNewLeaf then
    let r ← updateSum verifyStack t.depth (t.store q {nd with sumLeft := 1}) nd.parent nd.isLeftNode 1 0 0 false
    .ok (r.1,Infinity)
  else
    updateSum verifyStack t.depth (t.store q {nd with sumLeft := 0}) nd.parent nd.isLeftNode 0 0 0 true

def getSum (t : Tree) : ℕ → Option Ptr → Bool → ℕ → ℕ → ℕ → Except Fault ℕ
  | 0,_,_,_,_,_ => .error .endless
  | fuel+1,p,fromLeft,_,stackDist,level => do
    let q ← notNull p
    let nd ← t.deref q
    let dist := if fromLeft then stackDist+nd.sumRight else stackDist
    if nd.parent.isSome then getSum t fuel nd.parent nd.isLeftNode (nd.sumLeft+nd.sumRight) dist (level+1)
    else .ok dist

def getSumsLeavesToRoot (t : Tree) (leaf : Option Ptr) : Except Fault ℕ := do
  let q ← notNull leaf
  let nd ← t.deref q
  getSum t t.depth nd.parent nd.isLeftNode 0 0 0

def newINode (t : Tree) (i : ℕ) : Tree :=
  t.create i (t.nextIndex i) {Node.init with
    isLeftNode := t.nextIndex i%2 == 0
    parent := t.layer (i+1) (t.nextIndex (i+1)-1)
    nodeIndex := t.nextIndex i}

def addRoot (t : Tree) (q : Ptr) (old : Node) : Tree :=
  let d := t.depth+1
  let above : Tree := {t with
    depth := d
    layer := Function.update t.layer d fun _ => none
    nextIndex := Function.update t.nextIndex d 0}
  let rooted := above.create d 0 {Node.init with
    sumLeft := old.sumRight+old.sumLeft
    discardLeft := old.discardLeft&&old.discardRight}
  rooted.store q {old with parent := some (d,0)}

def newRoot (t : Tree) : Except Fault Tree := do
  let q ← notNull (t.layer t.depth 0)
  let old ← t.deref q
  .ok (t.addRoot q old)

def chain : Tree → ℕ → Tree
  | t,0 => t
  | t,i+1 => chain (t.newINode (i+1)) i

/-- From layer `i` down, a node wherever the index starts a new block. -/
def addINodes (index : ℕ) : Tree → ℕ → Except Fault Tree
  | t,0 => .ok t
  | t,i+1 => do
    let size ← oneShl (i+1)
    addINodes index (if index%size=0 then t.newINode (i+1) else t) i

def updateTree (t : Tree) (index : ℕ) : Except Fault Tree :=
  if isPowerOf2 index then do
    let rooted ← t.newRoot
    .ok (rooted.chain (rooted.depth-1))
  else t.addINodes index (t.depth-1)

end Tree

/-!
## The stack distance calculator (stack_dist_calc.cc)

The debug stack is listed from its back. `printStack` is what it reads: the last leaves.
-/

open Address (Addr)

structure StackDistCalc where
  tree : Tree
  index : ℕ
  aiMap : Addr → Option ℕ
  stack : List Addr
  verifyStack : Bool

structure Result where
  stackDist : ℕ
  mark : Bool
  deriving DecidableEq

namespace StackDistCalc

def init (verifyStack : Bool) : StackDistCalc := ⟨Tree.init,0,fun _ => none,[],verifyStack⟩

/-- The loop of `sanityCheckTree`, for as many layers as are left. -/
def climb (t : Tree) : ℕ → Option Ptr → Except Fault (Option Ptr)
  | 0,nextUp => .ok nextUp
  | n+1,nextUp => do
    let q ← notNull nextUp
    let nd ← t.deref q
    check (nd.parent.isSome=true) .panic
    climb t n nd.parent

def sanityCheckTree (t : Tree) (leaf : Option Ptr) : Except Fault Unit := do
  let q ← notNull leaf
  let nd ← t.deref q
  let top ← climb t (t.depth-1) nd.parent
  let r ← notNull top
  let root ← t.deref r
  check (root.parent=none) .panic

def stackDistance (stack : List Addr) (a : Addr) : ℕ := if a∈stack then stack.idxOf a else Infinity

def verifyStackDist (s : StackDistCalc) (a : Addr) : ℕ := stackDistance s.stack a

/-- The debug stack after `verifyStackDist(r_address, true)`. -/
def pushStack (s : StackDistCalc) (a : Addr) : StackDistCalc := {s with stack := a::s.stack.erase a}

def derefAll (t : Tree) : List Ptr → Except Fault Unit
  | [] => .ok ()
  | q::qs => do
    let _ ← t.deref q
    derefAll t qs

def printStack (s : StackDistCalc) : Except Fault Unit :=
  derefAll s.tree ((((List.range (s.index+1)).reverse).filterMap (s.tree.layer 0)).take 5)

/-- The old leaf of an address that the map knows: its distance and its mark, and the tree without it. -/
def discardLeaf (s : StackDistCalc) (i : ℕ) : Except Fault (Tree × Result) := do
  let r ← s.tree.updateSumsLeavesToRoot s.verifyStack (s.tree.layer 0 i) false
  let q ← notNull (r.1.layer 0 i)
  let leaf ← r.1.deref q
  .ok ((r.1.delete q).put 0 i none,⟨r.2,leaf.isMarked⟩)

/-- The first half of `calcStackDistAndUpdate`. -/
def lookup (s : StackDistCalc) (a : Addr) (addNewNode : Bool) : Except Fault (StackDistCalc × Result) :=
  let aiMap := Function.update s.aiMap a (if addNewNode then some s.index else none)
  match s.aiMap a with
  | some i => do
    let r ← s.discardLeaf i
    .ok ({s with tree := r.1, aiMap := aiMap},r.2)
  | none => .ok ({s with aiMap := aiMap},⟨Infinity,false⟩)

def verifyAdded (s : StackDistCalc) (a : Addr) (stackDist : ℕ) : Except Fault StackDistCalc :=
  if s.verifyStack then do
    sanityCheckTree s.tree (s.tree.layer 0 s.index)
    check (s.verifyStackDist a=stackDist) .panic
    (s.pushStack a).printStack
    .ok (s.pushStack a)
  else .ok s

def growTree (s : StackDistCalc) : Except Fault Tree :=
  if s.index%2=0 then s.tree.updateTree s.index else .ok s.tree

def newLeaf (s : StackDistCalc) (grown : Tree) : Node :=
  {Node.init with
    nodeIndex := s.index
    isLeftNode := s.index%2 == 0
    parent := grown.layer 1 (grown.nextIndex 1-1)}

def addTree (s : StackDistCalc) : Except Fault Tree := do
  let grown ← s.growTree
  let planted := grown.create 0 s.index (s.newLeaf grown)
  let r ← planted.updateSumsLeavesToRoot s.verifyStack (planted.layer 0 s.index) true
  .ok r.1

/-- The second half, when `addNewNode` is set. -/
def addLeaf (s : StackDistCalc) (a : Addr) (stackDist : ℕ) : Except Fault StackDistCalc := do
  let t ← s.addTree
  let s' ← ({s with tree := t} : StackDistCalc).verifyAdded a stackDist
  .ok {s' with index := s.index+1}

def calcStackDistAndUpdate (s : StackDistCalc) (a : Addr) (addNewNode : Bool) :
    Except Fault (StackDistCalc × Result) := do
  let r ← s.lookup a addNewNode
  if addNewNode then
    let s' ← r.1.addLeaf a r.2.stackDist
    .ok (s',r.2)
  else .ok r

/-- The mark and the distance of an address that the map knows. -/
def inspectLeaf (s : StackDistCalc) (i : ℕ) (mark : Bool) : Except Fault (Tree × Result) := do
  let q ← notNull (s.tree.layer 0 i)
  let leaf ← s.tree.deref q
  let t := s.tree.store q {leaf with isMarked := mark}
  let stackDist ← t.getSumsLeavesToRoot (t.layer 0 i)
  .ok (t,⟨stackDist,leaf.isMarked⟩)

def inspect (s : StackDistCalc) (a : Addr) (mark : Bool) : Except Fault (StackDistCalc × Result) :=
  match s.aiMap a with
  | some i => do
    let r ← s.inspectLeaf i mark
    .ok ({s with tree := r.1},r.2)
  | none => .ok (s,⟨Infinity,false⟩)

def calcStackDist (s : StackDistCalc) (a : Addr) (mark : Bool) : Except Fault (StackDistCalc × Result) := do
  let r ← s.inspect a mark
  if r.1.verifyStack then
    check (r.1.verifyStackDist a=r.2.stackDist) .panic
    r.1.printStack
    .ok r
  else .ok r

end StackDistCalc

inductive Call where
  | update (addr : Addr) (addNewNode : Bool)
  | inspect (addr : Addr) (mark : Bool)
  deriving DecidableEq

namespace StackDistCalc

def call (s : StackDistCalc) : Call → Except Fault (StackDistCalc × Result)
  | .update a addNewNode => s.calcStackDistAndUpdate a addNewNode
  | .inspect a mark => s.calcStackDist a mark

def run (s : StackDistCalc) : List Call → Except Fault (StackDistCalc × List Result)
  | [] => .ok (s,[])
  | c::cs => do
    let r ← s.call c
    let rest ← run r.1 cs
    .ok (rest.1,r.2::rest.2)

end StackDistCalc

end AquaGem5.StackDist
