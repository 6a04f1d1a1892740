import AquaGem5.Lib.Prefixes

/-!
# The binary trie (trie.hh)

A node is known by its address. The head has the address 0, and `new` returns an address that was not in use
before. A deleted node is not in the heap any more, so that an access to it is a fault.
-/

namespace AquaGem5.Base
open Prefixes

namespace Trie

inductive Fault where
  | assertion
  | panic
  | dangling
  | endless
  deriving DecidableEq

structure Node (w : ℕ) (V : Type) where
  key : BitVec w
  mask : BitVec w
  value : Option V
  parent : Option ℕ
  kids : Fin 2 → Option ℕ

/-- `Node::matches`. -/
def Node.accepts {w : ℕ} {V : Type} (n : Node w V) (test : BitVec w) : Bool := test &&& n.mask == n.key

end Trie

structure Trie (w : ℕ) (V : Type) where
  heap : ℕ → Option (Trie.Node w V)
  next : ℕ

namespace Trie

variable {w : ℕ} {V : Type}

def Node.make (key mask : BitVec w) (val : Option V) : Node w V := ⟨key &&& mask,mask,val,none,fun _ => none⟩

def init : Trie w V := ⟨Function.update (fun _ => none) 0 (some (Node.make 0 0 none)),1⟩

def deref (t : Trie w V) (a : ℕ) : Except Fault (Node w V) :=
  match t.heap a with
  | none => .error .dangling
  | some n => .ok n

def modify (t : Trie w V) (a : ℕ) (f : Node w V → Node w V) : Except Fault (Trie w V) :=
  match t.heap a with
  | none => .error .dangling
  | some n => .ok {t with heap := Function.update t.heap a (some (f n))}

def alloc (t : Trie w V) (n : Node w V) : Trie w V := ⟨Function.update t.heap t.next (some n),t.next+1⟩

def delete (t : Trie w V) (a : ℕ) : Trie w V := {t with heap := Function.update t.heap a none}

def Node.setKid (n : Node w V) (i : Fin 2) (b : Option ℕ) : Node w V := {n with kids := Function.update n.kids i b}

def extendMask (orig : BitVec w) : BitVec w := orig ||| orig >>> 1 ||| BitVec.twoPow w (w-1)

def goesAfter (t : Trie w V) (kid : Option ℕ) (key newMask : BitVec w) : Except Fault (Option ℕ) :=
  match kid with
  | none => .ok none
  | some b => do
    let k ← t.deref b
    .ok (if k.accepts key&&k.mask &&& newMask == k.mask then some b else none)

/-- The loop of `insert` past the nodes that the new one will be inserted after. -/
def insertPoint (t : Trie w V) (key newMask : BitVec w) : ℕ → ℕ → Except Fault ℕ
  | 0,_ => .error .endless
  | fuel+1,node => do
    let n ← t.deref node
    match ← t.goesAfter (n.kids 0) key newMask with
    | some b => insertPoint t key newMask fuel b
    | none =>
      match ← t.goesAfter (n.kids 1) key newMask with
      | some b => insertPoint t key newMask fuel b
      | none => .ok node

/-- The `do` loop of `insert` down a leg, to the last mask under which the keys are the same. -/
def walkLeg (key kidKey newMask : BitVec w) : ℕ → BitVec w → Except Fault (BitVec w)
  | 0,_ => .error .endless
  | fuel+1,lastMask =>
    if key &&& extendMask lastMask≠kidKey &&& extendMask lastMask ∨ lastMask=newMask then .ok lastMask
    else walkLeg key kidKey newMask fuel (extendMask lastMask)

def fillSplit (t : Trie w V) (c : ℕ) (key newMask curMask : BitVec w) (val : Option V) : Except Fault (Trie w V × ℕ) :=
  if curMask=newMask then do
    let t' ← t.modify c fun n => {n with value := val}
    .ok (t',c)
  else do
    let t' ← (t.alloc {Node.make key newMask val with parent := some c}).modify c (·.setKid 1 (some t.next))
    .ok (t',t.next)

/-- One round of the loop over the kids: a new handle, or the mask for the next round. -/
def insertLeg (t : Trie w V) (fuel node : ℕ) (key newMask : BitVec w) (val : Option V) (i : Fin 2) (curMask : BitVec w) :
    Except Fault ((Trie w V × ℕ) ⊕ BitVec w) := do
  let n ← t.deref node
  match n.kids i with
  | none =>
    let t' ← (t.alloc {Node.make key newMask val with parent := some node}).modify node (·.setKid i (some t.next))
    .ok (.inl (t',t.next))
  | some b =>
    let kid ← t.deref b
    let curMask ← walkLeg key kid.key newMask fuel curMask
    if curMask=n.mask then .ok (.inr curMask)
    else
      let c := t.next
      let t1 := t.alloc {Node.make key curMask none with parent := some node}
      let t2 ← t1.modify b fun k => {k with parent := some c}
      let t3 ← t2.modify c (·.setKid 0 (some b))
      let t4 ← t3.modify node (·.setKid i (some c))
      let r ← t4.fillSplit c key newMask curMask val
      .ok (.inl r)

def insert (t : Trie w V) (fuel : ℕ) (key : BitVec w) (width : ℕ) (val : Option V) : Except Fault (Trie w V × ℕ) :=
  if val.isNone then .error .assertion
  else do
    let newMask := if width<w then BitVec.allOnes w <<< (w-width) else BitVec.allOnes w
    let key := key &&& newMask
    let node ← t.insertPoint key newMask fuel 0
    let n ← t.deref node
    if n.mask=newMask then
      if n.value.isSome then .error .assertion
      else
        let t' ← t.modify node fun n => {n with value := val}
        .ok (t',node)
    else
      match ← t.insertLeg fuel node key newMask val 0 n.mask with
      | .inl r => .ok r
      | .inr curMask =>
        match ← t.insertLeg fuel node key newMask val 1 curMask with
        | .inl r => .ok r
        | .inr _ => .error .panic

def kidAccepts (t : Trie w V) (kid : Option ℕ) (key : BitVec w) : Except Fault (Option ℕ) :=
  match kid with
  | none => .ok none
  | some b => do
    let k ← t.deref b
    .ok (if k.accepts key then some b else none)

def lookupHandle (t : Trie w V) (key : BitVec w) : ℕ → ℕ → Except Fault (Option ℕ)
  | 0,_ => .error .endless
  | fuel+1,node => do
    let n ← t.deref node
    if n.value.isSome then .ok (some node)
    else
      match ← t.kidAccepts (n.kids 0) key with
      | some b => lookupHandle t key fuel b
      | none =>
        match ← t.kidAccepts (n.kids 1) key with
        | some b => lookupHandle t key fuel b
        | none => .ok none

def lookup (t : Trie w V) (fuel : ℕ) (key : BitVec w) : Except Fault (Option V) := do
  match ← t.lookupHandle key fuel 0 with
  | none => .ok none
  | some a => do
    let n ← t.deref a
    .ok n.value

def Node.packed (n : Node w V) : Node w V :=
  if (n.kids 1).isSome&&(n.kids 0).isNone then (n.setKid 0 (n.kids 1)).setKid 1 none else n

/-- The parent after `node` has been replaced by its kid, or a panic if it does not know `node`. -/
def Node.replaceKid (n : Node w V) (node : ℕ) (kid : Option ℕ) : Except Fault (Node w V) :=
  if n.kids 0=some node then .ok (n.setKid 0 kid)
  else if n.kids 1=some node then .ok (n.setKid 1 kid)
  else .error .panic

def adopt (t : Trie w V) (kid : Option ℕ) (p : ℕ) : Except Fault (Trie w V) :=
  match kid with
  | none => .ok t
  | some b => t.modify b fun k => {k with parent := some p}

def unlink (t : Trie w V) (node : ℕ) : Except Fault (Trie w V × ℕ) := do
  let n ← t.deref node
  match n.parent with
  | none => .error .panic
  | some p =>
    let t1 ← t.adopt (n.kids 0) p
    let pn ← t1.deref p
    let pn' ← pn.replaceKid node (n.kids 0)
    let t2 ← t1.modify p fun _ => pn'.packed
    .ok (t2,p)

def remove (t : Trie w V) : ℕ → ℕ → Except Fault (Trie w V × Option V)
  | 0,_ => .error .endless
  | fuel+1,node => do
    let n ← t.deref node
    if (n.kids 1).isSome then
      if n.value.isNone then .error .assertion
      else
        let t' ← t.modify node fun n => {n with value := none}
        .ok (t',n.value)
    else
      let (t1,p) ← t.unlink node
      let pn ← t1.deref p
      let t2 ← (if (pn.kids 1).isNone&&pn.value.isNone&&pn.parent.isSome then (remove t1 fuel p).map (·.1)
        else .ok t1 : Except Fault (Trie w V))
      .ok (t2.delete node,n.value)

/-- What `Node::clear` does to a kid, with `rec` for the call on it. -/
def clearKid (rec : Trie w V → ℕ → Except Fault (Trie w V)) (t : Trie w V) (node : ℕ) (i : Fin 2) :
    Except Fault (Trie w V) := do
  let n ← t.deref node
  match n.kids i with
  | none => .ok t
  | some b =>
    let t' ← rec t b
    (t'.delete b).modify node (·.setKid i none)

def clearNode : ℕ → Trie w V → ℕ → Except Fault (Trie w V)
  | 0,_,_ => .error .endless
  | fuel+1,t,node => do
    let t' ← clearKid (clearNode fuel) t node 1
    clearKid (clearNode fuel) t' node 0

def clear (t : Trie w V) (fuel : ℕ) : Except Fault (Trie w V) := clearNode fuel t 0

end Trie

end AquaGem5.Base

/-!
## The shape of a trie

`Sound` is the invariant of every step: a kid lies beyond its parent, and the kids of a node part at the bit after its
mask.
-/

namespace AquaGem5.Base.Trie
open Prefixes

variable {w : ℕ} {V : Type} {t t' : Trie w V} {n m k l : Node w V} {a b c p x : ℕ} {i j : Fin 2} {ex : Option ℕ}

def Node.len (n : Node w V) : ℕ := width n.mask

structure Node.Formed (n : Node w V) : Prop where
  le : n.len≤w
  mask : n.mask=topMask w n.len
  key : n.key &&& n.mask=n.key

structure Node.Before (n m : Node w V) : Prop where
  le : n.len ≤ m.len
  agree : Agree n.len n.key m.key

structure Sound (t : Trie w V) (ex : Option ℕ) : Prop where
  head : ∃ n, t.heap 0=some n ∧ n.len=0 ∧ n.parent=none ∧ n.value=none
  formed : ∀ a n, t.heap a=some n → n.Formed
  kid : ∀ a n i b, t.heap a=some n → n.kids i=some b →
    ∃ k, t.heap b=some k ∧ k.parent=some a ∧ n.len<k.len ∧ Agree n.len n.key k.key
  parent : ∀ b k, t.heap b=some k → b≠0 → ∃ a n i, k.parent=some a ∧ t.heap a=some n ∧ n.kids i=some b
  differ : ∀ a n i j b c k l, t.heap a=some n → i≠j → n.kids i=some b → n.kids j=some c →
    t.heap b=some k → t.heap c=some l → k.key.getMsbD n.len≠l.key.getMsbD n.len
  order : ∀ a n, t.heap a=some n → n.kids 1≠none → n.kids 0≠none
  full : ∀ a n, t.heap a=some n → a≠0 → some a≠ex → n.value=none → n.kids 1≠none
  fresh : ∀ a, t.next≤a → t.heap a=none

theorem Node.Before.trans (h : n.Before m) (h' : m.Before k) : n.Before k :=
  ⟨h.le.trans h'.le,h.agree.trans (h'.agree.mono h.le)⟩

theorem Node.Formed.accepts_iff (h : n.Formed) (test : BitVec w) : n.accepts test=true ↔ Agree n.len n.key test := by
  rw [Node.accepts,beq_iff_eq]
  constructor
  · intro ht
    rw [← h.key,h.mask] at ht
    exact ((and_topMask_inj h.le).mp ht).symm
  · intro ht
    rw [← h.key,h.mask]
    exact (and_topMask_inj h.le).mpr ht.symm

theorem Node.formed_make {n : ℕ} (hn : n≤w) (key : BitVec w) (val : Option V) :
    (Node.make key (topMask w n) val).Formed ∧ (Node.make key (topMask w n) val).len=n := by
  have hw : width (topMask w n)=n := width_topMask hn
  refine ⟨⟨?_,?_,?_⟩,hw⟩
  · show width (topMask w n)≤w
    rw [hw]
    exact hn
  · show topMask w n=topMask w (width (topMask w n))
    rw [hw]
  · show key &&& topMask w n &&& topMask w n=key &&& topMask w n
    rw [BitVec.and_assoc,BitVec.and_self]

theorem heap_init (x : ℕ) : (init : Trie w V).heap x=if x=0 then some (Node.make 0 0 none) else none := by
  simp only [init,Function.update_apply]

theorem sound_of_single (hhead : ∀ a m, t.heap a=some m → a=0 ∧ m=n) (h0 : t.heap 0=some n) (hf : n.Formed)
    (hlen : n.len=0) (hpar : n.parent=none) (hval : n.value=none) (hkids : ∀ i, n.kids i=none) (hnext : 0<t.next) :
    Sound t none := by
  refine ⟨⟨n,h0,hlen,hpar,hval⟩,?_,?_,?_,?_,?_,?_,?_⟩
  · intro a m hm
    rw [(hhead a m hm).2]
    exact hf
  · intro a m i b hm hb
    rw [(hhead a m hm).2,hkids] at hb
    cases hb
  · intro b k hk hb
    exact (hb (hhead b k hk).1).elim
  · intro a m i j b c k l hm _ hb
    rw [(hhead a m hm).2,hkids] at hb
    cases hb
  · intro a m hm hk
    rw [(hhead a m hm).2] at hk
    exact (hk (hkids 1)).elim
  · intro a m hm ha
    exact (ha (hhead a m hm).1).elim
  · intro a ha
    cases hm : t.heap a with
    | none => rfl
    | some m =>
      rw [(hhead a m hm).1] at ha
      omega

theorem sound_init : (init : Trie w V).Sound none := by
  have hzero : (0 : BitVec w)=topMask w 0 := by
    refine BitVec.eq_of_getMsbD_eq fun i _ => ?_
    rw [getMsbD_topMask (Nat.zero_le w)]
    exact BitVec.getMsbD_zero
  have hmake:=Node.formed_make (V := V) (Nat.zero_le w) 0 none
  rw [← hzero] at hmake
  refine sound_of_single (fun a n hn => ?_) (heap_init 0) hmake.1 hmake.2 rfl rfl (fun _ => rfl) Nat.one_pos
  rw [heap_init] at hn
  split at hn
  case isTrue h => exact ⟨h,(Option.some.inj hn).symm⟩
  case isFalse => cases hn

def Kid (t : Trie w V) (a b : ℕ) : Prop := ∃ n i, t.heap a=some n ∧ n.kids i=some b

def Reaches (t : Trie w V) : ℕ → ℕ → Prop := Relation.ReflTransGen t.Kid

section Ancestors

variable (h : Sound t ex)

include h

theorem Sound.before (ha : t.heap a=some n) (hb : n.kids i=some b) (hk : t.heap b=some k) :
    n.Before k ∧ n.len<k.len := by
  obtain ⟨k',hk',_,hlt,hagree⟩:=h.kid a n i b ha hb
  cases hk.symm.trans hk'
  exact ⟨⟨hlt.le,hagree⟩,hlt⟩

theorem Sound.kid_unique (ha : t.heap a=some n) (hb : n.kids i=some b) (hc : n.kids j=some c)
    (hk : t.heap b=some k) (hl : t.heap c=some l) (hbit : k.key.getMsbD n.len=l.key.getMsbD n.len) : i=j := by
  by_contra hij
  exact h.differ a n i j b c k l ha hij hb hc hk hl hbit

theorem Sound.before_of_reaches (hr : t.Reaches a x) (ha : t.heap a=some n) :
    ∃ m, t.heap x=some m ∧ n.Before m ∧ (a=x ∨ n.len < m.len) := by
  induction hr with
  | refl => exact ⟨n,ha,⟨le_rfl,Agree.refl _ _⟩,.inl rfl⟩
  | tail _ hstep ih =>
    obtain ⟨m,hm,hbefore,_⟩:=ih
    obtain ⟨m',i,hm',hi⟩:=hstep
    cases hm.symm.trans hm'
    obtain ⟨k,hk,_⟩:=h.kid _ m i _ hm hi
    obtain ⟨hnext,hlt⟩:=h.before hm hi hk
    exact ⟨k,hk,hbefore.trans hnext,.inr (Nat.lt_of_le_of_lt hbefore.le hlt)⟩

theorem Sound.reaches_head (hx : t.heap x=some m) : t.Reaches 0 x := by
  induction hlen : m.len using Nat.strong_induction_on generalizing x m with
  | _ len ih =>
    by_cases h0 : x=0
    · rw [h0]
      exact .refl
    · obtain ⟨a,n,i,_,ha,hi⟩:=h.parent x m hx h0
      have hlt:=(h.before ha hi hx).2
      exact (ih n.len (hlen ▸ hlt) ha rfl).tail ⟨n,i,ha,hi⟩

theorem Sound.reaches (ha : t.heap a=some n) (hx : t.heap x=some m) (hb : n.Before m) : t.Reaches a x := by
  have h0:=h.reaches_head ha
  induction h0 generalizing n with
  | refl => exact h.reaches_head hx
  | @tail p a _ hstep ih =>
    obtain ⟨np,i,hp,hi⟩:=hstep
    obtain ⟨hpn,hlt⟩:=h.before hp hi ha
    rcases (ih hp (hpn.trans hb)).cases_head with rfl | ⟨c,⟨np',j,hp',hj⟩,hcx⟩
    · cases hp.symm.trans hx
      exact absurd hb.le (Nat.not_le_of_lt hlt)
    · cases hp.symm.trans hp'
      obtain ⟨l,hl,_⟩:=h.kid p np j c hp hj
      obtain ⟨m',hm',hcb,_⟩:=h.before_of_reaches hcx hl
      cases hx.symm.trans hm'
      have hlt':=(h.before hp hj hl).2
      have hij : i=j := h.kid_unique hp hi hj ha hl ((hb.agree _ hlt).trans (hcb.agree _ hlt').symm)
      rw [hij,hj] at hi
      cases hi
      exact hcx

theorem Sound.kid_before (ha : t.heap a=some n) (hx : t.heap x=some m) (hb : n.Before m) (hne : a≠x) :
    ∃ i b k, n.kids i=some b ∧ t.heap b=some k ∧ k.Before m := by
  rcases (h.reaches ha hx hb).cases_head with he | ⟨b,⟨n',i,ha',hi⟩,hbx⟩
  · exact (hne he).elim
  · cases ha.symm.trans ha'
    obtain ⟨k,hk,_⟩:=h.kid a n i b ha hi
    obtain ⟨m',hm',hcb,_⟩:=h.before_of_reaches hbx hk
    cases hx.symm.trans hm'
    exact ⟨i,b,k,hi,hk,hcb⟩

theorem Sound.eq_of_same (ha : t.heap a=some n) (hx : t.heap x=some m) (hb : n.Before m) (hle : m.len≤n.len) :
    a=x := by
  obtain ⟨m',hm',_,he⟩:=h.before_of_reaches (h.reaches ha hx hb) ha
  cases hx.symm.trans hm'
  rcases he with he | hlt
  · exact he
  · omega

theorem Sound.kid_ne (ha : t.heap a=some n) (hb : n.kids i=some b) : b≠a ∧ b≠0 := by
  obtain ⟨k,hk,hpar,hlt,_⟩:=h.kid a n i b ha hb
  constructor
  · rintro rfl
    cases ha.symm.trans hk
    exact Nat.lt_irrefl _ hlt
  · rintro rfl
    obtain ⟨n0,h0,_,hnone,_⟩:=h.head
    cases hk.symm.trans h0
    rw [hnone] at hpar
    cases hpar

theorem Sound.heap_next : t.heap t.next=none := h.fresh t.next le_rfl

end Ancestors

end AquaGem5.Base.Trie
