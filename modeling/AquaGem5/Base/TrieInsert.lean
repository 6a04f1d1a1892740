import AquaGem5.Base.TrieEdits

/-!
# Looking up and inserting

`view` is what the trie stores: at the address of a node with a value, its prefix and the value.
-/

namespace AquaGem5.Base.Trie
open Prefixes Function Option

variable {w : ℕ} {V : Type} {t t' : Trie w V} {n m k l : Node w V} {a b c x : ℕ} {i j : Fin 2} {ex : Option ℕ}
  {key test : BitVec w} {len d fuel : ℕ} {v : V}

def view (t : Trie w V) (a : ℕ) : Option (BitVec w × BitVec w × V) :=
  (t.heap a).bind fun n => n.value.map fun v => (n.key,n.mask,v)

theorem view_eq (ha : t.heap a=some n) : t.view a=n.value.map fun v => (n.key,n.mask,v) := by
  rw [view,ha,bind_some]

theorem view_none (ha : t.heap a=none) : t.view a=none := by rw [view,ha,Option.bind_none]

theorem view_of_alike (ha : t.heap a=some n) (ha' : t'.heap a=some m) (h : m.Alike n) (hv : m.value=n.value) :
    t'.view a=t.view a := by
  rw [view_eq ha,view_eq ha',h.key,h.mask,hv]

theorem view_of_value (ha : t.heap a=some n) (hv : n.value=some v) : t.view a=some (n.key,n.mask,v) := by
  rw [view_eq ha,hv,map_some]

theorem exists_of_view {y : BitVec w × BitVec w × V} (h : t.view a=some y) :
    ∃ n, t.heap a=some n ∧ n.value=some y.2.2 ∧ n.key=y.1 ∧ n.mask=y.2.1 := by
  obtain ⟨n,hn,hy⟩:=bind_eq_some_iff.mp h
  obtain ⟨v,hv,he⟩:=map_eq_some_iff.mp hy
  subst he
  exact ⟨n,hn,hv,rfl,rfl⟩

theorem deref_eq (ha : t.heap a=some n) : t.deref a = .ok n := by rw [deref,ha]

theorem modify_eq (ha : t.heap a=some n) (f : Node w V → Node w V) :
    t.modify a f = .ok {t with heap := update t.heap a (some (f n))} := by rw [modify,ha]

theorem extendMask_topMask (hw : 0<w) (hd : d≤w) : extendMask (topMask w d)=topMask w (min (d+1) w) := by
  refine BitVec.eq_of_getMsbD_eq fun i hi => ?_
  rw [extendMask,BitVec.getMsbD_or,BitVec.getMsbD_or,BitVec.getMsbD_ushiftRight,getMsbD_topMask hd,getMsbD_topMask hd,
    getMsbD_topMask (by omega),BitVec.getMsbD_twoPow,Bool.eq_iff_iff]
  simp only [Bool.or_eq_true,Bool.and_eq_true,Bool.not_eq_true',decide_eq_true_eq,decide_eq_false_iff_not]
  omega

theorem walkLeg_ok {kidKey : BitVec w} (hw : 0<w) (hlen : len≤w) (hd : d≤len) (h : Agree d key kidKey)
    (hf : len-d<fuel) : ∃ e, d≤e ∧ e≤len ∧ Agree e key kidKey ∧ (e<len → key.getMsbD e≠kidKey.getMsbD e) ∧
      walkLeg key kidKey (topMask w len) fuel (topMask w d) = .ok (topMask w e) := by
  induction fuel generalizing d with
  | zero => omega
  | succ fuel ih =>
    rw [walkLeg,extendMask_topMask hw (hd.trans hlen)]
    rcases Nat.eq_or_lt_of_le hd with rfl | hlt
    · exact ⟨d,le_rfl,le_rfl,h,fun hlt => (Nat.lt_irrefl d hlt).elim,if_pos (.inr rfl)⟩
    rw [Nat.min_eq_left (by omega)]
    have hiff : key &&& topMask w (d+1)=kidKey &&& topMask w (d+1) ↔ key.getMsbD d=kidKey.getMsbD d := by
      rw [and_topMask_inj (by omega),agree_succ,and_iff_right h]
    by_cases hbit : key.getMsbD d=kidKey.getMsbD d
    · obtain ⟨e,he,hel,hagree,hnot,hwalk⟩:=ih (by omega) (agree_succ.mpr ⟨h,hbit⟩) (by omega)
      refine ⟨e,by omega,hel,hagree,hnot,?_⟩
      rw [if_neg]
      · exact hwalk
      · rw [topMask_inj (hd.trans hlen) hlen]
        exact fun hc => hc.elim (fun hc => hc (hiff.mpr hbit)) hlt.ne
    · exact ⟨d,le_rfl,hd,h,fun _ => hbit,if_pos (.inl (mt hiff.mp hbit))⟩

def Node.Leads (n : Node w V) (key : BitVec w) (len : ℕ) : Prop := n.len≤len ∧ Agree n.len n.key key

theorem goesAfter_ok (h : Sound t ex) (ha : t.heap a=some n) (hlen : len≤w) (i : Fin 2) (key : BitVec w) :
    ∃ o, t.goesAfter (n.kids i) key (topMask w len) = .ok o ∧
      (∀ b, o=some b → ∃ k, n.kids i=some b ∧ t.heap b=some k ∧ k.Leads key len) ∧
      (o=none → ∀ b k, n.kids i=some b → t.heap b=some k → ¬k.Leads key len) := by
  cases hi : n.kids i with
  | none => exact ⟨none,rfl,nofun,fun _ b k hb => by cases hb⟩
  | some b =>
    obtain ⟨k,hk,_⟩:=h.kid a n i b ha hi
    have hf:=h.formed b k hk
    have hiff : (k.accepts key&&k.mask &&& topMask w len == k.mask)=true ↔ k.Leads key len := by
      rw [Bool.and_eq_true,hf.accepts_iff,beq_iff_eq,hf.mask,topMask_and hf.le hlen,topMask_inj (by omega) hf.le,Node.Leads]
      constructor
      · intro ⟨h1,h2⟩
        exact ⟨by omega,h1⟩
      · intro ⟨h1,h2⟩
        exact ⟨h2,by omega⟩
    refine ⟨_,by rw [goesAfter,deref_eq hk]; rfl,fun b' hb' => ?_,fun ho b' k' hb' hk' hlead => ?_⟩
    · split at hb'
      case isTrue hc =>
        cases hb'
        exact ⟨k,rfl,hk,hiff.mp hc⟩
      case isFalse => cases hb'
    · cases hb'
      cases hk.symm.trans hk'
      rw [if_pos (hiff.mpr hlead)] at ho
      cases ho

theorem kidAccepts_eq (t : Trie w V) (kid : Option ℕ) (key : BitVec w) :
    t.kidAccepts kid key=t.goesAfter kid key (topMask w w) := by
  cases kid with
  | none => rfl
  | some b =>
    rw [kidAccepts,goesAfter]
    simp only [topMask_full,BitVec.and_allOnes,BEq.rfl,Bool.and_true]

theorem insertPoint_ok (h : Sound t ex) (hlen : len≤w) (ha : t.heap a=some n) (hlead : n.Leads key len)
    (hf : len-n.len<fuel) : ∃ b m, t.insertPoint key (topMask w len) fuel a = .ok b ∧ t.heap b=some m ∧
      m.Leads key len ∧ ∀ i c k, m.kids i=some c → t.heap c=some k → ¬k.Leads key len := by
  induction fuel generalizing a n with
  | zero => omega
  | succ fuel ih =>
    have hnext : ∀ i b k, n.kids i=some b → t.heap b=some k → k.Leads key len → len-k.len<fuel := by
      intro i b k hi hk hle
      have hlt:=(h.before ha hi hk).2
      have := hle.1
      omega
    obtain ⟨o,ho,hsome,hnone⟩:=goesAfter_ok h ha hlen 0 key
    rw [insertPoint,deref_eq ha]
    simp only [bind,Except.bind,ho]
    cases o with
    | some b =>
      obtain ⟨k,hi,hk,hle⟩:=hsome b rfl
      exact ih hk hle (hnext 0 b k hi hk hle)
    | none =>
      obtain ⟨o',ho',hsome',hnone'⟩:=goesAfter_ok h ha hlen 1 key
      simp only [ho']
      cases o' with
      | some b =>
        obtain ⟨k,hi,hk,hle⟩:=hsome' b rfl
        exact ih hk hle (hnext 1 b k hi hk hle)
      | none =>
        refine ⟨a,n,rfl,ha,hlead,fun i c k hc hk => ?_⟩
        rcases (by omega : i=0 ∨ i=1) with rfl | rfl
        · exact hnone rfl c k hc hk
        · exact hnone' rfl c k hc hk

theorem lookupHandle_ok (h : Sound t ex) (ha : t.heap a=some n) (hlead : n.Leads test w) (hf : w-n.len<fuel) :
    ∃ o, t.lookupHandle test fuel a = .ok o ∧ (∀ b, o=some b → ∃ m, t.heap b=some m ∧ m.value≠none ∧ m.Leads test w ∧
        ∀ x k, t.heap x=some k → k.value≠none → n.Before k → k.Leads test w → m.len≤k.len) ∧
      (o=none → ∀ x k, t.heap x=some k → k.value≠none → n.Before k → ¬k.Leads test w) := by
  induction fuel generalizing a n with
  | zero => omega
  | succ fuel ih =>
    rw [lookupHandle,deref_eq ha]
    simp only [bind,Except.bind]
    by_cases hv : n.value.isSome=true
    · rw [if_pos hv]
      refine ⟨some a,rfl,fun b hb => ?_,nofun⟩
      cases hb
      exact ⟨n,ha,isSome_iff_ne_none.mp hv,hlead,fun x k _ _ hb _ => hb.le⟩
    rw [if_neg hv]
    rw [isSome_iff_ne_none,not_not] at hv
    -- a node beyond is beyond a kid that leads to the key, and there is one such kid at most
    have hbeyond : ∀ x k, t.heap x=some k → k.value≠none → n.Before k → k.Leads test w →
        ∃ i b l, n.kids i=some b ∧ t.heap b=some l ∧ l.Before k ∧ l.Leads test w := by
      intro x k hx hk hb hle
      obtain ⟨i,b,l,hi,hl,hbl⟩:=h.kid_before ha hx hb fun he => hk (by subst he; cases ha.symm.trans hx; exact hv)
      exact ⟨i,b,l,hi,hl,hbl,hbl.le.trans hle.1,hbl.agree.trans (hle.2.mono hbl.le)⟩
    have hone : ∀ i j b c k l, n.kids i=some b → n.kids j=some c → t.heap b=some k → t.heap c=some l →
        k.Leads test w → l.Leads test w → i=j := by
      intro i j b c k l hb hc hk hl hlk hll
      have h1:=(h.before ha hb hk).2
      have h2:=(h.before ha hc hl).2
      exact h.kid_unique ha hb hc hk hl ((hlk.2 _ h1).trans (hll.2 _ h2).symm)
    have hdown : ∀ i b k, n.kids i=some b → t.heap b=some k → k.Leads test w →
        ∃ o, t.lookupHandle test fuel b = .ok o ∧
          (∀ b, o=some b → ∃ m, t.heap b=some m ∧ m.value≠none ∧ m.Leads test w ∧
            ∀ x k, t.heap x=some k → k.value≠none → n.Before k → k.Leads test w → m.len≤k.len) ∧
          (o=none → ∀ x k, t.heap x=some k → k.value≠none → n.Before k → ¬k.Leads test w) := by
      intro i b k hi hk hle
      have hlt:=(h.before ha hi hk).2
      have hkw:=hle.1
      obtain ⟨o,ho,hsome,hnone⟩:=ih hk hle (by omega)
      have hsame : ∀ x q, t.heap x=some q → q.value≠none → n.Before q → q.Leads test w → k.Before q := by
        intro x q hx hq hb hql
        obtain ⟨j,c,l,hj,hl,hbl,hll⟩:=hbeyond x q hx hq hb hql
        have hij:=hone i j b c k l hi hj hk hl hle hll
        rw [← hij,hi] at hj
        cases hj
        cases hk.symm.trans hl
        exact hbl
      refine ⟨o,ho,fun y hy => ?_,fun hy x q hx hq hb hql => ?_⟩
      · obtain ⟨m,hm,hmv,hml,hleast⟩:=hsome y hy
        exact ⟨m,hm,hmv,hml,fun x q hx hq hb hql => hleast x q hx hq (hsame x q hx hq hb hql) hql⟩
      · exact hnone hy x q hx hq (hsame x q hx hq hb hql) hql
    rw [kidAccepts_eq,kidAccepts_eq]
    obtain ⟨o,ho,hsome,hnone⟩:=goesAfter_ok h ha le_rfl 0 test
    simp only [ho]
    cases o with
    | some b =>
      obtain ⟨k,hi,hk,hle⟩:=hsome b rfl
      exact hdown 0 b k hi hk hle
    | none =>
      obtain ⟨o',ho',hsome',hnone'⟩:=goesAfter_ok h ha le_rfl 1 test
      simp only [ho']
      cases o' with
      | some b =>
        obtain ⟨k,hi,hk,hle⟩:=hsome' b rfl
        exact hdown 1 b k hi hk hle
      | none =>
        refine ⟨none,rfl,nofun,fun _ x k hx hk hb hle => ?_⟩
        obtain ⟨i,c,l,hc,hl,_,hll⟩:=hbeyond x k hx hk hb hle
        rcases (by omega : i=0 ∨ i=1) with rfl | rfl
        · exact hnone rfl c l hc hl hll
        · exact hnone' rfl c l hc hl hll

def Inserted (t : Trie w V) (key mask : BitVec w) (v : V) (r : Except Fault (Trie w V × ℕ)) : Prop :=
  ∃ t' a, r = .ok (t',a) ∧ Sound t' none ∧ t.view a=none ∧
    ∀ x, t'.view x=if x=a then some (key,mask,v) else t.view x

theorem Node.Leads.key_eq (h : n.Leads key len) (hf : n.Formed) (hle : len≤n.len) (hkey : key &&& topMask w len=key) :
    n.key=key ∧ n.mask=topMask w len := by
  have he : n.len=len := Nat.le_antisymm h.1 hle
  have hmask : n.mask=topMask w len := by rw [hf.mask,he]
  refine ⟨?_,hmask⟩
  rw [← hf.key,hmask,← hkey,and_topMask_inj (he ▸ hf.le),← he]
  exact h.2

theorem view_update (t : Trie w V) (a : ℕ) (m : Node w V) (x : ℕ) :
    view {t with heap := update t.heap a (some m)} x =
      if x=a then m.value.map fun v => (m.key,m.mask,v) else t.view x := by
  by_cases hx : x=a
  · rw [if_pos hx,hx]
    exact view_eq (update_self ..)
  · rw [if_neg hx,view,view]
    show (update t.heap a (some m) x).bind _=_
    rw [update_of_ne hx]

theorem inserted_value (h : Sound t ex) (hex : ∀ y, some y=ex → y=a) (ha : t.heap a=some n) (h0 : a≠0)
    (hv : n.value=none) (hlead : n.Leads key len) (hle : len≤n.len) (hkey : key &&& topMask w len=key) :
    Inserted t key (topMask w len) v
      ((t.modify a fun n => {n with value := some v}) >>= fun t' => .ok (t',a)) := by
  obtain ⟨hk,hm⟩:=hlead.key_eq (h.formed a n ha) hle hkey
  rw [modify_eq ha]
  refine ⟨_,a,rfl,h.setValue hex ha h0 (v := some v) (.inl (some_ne_none v)) rfl fun x => update_apply ..,
    by rw [view_eq ha,hv]; rfl,fun x => ?_⟩
  rw [view_update,hk,hm,map_some]

theorem inserted_leaf (h : Sound t ex) (hex : ∀ y, some y=ex → y=a) (hiex : ex=none ∨ i=1) (ha : t.heap a=some n)
    (hi : n.kids i=none) (hord : i=1 → n.kids 0≠none) (hlead : n.Leads key len) (hlt : n.len<len) (hlen : len≤w)
    (hdiff : ∀ j c k, n.kids j=some c → t.heap c=some k → k.key.getMsbD n.len≠key.getMsbD n.len)
    (hkey : key &&& topMask w len=key) :
    Inserted t key (topMask w len) v
      ((t.alloc {Node.make key (topMask w len) (some v) with parent := some a}).modify a (·.setKid i (some t.next)) >>=
        fun t' => .ok (t',t.next)) := by
  have hfree:=h.heap_next
  have hne : a≠t.next := fun he => by
    rw [he,hfree] at ha
    cases ha
  obtain ⟨hform,hl⟩:=Node.formed_make hlen key (some v)
  let m : Node w V := {Node.make key (topMask w len) (some v) with parent := some a}
  have hmk : m.key=key := hkey
  have hlike : m.Alike (Node.make key (topMask w len) (some v)) := ⟨rfl,rfl⟩
  have hml : m.len=len := hlike.len.trans hl
  have ha' : (t.alloc m).heap a=some n := by
    show update t.heap t.next (some m) a=some n
    rw [update_of_ne hne]
    exact ha
  rw [modify_eq ha']
  let t' : Trie w V :=
    {t.alloc m with heap := update (t.alloc m).heap a (some (n.setKid i (some t.next)))}
  have hheap : ∀ x, t'.heap x =
      if x=a then some (n.setKid i (some t.next)) else if x=t.next then some m else t.heap x := by
    intro x
    show update (update t.heap t.next (some m)) a (some (n.setKid i (some t.next))) x=_
    rw [update_apply,update_apply]
  have hsound : Sound t' ex := h.addLeaf ha hi hord (hlike.formed hform) (hml ▸ hlt) (hmk ▸ hlead.2) rfl (fun _ => rfl)
    (some_ne_none v) (hmk ▸ hdiff) rfl hheap
  have hhere : t'.heap a=some (n.setKid i (some t.next)) := by rw [hheap,if_pos rfl]
  have hsettled : Sound t' none := by
    rcases hiex with rfl | rfl
    · exact hsound
    · refine hsound.settle hex hhere fun _ _ => ?_
      rw [Node.setKid_kids,if_pos rfl]
      exact some_ne_none _
  refine ⟨t',t.next,rfl,hsettled,view_none hfree,fun x => ?_⟩
  by_cases hx : x=t.next
  · have hleaf : t'.heap x=some m := by rw [hheap,if_neg (by omega),if_pos hx]
    rw [if_pos hx,view_of_value hleaf rfl,hmk]
    rfl
  · rw [if_neg hx]
    by_cases hxa : x=a
    · subst hxa
      exact view_of_alike ha hhere (n.alike_setKid i _) rfl
    · rw [view,view,hheap,if_neg hxa,if_neg hx]

theorem Inserted.congr {mask : BitVec w} {r : Except Fault (Trie w V × ℕ)} (h : Inserted t' key mask v r)
    (hview : ∀ x, t'.view x=t.view x) : Inserted t key mask v r := by
  obtain ⟨t'',a,hr,hsound,hnone,hall⟩:=h
  refine ⟨t'',a,hr,hsound,(hview a).symm.trans hnone,fun x => ?_⟩
  rw [hall,hview]

def Stored (t : Trie w V) (key mask : BitVec w) (v : V) (r : Except Fault ((Trie w V × ℕ) ⊕ BitVec w)) : Prop :=
  ∃ q, r = .ok (.inl q) ∧ Inserted t key mask v (.ok q)

theorem Inserted.stored {mask : BitVec w} {α : Type} {x : Except Fault α} {f : α → Trie w V × ℕ}
    (h : Inserted t key mask v (x >>= fun y => .ok (f y))) :
    Stored t key mask v (x >>= fun y => .ok (.inl (f y))) := by
  obtain ⟨t',a,hr,hrest⟩:=h
  cases x with
  | error e => cases hr
  | ok y =>
    have hf : f y=(t',a) := Except.ok.inj hr
    refine ⟨(t',a),?_,t',a,rfl,hrest⟩
    show Except.ok (Sum.inl (f y))=_
    rw [hf]

theorem fillSplit_ok (h : Sound t (some c)) (hc : t.heap c=some m) (hc0 : c≠0) (hval : m.value=none)
    (hb : m.kids 0=some b) (h1 : m.kids 1=none) (hk : t.heap b=some k) (hlead : m.Leads key len) (hlen : len≤w)
    (hbit : m.len<len → k.key.getMsbD m.len≠key.getMsbD m.len) (hkey : key &&& topMask w len=key) :
    Inserted t key (topMask w len) v (t.fillSplit c key (topMask w len) m.mask (some v)) := by
  have hex : ∀ y, some y=some c → y=c := fun y hy => Option.some.inj hy
  have hf:=h.formed c m hc
  have hmask : m.mask=topMask w len ↔ m.len=len := by rw [hf.mask,topMask_inj hf.le hlen]
  rw [fillSplit]
  split
  case isTrue he => exact inserted_value h hex hc hc0 hval hlead (hmask.mp he).ge hkey
  case isFalse he =>
    have hlt : m.len<len := Nat.lt_of_le_of_ne hlead.1 (mt hmask.mpr he)
    refine inserted_leaf h hex (.inr rfl) hc h1 (fun _ => by rw [hb]; exact some_ne_none b) hlead hlt hlen
      (fun j d q hj hq => ?_) hkey
    rcases (by omega : j=0 ∨ j=1) with rfl | rfl
    · cases hb.symm.trans hj
      cases hk.symm.trans hq
      exact hbit hlt
    · rw [h1] at hj
      cases hj

theorem insertLeg_split (h : Sound t none) (hw : 0<w) (ha : t.heap a=some n) (hi : n.kids i=some b)
    (hb : t.heap b=some k) (hlead : n.Leads key len) (hlt : n.len<len) (hlen : len≤w) (hoff : ¬k.Leads key len)
    (hbit : key.getMsbD n.len=k.key.getMsbD n.len) (hkey : key &&& topMask w len=key) (hf : len<fuel) :
    Stored t key (topMask w len) v (t.insertLeg fuel a key (topMask w len) (some v) i n.mask) := by
  have hform:=h.formed a n ha
  obtain ⟨hbefore,hltk⟩:=h.before ha hi hb
  have hagree : Agree n.len key k.key := hlead.2.symm.trans hbefore.agree
  obtain ⟨e,hde,hel,hae,hnot,hwalk⟩:=walkLeg_ok hw hlen hlt.le hagree (show len-n.len<fuel by omega)
  have hlte : n.len<e := Nat.lt_of_le_of_ne hde fun he => hnot (he ▸ hlt) (he ▸ hbit)
  have heok : e≤w := hel.trans hlen
  have hek : e<k.len := by
    by_contra hle
    exact hoff ⟨by omega,(hae.mono (by omega)).symm⟩
  have hne : ∀ x q, t.heap x=some q → x≠t.next := fun x q hx he => by
    rw [he,h.heap_next] at hx
    cases hx
  have hca:=hne a n ha
  have hcb:=hne b k hb
  have hba:=(h.kid_ne ha hi).1
  obtain ⟨hmf,hml⟩:=Node.formed_make heok key (none : Option V)
  let m0 : Node w V := {Node.make key (topMask w e) none with parent := some a}
  let m : Node w V := m0.setKid 0 (some b)
  have hlike : m.Alike (Node.make key (topMask w e) none) := ⟨rfl,rfl⟩
  have hme : m.len=e := hlike.len.trans hml
  have hma : Agree e m.key key := agree_and_topMask heok key
  let k' : Node w V := {k with parent := some t.next}
  let t1:=t.alloc m0
  let t2 : Trie w V := {t1 with heap := update t1.heap b (some k')}
  let t3 : Trie w V := {t2 with heap := update t2.heap t.next (some m)}
  let t4 : Trie w V := {t3 with heap := update t3.heap a (some (n.setKid i (some t.next)))}
  have h₁ : t1.heap b=some k := by
    show update t.heap t.next (some m0) b=_
    rw [update_of_ne hcb,hb]
  have h₂ : t2.heap t.next=some m0 := by
    show update (update t.heap t.next (some m0)) b (some k') t.next=_
    rw [update_of_ne hcb.symm,update_self]
  have h3 : t3.heap a=some n := by
    show update (update (update t.heap t.next (some m0)) b (some k')) t.next (some m) a=_
    rw [update_of_ne hca,update_of_ne hba.symm,update_of_ne hca,ha]
  have hheap : ∀ x, t4.heap x=if x=a then some (n.setKid i (some t.next)) else if x=b then some k'
      else if x=t.next then some m else t.heap x := by
    intro x
    show update (update (update (update t.heap t.next (some m0)) b (some k')) t.next
      (some m)) a (some (n.setKid i (some t.next))) x=_
    simp only [update_apply]
    refine if_congr Iff.rfl rfl ?_
    by_cases hxc : x=t.next
    · rw [if_pos hxc,if_pos hxc,if_neg (hxc ▸ hcb.symm)]
    · rw [if_neg hxc,if_neg hxc,if_neg hxc]
  have hsound : Sound t4 (some t.next) := by
    refine h.split (fun y hy => by cases hy) ha hi hb (hlike.formed hmf) (hme ▸ hlte) (hme ▸ hek) ?_ ?_ rfl ?_ ?_ rfl hheap
    · exact hlead.2.trans (hma.mono hlte.le).symm
    · rw [hme]
      exact hma.trans hae
    · exact Node.setKid_kids ..
    · exact Node.setKid_kids ..
  have hkid : t4.heap b=some k' := by rw [hheap,if_neg hba,if_pos rfl]
  have hview : ∀ x, t4.view x=t.view x := by
    intro x
    by_cases hxa : x=a
    · subst hxa
      exact view_of_alike ha (by rw [hheap,if_pos rfl]) (n.alike_setKid i _) rfl
    by_cases hxb : x=b
    · rw [hxb]
      exact view_of_alike hb hkid ⟨rfl,rfl⟩ rfl
    by_cases hxc : x=t.next
    · have hxm : t4.heap x=some m := by rw [hheap,if_neg hxa,if_neg hxb,if_pos hxc]
      rw [view_eq hxm,view_none (hxc ▸ h.heap_next)]
      rfl
    · rw [view,view,hheap,if_neg hxa,if_neg hxb,if_neg hxc]
  have hmid : t4.heap t.next=some m := by rw [hheap,if_neg hca.symm,if_neg hcb.symm,if_pos rfl]
  have hnext : t.next≠0 := fun he => by
    obtain ⟨n0,hn0,_⟩:=h.head
    exact hne 0 n0 hn0 he.symm
  have hfill : Inserted t4 key (topMask w len) v (t4.fillSplit t.next key (topMask w len) m.mask (some v)) :=
    fillSplit_ok hsound hmid hnext rfl (Node.setKid_kids ..) (Node.setKid_kids ..) hkid
      ⟨hme.le.trans hel,hme.symm ▸ hma⟩ hlen (fun hl => hme.symm ▸ (hnot (hme ▸ hl)).symm) hkey
  obtain ⟨t',y,hr,hrest⟩:=hfill.congr hview
  refine ⟨(t',y),?_,t',y,rfl,hrest⟩
  have hmask : ¬topMask w e=topMask w n.len := by
    rw [topMask_inj heok hform.le]
    exact hlte.ne'
  rw [insertLeg,deref_eq ha]
  simp only [bind,Except.bind,hi,deref_eq hb]
  rw [hform.mask,hwalk]
  simp only [if_neg hmask]
  rw [modify_eq h₁]
  dsimp only
  rw [modify_eq h₂]
  dsimp only
  rw [modify_eq h3]
  show Except.bind (t4.fillSplit t.next key (topMask w len) m.mask (some v)) (fun r => Except.ok (Sum.inl r))=_
  rw [hr]
  rfl

theorem insertLeg_skip (h : Sound t none) (hw : 0<w) (ha : t.heap a=some n) (hi : n.kids i=some b)
    (hb : t.heap b=some k) (hlead : n.Leads key len) (hlt : n.len<len) (hlen : len≤w)
    (hbit : key.getMsbD n.len≠k.key.getMsbD n.len) (hf : len<fuel) :
    t.insertLeg fuel a key (topMask w len) (some v) i n.mask = .ok (.inr n.mask) := by
  have hmask:=(h.formed a n ha).mask
  obtain ⟨hbefore,_⟩:=h.before ha hi hb
  have hagree : Agree n.len key k.key := hlead.2.symm.trans hbefore.agree
  obtain ⟨e,hde,_,hae,_,hwalk⟩:=walkLeg_ok hw hlen hlt.le hagree (show len-n.len<fuel by omega)
  have he : e=n.len := by
    by_contra hne
    exact hbit (hae _ (by omega))
  rw [he,← hmask] at hwalk
  rw [insertLeg,deref_eq ha]
  simp only [bind,Except.bind,hi,deref_eq hb,hwalk,if_true]

theorem insertLeg_leaf (fuel : ℕ) (h : Sound t none) (ha : t.heap a=some n) (hi : n.kids i=none) (hord : i=1 → n.kids 0≠none)
    (hlead : n.Leads key len) (hlt : n.len<len) (hlen : len≤w)
    (hdiff : ∀ j c k, n.kids j=some c → t.heap c=some k → k.key.getMsbD n.len≠key.getMsbD n.len)
    (hkey : key &&& topMask w len=key) :
    Stored t key (topMask w len) v (t.insertLeg fuel a key (topMask w len) (some v) i n.mask) := by
  have hleaf:=(inserted_leaf (v := v) h (fun y hy => by cases hy) (.inl rfl) ha hi hord hlead hlt hlen hdiff hkey).stored
  rw [insertLeg,deref_eq ha]
  simp only [bind,Except.bind,hi]
  exact hleaf

theorem mask_eq (hle : len≤w) : (if len<w then BitVec.allOnes w <<< (w-len) else BitVec.allOnes w)=topMask w len := by
  split
  case isTrue => rfl
  case isFalse h =>
    have he : len=w := by omega
    rw [he,topMask_full]

theorem insert_ok (h : Sound t none) (hw : 0<w) (h1 : 1≤len) (hle : len≤w) (hf : w<fuel)
    (hnew : ∀ a v', t.view a≠some (key &&& topMask w len,topMask w len,v')) :
    Inserted t (key &&& topMask w len) (topMask w len) v (t.insert fuel key len (some v)) := by
  have hkey : key &&& topMask w len &&& topMask w len=key &&& topMask w len := by rw [BitVec.and_assoc,BitVec.and_self]
  obtain ⟨n0,hn0,hn0l,_⟩:=h.head
  have hlead0 : n0.Leads (key &&& topMask w len) len := ⟨by omega,by rw [hn0l]; exact agree_zero _ _⟩
  obtain ⟨a,n,hpoint,ha,hlead,hnone⟩:=insertPoint_ok h hle hn0 hlead0 (show len-n0.len<fuel by omega)
  have hform:=h.formed a n ha
  rw [insert,if_neg (by simp)]
  simp only [mask_eq hle,bind,Except.bind,hpoint,deref_eq ha]
  by_cases hlen : len≤n.len
  · obtain ⟨hk,hm⟩:=hlead.key_eq hform hlen hkey
    rw [if_pos hm]
    have ha0 : a≠0 := fun he => by
      subst he
      cases hn0.symm.trans ha
      omega
    cases hv : n.value with
    | some v' => exact (hnew a v' (by rw [view_of_value ha hv,hk,hm])).elim
    | none =>
      rw [if_neg (by simp)]
      exact inserted_value h (fun y hy => by cases hy) ha ha0 hv hlead hlen hkey
  have hlt : n.len<len := Nat.lt_of_not_le hlen
  have hmask : ¬n.mask=topMask w len := by
    rw [hform.mask,topMask_inj hform.le hle]
    exact hlt.ne
  rw [if_neg hmask]
  have hgo : ∀ i b k, n.kids i=some b → t.heap b=some k → (key &&& topMask w len).getMsbD n.len=k.key.getMsbD n.len →
      Stored t (key &&& topMask w len) (topMask w len) v
        (t.insertLeg fuel a (key &&& topMask w len) (topMask w len) (some v) i n.mask) := fun i b k hi hb hbit =>
    insertLeg_split h hw ha hi hb hlead hlt hle (hnone i b k hi hb) hbit hkey (by omega)
  have hskip : ∀ i b k, n.kids i=some b → t.heap b=some k → (key &&& topMask w len).getMsbD n.len≠k.key.getMsbD n.len →
      t.insertLeg fuel a (key &&& topMask w len) (topMask w len) (some v) i n.mask = .ok (.inr n.mask) :=
    fun i b k hi hb hbit => insertLeg_skip h hw ha hi hb hlead hlt hle hbit (by omega)
  cases hi : n.kids 0 with
  | none =>
    have hk1 : n.kids 1=none := by
      by_contra hne
      exact h.order a n ha hne hi
    obtain ⟨q,hq,hins⟩:=insertLeg_leaf (v := v) fuel h ha hi (fun he => by cases he) hlead hlt hle (fun j c k hj => by
      rcases (by omega : j=0 ∨ j=1) with rfl | rfl
      · rw [hi] at hj
        cases hj
      · rw [hk1] at hj
        cases hj) hkey
    rw [hq]
    exact hins
  | some b =>
    obtain ⟨k,hb,_⟩:=h.kid a n 0 b ha hi
    by_cases hbit : (key &&& topMask w len).getMsbD n.len=k.key.getMsbD n.len
    · obtain ⟨q,hq,hins⟩:=hgo 0 b k hi hb hbit
      rw [hq]
      exact hins
    rw [hskip 0 b k hi hb hbit]
    cases hi' : n.kids 1 with
    | none =>
      obtain ⟨q,hq,hins⟩:=insertLeg_leaf (v := v) fuel h ha hi' (fun _ => by rw [hi]; exact some_ne_none b)
        hlead hlt hle (fun j c q hj hq => by
          rcases (by omega : j=0 ∨ j=1) with rfl | rfl
          · cases hi.symm.trans hj
            cases hb.symm.trans hq
            exact Ne.symm hbit
          · rw [hi'] at hj
            cases hj) hkey
      simp only [hq]
      exact hins
    | some c =>
      obtain ⟨l,hc,_⟩:=h.kid a n 1 c ha hi'
      -- the kids have different bits, so that one of them has that of the key
      have hbit' : (key &&& topMask w len).getMsbD n.len=l.key.getMsbD n.len := by
        have hdiff:=h.differ a n 0 1 b c k l ha (by decide) hi hi' hb hc
        revert hbit hdiff
        cases (key &&& topMask w len).getMsbD n.len <;> cases k.key.getMsbD n.len <;> cases l.key.getMsbD n.len <;> simp
      obtain ⟨q,hq,hins⟩:=hgo 1 c l hi' hc hbit'
      simp only [hq]
      exact hins

end AquaGem5.Base.Trie
