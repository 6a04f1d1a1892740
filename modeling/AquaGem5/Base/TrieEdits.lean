import AquaGem5.Base.Trie

/-! # The edits of a trie -/

namespace AquaGem5.Base.Trie
open Prefixes Option

variable {w : ℕ} {V : Type} {t t' : Trie w V} {n m k l : Node w V} {a b c p x y : ℕ} {i j : Fin 2} {ex : Option ℕ}

theorem Node.setKid_kids (n : Node w V) (i j : Fin 2) (o : Option ℕ) :
    (n.setKid i o).kids j=if j=i then o else n.kids j := Function.update_apply ..

theorem Node.setKid_self (n : Node w V) (i : Fin 2) (o : Option ℕ) : (n.setKid i o).kids i=o := by
  rw [Node.setKid_kids,if_pos rfl]

structure Node.Alike (n m : Node w V) : Prop where
  key : n.key=m.key
  mask : n.mask=m.mask

theorem Node.Alike.refl (n : Node w V) : n.Alike n := ⟨rfl,rfl⟩

theorem Node.alike_setKid (n : Node w V) (i : Fin 2) (o : Option ℕ) : (n.setKid i o).Alike n := ⟨rfl,rfl⟩

theorem Node.Alike.len (h : n.Alike m) : n.len=m.len := by rw [Node.len,Node.len,h.mask]

theorem Node.Alike.formed (h : n.Alike m) (hm : m.Formed) : n.Formed :=
  ⟨h.len ▸ hm.le,by rw [h.len,h.mask]; exact hm.mask,by rw [h.key,h.mask]; exact hm.key⟩

theorem Sound.settle (h : Sound t ex) (hex : ∀ y, some y=ex → y=a) (ha : t.heap a=some n)
    (hn : a≠0 → n.value=none → n.kids 1≠none) : Sound t none := by
  refine ⟨h.head,h.formed,h.kid,h.parent,h.differ,h.order,fun x m hx h0 _ hv => ?_,h.fresh⟩
  by_cases hxa : x=a
  · subst hxa
    cases ha.symm.trans hx
    exact hn h0 hv
  · exact h.full x m hx h0 (fun he => hxa (hex x he)) hv

theorem Sound.setValue (h : Sound t ex) (hex : ∀ y, some y=ex → y=a) (ha : t.heap a=some n) (h0 : a≠0)
    {v : Option V} (hn : v≠none ∨ n.kids 1≠none) (hnext : t'.next=t.next)
    (hheap : ∀ x, t'.heap x=if x=a then some {n with value := v} else t.heap x) : Sound t' none := by
  have hto : ∀ x m, t.heap x=some m → ∃ m', t'.heap x=some m' ∧ m'.Alike m ∧ m'.parent=m.parent ∧
      m'.kids=m.kids := by
    intro x m hx
    rw [hheap]
    split
    case isTrue hxa =>
      subst hxa
      cases ha.symm.trans hx
      exact ⟨_,rfl,⟨rfl,rfl⟩,rfl,rfl⟩
    case isFalse => exact ⟨m,hx,.refl m,rfl,rfl⟩
  have hfrom : ∀ x m', t'.heap x=some m' → ∃ m, t.heap x=some m ∧ m'.Alike m ∧ m'.parent=m.parent ∧
      m'.kids=m.kids ∧ (x≠a → m'.value=m.value) ∧ (x=a → m'.value=v) := by
    intro x m' hx
    rw [hheap] at hx
    split at hx
    case isTrue hxa =>
      cases hx
      exact ⟨n,hxa ▸ ha,⟨rfl,rfl⟩,rfl,rfl,fun hne => (hne hxa).elim,fun _ => rfl⟩
    case isFalse hxa => exact ⟨m',hx,.refl m',rfl,rfl,fun _ => rfl,fun he => (hxa he).elim⟩
  refine ⟨?_,?_,?_,?_,?_,?_,?_,?_⟩
  · obtain ⟨n0,hh,hlen,hpar,hval⟩:=h.head
    exact ⟨n0,by rw [hheap,if_neg h0.symm]; exact hh,hlen,hpar,hval⟩
  · intro x m' hx
    obtain ⟨m,hm,hlike,_⟩:=hfrom x m' hx
    exact hlike.formed (h.formed x m hm)
  · intro x m' i b hx hb
    obtain ⟨m,hm,hlike,_,hkids,_⟩:=hfrom x m' hx
    obtain ⟨k,hk,hpar,hlt,hagree⟩:=h.kid x m i b hm (hkids ▸ hb)
    obtain ⟨k',hk',hlike',hpar',_⟩:=hto b k hk
    exact ⟨k',hk',hpar'.trans hpar,by rw [hlike.len,hlike'.len]; exact hlt,
      by rw [hlike.len,hlike.key,hlike'.key]; exact hagree⟩
  · intro b k' hk' hb
    obtain ⟨k,hk,_,hpar,_⟩:=hfrom b k' hk'
    obtain ⟨p,np,i,hp,hnp,hi⟩:=h.parent b k hk hb
    obtain ⟨np',hnp',_,_,hkids⟩:=hto p np hnp
    exact ⟨p,np',i,hpar.trans hp,hnp',by rw [hkids]; exact hi⟩
  · intro x m' i j b c k' l' hx hij hb hc hk' hl'
    obtain ⟨m,hm,hlike,_,hkids,_⟩:=hfrom x m' hx
    obtain ⟨k,hk,hlk,_⟩:=hfrom b k' hk'
    obtain ⟨l,hl,hll,_⟩:=hfrom c l' hl'
    rw [hlike.len,hlk.key,hll.key]
    rw [hkids] at hb hc
    exact h.differ x m i j b c k l hm hij hb hc hk hl
  · intro x m' hx
    obtain ⟨m,hm,_,_,hkids,_⟩:=hfrom x m' hx
    rw [hkids]
    exact h.order x m hm
  · intro x m' hx hx0 _ hv
    obtain ⟨m,hm,_,_,hkids,hval,hval'⟩:=hfrom x m' hx
    rw [hkids]
    by_cases hxa : x=a
    · subst hxa
      cases ha.symm.trans hm
      exact hn.resolve_left (not_not_intro ((hval' rfl).symm.trans hv))
    · exact h.full x m hm hx0 (fun he => hxa (hex x he)) ((hval hxa).symm.trans hv)
  · intro x hx
    rw [hnext] at hx
    have hne : x≠a := fun he => by
      rw [he] at hx
      rw [h.fresh a hx] at ha
      cases ha
    rw [hheap,if_neg hne]
    exact h.fresh x hx

theorem Sound.ne_next (h : Sound t ex) (hx : t.heap x=some l) : x≠t.next := by
  rintro rfl
  rw [h.heap_next] at hx
  cases hx

structure Grafted (t t' : Trie w V) (a : ℕ) (n m : Node w V) (i : Fin 2) : Prop where
  parent : t.heap a=some n
  place : n.kids i=none
  order : i=1 → n.kids 0≠none
  formed : m.Formed
  above : n.len < m.len
  agree : Agree n.len n.key m.key
  up : m.parent=some a
  leaf : ∀ j, m.kids j=none
  value : m.value≠none
  differ : ∀ j c k, n.kids j=some c → t.heap c=some k → k.key.getMsbD n.len≠m.key.getMsbD n.len
  heap : ∀ x, t'.heap x =
    if x=a then some (n.setKid i (some t.next)) else if x=t.next then some m else t.heap x

structure Node.Grown (i : Fin 2) (a c x : ℕ) (l l' : Node w V) : Prop where
  alike : l'.Alike l
  value : l'.value=l.value
  parent : l'.parent=l.parent
  kept : ∀ j y, l.kids j=some y → l'.kids j=some y
  kids : ∀ j y, l'.kids j=some y → l.kids j=some y ∨ x=a ∧ j=i ∧ y=c

section Graft

variable {q q' : Node w V} (h : Sound t ex) (hg : Grafted t t' a n m i)

include h hg

omit h in
theorem Grafted.here : t'.heap a=some (n.setKid i (some t.next)) := by rw [hg.heap,if_pos rfl]

theorem Grafted.at_next : t'.heap t.next=some m := by
  rw [hg.heap,if_neg (h.ne_next hg.parent).symm,if_pos rfl]

theorem Grafted.to (hx : t.heap x=some l) : ∃ l', t'.heap x=some l' ∧ Node.Grown i a t.next x l l' := by
  rw [hg.heap]
  split
  case isTrue hxa =>
    subst hxa
    cases hg.parent.symm.trans hx
    refine ⟨_,rfl,n.alike_setKid i _,rfl,rfl,fun j y hj => ?_,fun j y hj => ?_⟩
    · rw [Node.setKid_kids,if_neg fun he => by rw [he,hg.place] at hj; cases hj]
      exact hj
    · rw [Node.setKid_kids] at hj
      split at hj
      case isTrue hji => exact .inr ⟨rfl,hji,(Option.some.inj hj).symm⟩
      case isFalse => exact .inl hj
  case isFalse =>
    rw [if_neg (h.ne_next hx)]
    exact ⟨l,hx,.refl l,rfl,rfl,fun _ _ hj => hj,fun _ _ hj => .inl hj⟩

theorem Grafted.old (hx : t'.heap x=some q) :
    (x=t.next ∧ q=m) ∨ ∃ l, t.heap x=some l ∧ Node.Grown i a t.next x l q := by
  have hfrom : x=t.next ∨ ∃ l, t.heap x=some l := by
    rw [hg.heap] at hx
    split at hx
    case isTrue hxa => exact .inr ⟨n,hxa ▸ hg.parent⟩
    case isFalse =>
      split at hx
      case isTrue hxc => exact .inl hxc
      case isFalse => exact .inr ⟨q,hx⟩
  rcases hfrom with rfl | ⟨l,hl⟩
  · exact .inl ⟨rfl,Option.some.inj (hx.symm.trans (hg.at_next h))⟩
  · obtain ⟨l',hl',hgrown⟩:=hg.to h hl
    cases hx.symm.trans hl'
    exact .inr ⟨l,hl,hgrown⟩

theorem Grafted.sound_kid (hx : t'.heap x=some q) (hy : q.kids j=some y) :
    ∃ q', t'.heap y=some q' ∧ q'.parent=some x ∧ q.len<q'.len ∧ Agree q.len q.key q'.key := by
  rcases hg.old h hx with ⟨_,rfl⟩ | ⟨l,hl,hgrown⟩
  · rw [hg.leaf] at hy
    cases hy
  rw [hgrown.alike.len,hgrown.alike.key]
  rcases hgrown.kids j y hy with hj | ⟨rfl,_,rfl⟩
  · obtain ⟨r,hr,hpar,hlt,hagree⟩:=h.kid x l j y hl hj
    obtain ⟨r',hr',hgrownr⟩:=hg.to h hr
    exact ⟨r',hr',hgrownr.parent.trans hpar,by rw [hgrownr.alike.len]; exact hlt,
      by rw [hgrownr.alike.key]; exact hagree⟩
  · cases hg.parent.symm.trans hl
    exact ⟨m,hg.at_next h,hg.up,hg.above,hg.agree⟩

theorem Grafted.sound_parent (hy : t'.heap y=some q) (hy0 : y≠0) :
    ∃ a q' j, q.parent=some a ∧ t'.heap a=some q' ∧ q'.kids j=some y := by
  rcases hg.old h hy with ⟨rfl,rfl⟩ | ⟨l,hl,hgrown⟩
  · exact ⟨a,_,i,hg.up,hg.here,n.setKid_self i _⟩
  · obtain ⟨c,nc,j,hc,hnc,hj⟩:=h.parent y l hl hy0
    obtain ⟨nc',hnc',hgrownc⟩:=hg.to h hnc
    exact ⟨c,nc',j,hgrown.parent.trans hc,hnc',hgrownc.kept j y hj⟩

theorem Grafted.key (hl : t.heap x=some l) (hj : l.kids j=some y) (hq : t'.heap y=some q) :
    ∃ k, t.heap y=some k ∧ q.key=k.key := by
  obtain ⟨k,hk,_⟩:=h.kid x l j y hl hj
  obtain ⟨k',hk',hgrown⟩:=hg.to h hk
  cases hq.symm.trans hk'
  exact ⟨k,hk,hgrown.alike.key⟩

theorem Grafted.differ_leaf (hj : (n.setKid i (some t.next)).kids j=some y) (hq : t'.heap y=some q)
    (hji : j≠i) : q.key.getMsbD n.len≠m.key.getMsbD n.len := by
  rw [Node.setKid_kids,if_neg hji] at hj
  obtain ⟨k,hk,hkey⟩:=hg.key h hg.parent hj hq
  rw [hkey]
  exact hg.differ j y k hj hk

theorem Grafted.sound_differ {j' : Fin 2} {z : ℕ} {q1 q2 : Node w V} (hx : t'.heap x=some q) (hjj : j≠j')
    (hy : q.kids j=some y) (hz : q.kids j'=some z) (hq1 : t'.heap y=some q1) (hq2 : t'.heap z=some q2) :
    q1.key.getMsbD q.len≠q2.key.getMsbD q.len := by
  by_cases hxa : x=a
  · subst hxa
    cases hg.here.symm.trans hx
    rw [(n.alike_setKid i _).len]
    by_cases hj : j=i
    · subst hj
      cases (n.setKid_self j _).symm.trans hy
      cases (hg.at_next h).symm.trans hq1
      exact (hg.differ_leaf h hz hq2 hjj.symm).symm
    · have hj' : j'=i := by omega
      subst hj'
      cases (n.setKid_self j' _).symm.trans hz
      cases (hg.at_next h).symm.trans hq2
      exact hg.differ_leaf h hy hq1 hj
  · rcases hg.old h hx with ⟨_,rfl⟩ | ⟨l,hl,hgrown⟩
    · rw [hg.leaf] at hy
      cases hy
    have hy:=(hgrown.kids j y hy).resolve_right fun he => hxa he.1
    have hz:=(hgrown.kids j' z hz).resolve_right fun he => hxa he.1
    obtain ⟨k1,hk1,hkey1⟩:=hg.key h hl hy hq1
    obtain ⟨k2,hk2,hkey2⟩:=hg.key h hl hz hq2
    rw [hgrown.alike.len,hkey1,hkey2]
    exact h.differ x l j j' y z k1 k2 hl hjj hy hz hk1 hk2

theorem Grafted.sound_order (hx : t'.heap x=some q) (h1 : q.kids 1≠none) : q.kids 0≠none := by
  by_cases hxa : x=a
  · subst hxa
    cases hg.here.symm.trans hx
    rw [Node.setKid_kids] at h1 ⊢
    split
    case isTrue => exact some_ne_none _
    case isFalse h0 =>
      have h10 : i=1 := by omega
      exact hg.order h10
  · rcases hg.old h hx with ⟨_,rfl⟩ | ⟨l,hl,hgrown⟩
    · exact (h1 (hg.leaf 1)).elim
    obtain ⟨y,hy⟩:=ne_none_iff_exists'.mp h1
    have hy':=(hgrown.kids 1 y hy).resolve_right fun he => hxa he.1
    obtain ⟨z,hz⟩:=ne_none_iff_exists'.mp (h.order x l hl (by rw [hy']; exact some_ne_none y))
    rw [hgrown.kept 0 z hz]
    exact some_ne_none z

end Graft

theorem Sound.addLeaf (h : Sound t ex) (ha : t.heap a=some n) (hi : n.kids i=none) (hord : i=1 → n.kids 0≠none)
    (hm : m.Formed) (hlt : n.len < m.len) (hagree : Agree n.len n.key m.key) (hpar : m.parent=some a)
    (hkids : ∀ j, m.kids j=none) (hv : m.value≠none)
    (hdiff : ∀ j c k, n.kids j=some c → t.heap c=some k → k.key.getMsbD n.len≠m.key.getMsbD n.len)
    (hnext : t'.next=t.next+1) (hheap : ∀ x, t'.heap x =
      if x=a then some (n.setKid i (some t.next)) else if x=t.next then some m else t.heap x) : Sound t' ex := by
  have hg : Grafted t t' a n m i := ⟨ha,hi,hord,hm,hlt,hagree,hpar,hkids,hv,hdiff,hheap⟩
  refine ⟨?_,?_,fun x q j y hx hy => hg.sound_kid h hx hy,fun y q hq hy => hg.sound_parent h hq hy,
    fun x q j j' y z q1 q2 hx hjj hy hz hq1 hq2 => hg.sound_differ h hx hjj hy hz hq1 hq2,
    fun x q hx h1 => hg.sound_order h hx h1,?_,?_⟩
  · obtain ⟨n0,hh,hlen,hpar0,hval⟩:=h.head
    obtain ⟨n0',hh',hgrown⟩:=hg.to h hh
    exact ⟨n0',hh',hgrown.alike.len.trans hlen,hgrown.parent.trans hpar0,hgrown.value.trans hval⟩
  · intro x q hx
    rcases hg.old h hx with ⟨_,rfl⟩ | ⟨l,hl,hgrown⟩
    · exact hm
    · exact hgrown.alike.formed (h.formed x l hl)
  · intro x q hx h0 hxe hval
    rcases hg.old h hx with ⟨_,rfl⟩ | ⟨l,hl,hgrown⟩
    · exact (hv hval).elim
    obtain ⟨y,hy⟩:=ne_none_iff_exists'.mp (h.full x l hl h0 hxe (hgrown.value.symm.trans hval))
    rw [hgrown.kept 1 y hy]
    exact some_ne_none y
  · intro x hx
    rw [hnext] at hx
    have hxa : x≠a := fun he => by
      rw [he] at hx
      rw [h.fresh a (by omega)] at ha
      cases ha
    rw [hheap,if_neg hxa,if_neg (by omega)]
    exact h.fresh x (by omega)

structure Split (t t' : Trie w V) (a b : ℕ) (n k m : Node w V) (i : Fin 2) : Prop where
  parent : t.heap a=some n
  place : n.kids i=some b
  node : t.heap b=some k
  formed : m.Formed
  above : n.len < m.len
  below : m.len<k.len
  agree : Agree n.len n.key m.key
  agreeKid : Agree m.len m.key k.key
  up : m.parent=some a
  first : m.kids 0=some b
  second : m.kids 1=none
  heap : ∀ x, t'.heap x=if x=a then some (n.setKid i (some t.next))
    else if x=b then some {k with parent := some t.next} else if x=t.next then some m else t.heap x

structure Node.Parted (i : Fin 2) (a b c x : ℕ) (l l' : Node w V) : Prop where
  alike : l'.Alike l
  value : l'.value=l.value
  parent : x≠b → l'.parent=l.parent
  lowered : x=b → l'.parent=some c
  kept : ∀ j y, l.kids j=some y → l'.kids j=some y ∨ x=a ∧ y=b ∧ l'.kids j=some c
  kids : ∀ j y, l'.kids j=some y → l.kids j=some y ∧ (x=a → j≠i) ∨ x=a ∧ j=i ∧ y=c

section Splitting

variable {q q' : Node w V} (h : Sound t ex) (hs : Split t t' a b n k m i)

include h hs

omit h in
theorem Split.here : t'.heap a=some (n.setKid i (some t.next)) := by rw [hs.heap,if_pos rfl]

theorem Split.mid : t'.heap t.next=some m := by
  rw [hs.heap,if_neg (h.ne_next hs.parent).symm,if_neg (h.ne_next hs.node).symm,if_pos rfl]

theorem Split.to (hx : t.heap x=some l) : ∃ l', t'.heap x=some l' ∧ Node.Parted i a b t.next x l l' := by
  have hba:=(h.kid_ne hs.parent hs.place).1
  rw [hs.heap]
  split
  case isTrue hxa =>
    subst hxa
    cases hs.parent.symm.trans hx
    refine ⟨_,rfl,n.alike_setKid i _,rfl,fun _ => rfl,fun he => (hba he.symm).elim,fun j y hj => ?_,fun j y hj => ?_⟩
    · rw [Node.setKid_kids]
      split
      case isTrue hji =>
        rw [hji,hs.place] at hj
        exact .inr ⟨rfl,(Option.some.inj hj).symm,rfl⟩
      case isFalse => exact .inl hj
    · rw [Node.setKid_kids] at hj
      split at hj
      case isTrue hji => exact .inr ⟨rfl,hji,(Option.some.inj hj).symm⟩
      case isFalse hji => exact .inl ⟨hj,fun _ => hji⟩
  case isFalse hxa =>
    split
    case isTrue hxb =>
      subst hxb
      cases hs.node.symm.trans hx
      exact ⟨_,rfl,⟨rfl,rfl⟩,rfl,fun hn => (hn rfl).elim,fun _ => rfl,fun _ _ hj => .inl hj,
        fun _ _ hj => .inl ⟨hj,fun he => (hxa he).elim⟩⟩
    case isFalse hxb =>
      rw [if_neg (h.ne_next hx)]
      exact ⟨l,hx,.refl l,rfl,fun _ => rfl,fun he => (hxb he).elim,fun _ _ hj => .inl hj,
        fun _ _ hj => .inl ⟨hj,fun he => (hxa he).elim⟩⟩

theorem Split.old (hx : t'.heap x=some q) :
    (x=t.next ∧ q=m) ∨ ∃ l, t.heap x=some l ∧ Node.Parted i a b t.next x l q := by
  have hfrom : x=t.next ∨ ∃ l, t.heap x=some l := by
    rw [hs.heap] at hx
    split at hx
    case isTrue hxa => exact .inr ⟨n,hxa ▸ hs.parent⟩
    case isFalse =>
      split at hx
      case isTrue hxb => exact .inr ⟨k,hxb ▸ hs.node⟩
      case isFalse =>
        split at hx
        case isTrue hxc => exact .inl hxc
        case isFalse => exact .inr ⟨q,hx⟩
  rcases hfrom with rfl | ⟨l,hl⟩
  · exact .inl ⟨rfl,Option.some.inj (hx.symm.trans (hs.mid h))⟩
  · obtain ⟨l',hl',hparted⟩:=hs.to h hl
    cases hx.symm.trans hl'
    exact .inr ⟨l,hl,hparted⟩

theorem Split.sound_kid (hx : t'.heap x=some q) (hy : q.kids j=some y) :
    ∃ q', t'.heap y=some q' ∧ q'.parent=some x ∧ q.len<q'.len ∧ Agree q.len q.key q'.key := by
  rcases hs.old h hx with ⟨rfl,rfl⟩ | ⟨l,hl,hparted⟩
  · rcases (by omega : j=0 ∨ j=1) with rfl | rfl
    · cases hs.first.symm.trans hy
      obtain ⟨k',hk',hpartedk⟩:=hs.to h hs.node
      exact ⟨k',hk',hpartedk.lowered rfl,by rw [hpartedk.alike.len]; exact hs.below,
        by rw [hpartedk.alike.key]; exact hs.agreeKid⟩
    · rw [hs.second] at hy
      cases hy
  rcases hparted.kids j y hy with ⟨hj,hji⟩ | ⟨rfl,_,rfl⟩
  · obtain ⟨r,hr,hpar,hlt,hagree⟩:=h.kid x l j y hl hj
    obtain ⟨r',hr',hpartedr⟩:=hs.to h hr
    have hyb : y≠b := by
      rintro rfl
      obtain ⟨_,hb',hbpar,_⟩:=h.kid a n i y hs.parent hs.place
      cases hr.symm.trans hb'
      cases hbpar.symm.trans hpar
      cases hs.parent.symm.trans hl
      exact hji rfl (h.kid_unique hs.parent hj hs.place hr hr rfl)
    exact ⟨r',hr',(hpartedr.parent hyb).trans hpar,by rw [hparted.alike.len,hpartedr.alike.len]; exact hlt,
      by rw [hparted.alike.len,hparted.alike.key,hpartedr.alike.key]; exact hagree⟩
  · cases hs.parent.symm.trans hl
    exact ⟨m,hs.mid h,hs.up,by rw [hparted.alike.len]; exact hs.above,
      by rw [hparted.alike.len,hparted.alike.key]; exact hs.agree⟩

theorem Split.sound_parent (hy : t'.heap y=some q) (hy0 : y≠0) :
    ∃ a q' j, q.parent=some a ∧ t'.heap a=some q' ∧ q'.kids j=some y := by
  rcases hs.old h hy with ⟨rfl,rfl⟩ | ⟨l,hl,hparted⟩
  · exact ⟨a,_,i,hs.up,hs.here,n.setKid_self i _⟩
  by_cases hyb : y=b
  · subst hyb
    exact ⟨t.next,m,0,hparted.lowered rfl,hs.mid h,hs.first⟩
  · obtain ⟨c,nc,j,hc,hnc,hj⟩:=h.parent y l hl hy0
    obtain ⟨nc',hnc',hpartedc⟩:=hs.to h hnc
    exact ⟨c,nc',j,(hparted.parent hyb).trans hc,hnc',(hpartedc.kept j y hj).resolve_right fun he => hyb he.2.1⟩

theorem Split.bit (hx : t'.heap x=some q) (hl : t.heap x=some l) (hy : q.kids j=some y)
    (hq : t'.heap y=some q') : ∃ z r, l.kids j=some z ∧ t.heap z=some r ∧
      q'.key.getMsbD l.len=r.key.getMsbD l.len := by
  obtain ⟨q0,hq0,hparted⟩:=hs.to h hl
  cases hx.symm.trans hq0
  rcases hparted.kids j y hy with ⟨hj,_⟩ | ⟨rfl,rfl,rfl⟩
  · obtain ⟨r,hr,_⟩:=h.kid x l j y hl hj
    obtain ⟨r',hr',hpartedr⟩:=hs.to h hr
    cases hq.symm.trans hr'
    exact ⟨y,r,hj,hr,by rw [hpartedr.alike.key]⟩
  · cases hs.parent.symm.trans hl
    cases (hs.mid h).symm.trans hq
    exact ⟨b,k,hs.place,hs.node,hs.agreeKid _ hs.above⟩

theorem Split.sound_differ {j' : Fin 2} {z : ℕ} {q1 q2 : Node w V} (hx : t'.heap x=some q) (hjj : j≠j')
    (hy : q.kids j=some y) (hz : q.kids j'=some z) (hq1 : t'.heap y=some q1) (hq2 : t'.heap z=some q2) :
    q1.key.getMsbD q.len≠q2.key.getMsbD q.len := by
  rcases hs.old h hx with ⟨rfl,rfl⟩ | ⟨l,hl,hparted⟩
  · rcases (by omega : j=1 ∨ j'=1) with rfl | rfl
    · rw [hs.second] at hy
      cases hy
    · rw [hs.second] at hz
      cases hz
  · obtain ⟨y0,k1,hy₀,hk1,hbit1⟩:=hs.bit h hx hl hy hq1
    obtain ⟨z0,k2,hz0,hk2,hbit2⟩:=hs.bit h hx hl hz hq2
    rw [hparted.alike.len,hbit1,hbit2]
    exact h.differ x l j j' y0 z0 k1 k2 hl hjj hy₀ hz0 hk1 hk2

end Splitting

theorem Node.Parted.taken {l l' : Node w V} (h : Node.Parted i a b c x l l') (hj : l.kids j≠none) :
    l'.kids j≠none := by
  obtain ⟨y,hy⟩:=ne_none_iff_exists'.mp hj
  rcases h.kept j y hy with hk | ⟨_,_,hk⟩ <;> rw [hk] <;> exact some_ne_none _

theorem Sound.split (h : Sound t ex) (hex : ∀ y, some y=ex → some y=some t.next) (ha : t.heap a=some n)
    (hi : n.kids i=some b) (hb : t.heap b=some k) (hm : m.Formed) (hlt : n.len < m.len) (hltk : m.len<k.len)
    (hagree : Agree n.len n.key m.key) (hagreek : Agree m.len m.key k.key) (hpar : m.parent=some a)
    (h0 : m.kids 0=some b) (h1 : m.kids 1=none) (hnext : t'.next=t.next+1) (hheap : ∀ x, t'.heap x =
      if x=a then some (n.setKid i (some t.next)) else if x=b then some {k with parent := some t.next}
      else if x=t.next then some m else t.heap x) : Sound t' (some t.next) := by
  have hs : Split t t' a b n k m i := ⟨ha,hi,hb,hm,hlt,hltk,hagree,hagreek,hpar,h0,h1,hheap⟩
  refine ⟨?_,?_,fun x l' j y hx hy => hs.sound_kid h hx hy,fun y l' hl' hy => hs.sound_parent h hl' hy,
    fun x l' j j' y z q1 q2 hx hjj hy hz hq1 hq2 => hs.sound_differ h hx hjj hy hz hq1 hq2,?_,?_,?_⟩
  · obtain ⟨n0,hh,hlen,hpar0,hval⟩:=h.head
    obtain ⟨n0',hh',hparted⟩:=hs.to h hh
    exact ⟨n0',hh',hparted.alike.len.trans hlen,(hparted.parent (h.kid_ne ha hi).2.symm).trans hpar0,
      hparted.value.trans hval⟩
  · intro x l' hx
    rcases hs.old h hx with ⟨_,rfl⟩ | ⟨l,hl,hparted⟩
    · exact hm
    · exact hparted.alike.formed (h.formed x l hl)
  · intro x l' hx h1'
    rcases hs.old h hx with ⟨_,rfl⟩ | ⟨l,hl,hparted⟩
    · exact (h1' h1).elim
    refine hparted.taken (h.order x l hl ?_)
    obtain ⟨y,hy⟩:=ne_none_iff_exists'.mp h1'
    rcases hparted.kids 1 y hy with ⟨hj,_⟩ | ⟨rfl,hj,_⟩
    · rw [hj]
      exact some_ne_none y
    · cases ha.symm.trans hl
      rw [hj,hi]
      exact some_ne_none b
  · intro x l' hx hx0 hxe hval
    rcases hs.old h hx with ⟨rfl,_⟩ | ⟨l,hl,hparted⟩
    · exact (hxe rfl).elim
    · exact hparted.taken (h.full x l hl hx0 (fun he => hxe (hex x he)) (hparted.value.symm.trans hval))
  · intro x hx
    rw [hnext] at hx
    have hx' : t.heap x=none := h.fresh x (by omega)
    have hother : ∀ y l, t.heap y=some l → x≠y := fun y l hl he => by
      rw [he,hl] at hx'
      cases hx'
    rw [hheap,if_neg (hother a n ha),if_neg (hother b k hb),if_neg (by omega)]
    exact hx'

structure Node.Replaced (np' np : Node w V) (i : Fin 2) (o : Option ℕ) : Prop where
  alike : np'.Alike np
  parent : np'.parent=np.parent
  value : np'.value=np.value
  kids : ∃ σ : Equiv.Perm (Fin 2), ∀ j, np'.kids j=if σ j=i then o else np.kids (σ j)
  order : np'.kids 1≠none → np'.kids 0≠none

structure Unlinked (t t' : Trie w V) (b p : ℕ) (n np np' : Node w V) (i : Fin 2) : Prop where
  node : t.heap b=some n
  single : n.kids 1=none
  up : n.parent=some p
  parent : t.heap p=some np
  place : np.kids i=some b
  replaced : np'.Replaced np i (n.kids 0)
  heap : ∀ x, t'.heap x=if x=b then none else if x=p then some np'
    else if some x=n.kids 0 then (t.heap x).map fun k => {k with parent := some p} else t.heap x

structure Node.Raised (n : Node w V) (p x : ℕ) (l l' : Node w V) : Prop where
  alike : l'.Alike l
  value : l'.value=l.value
  parent : some x≠n.kids 0 → l'.parent=l.parent
  raised : some x=n.kids 0 → l'.parent=some p
  kids : x≠p → l'.kids=l.kids

section Splice

variable {np np' q q' : Node w V} (h : Sound t ex) (hs : Unlinked t t' b p n np np' i)

include h hs

theorem Unlinked.parent_ne : b≠p := (h.kid_ne hs.parent hs.place).1

theorem Unlinked.here : t'.heap p=some np' := by rw [hs.heap,if_neg (hs.parent_ne h).symm,if_pos rfl]

theorem Unlinked.to (hl : t.heap x=some l) (hxb : x≠b) : ∃ l', t'.heap x=some l' ∧ n.Raised p x l l' := by
  rw [hs.heap,if_neg hxb]
  split
  case isTrue hxp =>
    subst hxp
    cases hs.parent.symm.trans hl
    refine ⟨np',rfl,hs.replaced.alike,hs.replaced.value,fun _ => hs.replaced.parent,fun he => ?_,
      fun hn => (hn rfl).elim⟩
    have hle:=(h.before hs.node he.symm hs.parent).1.le
    have hlt:=(h.before hs.parent hs.place hs.node).2
    omega
  case isFalse =>
    split
    case isTrue ho =>
      rw [hl]
      exact ⟨_,rfl,⟨rfl,rfl⟩,rfl,fun hn => (hn ho).elim,fun _ => rfl,fun _ => rfl⟩
    case isFalse ho => exact ⟨l,hl,.refl l,rfl,fun _ => rfl,fun he => (ho he).elim,fun _ => rfl⟩

omit h in
theorem Unlinked.from (hx : t'.heap x=some k) : x≠b ∧ ∃ l, t.heap x=some l := by
  rw [hs.heap] at hx
  split at hx
  case isTrue => cases hx
  case isFalse hxb =>
    refine ⟨hxb,?_⟩
    split at hx
    case isTrue hxp => exact ⟨np,hxp ▸ hs.parent⟩
    case isFalse =>
      split at hx
      case isTrue =>
        obtain ⟨l,hl,_⟩:=map_eq_some_iff.mp hx
        exact ⟨l,hl⟩
      case isFalse => exact ⟨k,hx⟩

theorem Unlinked.old (hx : t'.heap x=some k) : ∃ l, t.heap x=some l ∧ x≠b ∧ n.Raised p x l k := by
  obtain ⟨hxb,l,hl⟩:=hs.from hx
  obtain ⟨l',hl',hraised⟩:=hs.to h hl hxb
  cases hx.symm.trans hl'
  exact ⟨l,hl,hxb,hraised⟩

theorem Unlinked.ne_kid (hl : t.heap x=some l) (hy : l.kids j=some y) (hxb : x≠b) : some y≠n.kids 0 := by
  intro he
  obtain ⟨q,hq,hpar,_⟩:=h.kid x l j y hl hy
  obtain ⟨q',hq',hparb,_⟩:=h.kid b n 0 y hs.node he.symm
  cases hq.symm.trans hq'
  cases hpar.symm.trans hparb
  exact hxb rfl

theorem Unlinked.kids {σ : Equiv.Perm (Fin 2)} (hσ : ∀ j, np'.kids j=if σ j=i then n.kids 0 else np.kids (σ j))
    (hy : np'.kids j=some y) : y≠b ∧ (n.kids 0=some y ∧ σ j=i ∨ np.kids (σ j)=some y ∧ σ j≠i) := by
  rw [hσ] at hy
  split at hy
  case isTrue hj => exact ⟨(h.kid_ne hs.node hy).1,.inl ⟨hy,hj⟩⟩
  case isFalse hj =>
    refine ⟨fun he => hj ?_,.inr ⟨hy,hj⟩⟩
    rw [he] at hy
    exact h.kid_unique hs.parent hy hs.place hs.node hs.node rfl

theorem Unlinked.sound_kid_parent (hy : np'.kids j=some y) :
    ∃ k, t'.heap y=some k ∧ k.parent=some p ∧ np'.len<k.len ∧ Agree np'.len np'.key k.key := by
  obtain ⟨σ,hσ⟩:=hs.replaced.kids
  have hlike:=hs.replaced.alike
  obtain ⟨hbefore,hlt⟩:=h.before hs.parent hs.place hs.node
  rw [hlike.len,hlike.key]
  obtain ⟨hyb,⟨hy,_⟩ | ⟨hy,_⟩⟩:=hs.kids h hσ hy
  · obtain ⟨q,hq,_,hlt',hagree⟩:=h.kid b n 0 y hs.node hy
    obtain ⟨q',hq',hraised⟩:=hs.to h hq hyb
    exact ⟨q',hq',hraised.raised hy.symm,by rw [hraised.alike.len]; exact hlt.trans hlt',
      by rw [hraised.alike.key]; exact hbefore.agree.trans (hagree.mono hlt.le)⟩
  · obtain ⟨q,hq,hpar,hlt',hagree⟩:=h.kid p np _ y hs.parent hy
    obtain ⟨q',hq',hraised⟩:=hs.to h hq hyb
    refine ⟨q',hq',?_,by rw [hraised.alike.len]; exact hlt',by rw [hraised.alike.key]; exact hagree⟩
    by_cases ho : some y=n.kids 0
    · exact hraised.raised ho
    · exact (hraised.parent ho).trans hpar

theorem Unlinked.sound_kid (hx : t'.heap x=some k) (hy : k.kids j=some y) :
    ∃ q, t'.heap y=some q ∧ q.parent=some x ∧ k.len<q.len ∧ Agree k.len k.key q.key := by
  by_cases hxp : x=p
  · subst hxp
    cases (hs.here h).symm.trans hx
    exact hs.sound_kid_parent h hy
  · obtain ⟨l,hl,hxb,hraised⟩:=hs.old h hx
    rw [hraised.kids hxp] at hy
    obtain ⟨q,hq,hpar,hlt,hagree⟩:=h.kid x l j y hl hy
    have hyb : y≠b := by
      rintro rfl
      cases hs.node.symm.trans hq
      cases hs.up.symm.trans hpar
      exact hxp rfl
    obtain ⟨q',hq',hraisedq⟩:=hs.to h hq hyb
    exact ⟨q',hq',(hraisedq.parent (hs.ne_kid h hl hy hxb)).trans hpar,
      by rw [hraised.alike.len,hraisedq.alike.len]; exact hlt,
      by rw [hraised.alike.len,hraised.alike.key,hraisedq.alike.key]; exact hagree⟩

theorem Unlinked.sound_parent (hy : t'.heap y=some k) (hy0 : y≠0) :
    ∃ a q j, k.parent=some a ∧ t'.heap a=some q ∧ q.kids j=some y := by
  obtain ⟨σ,hσ⟩:=hs.replaced.kids
  obtain ⟨l,hl,hyb,hraised⟩:=hs.old h hy
  obtain ⟨c,nc,j,hc,hnc,hj⟩:=h.parent y l hl hy0
  by_cases hcb : c=b
  · subst hcb
    cases hs.node.symm.trans hnc
    have hj0 : j=0 := by
      by_contra hne
      rw [show j=1 by omega,hs.single] at hj
      cases hj
    rw [hj0] at hj
    refine ⟨p,np',σ.symm i,hraised.raised hj.symm,hs.here h,?_⟩
    rw [hσ,Equiv.apply_symm_apply,if_pos rfl]
    exact hj
  · have hpar:=(hraised.parent (hs.ne_kid h hnc hj hcb)).trans hc
    by_cases hcp : c=p
    · subst hcp
      cases hs.parent.symm.trans hnc
      refine ⟨c,np',σ.symm j,hpar,hs.here h,?_⟩
      have hji : j≠i := fun he => by
        rw [he,hs.place] at hj
        exact hyb (Option.some.inj hj).symm
      rw [hσ,Equiv.apply_symm_apply,if_neg hji]
      exact hj
    · obtain ⟨nc',hnc',hraisedc⟩:=hs.to h hnc hcb
      exact ⟨c,nc',j,hpar,hnc',by rw [hraisedc.kids hcp]; exact hj⟩

theorem Unlinked.bit {σ : Equiv.Perm (Fin 2)} (hσ : ∀ j, np'.kids j=if σ j=i then n.kids 0 else np.kids (σ j))
    (hy : np'.kids j=some y) (hk : t.heap y=some k) : ∃ z q, np.kids (σ j)=some z ∧ t.heap z=some q ∧
      k.key.getMsbD np.len=q.key.getMsbD np.len := by
  obtain ⟨_,⟨hy,hj⟩ | ⟨hy,_⟩⟩:=hs.kids h hσ hy
  · rw [hj]
    have hlt:=(h.before hs.parent hs.place hs.node).2
    exact ⟨b,n,hs.place,hs.node,((h.before hs.node hy hk).1.agree _ hlt).symm⟩
  · exact ⟨y,k,hy,hk,rfl⟩

theorem Unlinked.sound_differ {j' : Fin 2} {z : ℕ} (hx : t'.heap x=some k) (hjj : j≠j') (hy : k.kids j=some y)
    (hz : k.kids j'=some z) (hq : t'.heap y=some q) (hq' : t'.heap z=some q') :
    q.key.getMsbD k.len≠q'.key.getMsbD k.len := by
  obtain ⟨l,hl,_,hraised⟩:=hs.old h hx
  obtain ⟨k1,hk1,_,hraised1⟩:=hs.old h hq
  obtain ⟨k2,hk2,_,hraised2⟩:=hs.old h hq'
  rw [hraised.alike.len,hraised1.alike.key,hraised2.alike.key]
  by_cases hxp : x=p
  · subst hxp
    cases (hs.here h).symm.trans hx
    cases hs.parent.symm.trans hl
    obtain ⟨σ,hσ⟩:=hs.replaced.kids
    obtain ⟨y0,m1,hy₀,hm1,hbit1⟩:=hs.bit h hσ hy hk1
    obtain ⟨z0,m2,hz0,hm2,hbit2⟩:=hs.bit h hσ hz hk2
    rw [hbit1,hbit2]
    exact h.differ x np _ _ y0 z0 m1 m2 hs.parent (σ.injective.ne hjj) hy₀ hz0 hm1 hm2
  · rw [hraised.kids hxp] at hy hz
    exact h.differ x l j j' y z k1 k2 hl hjj hy hz hk1 hk2

end Splice

theorem Sound.splice (h : Sound t ex) (hex : ∀ y, some y=ex → y=b) (hb : t.heap b=some n) (h1 : n.kids 1=none)
    {np np' : Node w V} (hpar : n.parent=some p) (hp : t.heap p=some np) (hi : np.kids i=some b)
    (hrep : np'.Replaced np i (n.kids 0)) (hnext : t'.next=t.next) (hheap : ∀ x, t'.heap x =
      if x=b then none else if x=p then some np'
      else if some x=n.kids 0 then (t.heap x).map fun k => {k with parent := some p} else t.heap x) :
    Sound t' (some p) := by
  have hs : Unlinked t t' b p n np np' i := ⟨hb,h1,hpar,hp,hi,hrep,hheap⟩
  refine ⟨?_,?_,fun x l' j y hx hy => hs.sound_kid h hx hy,fun y l' hl' hy => hs.sound_parent h hl' hy,
    fun x l' j j' y z q1 q2 hx hjj hy hz hq1 hq2 => hs.sound_differ h hx hjj hy hz hq1 hq2,?_,?_,?_⟩
  · obtain ⟨n0,hh,hlen,hpar0,hval⟩:=h.head
    obtain ⟨n0',hh',hraised⟩:=hs.to h hh (h.kid_ne hp hi).2.symm
    exact ⟨n0',hh',hraised.alike.len.trans hlen,
      (hraised.parent fun he => (h.kid_ne hb he.symm).2 rfl).trans hpar0,hraised.value.trans hval⟩
  · intro x l' hx
    obtain ⟨l,hl,_,hraised⟩:=hs.old h hx
    exact hraised.alike.formed (h.formed x l hl)
  · intro x l' hx
    by_cases hxp : x=p
    · subst hxp
      cases (hs.here h).symm.trans hx
      exact hrep.order
    · obtain ⟨l,hl,_,hraised⟩:=hs.old h hx
      rw [hraised.kids hxp]
      exact h.order x l hl
  · intro x l' hx hx0 hxe hval
    obtain ⟨l,hl,hxb,hraised⟩:=hs.old h hx
    rw [hraised.kids fun he => hxe (congrArg some he)]
    exact h.full x l hl hx0 (fun he => hxb (hex x he)) (hraised.value.symm.trans hval)
  · intro x hx
    rw [hnext] at hx
    cases hx' : t'.heap x with
    | none => rfl
    | some l' =>
      obtain ⟨_,l,hl⟩:=hs.from hx'
      rw [h.fresh x hx] at hl
      cases hl

end AquaGem5.Base.Trie
