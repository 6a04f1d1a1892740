import AquaGem5.Lib.Checked
import AquaGem5.Base.TrieInsert

/-!
# Removing and clearing

Taking a node out may leave its parent with one kid and no value, and then the parent is taken out as well.
-/

namespace AquaGem5.Base.Trie
open Checked Prefixes Function Option

variable {w : ℕ} {V : Type} {t t' : Trie w V} {n m k l np np' : Node w V} {a b c d p x : ℕ} {i j : Fin 2} {ex : Option ℕ}
  {key : BitVec w} {fuel : ℕ} {v : V}

theorem delete_heap (t : Trie w V) (a x : ℕ) : (t.delete a).heap x=if x=a then none else t.heap x :=
  update_apply ..

theorem replaceKid_ok (h : Sound t ex) (hp : t.heap p=some np) (hi : np.kids i=some b) (o : Option ℕ) :
    ∃ np1, np.replaceKid b o = .ok np1 ∧ np1.packed.Replaced np i o := by
  obtain ⟨k,hb,_⟩:=h.kid p np i b hp hi
  have hset : np.replaceKid b o = .ok (np.setKid i o) := by
    rw [Node.replaceKid]
    rcases (by omega : i=0 ∨ i=1) with rfl | rfl
    · rw [if_pos hi]
    · rw [if_neg,if_pos hi]
      intro h0
      exact absurd (h.kid_unique hp h0 hi hb hb rfl) (by decide)
  refine ⟨_,hset,?_⟩
  rw [Node.packed]
  by_cases hpack : (((np.setKid i o).kids 1).isSome&&((np.setKid i o).kids 0).isNone)=true
  · rw [if_pos hpack]
    rw [Bool.and_eq_true,isNone_iff_eq_none,isSome_iff_ne_none,Node.setKid_kids,Node.setKid_kids] at hpack
    obtain ⟨h1,h0⟩:=hpack
    have hi0 : i=0 := by
      by_contra hne
      have hi1 : i=1 := by omega
      subst hi1
      rw [if_neg (by decide)] at h0
      exact h.order p np hp (by rw [hi]; exact some_ne_none b) h0
    subst hi0
    rw [if_pos rfl] at h0
    rw [if_neg (by decide)] at h1
    refine ⟨⟨rfl,rfl⟩,rfl,rfl,⟨Equiv.swap 0 1,fun j => ?_⟩,?_⟩
    · rcases (by omega : j=0 ∨ j=1) with rfl | rfl
      · rw [Node.setKid_kids,if_neg (by decide),Node.setKid_kids,if_pos rfl,Node.setKid_kids,if_neg (by decide),
          Equiv.swap_apply_left,if_neg (by decide)]
      · rw [Node.setKid_kids,if_pos rfl,Equiv.swap_apply_right,if_pos rfl,h0]
    · intro hne
      rw [Node.setKid_kids,if_pos rfl] at hne
      exact (hne rfl).elim
  · rw [if_neg hpack]
    rw [Bool.and_eq_true,isNone_iff_eq_none,isSome_iff_ne_none] at hpack
    refine ⟨np.alike_setKid i o,rfl,rfl,⟨Equiv.refl _,fun j => Node.setKid_kids ..⟩,fun h1 h0 => hpack ⟨h1,h0⟩⟩

theorem Node.Replaced.kid_left {o : Option ℕ} (h : np'.Replaced np i o) (h0 : np.kids 0≠none) (h1 : np.kids 1≠none) :
    np'.kids 0≠none ∧ (o≠none → np'.kids 1≠none) := by
  obtain ⟨σ,hσ⟩:=h.kids
  have hall : ∀ j, np.kids j≠none := fun j => by
    rcases (by omega : j=0 ∨ j=1) with rfl | rfl
    · exact h0
    · exact h1
  have hleft : ∀ j, σ j≠i → np'.kids j≠none := fun j hj => by
    rw [hσ,if_neg hj]
    exact hall _
  constructor
  · by_cases hj : σ 0=i
    · refine h.order (hleft 1 fun he => ?_)
      exact absurd (σ.injective (he.trans hj.symm)) (by decide)
    · exact hleft 0 hj
  · intro ho
    by_cases hj : σ 1=i
    · rw [hσ,if_pos hj]
      exact ho
    · exact hleft 1 hj

theorem unlink_ok (h : Sound t ex) (hb : t.heap b=some n) (hb0 : b≠0) : ∃ p np np' i t1,
    t.unlink b = .ok (t1,p) ∧ n.parent=some p ∧ t.heap p=some np ∧ np.kids i=some b ∧
      np'.Replaced np i (n.kids 0) ∧ t1.next=t.next ∧ ∀ x, t1.heap x=if x=p then some np'
        else if some x=n.kids 0 then (t.heap x).map fun k => {k with parent := some p} else t.heap x := by
  obtain ⟨p,np,i,hpar,hp,hi⟩:=h.parent b n hb hb0
  obtain ⟨np1,hrep,hreplaced⟩:=replaceKid_ok h hp hi (n.kids 0)
  have hadopt : ∃ t0, t.adopt (n.kids 0) p = .ok t0 ∧ t0.heap p=some np ∧ t0.next=t.next ∧ ∀ x, t0.heap x =
      if some x=n.kids 0 then (t.heap x).map fun k => {k with parent := some p} else t.heap x := by
    cases ho : n.kids 0 with
    | none => exact ⟨t,rfl,hp,rfl,fun x => (if_neg (some_ne_none x)).symm⟩
    | some c =>
      obtain ⟨k,hc,_⟩:=h.kid b n 0 c hb ho
      have hpc : p≠c := by
        rintro rfl
        have h1:=(h.before hp hi hb).2
        have h2:=(h.before hb ho hp).2
        omega
      refine ⟨{t with heap := update t.heap c (some {k with parent := some p})},modify_eq hc _,?_,rfl,
        fun x => ?_⟩
      · show update t.heap c _ p=_
        rw [update_of_ne hpc,hp]
      · show update t.heap c _ x=_
        rw [update_apply]
        by_cases hxc : x=c
        · rw [if_pos hxc,if_pos (congrArg some hxc),hxc,hc]
          rfl
        · rw [if_neg hxc,if_neg fun he => hxc (Option.some.inj he)]
  obtain ⟨t0,hadopt,hp₀,hnext,hheap⟩:=hadopt
  refine ⟨p,np,np1.packed,i,{t0 with heap := update t0.heap p (some np1.packed)},?_,hpar,hp,hi,hreplaced,hnext,
    fun x => ?_⟩
  · rw [unlink,deref_eq hb]
    simp only [bind,Except.bind,hpar,hadopt,deref_eq hp₀,hrep,modify_eq hp₀]
  · show update t0.heap p _ x=_
    rw [update_apply,hheap]

structure Spliced (t : Trie w V) (b p : ℕ) (n np np' : Node w V) (t' : Trie w V) : Prop where
  sound : Sound t' (some p)
  view : ∀ x, t'.view x=if x=b then none else t.view x
  ne : p≠b
  was : t.heap p=some np
  is : t'.heap p=some np'
  value : np'.value=np.value
  parent : np'.parent=np.parent
  left : np.kids 1≠none → np'.kids 0≠none
  both : np.kids 1≠none → n.kids 0≠none → np'.kids 1≠none

theorem spliced_ok (h : Sound t ex) (hex : ∀ y, some y=ex → y=b) (hb : t.heap b=some n) (h1 : n.kids 1=none)
    (hb0 : b≠0) : ∃ t1 p np np', t.unlink b = .ok (t1,p) ∧ Spliced t b p n np np' (t1.delete b) := by
  obtain ⟨p,np,np',i,t1,hunlink,hpar,hp,hi,hrep,hnext,hheap⟩:=unlink_ok h hb hb0
  have hbp:=(h.kid_ne hp hi).1
  have hheap' : ∀ x, (t1.delete b).heap x=if x=b then none else if x=p then some np'
      else if some x=n.kids 0 then (t.heap x).map fun k => {k with parent := some p} else t.heap x := fun x => by
    rw [delete_heap,hheap]
  have hsound : Sound (t1.delete b) (some p) := h.splice hex hb h1 hpar hp hi hrep hnext hheap'
  have his : (t1.delete b).heap p=some np' := by rw [hheap',if_neg hbp.symm,if_pos rfl]
  refine ⟨t1,p,np,np',hunlink,hsound,fun x => ?_,hbp.symm,hp,his,hrep.value,hrep.parent,
    fun hk => (hrep.kid_left (h.order p np hp hk) hk).1,fun hk => (hrep.kid_left (h.order p np hp hk) hk).2⟩
  by_cases hxb : x=b
  · rw [if_pos hxb,view_none]
    rw [hheap',if_pos hxb]
  rw [if_neg hxb]
  by_cases hxp : x=p
  · subst hxp
    exact view_of_alike hp his hrep.alike hrep.value
  rw [view,view,hheap',if_neg hxb,if_neg hxp]
  split
  case isTrue =>
    rw [bind_map]
    rfl
  case isFalse => rfl

theorem deref_delete (h : (t.delete d).deref a = .ok n) : t.deref a = .ok n := by
  rw [deref,delete_heap] at h
  by_cases hd : a=d
  · rw [if_pos hd] at h
    cases h
  · rw [if_neg hd] at h
    exact h

theorem modify_delete {f : Node w V → Node w V} (h : (t.delete d).modify a f = .ok t') :
    ∃ t1, t.modify a f = .ok t1 ∧ t1.delete d=t' := by
  rw [modify,delete_heap] at h
  by_cases hd : a=d
  · rw [if_pos hd] at h
    cases h
  · rw [if_neg hd] at h
    cases ha : t.heap a with
    | none =>
      rw [ha] at h
      cases h
    | some n =>
      rw [ha] at h
      cases h
      refine ⟨_,modify_eq ha f,?_⟩
      rw [delete,delete,Trie.mk.injEq]
      exact ⟨update_comm hd (some (f n)) none t.heap,rfl⟩

theorem unlink_delete (h : (t.delete d).unlink a = .ok (t',p)) : ∃ t1, t.unlink a = .ok (t1,p) ∧ t1.delete d=t' := by
  rw [unlink] at h
  obtain ⟨n,hn,h⟩:=bind_ok h
  cases hpar : n.parent with
  | none =>
    rw [hpar] at h
    cases h
  | some q =>
    rw [hpar] at h
    obtain ⟨u,hu,h⟩:=bind_ok h
    obtain ⟨np,hnp,h⟩:=bind_ok h
    obtain ⟨np1,hrep,h⟩:=bind_ok h
    obtain ⟨u',hu',h⟩:=bind_ok h
    cases h
    have hadopt : ∃ u1, t.adopt (n.kids 0) p = .ok u1 ∧ u1.delete d=u := by
      cases hk : n.kids 0 with
      | none =>
        rw [hk] at hu
        cases hu
        exact ⟨t,rfl,rfl⟩
      | some c =>
        rw [hk] at hu
        exact modify_delete hu
    obtain ⟨u1,hu1,rfl⟩:=hadopt
    obtain ⟨u2,hu2,rfl⟩:=modify_delete hu'
    refine ⟨u2,?_,rfl⟩
    rw [unlink,deref_delete hn]
    simp only [bind,Except.bind,hpar,hu1,deref_delete hnp,hrep,hu2]

theorem delete_comm (t : Trie w V) (a b : ℕ) : (t.delete a).delete b=(t.delete b).delete a := by
  by_cases hab : a=b
  · rw [hab]
  · rw [delete,delete,delete,delete,Trie.mk.injEq]
    exact ⟨update_comm hab none none t.heap,rfl⟩

section

-- the kids are numbered 0 and 1
local instance : NeZero 2 := ⟨by decide⟩

def Node.useless (n : Node w V) : Bool := (n.kids 1).isNone&&n.value.isNone&&n.parent.isSome

end

theorem Node.useless_iff (n : Node w V) : n.useless=true ↔ n.kids 1=none ∧ n.value=none ∧ n.parent≠none := by
  rw [useless,Bool.and_eq_true,Bool.and_eq_true,isNone_iff_eq_none,isNone_iff_eq_none,
    isSome_iff_ne_none,and_assoc]

theorem Spliced.settle (h : Spliced t b p n np np' t') (hu : np'.useless=false) : Sound t' none := by
  refine h.sound.settle (fun y hy => Option.some.inj hy) h.is fun h0 hv h1 => ?_
  obtain ⟨q,_,_,hq,_⟩:=h.sound.parent p np' h.is h0
  have htrue : np'.useless=true := np'.useless_iff.mpr ⟨h1,hv,by rw [hq]; exact some_ne_none q⟩
  exact Bool.false_ne_true (hu.symm.trans htrue)

theorem remove_leaf (hb : t.heap b=some n) (h1 : n.kids 1=none) {t1 : Trie w V} (hunlink : t.unlink b = .ok (t1,p))
    (hp : t1.heap p=some np) : t.remove (fuel+1) b =
      (if np.useless then (t1.remove fuel p).map (·.1) else .ok t1) >>= fun t2 => .ok (t2.delete b,n.value) := by
  have hsome : ¬(n.kids 1).isSome=true := by rw [h1]; exact Bool.false_ne_true
  rw [remove,deref_eq hb]
  simp only [bind,Except.bind,if_neg hsome,hunlink,deref_eq hp]
  rfl

theorem remove_ok {mask : BitVec w} (h : Sound t none) (hv : t.view a=some (key,mask,v)) (hf : 1<fuel) :
    ∃ t', t.remove fuel a = .ok (t',some v) ∧ Sound t' none ∧ ∀ x, t'.view x=if x=a then none else t.view x := by
  obtain ⟨n,ha,hval,_⟩:=exists_of_view hv
  have ha0 : a≠0 := fun he => by
    obtain ⟨n0,hn0,_,_,hnone⟩:=h.head
    rw [he,hn0] at ha
    cases ha
    rw [hnone] at hval
    cases hval
  have hnoex : ∀ y, some y=none → y=a := fun y hy => by cases hy
  obtain ⟨fuel,rfl⟩:=Nat.exists_eq_add_of_le' hf
  cases h1 : n.kids 1 with
  | some c =>
    have hsome : (n.kids 1).isSome=true := by rw [h1]; rfl
    refine ⟨{t with heap := update t.heap a (some {n with value := none})},?_,?_,fun x => ?_⟩
    · rw [remove,deref_eq ha]
      simp only [bind,Except.bind,if_pos hsome,hval,modify_eq ha]
      rfl
    · exact h.setValue hnoex ha ha0 (.inr (by rw [h1]; exact some_ne_none c)) rfl fun x => update_apply ..
    · rw [view_update]
      rfl
  | none =>
    obtain ⟨t1,p,np,np',hunlink,hsp⟩:=spliced_ok h hnoex ha h1 ha0
    have hp1 : t1.heap p=some np' := by
      rw [← hsp.is,delete_heap,if_neg hsp.ne]
    rw [remove_leaf ha h1 hunlink hp1,hval]
    cases hu : np'.useless with
    | false => exact ⟨t1.delete a,rfl,hsp.settle hu,hsp.view⟩
    | true =>
      -- the parent had two kids, so that it has one now; it is taken out while `a` is still in the heap
      obtain ⟨hk1,hpv,hpp⟩:=np'.useless_iff.mp hu
      have hp0 : p≠0 := fun he => by
        obtain ⟨n0,hn0,_,hnone,_⟩:=hsp.sound.head
        rw [← he,hsp.is] at hn0
        cases hn0
        exact hpp hnone
      have hfull : np.kids 1≠none := h.full p np hsp.was hp0 nofun (hsp.value.symm.trans hpv)
      obtain ⟨u,g,ng,ng',hunlink',hsp'⟩:=spliced_ok hsp.sound (fun y hy => Option.some.inj hy) hsp.is hk1 hp0
      obtain ⟨t2,ht2,rfl⟩:=unlink_delete hunlink'
      have hcomm : (t2.delete a).delete p=(t2.delete p).delete a := delete_comm ..
      rw [hcomm] at hsp'
      have hg : ng'.useless=false := by
        refine Bool.eq_false_iff.mpr fun htrue => ?_
        obtain ⟨hg1,hgv,hgp⟩:=ng'.useless_iff.mp htrue
        have hg0 : g≠0 := fun he => by
          obtain ⟨n0,hn0,_,hnone,_⟩:=hsp'.sound.head
          rw [← he,hsp'.is] at hn0
          cases hn0
          exact hgp hnone
        have hgfull : ng.kids 1≠none :=
          hsp.sound.full g ng hsp'.was hg0 (fun he => hsp'.ne (Option.some.inj he)) (hsp'.value.symm.trans hgv)
        exact hsp'.both hgfull (hsp.left hfull) hg1
      have hg2 : t2.heap g=some ng' := by
        have his:=hsp'.is
        rw [delete_heap,delete_heap] at his
        split at his
        · cases his
        · split at his
          · cases his
          · exact his
      refine ⟨(t2.delete p).delete a,?_,hsp'.settle hg,fun x => ?_⟩
      · rw [if_pos rfl,remove_leaf hp1 hk1 ht2 hg2,hg]
        rfl
      · rw [hsp'.view,hsp.view]
        by_cases hxp : x=p
        · rw [if_pos hxp,if_neg (hxp ▸ hsp.ne),hxp,view_eq hsp.was,hsp.value.symm.trans hpv]
          rfl
        · rw [if_neg hxp]

variable {t0 : Trie w V}

structure KidCleared (t0 t : Trie w V) (a : ℕ) (i : Fin 2) (n m : Node w V) (t' : Trie w V) : Prop where
  here : t'.heap a=some (m.setKid i none)
  gone : ∀ b x, n.kids i=some b → t0.Reaches b x → t'.heap x=none
  rest : ∀ x, x≠a → (∀ b, n.kids i=some b → ¬t0.Reaches b x) → t'.heap x=t.heap x
  next : t'.next=t.next

structure Cleared (t0 t : Trie w V) (a : ℕ) (n : Node w V) (t' : Trie w V) : Prop where
  here : t'.heap a=some {n with kids := fun _ => none}
  gone : ∀ x, t0.Reaches a x → x≠a → t'.heap x=none
  rest : ∀ x, ¬t0.Reaches a x → t'.heap x=t.heap x
  next : t'.next=t.next

theorem Sound.not_reaches_kid (h : Sound t0 ex) (ha : t0.heap a=some n) (hi : n.kids i=some b) : ¬t0.Reaches b a := by
  intro hr
  obtain ⟨k,hk,_⟩:=h.kid a n i b ha hi
  obtain ⟨m,hm,hbefore,_⟩:=h.before_of_reaches hr hk
  cases ha.symm.trans hm
  exact absurd hbefore.le (Nat.not_le_of_lt (h.before ha hi hk).2)

theorem Sound.reaches_one_kid (h : Sound t0 ex) (ha : t0.heap a=some n) (hi : n.kids i=some b) (hj : n.kids j=some c)
    (hb : t0.Reaches b x) (hc : t0.Reaches c x) : i=j := by
  obtain ⟨k,hk,_⟩:=h.kid a n i b ha hi
  obtain ⟨l,hl,_⟩:=h.kid a n j c ha hj
  obtain ⟨m,hm,hkm,_⟩:=h.before_of_reaches hb hk
  obtain ⟨m',hm',hlm,_⟩:=h.before_of_reaches hc hl
  cases hm.symm.trans hm'
  have h1:=(h.before ha hi hk).2
  have h2:=(h.before ha hj hl).2
  exact h.kid_unique ha hi hj hk hl ((hkm.agree _ h1).trans (hlm.agree _ h2).symm)

theorem clearKid_ok (h : Sound t0 ex) {rec : Trie w V → ℕ → Except Fault (Trie w V)} (ha : t0.heap a=some n)
    (hrec : ∀ b k, n.kids i=some b → t0.heap b=some k → (∀ x, t0.Reaches b x → t.heap x=t0.heap x) →
      ∃ t', rec t b = .ok t' ∧ Cleared t0 t b k t') (hm : t.heap a=some m) (hi : m.kids i=n.kids i)
    (hsame : ∀ b x, n.kids i=some b → t0.Reaches b x → t.heap x=t0.heap x) :
    ∃ t', clearKid rec t a i = .ok t' ∧ KidCleared t0 t a i n m t' := by
  rw [clearKid,deref_eq hm]
  simp only [bind,Except.bind,hi]
  cases hb : n.kids i with
  | none =>
    have hset : m.setKid i none=m := by
      rw [Node.setKid,← hb,← hi,update_eq_self]
    exact ⟨t,rfl,hset.symm ▸ hm,fun b x hn => (some_ne_none b (hn.symm.trans hb)).elim,fun _ _ _ => rfl,rfl⟩
  | some b =>
    obtain ⟨k,hk,_⟩:=h.kid a n i b ha hb
    obtain ⟨t',ht',hclr⟩:=hrec b k hb hk fun x hx => hsame b x hb hx
    have hab : a≠b := (h.kid_ne ha hb).1.symm
    have hna:=h.not_reaches_kid ha hb
    have hm' : (t'.delete b).heap a=some m := by
      rw [delete_heap,if_neg hab,hclr.rest a hna,hm]
    simp only [ht',modify_eq hm']
    refine ⟨_,rfl,update_self ..,fun c x hc hx => ?_,fun x hxa hx => ?_,hclr.next⟩
    · cases hb.symm.trans hc
      have hxa : x≠a := fun he => hna (he ▸ hx)
      show update (t'.delete b).heap a _ x=none
      rw [update_of_ne hxa,delete_heap]
      split
      case isTrue => rfl
      case isFalse hxb => exact hclr.gone x hx hxb
    · have hnx:=hx b hb
      have hxb : x≠b := fun he => hnx (he ▸ .refl)
      show update (t'.delete b).heap a _ x=_
      rw [update_of_ne hxa,delete_heap,if_neg hxb,hclr.rest x hnx]

theorem clearNode_ok (h : Sound t0 ex) (ha : t0.heap a=some n) (hf : w-n.len<fuel)
    (hsame : ∀ x, t0.Reaches a x → t.heap x=t0.heap x) : ∃ t', clearNode fuel t a = .ok t' ∧ Cleared t0 t a n t' := by
  induction fuel generalizing t a n with
  | zero => omega
  | succ fuel ih =>
    have hrec : ∀ (u : Trie w V) i b k, n.kids i=some b → t0.heap b=some k →
        (∀ x, t0.Reaches b x → u.heap x=t0.heap x) → ∃ t', clearNode fuel u b = .ok t' ∧ Cleared t0 u b k t' := by
      intro u i b k hb hk hu
      have hlt:=(h.before ha hb hk).2
      have hle:=(h.formed b k hk).le
      exact ih hk (by omega) hu
    have hkid : ∀ i b x, n.kids i=some b → t0.Reaches b x → t0.Reaches a x := fun i b x hb hx =>
      Relation.ReflTransGen.head ⟨n,i,ha,hb⟩ hx
    obtain ⟨t1,ht1,h₁⟩:=clearKid_ok (i := 1) h ha (fun b k hb hk => hrec t 1 b k hb hk) ((hsame a .refl).trans ha) rfl
      fun b x hb hx => hsame x (hkid 1 b x hb hx)
    have hkids : (n.setKid 1 none).kids 0=n.kids 0 := Node.setKid_kids ..
    obtain ⟨t2,ht2,h₂⟩:=clearKid_ok (i := 0) h ha (fun b k hb hk => hrec t1 0 b k hb hk) h₁.here hkids fun b x hb hx => by
      rw [h₁.rest x (fun he => h.not_reaches_kid ha hb (he ▸ hx))
        fun c hc hcx => absurd (h.reaches_one_kid ha hb hc hx hcx) (by decide)]
      exact hsame x (hkid 0 b x hb hx)
    refine ⟨t2,?_,?_,fun x hx hxa => ?_,fun x hx => ?_,h₂.next.trans h₁.next⟩
    · rw [clearNode]
      simp only [bind,Except.bind,ht1,ht2]
    · rw [h₂.here]
      refine congrArg some ?_
      rw [Node.setKid,Node.setKid]
      simp only [Node.mk.injEq,true_and]
      funext j
      rcases (by omega : j=0 ∨ j=1) with rfl | rfl
      · exact update_self ..
      · rw [update_of_ne (by decide),update_self]
    · rcases hx.cases_head with he | ⟨b,⟨n',i,ha',hi⟩,hbx⟩
      · exact (hxa he.symm).elim
      cases ha.symm.trans ha'
      rcases (by omega : i=0 ∨ i=1) with rfl | rfl
      · exact h₂.gone b x hi hbx
      · rw [h₂.rest x hxa fun c hc hcx => absurd (h.reaches_one_kid ha hi hc hbx hcx) (by decide)]
        exact h₁.gone b x hi hbx
    · have hxa : x≠a := fun he => hx (he ▸ .refl)
      rw [h₂.rest x hxa fun c hc hcx => hx (hkid 0 c x hc hcx),h₁.rest x hxa fun c hc hcx => hx (hkid 1 c x hc hcx)]

theorem clear_ok (h : Sound t none) (hf : w<fuel) : ∃ t', t.clear fuel = .ok t' ∧ Sound t' none ∧ ∀ x, t'.view x=none := by
  obtain ⟨n,hn,hlen,hpar,hval⟩:=h.head
  obtain ⟨t',ht',hclr⟩:=clearNode_ok (t := t) h hn (show w-n.len<fuel by omega) fun _ _ => rfl
  have hother : ∀ x, x≠0 → t'.heap x=none := by
    intro x hx
    cases hm : t.heap x with
    | none =>
      by_cases hr : t.Reaches 0 x
      · exact hclr.gone x hr hx
      · rw [hclr.rest x hr,hm]
    | some m => exact hclr.gone x (h.reaches_head hm) hx
  have hpos : 0<t.next := Nat.pos_of_ne_zero fun he => by
    have hfree:=h.heap_next
    rw [he,hn] at hfree
    cases hfree
  have hf:=h.formed 0 n hn
  refine ⟨t',ht',sound_of_single (fun a m hm => ?_) hclr.here ⟨hf.le,hf.mask,hf.key⟩ hlen hpar hval (fun _ => rfl)
    (hclr.next ▸ hpos),fun x => ?_⟩
  · by_cases ha : a=0
    · subst ha
      exact ⟨rfl,Option.some.inj (hm.symm.trans hclr.here)⟩
    · rw [hother a ha] at hm
      cases hm
  · by_cases hx : x=0
    · rw [hx,view_eq hclr.here]
      show n.value.map _=none
      rw [hval,map_none]
    · exact view_none (hother x hx)

/-!
## The trie as a map from prefixes

A run keeps a list of what is stored, with the handles that `insert` returned. Nothing is inserted twice under one
prefix, and only handles of stored values are removed.
-/

open List
variable {width : ℕ} {val : V}

structure Shape (t : Trie w V) : Prop where
  kid : ∀ a n i b, t.heap a=some n → n.kids i=some b → ∃ k, t.heap b=some k ∧ k.parent=some a ∧
    k.mask &&& n.mask=n.mask ∧ k.mask≠n.mask ∧ n.accepts k.key=true
  parent : ∀ b k, t.heap b=some k → b≠0 → ∃ a n i, k.parent=some a ∧ t.heap a=some n ∧ n.kids i=some b
  differ : ∀ a n b c k l, t.heap a=some n → n.kids 0=some b → n.kids 1=some c → t.heap b=some k →
    t.heap c=some l → k.key &&& extendMask n.mask≠l.key &&& extendMask n.mask
  order : ∀ a n, t.heap a=some n → n.kids 1≠none → n.kids 0≠none
  full : ∀ a n, t.heap a=some n → a≠0 → n.value=none → n.kids 0≠none ∧ n.kids 1≠none

theorem Sound.shape (h : Sound t none) : t.Shape := by
  refine ⟨fun a n i b ha hi => ?_,h.parent,fun a n b c k l ha hi hj hk hl he => ?_,h.order,fun a n ha h0 hv => ?_⟩
  · obtain ⟨k,hk,hpar,hlt,hagree⟩:=h.kid a n i b ha hi
    have hn:=h.formed a n ha
    have hkf:=h.formed b k hk
    refine ⟨k,hk,hpar,?_,?_,(hn.accepts_iff k.key).mpr hagree⟩
    · rw [hn.mask,hkf.mask,topMask_and hkf.le hn.le,Nat.min_eq_right hlt.le]
    · rw [hn.mask,hkf.mask,ne_eq,topMask_inj hkf.le hn.le]
      exact hlt.ne'
  · have hn:=h.formed a n ha
    have hlt:=(h.before ha hi hk).2
    have hle:=(h.formed b k hk).le
    rw [hn.mask,extendMask_topMask (by omega) hn.le,Nat.min_eq_left (by omega),and_topMask_inj (by omega),agree_succ] at he
    exact h.differ a n 0 1 b c k l ha (by decide) hi hj hk hl he.2
  · have h1:=h.full a n ha h0 nofun hv
    exact ⟨h.order a n ha h1,h1⟩

structure Entry (w : ℕ) (V : Type) where
  handle : ℕ
  key : BitVec w
  width : ℕ
  val : V

def Entry.Matches (e : Entry w V) (key : BitVec w) : Prop := key &&& topMask w e.width=e.key &&& topMask w e.width

def Entry.view (e : Entry w V) : BitVec w × BitVec w × V := (e.key &&& topMask w e.width,topMask w e.width,e.val)

inductive Run (fuel : ℕ) : Trie w V → List (Entry w V) → Prop
  | init : Run fuel init []
  | insert {t t' es key width val a} : Run fuel t es → 1≤width → width≤w →
    (∀ e∈es, ¬(e.width=width ∧ e.Matches key)) → t.insert fuel key width (some val) = .ok (t',a) →
    Run fuel t' (⟨a,key,width,val⟩::es)
  | remove {t t' es r} {e : Entry w V} : Run fuel t es → e∈es → t.remove fuel e.handle = .ok (t',r) →
    Run fuel t' (es.filter (·.handle≠e.handle))
  | clear {t t' es} : Run fuel t es → t.clear fuel = .ok t' → Run fuel t' []

structure Holds (t : Trie w V) (es : List (Entry w V)) : Prop where
  sound : Sound t none
  width : ∀ e∈es, 1≤e.width ∧ e.width≤w
  view : ∀ a y, t.view a=some y ↔ ∃ e∈es, e.handle=a ∧ e.view=y

variable {es : List (Entry w V)} {e : Entry w V}

theorem Holds.entry (h : Holds t es) (he : e∈es) : t.view e.handle=some e.view := (h.view _ _).mpr ⟨e,he,rfl,rfl⟩

theorem Holds.insert (h : Holds t es) (hf : w<fuel) (h1 : 1≤width) (hle : width≤w)
    (hnew : ∀ e∈es, ¬(e.width=width ∧ e.Matches key)) :
    ∃ t' a, t.insert fuel key width (some val) = .ok (t',a) ∧ Holds t' (⟨a,key,width,val⟩::es) := by
  have hfree : ∀ a v, t.view a≠some (key &&& topMask w width,topMask w width,v) := by
    intro a v hv
    obtain ⟨e,he,_,hy⟩:=(h.view _ _).mp hv
    rw [Entry.view,Prod.mk.injEq,Prod.mk.injEq,topMask_inj (h.width e he).2 hle] at hy
    obtain ⟨hk,hw,_⟩:=hy
    refine hnew e he ⟨hw,?_⟩
    rw [Entry.Matches,hk,hw]
  obtain ⟨t',a,hins,hsound,hnone,hall⟩:=insert_ok (v := val) h.sound (by omega) h1 hle hf hfree
  refine ⟨t',a,hins,hsound,fun e he => ?_,fun x y => ?_⟩
  · rcases mem_cons.mp he with rfl | he
    · exact ⟨h1,hle⟩
    · exact h.width e he
  · rw [hall]
    by_cases hx : x=a
    · rw [if_pos hx,Option.some.injEq]
      constructor
      · intro hy
        exact ⟨_,mem_cons_self ..,hx.symm,hy⟩
      · intro ⟨e,he,hxe,hy⟩
        rcases mem_cons.mp he with rfl | he
        · exact hy
        · have hentry:=h.entry he
          rw [hxe,hx,hnone] at hentry
          cases hentry
    · rw [if_neg hx,h.view]
      constructor
      · intro ⟨e,he,hrest⟩
        exact ⟨e,mem_cons_of_mem _ he,hrest⟩
      · intro ⟨e,he,hxe,hy⟩
        rcases mem_cons.mp he with rfl | he
        · exact (hx hxe.symm).elim
        · exact ⟨e,he,hxe,hy⟩

theorem Holds.remove (h : Holds t es) (hf : w<fuel) (he : e∈es) :
    ∃ t', t.remove fuel e.handle = .ok (t',some e.val) ∧ Holds t' (es.filter (·.handle≠e.handle)) := by
  have hwidth:=h.width e he
  obtain ⟨t',hrem,hsound,hall⟩:=remove_ok h.sound (h.entry he) (show 1<fuel by omega)
  refine ⟨t',hrem,hsound,fun e' he' => h.width e' (mem_filter.mp he').1,fun x y => ?_⟩
  rw [hall]
  by_cases hx : x=e.handle
  · rw [if_pos hx]
    refine iff_of_false nofun fun ⟨e',he',hxe,_⟩ => ?_
    exact of_decide_eq_true (mem_filter.mp he').2 (hxe.trans hx)
  · rw [if_neg hx,h.view]
    constructor
    · intro ⟨e',he',hxe,hy⟩
      exact ⟨e',mem_filter.mpr ⟨he',decide_eq_true (hxe ▸ hx)⟩,hxe,hy⟩
    · intro ⟨e',he',hrest⟩
      exact ⟨e',(mem_filter.mp he').1,hrest⟩

theorem Holds.clear (h : Holds t es) (hf : w<fuel) : ∃ t', t.clear fuel = .ok t' ∧ Holds t' [] := by
  obtain ⟨t',hclear,hsound,hall⟩:=clear_ok h.sound hf
  refine ⟨t',hclear,hsound,fun e he => (not_mem_nil he).elim,fun x y => ?_⟩
  rw [hall]
  exact iff_of_false nofun fun ⟨e,he,_⟩ => not_mem_nil he

theorem Run.holds (hr : Run fuel t es) (hf : w<fuel) : Holds t es := by
  induction hr with
  | init =>
    refine ⟨sound_init,fun e he => (not_mem_nil he).elim,fun x y => iff_of_false (fun hy => ?_) fun ⟨e,he,_⟩ => ?_⟩
    · obtain ⟨n,hn,hv,_⟩:=exists_of_view hy
      rw [heap_init] at hn
      split at hn
      · cases hn
        cases hv
      · cases hn
    · exact not_mem_nil he
  | insert hr h1 hle hnew hins ih =>
    obtain ⟨t',a,hins',hholds⟩:=ih.insert hf h1 hle hnew
    cases hins.symm.trans hins'
    exact hholds
  | remove hr he hrem ih =>
    obtain ⟨t',hrem',hholds⟩:=ih.remove hf he
    cases hrem.symm.trans hrem'
    exact hholds
  | clear hr hclear ih =>
    obtain ⟨t',hclear',hholds⟩:=ih.clear hf
    cases hclear.symm.trans hclear'
    exact hholds

theorem Holds.node (h : Holds t es) (he : e∈es) : ∃ n, t.heap e.handle=some n ∧ n.value=some e.val ∧
    n.len=e.width ∧ ∀ key, n.Leads key w ↔ e.Matches key := by
  obtain ⟨n,hn,hv,hk,hm⟩:=exists_of_view (h.entry he)
  have hle:=(h.width e he).2
  have hlen : n.len=e.width := by
    rw [Node.len,hm]
    exact width_topMask hle
  refine ⟨n,hn,hv,hlen,fun key => ?_⟩
  have hagree : Agree n.len n.key key ↔ Agree e.width e.key key := by
    rw [hk,hlen]
    have hmask : Agree e.width (e.key &&& topMask w e.width) e.key := agree_and_topMask hle e.key
    exact ⟨fun ha => hmask.symm.trans ha,fun ha => hmask.trans ha⟩
  rw [Node.Leads,Entry.Matches,and_topMask_inj hle,hagree]
  constructor
  · intro h
    exact h.2.symm
  · intro ha
    exact ⟨hlen ▸ hle,ha.symm⟩

theorem Holds.lookup (h : Holds t es) (hf : w<fuel) (key : BitVec w) : ∃ r, t.lookup fuel key = .ok r ∧
    (∀ e∈es, e.Matches key → (∀ e'∈es, e'.Matches key → e.width≤e'.width) → r=some e.val) ∧
    (r=none ↔ ∀ e∈es, ¬e.Matches key) := by
  obtain ⟨n0,hn0,hn0l,_⟩:=h.sound.head
  have hlead0 : n0.Leads key w := ⟨by omega,by rw [hn0l]; exact agree_zero _ _⟩
  have hbefore : ∀ m : Node w V, n0.Before m := fun m => ⟨by omega,by rw [hn0l]; exact agree_zero _ _⟩
  obtain ⟨o,ho,hsome,hnone⟩:=lookupHandle_ok h.sound hn0 hlead0 (show w-n0.len<fuel by omega)
  cases o with
  | none =>
    have hno : ∀ e∈es, ¬e.Matches key := by
      intro e he hm
      obtain ⟨n,hn,hv,_,hlead⟩:=h.node he
      exact hnone rfl _ n hn (by rw [hv]; exact Option.some_ne_none _) (hbefore n) ((hlead key).mpr hm)
    refine ⟨none,?_,fun e he hm => (hno e he hm).elim,iff_of_true rfl hno⟩
    rw [Trie.lookup,ho]
    rfl
  | some b =>
    obtain ⟨m,hm,hmv,hml,hleast⟩:=hsome b rfl
    obtain ⟨v,hv⟩:=Option.ne_none_iff_exists'.mp hmv
    obtain ⟨e0,he0,hb,hy⟩:=(h.view b _).mp (view_of_value hm hv)
    obtain ⟨m0,hm0,hv0,hlen0,hlead₀⟩:=h.node he0
    rw [hb] at hm0
    cases hm.symm.trans hm0
    refine ⟨some v,?_,fun e he hme hshort => ?_,?_⟩
    · rw [Trie.lookup,ho]
      simp only [bind,Except.bind,deref_eq hm,hv]
    · obtain ⟨n,hn,hv',hlen,hlead⟩:=h.node he
      have hle:=hleast _ n hn (by rw [hv']; exact Option.some_ne_none _) (hbefore n) ((hlead key).mpr hme)
      have hle':=hshort e0 he0 ((hlead₀ key).mp hml)
      have hsame : m.Before n := ⟨hle,hml.2.trans (((hlead key).mpr hme).2.mono hle).symm⟩
      have hhandle : b=e.handle := h.sound.eq_of_same hm hn hsame (by omega)
      rw [← hhandle] at hn
      cases hm.symm.trans hn
      rw [← hv,hv']
    · exact iff_of_false nofun fun hall => hall e0 he0 ((hlead₀ key).mp hml)

/-- The shape is kept, no call fails, and `lookup` returns the value with the shortest stored prefix of the key. -/
theorem lookup_shortest (hf : w<fuel) (hr : Run fuel t es) :
    t.Shape ∧
    (∀ key width val, 1≤width → width≤w → (∀ e∈es, ¬(e.width=width ∧ e.Matches key)) →
      ∃ t' a, t.insert fuel key width (some val) = .ok (t',a)) ∧
    (∀ e∈es, ∃ t', t.remove fuel e.handle = .ok (t',some e.val)) ∧
    (∃ t', t.clear fuel = .ok t') ∧
    ∀ key, ∃ r, t.lookup fuel key = .ok r ∧
      (∀ e∈es, e.Matches key → (∀ e'∈es, e'.Matches key → e.width≤e'.width) → r=some e.val) ∧
      (r=none ↔ ∀ e∈es, ¬e.Matches key) := by
  have h:=hr.holds hf
  refine ⟨h.sound.shape,fun key width val h1 hle hnew => ?_,fun e he => ?_,?_,h.lookup hf⟩
  · have hins : ∃ t' a, t.insert fuel key width (some val) = .ok (t',a) ∧ Holds t' (⟨a,key,width,val⟩::es) :=
      h.insert hf h1 hle hnew
    obtain ⟨t',a,hins,_⟩:=hins
    exact ⟨t',a,hins⟩
  · obtain ⟨t',hrem,_⟩:=h.remove hf he
    exact ⟨t',hrem⟩
  · obtain ⟨t',hclear,_⟩:=h.clear hf
    exact ⟨t',hclear⟩

theorem lookup_shortest_nested : ∃ (t t' : Trie 8 Bool) (a b : ℕ),init.insert 9 0b10110000 4 (some true) = .ok (t,a) ∧
    t.insert 9 0b10000000 2 (some false) = .ok (t',b) ∧ t'.lookup 9 0b10111111 = .ok (some false) := by
  obtain ⟨_,hins,_⟩:=lookup_shortest (by decide) (.init : Run 9 (init : Trie 8 Bool) [])
  obtain ⟨t,a,ht⟩:=hins 0b10110000 4 true (by decide) (by decide) fun e he => (List.not_mem_nil he).elim
  have hrun : Run 9 t [⟨a,0b10110000,4,true⟩] := .insert .init (by decide) (by decide) (fun e he => (List.not_mem_nil he).elim) ht
  have hnew : ∀ e∈[(⟨a,0b10110000,4,true⟩ : Entry 8 Bool)],¬(e.width=2 ∧ e.Matches 0b10000000) := by simp
  obtain ⟨t',b,ht'⟩:=(lookup_shortest (by decide) hrun).2.1 0b10000000 2 false (by decide) (by decide) hnew
  obtain ⟨_,_,_,_,hlookup⟩:=lookup_shortest (by decide) (hrun.insert (by decide) (by decide) hnew ht')
  obtain ⟨r,hr,hshort,_⟩:=hlookup 0b10111111
  refine ⟨t,t',a,b,ht,ht',?_⟩
  rw [hr,hshort ⟨b,0b10000000,2,false⟩ (List.mem_cons_self ..) _ fun e' he' _ => ?_]
  · show (0b10111111 : BitVec 8) &&& topMask 8 2=0b10000000 &&& topMask 8 2
    decide
  · rcases List.mem_cons.mp he' with rfl | he'
    · exact le_rfl
    · rw [List.mem_singleton.mp he']
      show 2≤4
      decide

end AquaGem5.Base.Trie
