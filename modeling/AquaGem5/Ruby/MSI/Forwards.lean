import AquaGem5.Ruby.MSI.Responses

/-!
# Messages of the directory arriving at a cache

A cache that waits stalls a forwarded request, and a load that was answered stalls an invalidation.
-/

namespace AquaGem5.Ruby.MSI
open Checked Succession Function

variable {C V : Type} [DecidableEq C] [DecidableEq V] [Inhabited V]

namespace Phase

def Holds : Phase C V → Prop
  | modified => True
  | ownerPut => True
  | ownerAcked => True
  | _ => False

def passed (block : V) : Phase C V → Phase C V
  | ownerPut => invalidPut block (some block)
  | ownerAcked => invalidAcked block
  | _ => idle

def downgraded (block : V) : Phase C V → Phase C V
  | ownerPut => sharerPut block (some block)
  | ownerAcked => sharerAcked block
  | _ => shared

def Invalidates : Phase C V → Prop
  | storeAsked .current => True
  | storeQueued .current => True
  | shared => True
  | sharerPut _ _ => True
  | sharerAcked _ => True
  | _ => False

def cleared (block : V) : Phase C V → Phase C V
  | storeAsked _ => storeAsked (.stale block)
  | storeQueued _ => storeQueued (.stale block)
  | sharerPut v dirty => invalidPut v dirty
  | sharerAcked v => invalidAcked v
  | _ => idle

omit [DecidableEq C] [DecidableEq V]

theorem pass_turn {p : Phase C V} (hp : p.Holds) (block : V) (c b : C) :
    L1Cache.doTransition c ⟨none,some (forwarded .GetM b),false,id⟩ .FwdGetM (p.cache block) =
      .ok ⟨(p.passed block).cache block,[],[(.L1Cache b,⟨.Data,.L1Cache c,block,0⟩)],[],false,true, false⟩ := by
  cases p <;> first | rfl | exact absurd hp not_false

theorem downgrade_turn {p : Phase C V} (hp : p.Holds) (block : V) (c r : C) :
    L1Cache.doTransition c ⟨none,some (forwarded .GetS r),false,id⟩ .FwdGetS (p.cache block) =
      .ok ⟨(p.downgraded block).cache block,[],[(.L1Cache r,⟨.Data,.L1Cache c,block,0⟩),
        (.Directory,⟨.Data,.L1Cache c,block,0⟩)],[],false,true,false⟩ := by
  cases p <;> first | rfl | exact absurd hp not_false

theorem clear_turn {p : Phase C V} (hp : p.Invalidates) (block : V) (c w : C) :
    ∃ v, L1Cache.doTransition c ⟨none,some (forwarded .Inv w),false,id⟩ .Inv (p.cache block) =
      .ok ⟨(p.cleared block).cache block,[],[(.L1Cache w,⟨.InvAck,.L1Cache c,v,0⟩)],[],false,true, false⟩ := by
  cases p with
  | storeAsked copy | storeQueued copy =>
    cases copy with
    | current => exact ⟨_,rfl⟩
    | stale v => exact absurd hp not_false
  | shared | sharerPut v dirty | sharerAcked v => exact ⟨_,rfl⟩
  | _ => exact absurd hp not_false

end Phase

namespace Protocol

variable {c : C}

theorem forward_result (s : System C V) {m : RequestMsg (MachineID C) V}
    {rest : List (RequestMsg (MachineID C) V)} {event : L1Cache.Event} {t : L1Cache.Turn C V}
    (hq : s.forwardFromDir c=m::rest) (he : L1Cache.forwardIn m = .ok event)
    (ht : L1Cache.doTransition c ⟨none,some m,false,id⟩ event (s.cache c) = .ok t) :
    s.step (.forward c) = .ok ({s.afterCache c t with
      forwardFromDir := update s.forwardFromDir c
        (if t.popForward then (s.forwardFromDir c).tail else s.forwardFromDir c)},t.callbacks) := by
  simp only [System.step,hq,List.head?_cons,L1Cache.orFault,he,ht,bind,Except.bind,List.tail_cons]
  rfl

variable {g : Protocol C V}

theorem forward_stall (h : g.Inv) {m : RequestMsg (MachineID C) V}
    {rest : List (RequestMsg (MachineID C) V)} {event : L1Cache.Event}
    (hq : g.forwards c=m::rest) (he : L1Cache.forwardIn m = .ok event)
    (ht : L1Cache.doTransition c ⟨none,some m,false,id⟩ event ((g.phase c).cache g.block) =
      .ok (L1Cache.Turn.start ((g.phase c).cache g.block))) : g.Yields (g.system.step (.forward c)) := by
  rw [forward_result g.system hq he ht]
  refine ⟨g,[],?_,h,.silent _⟩
  congr 2
  have hself:=afterCache_local (Phase.local_stall (g.phase c) g.block c)
  rw [enter_self] at hself
  rw [hself]
  apply System.ext <;> try rfl
  funext x
  rcases eq_or_ne x c with rfl | hx
  · simp [L1Cache.Turn.start,system]
  · simp [hx]

section

omit [DecidableEq V]

theorem forwards_of_not_queued (hc : c∉g.writers) :
    g.forwards c=(if c∈g.invalidated then g.writers.head?.toList.map (forwarded .Inv) else []) ++
      if (g.phase c).acked then [putAck] else [] := by
  have hlast : g.writers.getLast?≠some c := fun e => hc (List.mem_of_getLast? e)
  simp [forwards,successor_of_not_mem hc,hlast]

theorem Inv.forwards_of_invalidated (h : g.Inv) (hi : c∈g.invalidated) :
    ∃ w rest, g.writers.head?=some w ∧ g.forwards c=forwarded .Inv w::rest := by
  cases hw : g.writers with
  | nil =>
    rw [(h.nobody hw).1] at hi
    exact absurd hi (Finset.notMem_empty c)
  | cons w l => exact ⟨w,_,rfl,by simp [forwards,hi,hw]; rfl⟩

theorem forwards_of_forwarded (hi : c∉g.invalidated) (hf : successor g.writers c≠none ∨ g.Closing c) :
    ∃ type x rest, (type = .GetM ∨ type = .GetS) ∧ g.forwards c=forwarded type x::rest := by
  cases hs : successor g.writers c with
  | some b => exact ⟨.GetM,b,_,.inl rfl,by simp [forwards,hi,hs]; rfl⟩
  | none =>
    have hclosing : g.Closing c := hf.resolve_left (absurd hs)
    obtain ⟨r,hr⟩:=Option.ne_none_iff_exists'.mp hclosing.2
    exact ⟨.GetS,r,_,.inr rfl,by simp [forwards,hi,hs,hclosing.1,hr]; rfl⟩

theorem forwarded_of_forwards (hi : c∉g.invalidated) (ha : (g.phase c).acked=false) (hne : g.forwards c≠[]) :
    successor g.writers c≠none ∨ g.Closing c := by
  by_contra hno
  push Not at hno
  apply hne
  by_cases hlast : g.writers.getLast?=some c
  · have hdown : g.mode.downgrade=none := by
      by_contra hsome
      exact hno.2 ⟨hlast,hsome⟩
    simp [forwards,hi,ha,hno.1,hdown]
  · simp [forwards,hi,ha,hno.1,hlast]

end

section

omit [DecidableEq C] [DecidableEq V] [Inhabited V]

theorem sentTo_cons [DecidableEq C] (d d' : MachineID C) (m : ResponseMsg C V)
    (sent : List (MachineID C × ResponseMsg C V)) :
    System.sentTo d ((d',m)::sent)=(if d'=d then {m} else 0)+System.sentTo d sent := by
  by_cases hd : d'=d <;> simp [System.sentTo,hd]

@[simp] theorem sentTo_nil [DecidableEq C] (d : MachineID C) :
    System.sentTo d ([] : List (MachineID C × ResponseMsg C V))=0 := rfl

theorem sentTo_directory [DecidableEq C] (c : C) (m : ResponseMsg C V) (sent : List (MachineID C × ResponseMsg C V)) :
    System.sentTo .Directory ((.L1Cache c,m)::sent)=System.sentTo .Directory sent := by
  have hne : MachineID.L1Cache c ≠ .Directory := by simp
  rw [sentTo_cons,if_neg hne,zero_add]

theorem sentTo_cache [DecidableEq C] (c : C) (m : ResponseMsg C V) (sent : List (MachineID C × ResponseMsg C V)) :
    System.sentTo (.L1Cache c) ((.Directory,m)::sent)=System.sentTo (.L1Cache c) sent := by
  have hne : MachineID.Directory ≠ .L1Cache c := by simp
  rw [sentTo_cons,if_neg hne,zero_add]

end

def clear (g : Protocol C V) (c : C) (v : V) : Protocol C V :=
  {g.enter c ((g.phase c).cleared g.block) with
    invalidated := g.invalidated.erase c
    acks := ⟨.InvAck,.L1Cache c,v,0⟩ ::ₘ g.acks}

section

omit [DecidableEq V] [Inhabited V]

theorem pending_clear (hi : c∈g.invalidated) (v : V) : (g.clear c v).pending=g.pending := by
  have hcard:=Finset.card_erase_add_one hi
  show (g.invalidated.erase c).card+Multiset.card (_ ::ₘ g.acks)=_
  rw [Multiset.card_cons]
  unfold pending
  omega

theorem place_clear (g : Protocol C V) (c : C) (v : V) :
    (g.clear c v).place c={g.place c with invalidated := False} := by
  simp [place,clear,enter,Closing]

theorem place_clear_of_ne (g : Protocol C V) {c x : C} (v : V) (hx : x≠c) : (g.clear c v).place x=g.place x := by
  simp [place,clear,enter,Closing,hx]

end

omit [DecidableEq C] [DecidableEq V] [Inhabited V] in
theorem fits_cleared {p : Phase C V} (hp : p.Invalidates) (block : V) {place : Place}
    (hi : place.invalidated) (hfits : p.role.Fits place) :
    (p.cleared block).role.Fits {place with invalidated := False} := by
  cases p with
  | storeAsked copy =>
    cases copy with
    | current =>
      obtain ⟨hqueued,hsharer,hreading⟩:=hfits
      exact ⟨hqueued,fun hs => hsharer.mp hs hi,not_false,hreading⟩
    | stale v => exact absurd hp not_false
  | storeQueued copy =>
    cases copy with
    | current =>
      obtain ⟨hqueued,hhead,_,hreading,hclosing⟩:=hfits
      exact ⟨hqueued,hhead,by simp,hreading,hclosing⟩
    | stale v => exact absurd hp not_false
  | shared | sharerPut v dirty =>
    obtain ⟨hqueued,hsharer,hreading⟩:=hfits
    exact ⟨hqueued,fun hs => hsharer.mp hs hi,not_false,hreading⟩
  | sharerAcked v =>
    obtain ⟨hqueued,hsharer,hreading⟩:=hfits
    exact ⟨hqueued,hsharer,not_false,hreading⟩
  | _ => exact absurd hp not_false

section

omit [DecidableEq V] [Inhabited V]

theorem Inv.head_not_invalidated (h : g.Inv) (hc : g.writers.head?=some c) : c∉g.invalidated := by
  have hplace:=h.places c
  have hqueued : c∈g.writers := List.mem_of_head? hc
  cases hr : (g.phase c).role with
  | fetching | owner | retired => rw [hr] at hplace; exact hplace.2.2.1
  | waiting current => rw [hr] at hplace; exact absurd hc hplace.2.1
  | absent | reader | sharer | dropped => rw [hr] at hplace; exact absurd hqueued hplace.1

theorem Inv.clear (h : g.Inv) (hi : c∈g.invalidated) (hp : (g.phase c).Invalidates) (v : V) : (g.clear c v).Inv where
  nodup := h.nodup
  places x := by
    rcases eq_or_ne x c with rfl | hx
    · rw [place_clear,show (g.clear x v).phase x=(g.phase x).cleared g.block from
        enter_phase_self g x _]
      exact fits_cleared hp g.block hi (h.places x)
    · rw [place_clear_of_ne g v hx,show (g.clear c v).phase x=g.phase x from
        enter_phase_of_ne g _ hx]
      exact h.places x
  first x hx := by
    have hne : x≠c := by
      rintro rfl
      exact h.head_not_invalidated hx hi
    rw [pending_clear hi,show (g.clear c v).phase x=g.phase x from enter_phase_of_ne g _ hne]
    exact h.first x hx
  nobody hw := by
    have := (h.nobody hw).1
    rw [this] at hi
    exact absurd hi (Finset.notMem_empty c)
  acks m hm := by
    rcases Multiset.mem_cons.mp hm with rfl | hm
    · exact ⟨rfl,nofun⟩
    · exact h.acks m hm
  mode := h.mode

end

omit [DecidableEq C] [DecidableEq V] in
theorem cleared_keeps {p : Phase C V} (hp : p.Invalidates) (block : V) (c : C) :
    (p.cleared block).request c block=p.request c block ∧
      (p.cleared block).data block=p.data block ∧ (p.cleared block).acked=p.acked := by
  cases p <;> first | exact ⟨rfl,rfl,rfl⟩ | exact absurd hp not_false

omit [DecidableEq V]

theorem clear_system {c w : C} {v : V} {t : L1Cache.Turn C V}
    (hw : g.writers.head?=some w) (hi : c∈g.invalidated) (hp : (g.phase c).Invalidates)
    (ht : t=⟨((g.phase c).cleared g.block).cache g.block,[],
      [(.L1Cache w,⟨.InvAck,.L1Cache c,v,0⟩)],[],false,true,false⟩) : ({g.system.afterCache c t with
      forwardFromDir := update g.system.forwardFromDir c (g.forwards c).tail} :
      System C V)=(g.clear c v).system := by
  subst ht
  obtain ⟨hrequest,hdata,hacked⟩:=cleared_keeps hp g.block c
  have hphase : (g.clear c v).phase c=(g.phase c).cleared g.block := enter_phase_self g c _
  have hother : ∀ x, x≠c → (g.clear c v).phase x=g.phase x := fun x => enter_phase_of_ne g _
  apply System.ext
  · funext x
    show update g.system.cache c _ x=((g.clear c v).phase x).cache g.block
    rcases eq_or_ne x c with rfl | hx
    · rw [update_self,hphase]
    · rw [update_of_ne hx,hother x hx]
      rfl
  · rfl
  · funext x
    show update g.system.requestToDir c _ x=((g.clear c v).phase x).request x g.block
    rcases eq_or_ne x c with rfl | hx
    · rw [update_self,hphase,hrequest]
      exact add_zero _
    · rw [update_of_ne hx,hother x hx]
      rfl
  · funext x
    show update g.forwards c _ x=(g.clear c v).forwards x
    rcases eq_or_ne x c with rfl | hx
    · have hleft : (g.clear x v).invalidated=g.invalidated.erase x := rfl
      simp [forwards,hphase,hacked,hleft,hi,hw]
      rfl
    · have hleft : x∈(g.clear c v).invalidated ↔ x∈g.invalidated := by simp [clear,hx]
      simp [forwards,hother x hx,hx,hleft]
      rfl
  · funext x
    show (g.phase x).data g.block+(if g.writers.head?=some x then g.acks else 0) +
        System.sentTo (.L1Cache x) [(.L1Cache w,⟨.InvAck,.L1Cache c,v,0⟩)] =
      ((g.clear c v).phase x).data g.block +
        if g.writers.head?=some x then ⟨.InvAck,.L1Cache c,v,0⟩ ::ₘ g.acks else 0
    have hkeep : ((g.clear c v).phase x).data g.block=(g.phase x).data g.block := by
      rcases eq_or_ne x c with rfl | hx
      · rw [hphase,hdata]
      · rw [hother x hx]
    rw [hkeep,hw,sentTo_cons,sentTo_nil,add_zero,add_assoc]
    congr 1
    by_cases hx : w=x
    · subst hx
      rw [if_pos rfl,if_pos rfl,if_pos rfl,add_comm,Multiset.singleton_add]
    · simp [hx]
  · show g.system.responseToDir+System.sentTo .Directory [(.L1Cache w,_)]=_
    rw [sentTo_directory,sentTo_nil,add_zero]
    rfl
  · rfl
  · rfl
  · rfl

theorem ack_system (hc : c∉g.writers) (hi : c∉g.invalidated)
    (hdata : (g.phase c).data g.block=0) (hrequest : (g.phase c).request c g.block=0) :
    ({g.system.afterCache c ⟨L1Cache.empty,[],[],[],false,true,false⟩ with
      forwardFromDir := update g.system.forwardFromDir c (g.forwards c).tail} :
      System C V)=(g.enter c .idle).system := by
  have hphase : (g.enter c .idle).phase c = .idle := enter_phase_self g c _
  have hother : ∀ x, x≠c → (g.enter c .idle).phase x=g.phase x :=
    fun x => enter_phase_of_ne g _
  apply System.ext
  · funext x
    show update g.system.cache c _ x=((g.enter c .idle).phase x).cache g.block
    rcases eq_or_ne x c with rfl | hx
    · rw [update_self,hphase]
      rfl
    · rw [update_of_ne hx,hother x hx]
      rfl
  · rfl
  · funext x
    show update g.system.requestToDir c _ x=((g.enter c .idle).phase x).request x g.block
    rcases eq_or_ne x c with rfl | hx
    · rw [update_self,hphase]
      exact congrArg (·+0) hrequest
    · rw [update_of_ne hx,hother x hx]
      rfl
  · funext x
    show update g.forwards c _ x=(g.enter c .idle).forwards x
    rcases eq_or_ne x c with rfl | hx
    · have hfree : x∉(g.enter x .idle).invalidated := hi
      rw [update_self,forwards_of_not_queued (g := g.enter x .idle) hc,hphase,if_neg hfree,
        forwards_of_not_queued hc,if_neg hi]
      split <;> rfl
    · rw [update_of_ne hx]
      unfold forwards
      rw [hother x hx]
      rfl
  · funext x
    show (g.phase x).data g.block+(if g.writers.head?=some x then g.acks else 0)+0 =
      ((g.enter c .idle).phase x).data g.block+if g.writers.head?=some x then g.acks else 0
    rcases eq_or_ne x c with rfl | hx
    · rw [hphase,hdata,add_zero]
      rfl
    · rw [hother x hx,add_zero]
  · exact add_zero _
  · rfl
  · rfl
  · rfl

end Protocol

end AquaGem5.Ruby.MSI
