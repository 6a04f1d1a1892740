import AquaGem5.Ruby.MSI.Processor

/-! # Responses arriving at a cache -/

namespace AquaGem5.Ruby.MSI
open Checked Succession

variable {C V : Type} [DecidableEq C] [DecidableEq V] [Inhabited V]

namespace Phase

omit [DecidableEq C] [DecidableEq V]

theorem complete_turn (copy : Copy V) (block : V) (acks : ℤ) (c : C) (m : ResponseMsg C V)
    (write : V → V) {event : L1Cache.Event} (he : event = .DataDirNoAcks ∨ event = .DataOwner) :
    L1Cache.doTransition c ⟨some m,none,false,write⟩ event (storing block acks copy) =
      .ok ⟨⟨some ⟨.M,write m.dataBlk⟩,none⟩,[],[],[.store c (write m.dataBlk)],false,false,true⟩ := by
  rcases he with rfl | rfl <;> cases copy <;> rfl

theorem collect_turn (copy : Copy V) (block : V) (acks left : ℕ) (early : ℤ) (c : C)
    (write : V → V) (hleft : acks+early=left) (hpos : 0<left) :
    ∃ copied, L1Cache.doTransition c ⟨some ⟨.Data,.Directory,block,acks⟩,none,false,write⟩
        .DataDirAcks (storing block early copy) = .ok ⟨collecting block left copied,[],[],[],false,false,true⟩ := by
  have hcheck : check ((left : ℤ)>0) Fault.assertion = .ok () := if_pos (by omega)
  cases copy with
  | current =>
    refine ⟨true,?_⟩
    simp only [L1Cache.doTransition,storing,L1Cache.getState,L1Cache.transition,L1Cache.runActions,
      L1Cache.Action.run,L1Cache.orFault,L1Cache.Turn.start,bind,Except.bind,pure,Except.pure,hcheck,
      hleft]
    rfl
  | stale v =>
    refine ⟨false,?_⟩
    simp only [L1Cache.doTransition,storing,L1Cache.getState,L1Cache.transition,L1Cache.runActions,
      L1Cache.Action.run,L1Cache.orFault,L1Cache.Turn.start,bind,Except.bind,pure,Except.pure,hcheck,
      hleft]
    rfl

theorem count_storing (copy : Copy V) (block : V) (acks : ℤ) (c : C) (m : ResponseMsg C V) (write : V → V) :
    L1Cache.doTransition c ⟨some m,none,false,write⟩ .InvAck (storing block acks copy) =
      .ok ⟨storing block (acks-1) copy,[],[],[],false,false,true⟩ := by
  cases copy <;> rfl

theorem count_collecting (copied : Bool) (block : V) (acks : ℤ) (c : C) (m : ResponseMsg C V) (write : V → V) :
    L1Cache.doTransition c ⟨some m,none,false,write⟩ .InvAck (collecting block acks copied) =
      .ok ⟨collecting block (acks-1) copied,[],[],[],false,false,true⟩ := by
  cases copied <;> rfl

theorem last_collecting (copied : Bool) (block : V) (acks : ℤ) (c : C) (m : ResponseMsg C V) (write : V → V) :
    L1Cache.doTransition c ⟨some m,none,false,write⟩ .LastInvAck (collecting block acks copied) =
      .ok ⟨⟨some ⟨.M,write block⟩,none⟩,[],[],[.store c (write block)],false,false,true⟩ := by
  cases copied <;> rfl

end Phase

namespace Protocol

def taken (s : System C V) (c : C) (m : ResponseMsg C V) (x : L1Cache V) : System C V :=
  {s with
    cache := Function.update s.cache c x
    responseToCache := Function.update s.responseToCache c ((s.responseToCache c).erase m)}

variable {m : ResponseMsg C V} {write : V → V} {c : C}

theorem response_result (s : System C V) {event : L1Cache.Event} {x : L1Cache V} {callbacks : List (Callback C V)}
    (he : (s.cache c).responseIn m = .ok event)
    (ht : L1Cache.doTransition c ⟨some m,none,false,write⟩ event (s.cache c) =
      .ok ⟨x,[],[],callbacks,false,false,true⟩) : s.step (.response c m write) = .ok (taken s c m x,callbacks) := by
  simp only [System.step,he,ht,bind,Except.bind]
  congr 2
  apply System.ext <;> simp [System.afterCache,taken,System.sentTo]

variable {g : Protocol C V} {q : Phase C V}

theorem enter_taken (hdata : (g.phase c).data g.block={m}) (hq : q.data g.block=0)
    (hrequest : q.request c g.block=(g.phase c).request c g.block) (hacked : q.acked=(g.phase c).acked) :
    taken g.system c m (q.cache g.block)=(g.enter c q).system := by
  apply System.ext
  · funext x
    rcases eq_or_ne x c with rfl | hx
    · simp [taken,system,enter]
    · simp [taken,system,enter,hx]
  · rfl
  · funext x
    rcases eq_or_ne x c with rfl | hx
    · simp [taken,system,enter,hrequest]
    · simp [taken,system,enter,hx]
  · funext x
    rcases eq_or_ne x c with rfl | hx
    · simp [taken,system,forwards,enter,hacked]
    · simp [taken,system,forwards,enter,hx]
  · funext x
    rcases eq_or_ne x c with rfl | hx
    · have hphase : (g.enter x q).phase x=q := enter_phase_self g x q
      have hleft : (taken g.system x m (q.cache g.block)).responseToCache x =
          ((g.phase x).data g.block+if g.writers.head?=some x then g.acks else 0).erase m := by
        simp [taken,system]
      have hright : (g.enter x q).system.responseToCache x =
          q.data g.block+if g.writers.head?=some x then g.acks else 0 := by
        show Phase.data g.block ((g.enter x q).phase x) +
          (if g.writers.head?=some x then g.acks else 0)=_
        rw [hphase]
      rw [hleft,hright,hdata,hq,Multiset.singleton_add,Multiset.erase_cons_head,zero_add]
    · simp only [taken,Function.update_of_ne hx]
      show _=Phase.data g.block ((g.enter c q).phase x)+_
      rw [enter_phase_of_ne g q hx]
      rfl
  · rfl
  · rfl
  · rfl
  · rfl

theorem hold_taken (h : g.Inv) (hr : (g.phase c).role = .owner) (hi : g.invalidated = ∅)
    (hreq : (g.phase c).request c g.block=0) (hm : g.system.responseToCache c={m}) (v : V) :
    taken g.system c m ⟨some ⟨.M,v⟩,none⟩=(g.hold c v).system := by
  rw [hold_system h hr hi hreq]
  apply System.ext <;> simp [taken,hm]

def counted (g : Protocol C V) (c : C) (m : ResponseMsg C V) (q : Phase C V) : Protocol C V :=
  {g.enter c q with acks := g.acks.erase m}

theorem counted_taken (hhead : g.writers.head?=some c) (hm : m∈g.acks)
    (hdata : q.data g.block=(g.phase c).data g.block)
    (hrequest : q.request c g.block=(g.phase c).request c g.block) (hacked : q.acked=(g.phase c).acked) :
    taken g.system c m (q.cache g.block)=(g.counted c m q).system := by
  apply System.ext
  · funext x
    rcases eq_or_ne x c with rfl | hx
    · simp [taken,system,counted,enter]
    · simp [taken,system,counted,enter,hx]
  · rfl
  · funext x
    rcases eq_or_ne x c with rfl | hx
    · simp [taken,system,counted,enter,hrequest]
    · simp [taken,system,counted,enter,hx]
  · funext x
    rcases eq_or_ne x c with rfl | hx
    · simp [taken,system,forwards,counted,enter,hacked]
    · simp [taken,system,forwards,counted,enter,hx]
  · funext x
    rcases eq_or_ne x c with rfl | hx
    · have hleft : (taken g.system x m (q.cache g.block)).responseToCache x =
          ((g.phase x).data g.block+g.acks).erase m := by
        simp [taken,system,hhead]
      have hright : (g.counted x m q).system.responseToCache x =
          q.data g.block+g.acks.erase m := by
        have hphase : (g.counted x m q).phase x=q := enter_phase_self g x q
        show Phase.data g.block ((g.counted x m q).phase x) +
          (if g.writers.head?=some x then g.acks.erase m else 0)=_
        rw [hphase,if_pos hhead]
      rw [hleft,hright,hdata,Multiset.erase_add_right_pos _ hm]
    · have hne : g.writers.head?≠some x := by
        rw [hhead]
        exact fun e => hx (Option.some.inj e).symm
      simp only [taken,Function.update_of_ne hx]
      show Phase.data g.block (g.phase x)+(if g.writers.head?=some x then g.acks else 0) =
        Phase.data g.block ((g.enter c q).phase x) +
          (if g.writers.head?=some x then g.acks.erase m else 0)
      rw [enter_phase_of_ne g q hx,if_neg hne,if_neg hne]
  · rfl
  · rfl
  · rfl
  · rfl

section

omit [Inhabited V]

theorem pending_erase (hm : m∈g.acks) : g.pending=g.invalidated.card+Multiset.card (g.acks.erase m)+1 := by
  have := Multiset.card_erase_add_one hm
  unfold pending
  omega

theorem Inv.counted (h : g.Inv) (hhead : g.writers.head?=some c) (hrole : q.role=(g.phase c).role)
    (hawaits : ∀ n, g.pending=n+1 → (g.phase c).Awaits g.sharers.card g.pending →
      q.Awaits g.sharers.card n) (hm : m∈g.acks) : (g.counted c m q).Inv where
  nodup := h.nodup
  places x := by
    have hplace:=h.places x
    rcases eq_or_ne x c with rfl | hx
    · rw [show (g.counted x m q).phase x=q from enter_phase_self g x q,hrole]
      exact hplace
    · rw [show (g.counted c m q).phase x=g.phase x from enter_phase_of_ne g q hx]
      exact hplace
  first x hx := by
    obtain rfl : c=x := Option.some.inj (hhead.symm.trans hx)
    rw [show (g.counted c m q).phase c=q from enter_phase_self g c q]
    exact hawaits _ (pending_erase hm) (h.first c hhead)
  nobody hw := by
    have hw' : g.writers=[] := hw
    simp [hw'] at hhead
  acks x hx := h.acks x (Multiset.mem_of_mem_erase hx)
  mode := h.mode

end

section

omit [DecidableEq C] [DecidableEq V] [Inhabited V]

theorem responseIn_ack {x : L1Cache V} {tbe : L1Cache.TBE} (htbe : x.tbe=some tbe)
    (hm : m.type = .InvAck ∧ m.sender ≠ .Directory) :
    x.responseIn m = .ok (if tbe.acksOutstanding=1 then .LastInvAck else .InvAck) := by
  obtain ⟨type,sender,v,acks⟩:=m
  obtain ⟨rfl,hsender⟩:=hm
  cases sender with
  | L1Cache d =>
    simp only [L1Cache.responseIn,htbe]
    split <;> rfl
  | Directory => exact absurd rfl hsender

theorem responseIn_storing (copy : Copy V) (block : V) (early : ℕ) (hm : m.type = .InvAck ∧ m.sender ≠ .Directory) :
    (Phase.storing block (-early) copy).responseIn m = .ok .InvAck := by
  have hne : ¬(-(early : ℤ)=1) := by omega
  cases copy with
  | current | stale v => rw [responseIn_ack rfl hm,if_neg hne]

end

theorem count_yields (h : g.Inv) (hhead : g.writers.head?=some c) (hm : m∈g.acks)
    (hin : (g.system.cache c).responseIn m = .ok .InvAck)
    (hturn : L1Cache.doTransition c ⟨some m,none,false,write⟩ .InvAck (g.system.cache c) =
      .ok ⟨q.cache g.block,[],[],[],false,false,true⟩) (hdata : q.data g.block=(g.phase c).data g.block)
    (hrequest : q.request c g.block=(g.phase c).request c g.block)
    (hacked : q.acked=(g.phase c).acked) (hrole : q.role=(g.phase c).role)
    (hawaits : ∀ n, g.pending=n+1 → (g.phase c).Awaits g.sharers.card g.pending →
      q.Awaits g.sharers.card n) : g.Yields (g.system.step (.response c m write)) := by
  rw [response_result g.system hin hturn,counted_taken hhead hm hdata hrequest hacked]
  exact ⟨g.counted c m q,[],rfl,h.counted hhead hrole hawaits hm,.silent _⟩

theorem early_yields (h : g.Inv) (hhead : g.writers.head?=some c) (hm : m∈g.acks) {copy : Copy V} {early : ℕ}
    (hcache : g.system.cache c=Phase.storing g.block (-early) copy)
    (hq : q.cache g.block=Phase.storing g.block (-(early+1 : ℕ)) copy)
    (hdata : q.data g.block=(g.phase c).data g.block) (hrequest : q.request c g.block=(g.phase c).request c g.block)
    (hacked : q.acked=(g.phase c).acked) (hrole : q.role=(g.phase c).role)
    (hawaits : ∀ n, g.pending=n+1 → (g.phase c).Awaits g.sharers.card g.pending →
      q.Awaits g.sharers.card n) : g.Yields (g.system.step (.response c m write)) := by
  have hearly : -(early : ℤ)-1 = -((early+1 : ℕ) : ℤ) := by omega
  refine count_yields h hhead hm ?_ ?_ hdata hrequest hacked hrole hawaits
  · rw [hcache]
    exact responseIn_storing copy g.block early (h.acks m hm)
  · rw [hcache,Phase.count_storing,hearly,← hq]

theorem last_yields (h : g.Inv) (hhead : g.writers.head?=some c) (hm : m∈g.acks) {copied : Bool} {left : ℕ}
    (hp : g.phase c = .storeCollecting copied left) (hlast : g.pending=1)
    (hin : (g.system.cache c).responseIn m = .ok .LastInvAck) : g.Yields (g.system.step (.response c m write)) := by
  have hcard:=pending_erase hm
  have hi : g.invalidated = ∅ := Finset.card_eq_zero.mp (by omega)
  have herase : g.acks.erase m=0 := Multiset.card_eq_zero.mp (by omega)
  have hacks : g.acks={m} := by
    rw [← Multiset.cons_erase hm,herase]
    rfl
  have hresponse : g.system.responseToCache c={m} := by
    show (g.phase c).data g.block+(if g.writers.head?=some c then g.acks else 0)={m}
    rw [hp,if_pos hhead,hacks]
    rfl
  have hr : (g.phase c).role = .owner := by rw [hp]; rfl
  have hcache : g.system.cache c=Phase.collecting g.block left copied := by
    show (g.phase c).cache g.block=_
    rw [hp]
    rfl
  have hturn : L1Cache.doTransition c ⟨some m,none,false,write⟩ .LastInvAck (g.system.cache c) =
      .ok ⟨⟨some ⟨.M,write g.block⟩,none⟩,[],[],[.store c (write g.block)],false,false,true⟩ := by
    rw [hcache]
    exact Phase.last_collecting copied g.block left c m write
  rw [response_result g.system hin hturn,hold_taken h hr hi (by rw [hp]; rfl) hresponse]
  exact ⟨_,_,rfl,h.hold hr hi _,.store c _ _⟩

theorem count_step (h : g.Inv) (hhead : g.writers.head?=some c) (hm : m∈g.acks) :
    g.Yields (g.system.step (.response c m write)) := by
  have hplace:=h.places c
  have hfirst:=h.first c hhead
  have hqueued : c∈g.writers := List.mem_of_head? hhead
  have hcache : g.system.cache c=(g.phase c).cache g.block := rfl
  obtain ⟨n,hn⟩ : ∃ n, g.pending=n+1 := ⟨_,pending_erase hm⟩
  cases hp : g.phase c with
  | storeFetching copy early =>
    rw [hp] at hcache
    refine early_yields (q := .storeFetching copy (early+1)) h hhead hm hcache rfl ?_ ?_ ?_ ?_ ?_
    · rw [hp]; rfl
    · rw [hp]; rfl
    · rw [hp]; rfl
    · rw [hp]; rfl
    · intro k hk hw
      rw [hp] at hw
      simp only [Phase.Awaits] at hw ⊢
      omega
  | storeGranted copy acks early =>
    rw [hp] at hcache
    refine early_yields (q := .storeGranted copy acks (early+1)) h hhead hm hcache rfl ?_ ?_ ?_ ?_ ?_
    · rw [hp]; rfl
    · rw [hp]; rfl
    · rw [hp]; rfl
    · rw [hp]; rfl
    · intro k hk hw
      rw [hp] at hw
      simp only [Phase.Awaits] at hw ⊢
      omega
  | storeCollecting copied left =>
    rw [hp] at hcache hfirst
    obtain ⟨hleft,hpos⟩:=hfirst
    obtain ⟨state,htbe⟩ : ∃ state, (Phase.collecting g.block left copied).tbe=some ⟨state,(left : ℤ)⟩ := by
      cases copied <;> exact ⟨_,rfl⟩
    have hin:=responseIn_ack htbe (h.acks m hm)
    by_cases hone : left=1
    · rw [if_pos (by simp only; omega)] at hin
      exact last_yields h hhead hm hp (by omega) (hcache.symm ▸ hin)
    · rw [if_neg (by simp only; omega)] at hin
      have hless : (left : ℤ)-1=((left-1 : ℕ) : ℤ) := by omega
      refine count_yields (q := .storeCollecting copied (left-1)) h hhead hm ?_ ?_ ?_ ?_ ?_ ?_ ?_
      · exact hcache ▸ hin
      · rw [hcache]
        show L1Cache.doTransition c _ _ (Phase.collecting g.block left copied)=_
        rw [Phase.count_collecting,hless]
        rfl
      · rw [hp]; rfl
      · rw [hp]; rfl
      · rw [hp]; rfl
      · rw [hp]; rfl
      · intro k hk hw
        simp only [Phase.Awaits]
        omega
  | storeQueued copy =>
    rw [hp] at hplace
    cases copy with
    | current | stale v => exact absurd hhead hplace.2.1
  | storeAsked copy =>
    rw [hp] at hplace
    cases copy with
    | current | stale v => exact absurd hqueued hplace.1
  | storePassed v source | modified | ownerPut | ownerAcked => simp [hp,Phase.Awaits,hn] at hfirst
  | _ =>
    rw [hp] at hplace
    exact absurd hqueued hplace.1

theorem complete_yields (h : g.Inv)
    (event : L1Cache.Event) (copy : Copy V) (early : ℤ) (hr : (g.phase c).role = .owner)
    (hpending : g.pending=0) (hdata : (g.phase c).data g.block={m}) (hrequest : (g.phase c).request c g.block=0)
    (hcache : (g.phase c).cache g.block=Phase.storing g.block early copy)
    (hin : (Phase.storing g.block early copy).responseIn m = .ok event)
    (he : event = .DataDirNoAcks ∨ event = .DataOwner) : g.Yields (g.system.step (.response c m write)) := by
  have hcache' : g.system.cache c=Phase.storing g.block early copy := hcache
  unfold pending at hpending
  have hi : g.invalidated = ∅ := Finset.card_eq_zero.mp (by omega)
  have hacks : g.acks=0 := Multiset.card_eq_zero.mp (by omega)
  have hresponse : g.system.responseToCache c={m} := by
    show (g.phase c).data g.block+(if g.writers.head?=some c then g.acks else 0)={m}
    rw [hdata,hacks,ite_self,add_zero]
  have hturn:=Phase.complete_turn copy g.block early c m write he
  rw [response_result g.system (hcache' ▸ hin) (hcache' ▸ hturn),
    hold_taken h hr hi hrequest hresponse]
  exact ⟨_,_,rfl,h.hold hr hi _,.store c _ _⟩

theorem data_step (h : g.Inv) (hm : m∈(g.phase c).data g.block) : g.Yields (g.system.step (.response c m write)) := by
  have hcache : g.system.cache c=(g.phase c).cache g.block := rfl
  cases hp : g.phase c with
  | loadAnswered source =>
    rw [hp] at hm hcache
    obtain rfl:=Multiset.mem_singleton.mp hm
    have hin : ∃ event, (event = .DataDirNoAcks ∨ event = .DataOwner) ∧
        (g.system.cache c).responseIn ⟨.Data,source,g.block,0⟩ = .ok event := by
      rw [hcache]
      cases source with
      | Directory => exact ⟨.DataDirNoAcks,.inl rfl,rfl⟩
      | L1Cache d => exact ⟨.DataOwner,.inr rfl,rfl⟩
    obtain ⟨event,he,hin⟩:=hin
    have hturn : L1Cache.doTransition c ⟨some ⟨.Data,source,g.block,0⟩,none,false,write⟩ event
        (g.system.cache c) =
        .ok ⟨Phase.cache g.block (.shared : Phase C V),[],[],[.load c g.block],false,false,true⟩ := by
      rw [hcache]
      rcases he with rfl | rfl <;> rfl
    rw [response_result g.system hin hturn,
      enter_taken (q := .shared) (by rw [hp]; rfl) rfl (by rw [hp]; rfl) (by rw [hp]; rfl)]
    exact ⟨_,_,rfl,h.enter (by rw [hp]; rfl) (by rw [hp]; exact id),.load c _⟩
  | storeGranted copy acks early =>
    have hr : (g.phase c).role = .owner := by rw [hp]; rfl
    have hfirst:=h.first c (h.mode_of_owner (.inl hr)).1
    rw [hp] at hm hcache hfirst
    obtain rfl:=Multiset.mem_singleton.mp hm
    have hfirst : acks=g.pending+early := hfirst
    have hsum : (acks : ℤ) + -(early : ℤ)=(g.pending : ℤ) := by omega
    have htbe : ∃ state, (Phase.storing g.block (-early) copy).tbe=some ⟨state,-(early : ℤ)⟩ := by
      cases copy <;> exact ⟨_,rfl⟩
    obtain ⟨state,htbe⟩:=htbe
    by_cases hpending : g.pending=0
    · have hin : (Phase.storing g.block (-early) copy).responseIn
          (⟨.Data,.Directory,g.block,acks⟩ : ResponseMsg C V) = .ok .DataDirNoAcks := by
        simp only [L1Cache.responseIn,htbe,hsum,hpending]
        rfl
      exact complete_yields h .DataDirNoAcks copy (-early) hr hpending (by rw [hp]; rfl) (by rw [hp]; rfl) (by rw [hp]; rfl) hin
        (.inl rfl)
    · have hin : (g.system.cache c).responseIn
          (⟨.Data,.Directory,g.block,acks⟩ : ResponseMsg C V) = .ok .DataDirAcks := by
        rw [hcache]
        show (Phase.storing g.block (-early) copy).responseIn _=_
        have hnonneg : ¬(g.pending : ℤ)<0 := by omega
        have hne : ¬(g.pending : ℤ)=0 := by omega
        simp only [L1Cache.responseIn,htbe,hsum,if_neg hnonneg,if_neg hne]
        rfl
      obtain ⟨copied,hturn⟩:=Phase.collect_turn copy g.block acks g.pending (-early) c write hsum
        (Nat.pos_of_ne_zero hpending)
      have hcache' : g.system.cache c=Phase.storing g.block (-early) copy := hcache
      rw [response_result g.system hin (hcache' ▸ hturn)]
      have htaken:=enter_taken (q := .storeCollecting copied g.pending)
        (m := ⟨.Data,.Directory,g.block,acks⟩) (c := c) (g := g) (by rw [hp]; rfl) rfl
        (by rw [hp]; rfl) (by rw [hp]; rfl)
      refine ⟨_,_,congrArg (fun s => Except.ok (s,_)) htaken,h.enter (by rw [hp]; rfl) ?_,.silent _⟩
      intro _
      exact ⟨rfl,Nat.pos_of_ne_zero hpending⟩
  | storePassed v source =>
    have hr : (g.phase c).role = .owner := by rw [hp]; rfl
    have hfirst:=h.first c (h.mode_of_owner (.inl hr)).1
    rw [hp] at hm hfirst
    obtain rfl:=Multiset.mem_singleton.mp hm
    exact complete_yields h .DataOwner (.stale v) 0 hr hfirst
      (by rw [hp]; rfl) (by rw [hp]; rfl) (by rw [hp]; rfl) rfl (.inr rfl)
  | _ =>
    rw [hp] at hm
    exact absurd hm (Multiset.notMem_zero m)

theorem response_step (h : g.Inv)
    (hm : m∈g.system.responseToCache c) : g.Yields (g.system.step (.response c m write)) := by
  have hsplit : m∈(g.phase c).data g.block+if g.writers.head?=some c then g.acks else 0 := hm
  rcases Multiset.mem_add.mp hsplit with hdata | hack
  · exact data_step h hdata
  · by_cases hhead : g.writers.head?=some c
    · rw [if_pos hhead] at hack
      exact count_step h hhead hack
    · simp [hhead] at hack

end Protocol

end AquaGem5.Ruby.MSI
