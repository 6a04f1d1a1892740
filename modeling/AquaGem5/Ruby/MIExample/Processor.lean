import AquaGem5.Ruby.MIExample.Protocol

/-!
# Processor requests, replacements and data

These change the phase of their cache only.
-/

namespace AquaGem5.Ruby.MIExample
open Checked Succession Function

variable {C D : Type} {n : ℕ} {B : Type} {exact : Prop} {c : C}

namespace Protocol

variable {g : Protocol C D n B}

theorem Inv.mode_of_head [Inhabited B] (h : g.Inv exact) (hc : g.writers.head?=some c)
    (hf : g.mode.fetches=none) : g.mode = .owned ∨ ∃ d pkt,g.mode = .recalling d pkt := by
  have hmode:=h.mode
  cases hm : g.mode with
  | owned => exact .inl rfl
  | recalling d pkt => exact .inr ⟨d,pkt,rfl⟩
  | fetching w answered => simp [hm,Mode.fetches] at hf
  | _ =>
    rw [hm] at hmode
    rw [hmode.1] at hc
    cases hc

theorem mem_of_head (hc : g.writers.head?=some c) : c∈g.writers := List.mem_of_mem_head? hc

variable [DecidableEq C]

def enter (g : Protocol C D n B) (c : C) (p : Phase C D (Block n B)) : Protocol C D n B :=
  {g with phase := Function.update g.phase c p}

@[simp] theorem enter_phase_self (g : Protocol C D n B) (c : C) (p : Phase C D (Block n B)) :
    (g.enter c p).phase c=p := by simp [enter]

@[simp] theorem enter_phase_of_ne (g : Protocol C D n B) {c x : C} (p : Phase C D (Block n B)) (h : x≠c) :
    (g.enter c p).phase x=g.phase x := by simp [enter,h]

@[simp] theorem enter_writers (g : Protocol C D n B) (c : C) (p : Phase C D (Block n B)) :
    (g.enter c p).writers=g.writers := rfl

@[simp] theorem enter_mode (g : Protocol C D n B) (c : C) (p : Phase C D (Block n B)) :
    (g.enter c p).mode=g.mode := rfl

@[simp] theorem enter_invalidated (g : Protocol C D n B) (c : C) (p : Phase C D (Block n B)) :
    (g.enter c p).invalidated=g.invalidated := rfl

@[simp] theorem enter_block (g : Protocol C D n B) (c : C) (p : Phase C D (Block n B)) :
    (g.enter c p).block=g.block := rfl

theorem fits_enter {x : C} {p q : Phase C D (Block n B)} : (g.enter c q).Fits x p ↔ g.Fits x p := by
  cases p <;> rfl

theorem enter_self (g : Protocol C D n B) (c : C) : g.enter c (g.phase c)=g := by
  simp [enter,update_eq_self]

variable {p : Phase C D (Block n B)}

theorem Inv.enter [Inhabited B] (h : g.Inv exact) (hp : g.Fits c p) : (g.enter c p).Inv exact where
  nodup := h.nodup
  fits x := by
    rw [fits_enter]
    by_cases hx : x=c
    · subst hx
      simpa using hp
    · simpa [hx] using h.fits x
  invalidated := h.invalidated
  mode := h.mode
  serves := h.serves
  aligned := h.aligned

def hold (g : Protocol C D n B) (c : C) (v : Block n B) : Protocol C D n B :=
  {g.enter c (.modified v) with block := v}

theorem Inv.hold [Inhabited B] (h : g.Inv exact) (hc : g.writers.head?=some c) (hf : g.mode.fetches=none)
    (v : Block n B) : (g.hold c v).Inv exact where
  nodup := h.nodup
  fits x := by
    by_cases hx : x=c
    · subst hx
      simp [Protocol.hold,Fits,hc,hf]
    · have hfits:=h.fits x
      have hne : g.writers.head?≠some x := fun hhead => hx (Option.some.inj (hhead.symm.trans hc))
      simp only [Protocol.hold,enter_phase_of_ne g _ hx]
      cases hp : g.phase x <;> simp_all [Fits]
  invalidated := h.invalidated
  mode := by
    have hmode:=h.mode
    cases h.mode_of_head hc hf with
    | inl hm =>
      rw [hm] at hmode
      show (g.hold c v).ModeFits exact g.mode
      rw [hm]
      exact hmode
    | inr hm =>
      obtain ⟨d,pkt,hm⟩:=hm
      rw [hm] at hmode
      show (g.hold c v).ModeFits exact g.mode
      rw [hm]
      exact hmode
  serves := h.serves
  aligned := h.aligned

variable [Inhabited B]

@[simp] theorem notices_enter (g : Protocol C D n B) (c : C) (p : Phase C D (Block n B)) (x : C) :
    (g.enter c p).notices x=g.notices x := rfl

variable [DecidableEq D]

theorem enter_system (g : Protocol C D n B) (c : C) (p : Phase C D (Block n B)) : (g.enter c p).system =
    {g.system with
      cache := update g.system.cache c p.cache
      requestToDir := update g.system.requestToDir c (p.request c)
      forwardFromDir := update g.system.forwardFromDir c (g.notices c++p.ack c)
      responseToCache := fun source => update (g.system.responseToCache source) c (p.data source)} := by
  apply System.ext
  case cache | requestToDir =>
    funext x
    by_cases hx : x=c
    · subst hx
      simp [system]
    · simp [system,hx]
  case forwardFromDir =>
    funext x
    by_cases hx : x=c
    · subst hx
      simp [system]
    · simp [system,hx]
  case responseToCache =>
    funext source x
    by_cases hx : x=c
    · subst hx
      simp [system]
    · simp [system,hx]
  all_goals rfl

theorem afterCache_enter {t : L1Cache.Turn C D (Block n B)} (hcache : t.cache=p.cache)
    (hrequest : p.request c=(g.phase c).request c++t.requests) (hresponses : t.responses=[])
    (hack : p.ack c=(g.phase c).ack c) (hdata : ∀ source,p.data source=(g.phase c).data source) :
    g.system.afterCache c t=(g.enter c p).system := by
  rw [enter_system]
  apply System.ext
  case cache => simp [System.afterCache,hcache]
  case requestToDir => simp [System.afterCache,hrequest,system]
  case forwardFromDir => simp [System.afterCache,hack,system]
  case responseToCache =>
    funext source x
    by_cases hx : x=c
    · subst hx
      by_cases hs : source = .L1Cache x
      · subst hs
        simp [System.afterCache,hresponses,System.sentTo,hdata,system]
      · simp [System.afterCache,hs,hdata,system]
    · by_cases hs : source = .L1Cache c
      · subst hs
        simp [System.afterCache,hresponses,System.sentTo,hx]
      · simp [System.afterCache,hs,hx]
  all_goals rfl

theorem hold_system (g : Protocol C D n B) (c : C) (v : Block n B) :
    (g.hold c v).system=(g.enter c (.modified v)).system := rfl

section Turns

omit [DecidableEq C] [DecidableEq D]

variable {event : L1Cache.Event}

theorem miss_turn (stale : Option (Block n B))
    (he : event = .Load ∨ event = .Ifetch ∨ event = .Store) {peek : L1Cache.Peek C D (Block n B)}
    (havail : stale.isSome ∨ peek.cacheAvail=true) :
    L1Cache.doTransition c peek event (Phase.idle stale : Phase C D (Block n B)).cache =
      .ok ⟨(Phase.asked (event = .Store) (stale.getD default) : Phase C D (Block n B)).cache,
        [⟨.GETX,c,default⟩],[],[],true,false,false⟩ := by
  cases stale with
  | some v => obtain rfl | rfl | rfl := he <;> rfl
  | none =>
    obtain ⟨response,forward,cacheAvail,write⟩:=peek
    obtain rfl : cacheAvail=true := havail.resolve_left (by simp)
    obtain rfl | rfl | rfl:=he <;> rfl

theorem load_turn (v : Block n B) (peek : L1Cache.Peek C D (Block n B)) (he : event = .Load ∨ event = .Ifetch) :
    L1Cache.doTransition c peek event (Phase.modified v : Phase C D (Block n B)).cache =
      .ok ⟨(Phase.modified v : Phase C D (Block n B)).cache,[],[],[.load c v],true,false,false⟩ := by
  obtain rfl | rfl:=he <;> rfl

theorem store_turn (v : Block n B) (peek : L1Cache.Peek C D (Block n B)) :
    L1Cache.doTransition c peek .Store (Phase.modified v : Phase C D (Block n B)).cache =
      .ok ⟨(Phase.modified (peek.write v) : Phase C D (Block n B)).cache,[],[],[.store c (peek.write v)],true,
        false,false⟩ := rfl

theorem put_turn (v : Block n B) (peek : L1Cache.Peek C D (Block n B)) (he : event = .Replacement ∨ event = .Inv) :
    L1Cache.doTransition c peek event (Phase.modified v : Phase C D (Block n B)).cache =
      .ok ⟨(Phase.put v : Phase C D (Block n B)).cache,[⟨.PUTX,c,v⟩],[],[],false,false,false⟩ := by
  obtain rfl | rfl:=he <;> rfl

theorem stall_turn {p : Phase C D (Block n B)} (hidle : ∀ stale,p ≠ .idle stale) (hmodified : ∀ v,p ≠ .modified v)
    (peek : L1Cache.Peek C D (Block n B))
    (he : event = .Load ∨ event = .Ifetch ∨ event = .Store ∨ event = .Replacement) :
    L1Cache.doTransition c peek event p.cache = .ok ⟨p.cache,[],[],[],false,false,false⟩ := by
  cases p with
  | idle stale => exact (hidle stale rfl).elim
  | modified v => exact (hmodified v rfl).elim
  | asked store stale | queued store stale | granted store stale v source =>
    cases store <;> obtain rfl | rfl | rfl | rfl := he <;> rfl
  | _ => obtain rfl | rfl | rfl | rfl := he <;> rfl

theorem data_turn (store : Bool) (stale v : Block n B) (source : MachineID C D) (m : ResponseMsg C D (Block n B))
    (write : Block n B → Block n B) :
    L1Cache.doTransition c ⟨some m,none,false,write⟩ .Data (Phase.granted store stale v source : Phase C D (Block n B)).cache =
      .ok ⟨(Phase.modified (if store then write m.dataBlk else m.dataBlk) : Phase C D (Block n B)).cache,[],[],
        [if store then .store c (write m.dataBlk) else .load c m.dataBlk],false,false,true⟩ := by
  cases store <;> rfl

end Turns

theorem enter_yields (h : g.Inv exact) {t : L1Cache.Turn C D (Block n B)}
    (hp : g.Fits c p) (hcache : t.cache=p.cache) (hrequest : p.request c=(g.phase c).request c++t.requests)
    (hresponses : t.responses=[]) (hack : p.ack c=(g.phase c).ack c)
    (hdata : ∀ source,p.data source=(g.phase c).data source) (hcallbacks : t.callbacks=[]) :
    g.Yields exact (.ok (g.system.afterCache c t,t.callbacks.map System.cacheReport)) := by
  refine ⟨g.enter c p,[],?_,h.enter hp,.silent _ rfl rfl⟩
  rw [afterCache_enter hcache hrequest hresponses hack hdata,hcallbacks]
  rfl

theorem stall_yields (h : g.Inv exact) :
    g.Yields exact (.ok (g.system.afterCache c ⟨(g.phase c).cache,[],[],[],false,false,false⟩,[])) :=
  enter_yields h (h.fits c) rfl (List.append_nil _).symm rfl rfl (fun _ => rfl) rfl

theorem processor_yields (h : g.Inv exact) {event : L1Cache.Event}
    (he : event = .Load ∨ event = .Ifetch ∨ event = .Store) {cacheAvail : Bool}
    (havail : (g.phase c).cache.entry.isSome ∨ cacheAvail=true) (write : Block n B → Block n B) :
    ∃ t,L1Cache.doTransition c ⟨none,none,cacheAvail,write⟩ event (g.phase c).cache = .ok t ∧
      g.Yields exact (.ok (g.system.afterCache c t,t.callbacks.map System.cacheReport)) := by
  have hfits:=h.fits c
  cases hp : g.phase c with
  | idle stale =>
    rw [hp] at hfits havail
    have hstale : stale.isSome ∨ cacheAvail=true := by
      cases stale with
      | some v => exact .inl rfl
      | none => exact .inr (havail.resolve_left (by simp [Phase.cache]))
    refine ⟨_,miss_turn stale he hstale,
      enter_yields (p := .asked (event = .Store) (stale.getD default)) h hfits rfl ?_ rfl ?_ ?_ rfl⟩
    · simp [hp,Phase.request]
    · simp [hp,Phase.ack]
    · simp [hp,Phase.data]
  | modified v =>
    rw [hp] at hfits
    have hself:=afterCache_enter (g := g) (c := c) (p := g.phase c) (t := ⟨(g.phase c).cache,[],[],[.load c v],true,false,false⟩)
      rfl (List.append_nil _).symm rfl rfl fun _ => rfl
    have hload : g.Yields exact (.ok (g.system.afterCache c
        ⟨(Phase.modified v : Phase C D (Block n B)).cache,[],[],[.load c v],true,false,false⟩,[.load c v])) := by
      refine ⟨g,[.load c v],?_,h,hfits.2.2 ▸ .load g c rfl rfl⟩
      rw [hp] at hself
      rw [hself,← hp,enter_self]
    obtain rfl | rfl | rfl:=he
    · exact ⟨_,load_turn v _ (.inl rfl),hload⟩
    · exact ⟨_,load_turn v _ (.inr rfl),hload⟩
    · refine ⟨_,store_turn v _,g.hold c (write v),[.store c (write v)],?_,h.hold hfits.1 hfits.2.1 _,
        .store (g.hold c (write v)) c rfl⟩
      rw [hold_system,← afterCache_enter (g := g) (c := c) (p := .modified (write v))
        (t := ⟨(Phase.modified (write v) : Phase C D (Block n B)).cache,[],[],[.store c (write v)],true,false,false⟩)
        rfl (by simp [hp,Phase.request]) rfl (by simp [hp,Phase.ack]) (by simp [hp,Phase.data])]
      rfl
  | _ =>
    have hidle : ∀ stale,g.phase c ≠ .idle stale := by simp [hp]
    have hmodified : ∀ v,g.phase c ≠ .modified v := by simp [hp]
    rw [← hp]
    exact ⟨_,stall_turn hidle hmodified _ (he.imp_right fun he => he.imp_right .inl),stall_yields h⟩

theorem mandatory_yields (h : g.Inv exact) {type : RubyRequestType} {cacheAvail : Bool}
    (hserved : ¬(type = .other ∧ ((g.system.cache c).entry.isSome ∨ cacheAvail=true)))
    (write : Block n B → Block n B) : g.Yields exact (g.system.step (.mandatory c type cacheAvail write)) := by
  have hcache : g.system.cache c=(g.phase c).cache := rfl
  by_cases hroom : ((g.phase c).cache.entry.isNone && !cacheAvail)=true
  · have hstep : g.system.step (.mandatory c type cacheAvail write) = .ok (g.system,[]) := by
      simp [System.step,L1Cache.mandatoryQueueIn,hcache,hroom,bind,Except.bind,pure,Except.pure]
    exact ⟨g,[],hstep,h,.silent g rfl rfl⟩
  · have havail : (g.phase c).cache.entry.isSome ∨ cacheAvail=true := by
      cases hentry : (g.phase c).cache.entry <;> simp_all
    have ht : type ≠ .other := fun ht => hserved ⟨ht,havail⟩
    obtain ⟨event,htype,he⟩ : ∃ event,L1Cache.mandatoryRequestTypeToEvent type = .ok event ∧
        (event = .Load ∨ event = .Ifetch ∨ event = .Store) := by
      cases type <;> simp_all [L1Cache.mandatoryRequestTypeToEvent]
    obtain ⟨t,hrun,hyields⟩:=processor_yields h he havail write
    have hstep : g.system.step (.mandatory c type cacheAvail write) =
        .ok (g.system.afterCache c t,t.callbacks.map System.cacheReport) := by
      simp [System.step,L1Cache.mandatoryQueueIn,hcache,hroom,htype,hrun,bind,Except.bind,pure,Except.pure,Except.map]
    rw [hstep]
    exact hyields

theorem replacement_yields (h : g.Inv exact) (hentry : (g.system.cache c).entry.isSome) :
    g.Yields exact (g.system.step (.replacement c)) := by
  have hfits:=h.fits c
  have hcache : g.system.cache c=(g.phase c).cache := rfl
  rw [hcache] at hentry
  obtain ⟨t,hrun,hyields⟩ : ∃ t,L1Cache.doTransition c ⟨none,none,false,id⟩ .Replacement (g.phase c).cache = .ok t ∧
      g.Yields exact (.ok (g.system.afterCache c t,t.callbacks.map System.cacheReport)) := by
    cases hp : g.phase c with
    | idle stale =>
      rw [hp] at hfits hentry
      cases stale with
      | none => cases hentry
      | some v =>
        refine ⟨_,rfl,enter_yields (p := .idle none) h hfits rfl ?_ rfl ?_ ?_ rfl⟩
        · simp [hp,Phase.request]
          rfl
        · simp [hp,Phase.ack]
        · simp [hp,Phase.data]
    | modified v =>
      rw [hp] at hfits
      refine ⟨_,put_turn v _ (.inl rfl),enter_yields (p := .put v) h hfits rfl ?_ rfl ?_ ?_ rfl⟩
      · simp [hp,Phase.request]
      · simp [hp,Phase.ack]
      · simp [hp,Phase.data]
    | _ =>
      have hidle : ∀ stale,g.phase c ≠ .idle stale := by simp [hp]
      have hmodified : ∀ v,g.phase c ≠ .modified v := by simp [hp]
      rw [← hp]
      exact ⟨_,stall_turn hidle hmodified _ (.inr (.inr (.inr rfl))),stall_yields h⟩
  have hstep : g.system.step (.replacement c) = .ok (g.system.afterCache c t,t.callbacks.map System.cacheReport) := by
    simp [System.step,hcache,hrun,bind,Except.bind,pure,Except.pure]
  rw [hstep]
  exact hyields

theorem response_yields (h : g.Inv exact) {source : MachineID C D} (hdata : g.system.responseToCache source c≠[])
    (write : Block n B → Block n B) : g.Yields exact (g.system.step (.response source c write)) := by
  have hfits:=h.fits c
  have hchannel : g.system.responseToCache source c=(g.phase c).data source := rfl
  rw [hchannel] at hdata
  cases hp : g.phase c with
  | granted store stale v s =>
    rw [hp] at hfits hdata
    obtain rfl : source=s := by
      by_contra hne
      simp [Phase.data,hne] at hdata
    obtain ⟨hhead,hfetches,rfl⟩:=hfits
    have hlist : g.system.responseToCache source c=[⟨.DATA,source,g.block⟩] := by simp [hchannel,hp,Phase.data]
    have hcache : g.system.cache c=(Phase.granted store stale g.block source).cache := by simp [system,hp]
    have hdrop : ∀ q : Block n B,{g.system with
        cache := update g.system.cache c (Phase.modified q : Phase C D (Block n B)).cache
        responseToCache := update g.system.responseToCache source
          (update (g.system.responseToCache source) c [])}=(g.enter c (.modified q)).system := by
      intro q
      rw [enter_system]
      apply System.ext
      case responseToCache =>
        funext s x
        by_cases hs : s=source
        · subst hs
          simp [Phase.data]
        · by_cases hx : x=c
          · subst hx
            simp [hs,system,hp,Phase.data]
          · simp [hs,hx]
      case requestToDir => simp [system,hp,Phase.request]
      case forwardFromDir => simp [system,hp,Phase.ack]
      all_goals rfl
    have hstep : g.system.step (.response source c write) = .ok ((g.enter c (.modified
        (if store then write g.block else g.block))).system,
        [if store then .store c (write g.block) else .load c g.block]) := by
      rw [← hdrop]
      simp only [System.step,hlist,hcache,List.head?_cons,orFault,L1Cache.responseNetworkIn,if_true,data_turn,bind,
        Except.bind,pure,Except.pure,List.tail_cons]
      cases store <;> simp [System.afterCache,System.sentTo,System.cacheReport]
    rw [hstep]
    cases store with
    | false =>
      exact ⟨g.enter c (.modified g.block),_,rfl,h.enter ⟨hhead,hfetches,rfl⟩,.load _ c rfl rfl⟩
    | true => exact ⟨g.hold c (write g.block),_,rfl,h.hold hhead hfetches _,.store (g.hold c (write g.block)) c rfl⟩
  | _ =>
    rw [hp] at hdata
    exact (hdata rfl).elim

end Protocol

end AquaGem5.Ruby.MIExample
