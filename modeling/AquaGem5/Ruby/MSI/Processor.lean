import AquaGem5.Ruby.MSI.Protocol

/-!
# Processor requests and replacements

A request of the processor and a replacement change nothing but the phase of their cache, and never its role.
-/

namespace AquaGem5.Ruby.MSI
open Checked Succession

variable {C V : Type}

inductive Records : V → List (Callback C V) → V → Prop where
  | silent (v : V) : Records v [] v
  | load (c : C) (v : V) : Records v [.load c v] v
  | store (c : C) (v w : V) : Records v [.store c w] w

def Role.Blind : Role → Prop
  | absent => True
  | reader => True
  | waiting current => current=false
  | dropped => True
  | sharer => False
  | fetching => False
  | owner => False
  | retired => False

namespace Phase

theorem cache_of_blind [Inhabited V] {p : Phase C V} (h : p.role.Blind) (v w : V) : p.cache v=p.cache w := by
  cases p with
  | storeAsked copy | storeQueued copy => cases copy <;> simp_all [cache,storing,role,Role.Blind]
  | _ => simp_all [cache,role,Role.Blind]

theorem request_of_blind [Inhabited V] {p : Phase C V} (h : p.role.Blind) (c : C) (v w : V) :
    p.request c v=p.request c w := by
  cases p <;> simp_all [request,role,Role.Blind]

theorem data_of_blind {p : Phase C V} (h : p.role.Blind) (v w : V) : p.data v=p.data w := by
  cases p <;> simp_all [data,role,Role.Blind]

end Phase

@[simp] theorem Phase.request_modified [Inhabited V] (c : C) (v : V) :
    (modified : Phase C V).request c v=0 := rfl

@[simp] theorem Phase.data_modified (v : V) : (modified : Phase C V).data v=0 := rfl

@[simp] theorem Phase.acked_modified : (modified : Phase C V).acked=false := rfl

theorem Phase.acked_of_owner {p : Phase C V} (h : p.role = .owner) : p.acked=false := by
  cases p <;> simp_all [Phase.acked,Phase.role]

namespace Protocol

variable [DecidableEq C]

def enter (g : Protocol C V) (c : C) (p : Phase C V) : Protocol C V :=
  {g with phase := Function.update g.phase c p}

theorem enter_self (g : Protocol C V) (c : C) : g.enter c (g.phase c)=g := by
  unfold enter
  rw [Function.update_eq_self]

@[simp] theorem enter_phase_self (g : Protocol C V) (c : C) (p : Phase C V) : (g.enter c p).phase c=p := by
  simp [enter]

@[simp] theorem enter_phase_of_ne (g : Protocol C V) {c x : C} (p : Phase C V) (h : x≠c) :
    (g.enter c p).phase x=g.phase x := by
  simp [enter,h]

def Yields [Inhabited V] (g : Protocol C V)
    (result : Except Fault (System C V × List (Callback C V))) : Prop :=
  ∃ (g' : Protocol C V) (callbacks : List (Callback C V)),
    result = .ok (g'.system,callbacks) ∧ g'.Inv ∧ Records g.block callbacks g'.block

variable {g : Protocol C V}

theorem Inv.enter_fits (h : g.Inv) {c : C} {p : Phase C V} (hfits : p.role.Fits (g.place c))
    (hawaits : g.writers.head?=some c → p.Awaits g.sharers.card g.pending) : (g.enter c p).Inv where
  nodup := h.nodup
  places x := by
    rcases eq_or_ne x c with rfl | hx
    · rw [enter_phase_self]
      exact hfits
    · rw [enter_phase_of_ne g p hx]
      exact h.places x
  first x hx := by
    rcases eq_or_ne x c with rfl | hne
    · rw [enter_phase_self]
      exact hawaits hx
    · rw [enter_phase_of_ne g p hne]
      exact h.first x hx
  nobody := h.nobody
  acks := h.acks
  mode := h.mode

theorem Inv.enter (h : g.Inv) {c : C} {p : Phase C V} (hrole : p.role=(g.phase c).role)
    (hawaits : (g.phase c).Awaits g.sharers.card g.pending → p.Awaits g.sharers.card g.pending) : (g.enter c p).Inv :=
  h.enter_fits (hrole ▸ h.places c) fun hx => hawaits (h.first c hx)

theorem Inv.alone (h : g.Inv) {c x : C} (hc : g.writers.head?=some c)
    (hi : g.invalidated = ∅) (hf : g.mode.fetches=none) (hx : x≠c) : (g.phase x).role.Blind := by
  have hplace:=h.places x
  have hmode:=h.mode
  have hhead : g.writers.head?≠some x := by
    rw [hc]
    exact fun e => hx (Option.some.inj e).symm
  cases hr : (g.phase x).role with
  | absent | reader | dropped => trivial
  | waiting current =>
    rw [hr] at hplace
    have : current≠true := fun e => by simpa [place,hi] using hplace.2.2.1.mpr e
    simpa [Role.Blind] using this
  | sharer =>
    rw [hr] at hplace
    obtain ⟨hqueued,hsharer,hreading⟩:=hplace
    have hmem : x∈g.sharers := (hsharer.mpr (by simp [place,hi])).1
    cases hm : g.mode with
    | owned =>
      rw [hm] at hmode
      simp [hmode.2] at hmem
    | downgrading r =>
      rw [hm] at hmode
      rcases hmode.2 x hmem with rfl | hlast
      · exact absurd (by simp [place,hm,Mode.reader]) hreading
      · exact absurd (List.mem_of_getLast? hlast) hqueued
    | _ => simp_all [ModeFits,Mode.fetches]
  | fetching | owner | retired =>
    rw [hr] at hplace
    exact absurd hplace.1 hhead

end Protocol

variable [DecidableEq C] [DecidableEq V] [Inhabited V]

structure Phase.Local (block : V) (c : C) (p : Phase C V) (t : L1Cache.Turn C V) (q : Phase C V) :
    Prop where
  cache : t.cache=q.cache block
  requests : p.request c block+t.requests=q.request c block
  responses : t.responses=[]
  data : q.data block=p.data block
  acked : q.acked=p.acked
  role : q.role=p.role
  awaits : ∀ s n, p.Awaits s n → q.Awaits s n
  callbacks : Records block t.callbacks block

namespace Protocol

omit [DecidableEq V]

theorem afterCache_local {g : Protocol C V} {c : C} {t : L1Cache.Turn C V} {q : Phase C V}
    (h : (g.phase c).Local g.block c t q) : g.system.afterCache c t=(g.enter c q).system := by
  apply System.ext
  · funext x
    rcases eq_or_ne x c with rfl | hx
    · simp [System.afterCache,system,h.cache,enter]
    · simp [System.afterCache,system,hx,enter]
  · rfl
  · funext x
    rcases eq_or_ne x c with rfl | hx
    · simp [System.afterCache,system,h.requests,enter]
    · simp [System.afterCache,system,hx,enter]
  · funext x
    rcases eq_or_ne x c with rfl | hx
    · simp [System.afterCache,system,forwards,h.acked,enter]
    · simp [System.afterCache,system,forwards,hx,enter]
  · funext x
    have hsent : System.sentTo (.L1Cache x) t.responses=0 := by simp [h.responses,System.sentTo]
    have hdata : ((g.enter c q).phase x).data g.block=(g.phase x).data g.block := by
      rcases eq_or_ne x c with rfl | hx
      · rw [enter_phase_self,h.data]
      · rw [enter_phase_of_ne g q hx]
    show _+_+System.sentTo (.L1Cache x) t.responses=Phase.data g.block _+_
    rw [hsent,add_zero,hdata]
    rfl
  · simp [System.afterCache,system,h.responses,System.sentTo,enter]
  · rfl
  · rfl
  · rfl

theorem yields_local {g : Protocol C V} {c : C} {t : L1Cache.Turn C V} {q : Phase C V}
    (hg : g.Inv) (h : (g.phase c).Local g.block c t q) : g.Yields (.ok (g.system.afterCache c t,t.callbacks)) :=
  ⟨g.enter c q,t.callbacks,by rw [afterCache_local h],hg.enter h.role (h.awaits _ _),h.callbacks⟩

end Protocol

namespace Phase

omit [DecidableEq C] [DecidableEq V]

theorem local_stall (p : Phase C V) (block : V) (c : C) : p.Local block c (L1Cache.Turn.start (p.cache block)) p :=
  ⟨rfl,add_zero _,rfl,rfl,rfl,rfl,fun _ _ => id,.silent _⟩

theorem local_hit (p : Phase C V) (block : V) (c : C) :
    p.Local block c
      {L1Cache.Turn.start (p.cache block) with callbacks := [.load c block], popMandatory := true}
      p :=
  ⟨rfl,add_zero _,rfl,rfl,rfl,rfl,fun _ _ => id,.load _ _⟩

theorem load_turn (p : Phase C V) (block : V) (c : C) (peek : L1Cache.Peek C V)
    (havail : (p.cache block).entry=none → peek.cacheAvail=true) :
    ∃ t q, L1Cache.doTransition c peek .Load (p.cache block) = .ok t ∧ p.Local block c t q := by
  cases p with
  | idle =>
    obtain ⟨response,forward,avail,write⟩:=peek
    obtain rfl : avail=true := havail rfl
    exact ⟨_,loadAsked,rfl,rfl,rfl,rfl,rfl,rfl,rfl,fun _ _ => id,.silent _⟩
  | storeAsked copy =>
    cases copy with
    | current => exact ⟨_,_,rfl,local_hit (storeAsked .current) block c⟩
    | stale v => exact ⟨_,_,rfl,local_stall (storeAsked (.stale v)) block c⟩
  | storeQueued copy =>
    cases copy with
    | current => exact ⟨_,_,rfl,local_hit (storeQueued .current) block c⟩
    | stale v => exact ⟨_,_,rfl,local_stall (storeQueued (.stale v)) block c⟩
  | storeFetching copy early =>
    cases copy with
    | current => exact ⟨_,_,rfl,local_hit (storeFetching .current early) block c⟩
    | stale v => exact ⟨_,_,rfl,local_stall (storeFetching (.stale v) early) block c⟩
  | storeGranted copy acks early =>
    cases copy with
    | current => exact ⟨_,_,rfl,local_hit (storeGranted .current acks early) block c⟩
    | stale v => exact ⟨_,_,rfl,local_stall (storeGranted (.stale v) acks early) block c⟩
  | storeCollecting copied left =>
    cases copied with
    | true => exact ⟨_,_,rfl,local_hit (storeCollecting true left) block c⟩
    | false => exact ⟨_,_,rfl,local_stall (storeCollecting false left) block c⟩
  | shared => exact ⟨_,_,rfl,local_hit shared block c⟩
  | modified => exact ⟨_,_,rfl,local_hit modified block c⟩
  | _ => exact ⟨_,_,rfl,local_stall _ block c⟩

theorem store_turn {p : Phase C V} (hp : p≠modified) (block : V) (c : C) (peek : L1Cache.Peek C V)
    (havail : (p.cache block).entry=none → peek.cacheAvail=true) :
    ∃ t q, L1Cache.doTransition c peek .Store (p.cache block) = .ok t ∧ p.Local block c t q := by
  cases p with
  | idle =>
    obtain ⟨response,forward,avail,write⟩:=peek
    obtain rfl : avail=true := havail rfl
    exact ⟨_,storeAsked (.stale default),rfl,rfl,rfl,rfl,rfl,rfl,rfl,fun _ _ => id,.silent _⟩
  | storeAsked copy | storeQueued copy | storeFetching copy early | storeGranted copy acks early =>
    cases copy <;> exact ⟨_,_,rfl,local_stall _ block c⟩
  | storeCollecting copied left => cases copied <;> exact ⟨_,_,rfl,local_stall _ block c⟩
  | shared => exact ⟨_,storeAsked .current,rfl,rfl,rfl,rfl,rfl,rfl,rfl,fun _ _ => id,.silent _⟩
  | modified => exact absurd rfl hp
  | _ => exact ⟨_,_,rfl,local_stall _ block c⟩

theorem replacement_turn {p : Phase C V} (block : V) (c : C) (peek : L1Cache.Peek C V)
    (hentry : (p.cache block).entry.isSome) :
    ∃ t q, L1Cache.doTransition c peek .Replacement (p.cache block) = .ok t ∧ p.Local block c t q := by
  cases p with
  | idle => cases hentry
  | storeAsked copy | storeQueued copy | storeFetching copy early | storeGranted copy acks early =>
    cases copy <;> exact ⟨_,_,rfl,local_stall _ block c⟩
  | storeCollecting copied left => cases copied <;> exact ⟨_,_,rfl,local_stall _ block c⟩
  | shared =>
    exact ⟨_,sharerPut block none,rfl,rfl,rfl,rfl,rfl,rfl,rfl,fun _ _ => id,.silent _⟩
  | modified => exact ⟨_,ownerPut,rfl,rfl,rfl,rfl,rfl,rfl,rfl,fun _ _ => id,.silent _⟩
  | _ => exact ⟨_,_,rfl,local_stall _ block c⟩

end Phase

namespace Protocol

def hold (g : Protocol C V) (c : C) (v : V) : Protocol C V :=
  {g.enter c .modified with acks := 0, block := v}

variable {g : Protocol C V}

section

omit [DecidableEq V] [Inhabited V]

theorem Inv.mode_of_owner (h : g.Inv) {c : C} (hr : (g.phase c).role = .owner ∨ (g.phase c).role = .retired) :
    g.writers.head?=some c ∧ (g.mode = .owned ∨ ∃ r, g.mode = .downgrading r) := by
  have hplace:=h.places c
  have hmode:=h.mode
  have hhead : g.writers.head?=some c ∧ g.mode.fetches≠some c := by
    rcases hr with hr | hr <;> rw [hr] at hplace <;> exact ⟨hplace.1,hplace.2.1⟩
  refine ⟨hhead.1,?_⟩
  cases hm : g.mode with
  | owned => exact .inl rfl
  | downgrading r => exact .inr ⟨r,rfl⟩
  | _ => simp_all [ModeFits,Mode.fetches]

theorem Inv.hold (h : g.Inv) {c : C} (hr : (g.phase c).role = .owner)
    (hi : g.invalidated = ∅) (v : V) : (g.hold c v).Inv where
  nodup := h.nodup
  places x := by
    have hplace:=h.places x
    rcases eq_or_ne x c with rfl | hx
    · rw [hr] at hplace
      rw [show (g.hold x v).phase x = .modified from enter_phase_self g x _]
      exact hplace
    · rw [show (g.hold c v).phase x=g.phase x from enter_phase_of_ne g _ hx]
      exact hplace
  first x hx := by
    obtain rfl : c=x := Option.some.inj ((h.mode_of_owner (.inl hr)).1.symm.trans hx)
    simp [Protocol.hold,Protocol.enter,Phase.Awaits,pending,hi]
  nobody hw := ⟨(h.nobody hw).1,rfl⟩
  acks m hm := by simp [Protocol.hold] at hm
  mode := by
    have hmode:=h.mode
    rcases (h.mode_of_owner (.inl hr)).2 with hm | ⟨r,hm⟩ <;> rw [hm] at hmode
    · simpa [Protocol.hold,Protocol.enter,hm,ModeFits] using hmode
    · simpa [Protocol.hold,Protocol.enter,hm,ModeFits] using hmode

end

section

omit [DecidableEq V]

theorem hold_system (h : g.Inv) {c : C} (hr : (g.phase c).role = .owner)
    (hi : g.invalidated = ∅) (hreq : (g.phase c).request c g.block=0) (v : V) : (g.hold c v).system =
      {g.system with
        cache := Function.update g.system.cache c ⟨some ⟨.M,v⟩,none⟩
        responseToCache := Function.update g.system.responseToCache c 0} := by
  obtain ⟨hhead,hmode⟩:=h.mode_of_owner (.inl hr)
  have hfetch : g.mode.fetches=none := by
    rcases hmode with hm | ⟨r,hm⟩ <;> simp [hm,Mode.fetches]
  have hblind : ∀ x, x≠c → (g.phase x).role.Blind := fun x => h.alone hhead hi hfetch
  apply System.ext
  · funext x
    rcases eq_or_ne x c with rfl | hx
    · simp [Protocol.hold,system,enter,Phase.cache]
    · simp [Protocol.hold,system,enter,hx,Phase.cache_of_blind (hblind x hx) v g.block]
  · rfl
  · funext x
    rcases eq_or_ne x c with rfl | hx
    · simp [Protocol.hold,system,enter,hreq]
    · simp [Protocol.hold,system,enter,hx,Phase.request_of_blind (hblind x hx) x v g.block]
  · funext x
    rcases eq_or_ne x c with rfl | hx
    · simp [Protocol.hold,system,forwards,enter,Phase.acked_of_owner hr]
    · simp [Protocol.hold,system,forwards,enter,hx]
  · funext x
    rcases eq_or_ne x c with rfl | hx
    · have hphase : (g.hold x v).phase x = .modified := enter_phase_self g x _
      have hresponse : (g.hold x v).system.responseToCache x=0 := by
        show Phase.data v ((g.hold x v).phase x) +
          (if g.writers.head?=some x then (0 : Multiset (ResponseMsg C V)) else 0)=0
        rw [hphase,ite_self]
        rfl
      simp [hresponse]
    · have hne : c≠x := hx.symm
      simp [Protocol.hold,system,enter,hx,hne,hhead,Phase.data_of_blind (hblind x hx) v g.block]
  · rcases hmode with hm | ⟨r,hm⟩ <;> simp [Protocol.hold,system,enter,hm,Mode.responseToDir]
  · rcases hmode with hm | ⟨r,hm⟩ <;> simp [Protocol.hold,system,enter,hm,Mode.requestToMemory]
  · rcases hmode with hm | ⟨r,hm⟩ <;> simp [Protocol.hold,system,enter,hm,Mode.responseFromMemory]
  · rfl

theorem store_modified (h : g.Inv) {c : C} (hp : g.phase c = .modified) (peek : L1Cache.Peek C V) :
    ∃ t, L1Cache.doTransition c peek .Store ((g.phase c).cache g.block) = .ok t ∧
      g.Yields (.ok (g.system.afterCache c t,t.callbacks)) := by
  have hr : (g.phase c).role = .owner := by rw [hp]; rfl
  have hpending : g.pending=0 := by
    have := h.first c (h.mode_of_owner (.inl hr)).1
    simpa [hp,Phase.Awaits] using this
  have hi : g.invalidated = ∅ := by
    have : g.invalidated.card=0 := by unfold pending at hpending; omega
    exact Finset.card_eq_zero.mp this
  have hacks : g.acks=0 := by
    have : Multiset.card g.acks=0 := by unfold pending at hpending; omega
    exact Multiset.card_eq_zero.mp this
  have hstore : L1Cache.doTransition c peek .Store ((g.phase c).cache g.block) =
      .ok ⟨⟨some ⟨.M,peek.write g.block⟩,none⟩,[],[],[.store c (peek.write g.block)],true,false,
        false⟩ := by
    rw [hp]
    rfl
  refine ⟨_,hstore,g.hold c (peek.write g.block),_,?_,h.hold hr hi _,.store c _ _⟩
  rw [hold_system h hr hi (by rw [hp]; rfl)]
  congr 2
  apply System.ext
  · rfl
  · rfl
  · simp [System.afterCache]
  · rfl
  · funext x
    rcases eq_or_ne x c with rfl | hx
    · simp [System.afterCache,System.sentTo,system,hp,Phase.data,hacks]
    · simp [System.afterCache,System.sentTo,hx]
  · simp [System.afterCache,System.sentTo]
  · rfl
  · rfl
  · rfl

end

theorem mandatory_step (h : g.Inv) (c : C) {type : RubyRequestType}
    (ht : type ≠ .other) (avail : Bool) (write : V → V) :
    g.Yields (g.system.step (.mandatory c type avail write)) := by
  have hevent (event : L1Cache.Event) (he : event = .Load ∨ event = .Store)
      (havail : ((g.phase c).cache g.block).entry=none → avail=true) :
      ∃ t, L1Cache.doTransition c ⟨none,none,avail,write⟩ event ((g.phase c).cache g.block) = .ok t ∧
        g.Yields (.ok (g.system.afterCache c t,t.callbacks)) := by
    rcases he with rfl | rfl
    · obtain ⟨t,q,ht,hlocal⟩:=Phase.load_turn (g.phase c) g.block c ⟨none,none,avail,write⟩ havail
      exact ⟨t,ht,yields_local h hlocal⟩
    · by_cases hp : g.phase c = .modified
      · exact store_modified h hp _
      · obtain ⟨t,q,ht,hlocal⟩:=Phase.store_turn hp g.block c ⟨none,none,avail,write⟩ havail
        exact ⟨t,ht,yields_local h hlocal⟩
  have hcache : g.system.cache c=(g.phase c).cache g.block := rfl
  simp only [System.step,hcache,L1Cache.mandatoryIn]
  by_cases hfull : ((g.phase c).cache g.block).entry.isNone && !avail
  · rw [if_pos hfull]
    exact ⟨g,[],rfl,h,.silent _⟩
  · rw [if_neg hfull]
    have havail : ((g.phase c).cache g.block).entry=none → avail=true := by
      intro hnone
      simpa [hnone] using hfull
    cases type with
    | LD | IFETCH =>
      obtain ⟨t,hturn,hyields⟩:=hevent .Load (.inl rfl) havail
      simp only [bind,Except.bind,hturn]
      exact hyields
    | ST =>
      obtain ⟨t,hturn,hyields⟩:=hevent .Store (.inr rfl) havail
      simp only [bind,Except.bind,hturn]
      exact hyields
    | other => exact absurd rfl ht

theorem replacement_step (h : g.Inv) (c : C)
    (hentry : (g.system.cache c).entry.isSome) : g.Yields (g.system.step (.replacement c)) := by
  obtain ⟨t,q,ht,hlocal⟩:=Phase.replacement_turn g.block c ⟨none,none,false,id⟩ hentry
  have hyields:=yields_local h hlocal
  have hcache : g.system.cache c=(g.phase c).cache g.block := rfl
  simp only [System.step,hcache,ht]
  exact hyields

end Protocol

end AquaGem5.Ruby.MSI
