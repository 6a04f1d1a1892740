import AquaGem5.Ruby.MIExample.Processor

/-!
# Forwarded messages arriving at a cache

A forwarded request takes the block from the first in the queue to the next one.
-/

namespace AquaGem5.Ruby.MIExample
open Checked Succession Function List

variable {C D : Type} {n : ℕ} {B : Type} {exact : Prop} {c x : C}

namespace Phase

def holds {V : Type} : Phase C D V → Option V
  | modified v => some v
  | put v => some v
  | putNacked v => some v
  | _ => none

def passed {V : Type} : Phase C D V → Phase C D V
  | modified v => idle (some v)
  | put v => gone v
  | putNacked v => goneNacked v
  | p => p

def waits {V : Type} : Phase C D V → Bool
  | queued _ _ => true
  | granted _ _ _ _ => true
  | _ => false

variable [Inhabited B]

theorem pass_turn {p : Phase C D (Block n B)} {v : Block n B} (hp : p.holds=some v)
    (m : RequestMsg (MachineID C D) (Block n B)) : L1Cache.doTransition c ⟨none,some m,false,id⟩ .Fwd_GETX p.cache =
      .ok ⟨p.passed.cache,[],[(m.requestor,⟨.DATA,.L1Cache c,v⟩)],[],false,true,false⟩ := by
  cases p <;> simp only [holds,Option.some.injEq,reduceCtorEq] at hp <;> subst hp <;> rfl

theorem wait_turn {p : Phase C D (Block n B)} (hp : p.waits=true) (m : RequestMsg (MachineID C D) (Block n B))
    {event : L1Cache.Event} (he : event = .Fwd_GETX ∨ event = .Inv) :
    L1Cache.doTransition c ⟨none,some m,false,id⟩ event p.cache = .ok ⟨p.cache,[],[],[],false,false,false⟩ := by
  cases p with
  | queued store stale | granted store stale v source => cases store <;> obtain rfl | rfl := he <;> rfl
  | _ => cases hp

end Phase

namespace Protocol

variable {g : Protocol C D n B}

theorem Inv.holds_of_queued [Inhabited B] (h : g.Inv exact) (hc : c∈g.writers) (hwaits : (g.phase c).waits=false) :
    (g.phase c).holds=some g.block ∧ g.writers.head?=some c ∧ g.mode.fetches=none := by
  have hfits:=h.fits c
  cases hp : g.phase c with
  | modified v | put v =>
    rw [hp] at hfits
    exact ⟨by rw [hfits.2.2]; rfl,hfits.1,hfits.2.1⟩
  | putNacked v =>
    rw [hp] at hfits
    exact ⟨by rw [hfits.2.2.1]; rfl,hfits.1,hfits.2.1⟩
  | queued store stale | granted store stale v source => simp [hp,Phase.waits] at hwaits
  | _ =>
    rw [hp] at hfits
    exact (hfits.1 hc).elim

theorem Inv.queued_of_not_head [Inhabited B] (h : g.Inv exact) (hx : x∈g.writers) (hne : g.writers.head?≠some x) :
    ∃ store stale,g.phase x = .queued store stale := by
  have hfits:=h.fits x
  cases hp : g.phase x with
  | queued store stale => exact ⟨store,stale,rfl⟩
  | _ =>
    rw [hp] at hfits
    first
    | exact (hfits.1 hx).elim
    | exact (hne hfits.1).elim

variable [DecidableEq C] [DecidableEq D] [Inhabited B]

variable {m : RequestMsg (MachineID C D) (Block n B)} {event : L1Cache.Event}

theorem forward_result {rest : List (RequestMsg (MachineID C D) (Block n B))}
    {t : L1Cache.Turn C D (Block n B)} (hlist : g.notices c++(g.phase c).ack c=m::rest)
    (he : L1Cache.forwardRequestNetworkIn m = .ok event)
    (ht : L1Cache.doTransition c ⟨none,some m,false,id⟩ event (g.phase c).cache = .ok t) :
    g.system.step (.forward c) = .ok ({g.system.afterCache c t with
      forwardFromDir := update g.system.forwardFromDir c (if t.popForward then rest else m::rest)},
      t.callbacks.map System.cacheReport) := by
  have hchannel : g.system.forwardFromDir c=m::rest := hlist
  have hcache : g.system.cache c=(g.phase c).cache := rfl
  simp only [System.step,hchannel,hcache,head?_cons,orFault,he,ht,tail_cons,bind,Except.bind,pure,Except.pure]

theorem wait_yields (h : g.Inv exact) {rest : List (RequestMsg (MachineID C D) (Block n B))}
    (hlist : g.notices c++(g.phase c).ack c=m::rest) (hin : L1Cache.forwardRequestNetworkIn m = .ok event)
    (he : event = .Fwd_GETX ∨ event = .Inv) (hp : (g.phase c).waits=true) :
    g.Yields exact (g.system.step (.forward c)) := by
  rw [forward_result hlist hin (Phase.wait_turn hp m he)]
  refine ⟨g,[],?_,h,.silent g rfl rfl⟩
  have hself : update g.system.forwardFromDir c (m::rest)=g.system.forwardFromDir :=
    update_eq_self_iff.mpr hlist.symm
  rw [afterCache_enter rfl (append_nil _).symm rfl rfl (fun _ => rfl),enter_self]
  simp [hself]

theorem ack_yields (h : g.Inv exact)
    (hnotices : g.notices c=[]) (hack : (g.phase c).ack c=[m]) (hin : L1Cache.forwardRequestNetworkIn m = .ok event)
    (ht : L1Cache.doTransition c ⟨none,some m,false,id⟩ event (g.phase c).cache =
      .ok ⟨(Phase.idle none : Phase C D (Block n B)).cache,[],[],[],false,true,false⟩)
    (hrequest : (g.phase c).request c=[]) (hdata : ∀ source,(g.phase c).data source=[])
    (hp : g.Fits c (.idle none)) : g.Yields exact (g.system.step (.forward c)) := by
  rw [forward_result (m := m) (by rw [hnotices,hack]; rfl) hin ht]
  refine ⟨g.enter c (.idle none),[],?_,h.enter hp,.silent _ rfl rfl⟩
  rw [enter_system]
  congr 2
  apply System.ext
  case requestToDir => simp [System.afterCache,system,hrequest]
  case forwardFromDir => simp [hnotices]
  case responseToCache =>
    funext source y
    by_cases hs : source = .L1Cache c
    · subst hs
      by_cases hy : y=c
      · subst hy
        simp [System.afterCache,System.sentTo,system,hdata]
      · simp [System.afterCache,System.sentTo,hy]
    · by_cases hy : y=c
      · subst hy
        simp [System.afterCache,hs,system,hdata]
      · simp [System.afterCache,hs,hy]
  all_goals rfl

def clear (g : Protocol C D n B) (c : C) : Protocol C D n B := {g with invalidated := g.invalidated.erase c}

omit [DecidableEq D] in
theorem Inv.clear (h : g.Inv exact) : (g.clear c).Inv exact where
  nodup := h.nodup
  fits y := by
    have hfits:=h.fits y
    simp only [Protocol.clear]
    cases hp : g.phase y <;> simp_all [Fits]
  invalidated y hy := h.invalidated y (Finset.mem_of_mem_erase hy)
  mode := by
    have hmode:=h.mode
    simp only [Protocol.clear]
    cases hm : g.mode <;> simp_all [ModeFits]
  serves := h.serves
  aligned := h.aligned

theorem clear_system (hc : c∈g.invalidated) (hnext : successor g.writers c=none) : (g.clear c).system =
    {g.system with forwardFromDir := update g.system.forwardFromDir c ((g.phase c).ack c)} := by
  apply System.ext
  case forwardFromDir =>
    funext y
    by_cases hy : y=c
    · subst hy
      simp [system,notices,Protocol.clear,hnext]
    · simp [system,notices,Protocol.clear,hy]
  all_goals rfl

theorem drop_yields (h : g.Inv exact) (hc : c∈g.invalidated) (hnext : successor g.writers c=none)
    (ht : ∀ m : RequestMsg (MachineID C D) (Block n B),L1Cache.doTransition c ⟨none,some m,false,id⟩ .Inv
      (g.phase c).cache = .ok ⟨(g.phase c).cache,[],[],[],false,true,false⟩) :
    g.Yields exact (g.system.step (.forward c)) := by
  have hlist : g.notices c++(g.phase c).ack c=⟨.INV,.Directory,default⟩::(g.phase c).ack c := by
    simp [notices,hnext,hc]
  rw [forward_result hlist rfl (ht _)]
  refine ⟨g.clear c,[],?_,h.clear,.silent _ rfl rfl⟩
  rw [afterCache_enter rfl (append_nil _).symm rfl rfl (fun _ => rfl),enter_self,clear_system hc hnext]
  rfl

theorem invalidate_yields (h : g.Inv exact) {v : Block n B} (hp : g.phase c = .modified v) (hc : c∈g.invalidated)
    (hnext : successor g.writers c=none) : g.Yields exact (g.system.step (.forward c)) := by
  have hfits:=h.fits c
  rw [hp] at hfits
  have hlist : g.notices c++(g.phase c).ack c=[⟨.INV,.Directory,default⟩] := by
    simp [notices,hnext,hc,hp,Phase.ack]
  rw [forward_result hlist rfl (hp ▸ put_turn v _ (.inr rfl))]
  refine ⟨g.enter c (.put v),[],?_,h.enter hfits,.silent _ rfl rfl⟩
  have hself : update g.system.forwardFromDir c [⟨.INV,.Directory,default⟩]=g.system.forwardFromDir :=
    update_eq_self_iff.mpr hlist.symm
  rw [afterCache_enter (p := .put v) rfl (by simp [hp,Phase.request]) rfl (by simp [hp,Phase.ack])
    (by simp [hp,Phase.data]),enter_system]
  have hnotices : g.notices c++(Phase.put v : Phase C D (Block n B)).ack c=[⟨.INV,.Directory,default⟩] := by
    simp [notices,hnext,hc,Phase.ack]
  rw [hnotices,hself]
  simp
  exact hlist.symm

def pass (g : Protocol C D n B) (c x : C) (store : Bool) (stale v : Block n B) : Protocol C D n B :=
  {g with
    phase := Function.update (Function.update g.phase c (g.phase c).passed) x (.granted store stale v (.L1Cache c))
    writers := g.writers.tail}

omit [DecidableEq D] in
theorem Inv.pass (h : g.Inv exact) {l : List C} (hw : g.writers=c::x::l) (hf : g.mode.fetches=none)
    (hwaits : (g.phase c).waits=false) (store : Bool) (stale : Block n B) :
    (g.pass c x store stale g.block).Inv exact := by
  have hnodup:=h.nodup
  rw [hw] at hnodup
  obtain ⟨hcnot,hnodup'⟩:=nodup_cons.mp hnodup
  have hcx : c≠x := fun heq => hcnot (heq ▸ mem_cons_self)
  have hlast : g.writers.getLast?=(x::l).getLast? := by rw [hw,getLast?_cons_cons]
  have hmode:=h.mode_of_head (c := c) (by rw [hw]; rfl) hf
  have hsource : g.mode.source=none := by
    obtain hm | ⟨d,pkt,hm⟩:=hmode <;> rw [hm] <;> rfl
  have hcinv : c∉g.invalidated := by
    intro hmem
    have hend:=(h.invalidated c hmem (by rw [hw]; exact mem_cons_self)).1
    rw [hlast] at hend
    exact hcnot (mem_of_getLast? hend)
  constructor
  · simp only [Protocol.pass,hw,tail_cons]
    exact hnodup'
  · intro y
    simp only [Protocol.pass,hw,tail_cons]
    by_cases hyx : y=x
    · subst hyx
      simp [Fits,hf]
    · rw [update_of_ne hyx]
      by_cases hyc : y=c
      · subst hyc
        have hholds:=(h.holds_of_queued (by rw [hw]; exact mem_cons_self) hwaits).1
        rw [update_self]
        cases hp : g.phase y <;> simp_all [Fits,Phase.holds,Phase.passed]
      · rw [update_of_ne hyc]
        have hfits:=h.fits y
        have hyhead : c≠y := fun heq => hyc heq.symm
        cases hp : g.phase y <;> simp_all [Fits]
        simp [Ne.symm hyx]
  · intro y hy hmem
    have hmem' : y∈g.writers := mem_of_mem_tail hmem
    obtain ⟨hend,hrecalls⟩:=h.invalidated y hy hmem'
    refine ⟨?_,hrecalls⟩
    simp only [Protocol.pass,hw,tail_cons]
    rw [← hlast]
    exact hend
  · have hfit:=h.mode
    obtain hm | ⟨d,pkt,hm⟩:=hmode <;> simp only [Protocol.pass,hm] <;> simp [ModeFits,hw]
  · exact h.serves
  · exact h.aligned

theorem pass_system {l : List C} (hw : g.writers=c::x::l) (hnodup : g.writers.Nodup) {store : Bool}
    {stale v : Block n B} (hx : g.phase x = .queued store stale) (hc : (g.phase c).holds=some v) :
    (g.pass c x store stale v).system={g.system with
      cache := update g.system.cache c (g.phase c).passed.cache
      forwardFromDir := update g.system.forwardFromDir c
        ((if c∈g.invalidated then [⟨.INV,.Directory,default⟩] else [])++(g.phase c).ack c)
      responseToCache := update g.system.responseToCache (.L1Cache c)
        (update (g.system.responseToCache (.L1Cache c)) x [⟨.DATA,.L1Cache c,v⟩])} := by
  rw [hw] at hnodup
  have hcx : c≠x := fun heq => (nodup_cons.mp hnodup).1 (heq ▸ mem_cons_self)
  have hcl : c∉x::l := (nodup_cons.mp hnodup).1
  apply System.ext
  case cache =>
    funext y
    by_cases hyx : y=x
    · subst hyx
      simp [system,pass,hx,hcx.symm,Phase.cache]
    · by_cases hyc : y=c
      · subst hyc
        simp [system,pass,hyx]
      · simp [system,pass,hyx,hyc]
  case dir => simp [system,pass,owner,hw]
  case requestToDir =>
    funext y
    by_cases hyx : y=x
    · subst hyx
      simp [system,pass,hx,Phase.request]
    · by_cases hyc : y=c
      · subst hyc
        cases hp : g.phase y <;> simp_all [system,pass,Phase.holds,Phase.passed,Phase.request]
      · simp [system,pass,hyx,hyc]
  case forwardFromDir =>
    funext y
    by_cases hyc : y=c
    · subst hyc
      have hnext : successor (x::l) y=none := successor_of_not_mem hcl
      cases hp : g.phase y <;> simp_all [system,pass,notices,Phase.holds,Phase.passed,Phase.ack]
    · by_cases hyx : y=x
      · subst hyx
        simp [system,pass,notices,hw,hyc,hx,Phase.ack]
      · simp [system,pass,notices,hw,hyc,hyx]
  case responseToCache =>
    funext source y
    by_cases hyx : y=x
    · subst hyx
      by_cases hs : source = .L1Cache c
      · subst hs
        simp [system,pass,Phase.data]
      · simp [system,pass,hs,hx,Phase.data]
    · by_cases hyc : y=c
      · subst hyc
        by_cases hs : source = .L1Cache y
        · subst hs
          cases hp : g.phase y <;> simp_all [system,pass,Phase.holds,Phase.passed,Phase.data]
        · cases hp : g.phase y <;> simp_all [system,pass,Phase.holds,Phase.passed,Phase.data]
      · by_cases hs : source = .L1Cache c
        · subst hs
          simp [system,pass,hyx,hyc]
        · simp [system,pass,hyx,hyc,hs]
  all_goals rfl

theorem pass_yields (h : g.Inv exact) {l : List C} (hw : g.writers=c::x::l)
    (hwaits : (g.phase c).waits=false) : g.Yields exact (g.system.step (.forward c)) := by
  have hnodup:=h.nodup
  rw [hw] at hnodup
  have hcx : c≠x := fun heq => (nodup_cons.mp hnodup).1 (heq ▸ mem_cons_self)
  obtain ⟨hholds,-,hf⟩:=h.holds_of_queued (c := c) (by rw [hw]; exact mem_cons_self) hwaits
  obtain ⟨store,stale,hx⟩:=h.queued_of_not_head (x := x) (by rw [hw]; exact mem_cons_of_mem c mem_cons_self)
    (by rw [hw]; simpa using hcx)
  have hlist : g.notices c++(g.phase c).ack c=⟨.GETX,.L1Cache x,default⟩ ::
      ((if c∈g.invalidated then [⟨.INV,.Directory,default⟩] else [])++(g.phase c).ack c) := by
    simp [notices,hw]
  rw [forward_result hlist rfl (Phase.pass_turn hholds _)]
  refine ⟨g.pass c x store stale g.block,[],?_,h.pass hw hf hwaits store stale,.silent _ rfl rfl⟩
  rw [pass_system hw h.nodup hx hholds]
  congr 2
  apply System.ext
  case requestToDir => simp [System.afterCache]
  case responseToCache =>
    simp only [System.afterCache]
    congr 1
    funext y
    by_cases hyx : y=x
    · subst hyx
      simp [System.sentTo,system,hx,Phase.data]
    · simp [System.sentTo,hyx,Ne.symm hyx]
  all_goals rfl

theorem answer_yields (h : g.Inv exact) (hnotices : g.notices c=[]) (hack : (g.phase c).ack c≠[])
    (hnext : successor g.writers c=none) (hinv : c∉g.invalidated) : g.Yields exact (g.system.step (.forward c)) := by
  have hfits:=h.fits c
  cases hp : g.phase c with
  | putNacked v =>
    rw [hp] at hfits
    exact (successor_ne_none (mem_of_head hfits.1) hfits.2.2.2 hnext).elim
  | goneNacked v =>
    rw [hp] at hfits
    exact ack_yields h hnotices (m := ⟨.WB_NACK,.L1Cache c,default⟩) (by rw [hp]; rfl) rfl (by rw [hp]; rfl)
      (by rw [hp]; rfl) (by simp [hp,Phase.data]) hfits
  | acked v =>
    rw [hp] at hfits
    exact ack_yields h hnotices (m := ⟨.WB_ACK,.L1Cache c,default⟩) (by rw [hp]; rfl) rfl (by rw [hp]; rfl)
      (by rw [hp]; rfl) (by simp [hp,Phase.data]) ⟨hfits.1,hfits.2,hinv⟩
  | _ =>
    rw [hp] at hack
    exact (hack rfl).elim

theorem inv_yields (h : g.Inv exact) (hnext : successor g.writers c=none) (hinv : c∈g.invalidated) :
    g.Yields exact (g.system.step (.forward c)) := by
  have hfits:=h.fits c
  have hlist : g.notices c++(g.phase c).ack c=⟨.INV,.Directory,default⟩::(g.phase c).ack c := by
    simp [notices,hnext,hinv]
  cases hp : g.phase c with
  | idle stale | asked store stale | gone v | goneNacked v =>
    rw [hp] at hfits
    exact (hfits.2.2 hinv).elim
  | queued store stale | granted store stale v source => exact wait_yields h hlist rfl (.inr rfl) (by rw [hp]; rfl)
  | modified v => exact invalidate_yields h hp hinv hnext
  | put v | retired v | acked v => exact drop_yields h hinv hnext fun m => by rw [hp]; rfl
  | putNacked v =>
    rw [hp] at hfits
    exact (successor_ne_none (mem_of_head hfits.1) hfits.2.2.2 hnext).elim

theorem forward_yields (h : g.Inv exact) (hne : g.system.forwardFromDir c≠[]) :
    g.Yields exact (g.system.step (.forward c)) := by
  have hchannel : g.system.forwardFromDir c=g.notices c++(g.phase c).ack c := rfl
  cases hnext : successor g.writers c with
  | some x =>
    have hc : c∈g.writers := by
      by_contra hc
      rw [successor_of_not_mem hc] at hnext
      cases hnext
    cases hwaits : (g.phase c).waits with
    | true =>
      have hlist : g.notices c++(g.phase c).ack c=⟨.GETX,.L1Cache x,default⟩ ::
          ((if c∈g.invalidated then [⟨.INV,.Directory,default⟩] else [])++(g.phase c).ack c) := by
        simp [notices,hnext]
      exact wait_yields h hlist rfl (.inl rfl) hwaits
    | false =>
      obtain ⟨-,hhead,-⟩:=h.holds_of_queued hc hwaits
      obtain ⟨l,hw⟩ : ∃ l,g.writers=c::l := head?_eq_some_iff.mp hhead
      cases l with
      | nil => simp [hw] at hnext
      | cons y l => exact pass_yields h hw hwaits
  | none =>
    by_cases hinv : c∈g.invalidated
    · exact inv_yields h hnext hinv
    · have hnotices : g.notices c=[] := by simp [notices,hnext,hinv]
      rw [hchannel,hnotices] at hne
      exact answer_yields h hnotices hne hnext hinv

end Protocol

/-! ## The directory takes a message -/

variable {d : D} {g g' : Protocol C D n B}

namespace System

variable [DecidableEq C] [DecidableEq D]

omit [DecidableEq D] in
@[simp] theorem forwardedTo_nil (x : C) :
    forwardedTo x ([] : List (Finset C × RequestMsg (MachineID C D) (Block n B)))=[] := rfl

omit [DecidableEq D] in
@[simp] theorem forwardedTo_singleton (x : C) (destination : Finset C) (m : RequestMsg (MachineID C D) (Block n B)) :
    forwardedTo x [(destination,m)]=if x∈destination then [m] else [] := by
  by_cases hx : x∈destination <;> simp [forwardedTo,hx]

@[simp] theorem sentTo_nil {M α : Type} [DecidableEq M] (x : M) : sentTo x ([] : List (M × α))=[] := rfl

@[simp] theorem sentTo_singleton {M α : Type} [DecidableEq M] (x y : M) (m : α) :
    sentTo x [(y,m)]=if y=x then [m] else [] := by
  by_cases hx : y=x <;> simp [sentTo,hx]

@[simp] theorem taken_pop_singleton {α : Type} (m : α) : taken .pop [m]=[] := rfl

@[simp] theorem taken_recycle_singleton {α : Type} (m : α) : taken .recycle [m]=[m] := by
  simp [taken]

@[simp] theorem taken_stay {α : Type} (l : List α) : taken .stay l=l := rfl

end System

namespace Directory

variable {V : Type} {x : Directory C D V}

theorem setState_of_owned {o : C} (ho : x.owner={o}) (hs : x.sharers = ∅) :
    x.setState .M = .ok {x with directoryState := .M, tbe := x.tbe.map fun b => {b with tbeState := .M} } := by
  simp [setState,ho,hs,check,bind,Except.bind,pure,Except.pure]

theorem setState_of_unowned (ho : x.owner = ∅) (hs : x.sharers = ∅) :
    x.setState .I = .ok {x with directoryState := .I, tbe := x.tbe.map fun b => {b with tbeState := .I} } := by
  simp [setState,ho,hs,check,bind,Except.bind,pure,Except.pure]

theorem setState_of_transient (state : State) (hM : state ≠ .M) (hI : state ≠ .I) :
    x.setState state = .ok {x with directoryState := state, tbe := x.tbe.map fun b => {b with tbeState := state} } := by
  simp [setState,hM,hI,check,bind,Except.bind,pure,Except.pure]

end Directory

namespace Protocol

theorem Inv.owner_of_owns [DecidableEq C] [Inhabited B] (h : g.Inv exact) (ho : g.mode.owns=true) :
    ∃ o,g.writers.getLast?=some o ∧ g.owner={o} := by
  have hne : g.writers≠[] := by
    have hmode:=h.mode
    cases hm : g.mode <;> simp_all [ModeFits,Mode.owns]
  cases hlast : g.writers.getLast? with
  | none => exact (hne (List.getLast?_eq_none_iff.mp hlast)).elim
  | some o => exact ⟨o,rfl,by simp [owner,ho,hlast]⟩

theorem owner_of_not_owns [DecidableEq C] (ho : g.mode.owns=false) : g.owner = ∅ := by simp [owner,ho]

variable [DecidableEq C] [DecidableEq D] [Inhabited B]

theorem getState_dir (g : Protocol C D n B) : g.system.dir.getState=g.mode.dirState := by
  cases hm : g.mode <;> simp [system,hm,Directory.getState,Mode.tbe,Mode.dmaTBE,Mode.dirState]

theorem Inv.setState_dir (h : g.Inv exact) : g.system.dir.setState g.mode.dirState = .ok g.system.dir := by
  cases hm : g.mode with
  | invalid =>
    have ho : g.owner = ∅ := owner_of_not_owns (by rw [hm]; rfl)
    have hset:=Directory.setState_of_unowned (x := g.system.dir) ho rfl
    simpa [Mode.dirState,system,hm,Mode.tbe] using hset
  | owned =>
    obtain ⟨o,-,ho⟩:=h.owner_of_owns (by rw [hm]; rfl)
    have hset:=Directory.setState_of_owned (x := g.system.dir) ho rfl
    simpa [Mode.dirState,system,hm,Mode.tbe] using hset
  | recalling d pkt | returning d pkt source v answered =>
    have hset:=Directory.setState_of_transient (x := g.system.dir) g.mode.dirState
      (by rw [hm]; cases hw : pkt.write <;> simp [Mode.dirState,hw])
      (by rw [hm]; cases hw : pkt.write <;> simp [Mode.dirState,hw])
    rw [hm] at hset
    rw [hset]
    simp [system,hm,Mode.tbe,Mode.dmaTBE]
  | _ =>
    rw [Directory.setState_of_transient _ (by simp [Mode.dirState]) (by simp [Mode.dirState])]
    simp [system,hm,Mode.tbe,Mode.dmaTBE,Mode.dirState]

theorem Inv.turn_dir (h : g.Inv exact) {peek : Directory.Peek C D (Block n B)} {event : Directory.Event}
    {actions : List Directory.Action} {t : Directory.Turn C D (Block n B)}
    (hactions : Directory.transition g.mode.dirState event=some (actions,g.mode.dirState))
    (ht : Directory.runActions peek actions (Directory.Turn.start g.system.dir) = .ok t) (hdir : t.dir=g.system.dir) :
    Directory.doTransition peek event g.system.dir = .ok t := by
  unfold Directory.doTransition
  rw [getState_dir,hactions]
  simp only [ht,hdir,bind,Except.bind,h.setState_dir,pure,Except.pure]
  rw [← hdir]

structure Leads (g g' : Protocol C D n B) (t : Directory.Turn C D (Block n B)) : Prop where
  cache : ∀ x,(g'.phase x).cache=(g.phase x).cache
  dir : g'.system.dir=t.dir
  forwards : ∀ x,g'.system.forwardFromDir x=g.system.forwardFromDir x++System.forwardedTo x t.forwards
  responses : ∀ source x,(g'.phase x).data source =
    (g.phase x).data source++if source = .Directory then System.sentTo (.L1Cache x) t.responses else []
  controller : ∀ x,(g'.dma x).controller=(g.dma x).controller
  dmaResponses : ∀ x,(g'.dma x).response=(g.dma x).response++System.sentTo x t.dmaResponses
  memoryRequests : g'.mode.requestToMemory=g.mode.requestToMemory++t.memory
  memory : g'.memory=g.memory

theorem Leads.system {t : Directory.Turn C D (Block n B)} (h : Leads g g' t) : g'.system =
    {g.system.afterDirectory t with
      requestToDir := g'.system.requestToDir
      dmaRequestToDir := g'.system.dmaRequestToDir
      responseFromMemory := g'.system.responseFromMemory} := by
  apply System.ext
  case cache => exact funext h.cache
  case dir => exact h.dir
  case dma => exact funext h.controller
  case forwardFromDir => exact funext h.forwards
  case responseToCache =>
    funext source x
    have hresponses:=h.responses source x
    by_cases hs : source = .Directory
    · subst hs
      simpa [System.afterDirectory,Protocol.system] using hresponses
    · simpa [System.afterDirectory,Protocol.system,hs] using hresponses
  case dmaResponseFromDir => exact funext h.dmaResponses
  case requestToMemory => exact h.memoryRequests
  case memory => exact h.memory
  all_goals rfl

theorem leads_self (g : Protocol C D n B) (takeRequest takeDMARequest takeMem : Directory.Take) :
    Leads g g ⟨g.system.dir,[],[],[],[],takeRequest,takeDMARequest,takeMem⟩ where
  cache _ := rfl
  dir := rfl
  forwards x := by simp
  responses source x := by simp
  controller _ := rfl
  dmaResponses x := by simp
  memoryRequests := by simp
  memory := rfl

end Protocol

end AquaGem5.Ruby.MIExample
