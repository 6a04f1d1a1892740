import AquaGem5.Ruby.MSI.Memory

/-!
# Load and store requests arriving at the directory

A request is taken when no other one is being served, and stalls otherwise.
-/

namespace AquaGem5.Ruby.MSI
open Checked Succession Function List

variable {C V : Type} [DecidableEq C] [DecidableEq V] [Inhabited V]

namespace Protocol

variable {m : RequestMsg C V} {event : Directory.Event} {c : C} {t : Directory.Turn C V}

theorem request_result (s : System C V) (he : s.dir.requestIn m = .ok event)
    (ht : Directory.doTransition ⟨none,none,some m⟩ event s.dir = .ok t) :
    s.step (.request c m) = .ok ({s.afterDirectory t with
      requestToDir := update s.requestToDir c
        (if t.popRequest then (s.requestToDir c).erase m else s.requestToDir c)},[]) := by
  simp only [System.step,he,ht,bind,Except.bind]
  rfl

omit [DecidableEq V] [Inhabited V] in
theorem forwardedTo_singleton (d : C) (destination : Finset C) (m : RequestMsg (MachineID C) V) :
    System.forwardedTo d [(destination,m)]=if d∈destination then [m] else [] := by
  by_cases hd : d∈destination <;> simp [System.forwardedTo,hd]

structure Taken (g g' : Protocol C V) (c : C) (m : RequestMsg C V) (t : Directory.Turn C V) :
    Prop where
  others : ∀ x, x≠c → g'.phase x=g.phase x
  cache : (g'.phase c).cache g.block=(g.phase c).cache g.block
  request : (g.phase c).request c g.block={m} ∧ (g'.phase c).request c g.block=0
  data : (g'.phase c).data g.block=(g.phase c).data g.block
  block : g'.block=g.block
  memory : g'.memory=g.memory
  acks : ∀ x, (if g'.writers.head?=some x then g'.acks else 0) =
    if g.writers.head?=some x then g.acks else 0
  dir : t.dir=⟨g'.mode.dirState,g'.sharers,g'.owner⟩
  forwards : ∀ x, g'.forwards x=g.forwards x++System.forwardedTo x t.forwards
  responses : t.responses=[]
  responseToDir : g'.mode.responseToDir g.block=g.mode.responseToDir g.block
  requestToMemory : g'.mode.requestToMemory g.block=g.mode.requestToMemory g.block+t.memory
  responseFromMemory : g'.mode.responseFromMemory g.block=g.mode.responseFromMemory g.block
  popRequest : t.popRequest=true

theorem Taken.system {g g' : Protocol C V} (h : Taken g g' c m t) : ({g.system.afterDirectory t with
      requestToDir := update g.system.requestToDir c
        (if t.popRequest then (g.system.requestToDir c).erase m else g.system.requestToDir c)} :
      System C V)=g'.system := by
  apply System.ext
  · funext x
    show (g.phase x).cache g.block=(g'.phase x).cache g'.block
    rw [h.block]
    rcases eq_or_ne x c with rfl | hx
    · exact h.cache.symm
    · rw [h.others x hx]
  · exact h.dir
  · funext x
    show update g.system.requestToDir c _ x=(g'.phase x).request x g'.block
    rw [h.block,h.popRequest,if_pos rfl]
    rcases eq_or_ne x c with rfl | hx
    · rw [update_self,h.request.2]
      show ((g.phase x).request x g.block).erase m=0
      rw [h.request.1]
      exact Multiset.erase_singleton m
    · rw [update_of_ne hx,h.others x hx]
      rfl
  · funext x
    exact (h.forwards x).symm
  · funext x
    show (g.phase x).data g.block+(if g.writers.head?=some x then g.acks else 0) +
        System.sentTo (.L1Cache x) t.responses =
      (g'.phase x).data g'.block+if g'.writers.head?=some x then g'.acks else 0
    rw [h.responses,h.block,h.acks x,sentTo_nil,add_zero]
    rcases eq_or_ne x c with rfl | hx
    · rw [h.data]
    · rw [h.others x hx]
  · show g.mode.responseToDir g.block+System.sentTo .Directory t.responses =
      g'.mode.responseToDir g'.block
    rw [h.responses,h.block,h.responseToDir]
    exact add_zero _
  · show g.mode.requestToMemory g.block+(t.memory : Multiset (MemoryMsg C V)) =
      g'.mode.requestToMemory g'.block
    rw [h.block,h.requestToMemory]
  · show g.mode.responseFromMemory g.block=g'.mode.responseFromMemory g'.block
    rw [h.block,h.responseFromMemory]
  · exact h.memory.symm

variable {g : Protocol C V}

theorem Taken.yields (g' : Protocol C V) (h : Taken g g' c m t) (hg : g'.Inv)
    (he : g.system.dir.requestIn m = .ok event)
    (ht : Directory.doTransition ⟨none,none,some m⟩ event g.system.dir = .ok t) :
    g.Yields (g.system.step (.request c m)) := by
  rw [request_result g.system he ht,h.system]
  exact ⟨g',[],rfl,hg,h.block ▸ .silent _⟩

theorem request_stall (h : g.Inv) (he : g.system.dir.requestIn m = .ok event)
    (ht : Directory.doTransition ⟨none,none,some m⟩ event g.system.dir =
      .ok (Directory.Turn.start g.system.dir)) : g.Yields (g.system.step (.request c m)) := by
  rw [request_result g.system he ht]
  refine ⟨g,[],congrArg (fun s => Except.ok (s,[])) (System.ext rfl rfl ?_ ?_ ?_ ?_ ?_ rfl rfl),h,
    .silent _⟩
  · exact update_eq_self c _
  · funext x
    exact append_nil _
  · funext x
    exact add_zero _
  · exact add_zero _
  · exact add_zero _

omit [DecidableEq V] [Inhabited V] in
theorem Inv.resting (h : g.Inv) (hq : g.mode = .invalid ∨ g.mode = .shared) : g.writers=[] ∧ g.memory=g.block := by
  have hfits:=h.mode
  rcases hq with hq | hq <;> rw [hq] at hfits
  · exact ⟨hfits.1,hfits.2.2⟩
  · exact hfits

def read (g : Protocol C V) (c : C) : Protocol C V :=
  {g.enter c .loadPending with mode := .reading c false, sharers := insert c g.sharers}

omit [DecidableEq V] [Inhabited V] in
theorem Inv.read (h : g.Inv) (hp : g.phase c = .loadAsked)
    (hq : g.mode = .invalid ∨ g.mode = .shared) : (g.read c).Inv := by
  obtain ⟨hw,hmemory⟩:=h.resting hq
  constructor
  · exact h.nodup
  · intro x
    have hplace:=h.places x
    rcases eq_or_ne x c with rfl | hx
    · rw [hp] at hplace
      rw [show (g.read x).phase x = .loadPending from enter_phase_self g x _]
      exact ⟨hplace.1,⟨Finset.mem_insert_self x _,rfl⟩,hplace.2.2.1,rfl⟩
    · have hcx : c≠x := hx.symm
      have heq : (g.read c).place x=g.place x := by
        rcases hq with hq | hq <;>
          simp [place,Protocol.read,Protocol.enter,Closing,hq,Mode.fetches,Mode.reader,
            Mode.downgrade,hx,hcx]
      rw [show (g.read c).phase x=g.phase x from enter_phase_of_ne g _ hx,heq]
      exact hplace
  · intro x hx
    have hhead : g.writers.head?=some x := hx
    simp [hw] at hhead
  · exact h.nobody
  · exact h.acks
  · exact ⟨hw,hmemory⟩

theorem read_step (h : g.Inv) (hp : g.phase c = .loadAsked) (hq : g.mode = .invalid ∨ g.mode = .shared) :
    g.Yields (g.system.step (.request c ⟨.GetS,c,default⟩)) := by
  have hself : (g.read c).phase c = .loadPending := enter_phase_self g c _
  have howner : g.owner = ∅ := hq.elim (owner_none · rfl) (owner_none · rfl)
  have hturn : Directory.doTransition ⟨none,none,some (⟨.GetS,c,default⟩ : RequestMsg C V)⟩ .GetS
      g.system.dir = .ok ⟨⟨.S_m,insert c g.sharers,g.owner⟩,[],[],[⟨.MEMORY_READ,.L1Cache c,default⟩],true,false,
        false⟩ := by
    show Directory.doTransition _ _ (⟨g.mode.dirState,g.sharers,g.owner⟩ : Directory C)=_
    rcases hq with hq | hq <;> rw [hq] <;> rfl
  refine Taken.yields (g.read c) ?_ (h.read hp hq) rfl hturn
  constructor
  · exact fun x => enter_phase_of_ne g _
  · rw [hself,hp]
    rfl
  · rw [hself,hp]
    exact ⟨rfl,rfl⟩
  · rw [hself,hp]
    rfl
  · rfl
  · rfl
  · exact fun x => rfl
  · rw [howner]
    rfl
  · intro x
    have hacked : ((g.read c).phase x).acked=(g.phase x).acked := by
      rcases eq_or_ne x c with rfl | hx
      · rw [hself,hp]
        rfl
      · rw [show (g.read c).phase x=g.phase x from enter_phase_of_ne g _ hx]
    have hdown : g.mode.downgrade=none := by rcases hq with hq | hq <;> rw [hq] <;> rfl
    show (g.read c).forwards x=g.forwards x++[]
    unfold forwards
    rw [hacked,hdown,append_nil]
    rfl
  · rfl
  · rcases hq with hq | hq <;> rw [hq] <;> rfl
  · rcases hq with hq | hq <;> rw [hq] <;> rfl
  · rcases hq with hq | hq <;> rw [hq] <;> rfl
  · rfl

def close (g : Protocol C V) (c : C) : Protocol C V :=
  {g.enter c .loadPending with
    mode := .downgrading c
    sharers := insert c g.sharers ∪ g.owner}

omit [DecidableEq C] [DecidableEq V] [Inhabited V] in
theorem role_of_acked {p : Phase C V} (ha : p.acked=true) :
    p.role = .absent ∨ p.role = .retired ∨ p.role = .dropped := by
  cases p <;> first | exact .inl rfl | exact .inr (.inl rfl) | exact .inr (.inr rfl) | cases ha

section

omit [DecidableEq V] [Inhabited V]

theorem Inv.last_role (h : g.Inv) (hq : g.mode = .owned) {l : C} (hl : g.writers.getLast?=some l) :
    (∃ current, (g.phase l).role = .waiting current) ∨ (g.phase l).role = .owner := by
  have hplace:=h.places l
  have hqueued : l∈g.writers := mem_of_getLast? hl
  cases hr : (g.phase l).role with
  | waiting current => exact .inl ⟨current,rfl⟩
  | owner => exact .inr rfl
  | fetching =>
    rw [hr] at hplace
    have hfetching : g.mode.fetches=some l := hplace.2.1
    rw [hq] at hfetching
    cases hfetching
  | retired =>
    rw [hr] at hplace
    rcases hplace.2.2.2.2.2 with hs | hc
    · exact absurd (successor_getLast h.nodup hl) hs
    · have hdown:=hc.2
      rw [hq] at hdown
      exact absurd rfl hdown
  | _ =>
    rw [hr] at hplace
    exact absurd hqueued hplace.1

theorem Inv.last_not_acked (h : g.Inv) (hq : g.mode = .owned) {l : C}
    (hl : g.writers.getLast?=some l) : (g.phase l).acked=false := by
  by_contra ha
  rw [Bool.not_eq_false] at ha
  rcases h.last_role hq hl with ⟨current,hr⟩ | hr <;>
    rcases role_of_acked ha with he | he | he <;> rw [hr] at he <;> cases he

theorem Inv.close (h : g.Inv) (hp : g.phase c = .loadAsked) (hq : g.mode = .owned) : (g.close c).Inv := by
  have hfits:=h.mode
  rw [hq] at hfits
  obtain ⟨hw,hsharers⟩:=hfits
  obtain ⟨l,hl⟩ : ∃ l, g.writers.getLast?=some l := ⟨_,getLast?_eq_some_getLast hw⟩
  have howner : g.owner={l} := owner_last hq rfl hl
  have hcplace:=h.places c
  rw [hp] at hcplace
  have hlc : l≠c := by
    rintro rfl
    exact hcplace.1 (mem_of_getLast? hl)
  have hmem : ∀ x, x∈(g.close c).sharers ↔ x=c ∨ x=l := by
    intro x
    simp [Protocol.close,Protocol.enter,howner,hsharers]
  constructor
  · exact h.nodup
  · intro x
    have hplace:=h.places x
    rcases eq_or_ne x c with rfl | hx
    · rw [show (g.close x).phase x = .loadPending from enter_phase_self g x _]
      exact ⟨hcplace.1,⟨(hmem x).mpr (.inl rfl),rfl⟩,hcplace.2.2.1,rfl⟩
    · rw [show (g.close c).phase x=g.phase x from enter_phase_of_ne g _ hx]
      have hreading : ¬((g.close c).place x).reading := fun e => hx (Option.some.inj e).symm
      rcases eq_or_ne x l with rfl | hxl
      · have hsharer : ((g.close c).place x).sharer := ⟨(hmem x).mpr (.inr rfl),rfl⟩
        rcases h.last_role hq hl with ⟨current,hr⟩ | hr <;> rw [hr] at hplace ⊢
        · exact ⟨hplace.1,hplace.2.1,hplace.2.2.1,hreading,fun _ => hsharer⟩
        · exact ⟨hplace.1,fun h => (by cases h),hplace.2.2.1,hreading,fun _ => hsharer⟩
      · have hlx : l≠x := hxl.symm
        have hcx : c≠x := hx.symm
        have heq : (g.close c).place x=g.place x := by
          simp [place,Protocol.close,Protocol.enter,Closing,hq,Mode.fetches,Mode.reader,
            Mode.downgrade,hx,hcx,howner,hsharers,hxl,hl,hlx]
        rw [heq]
        exact hplace
  · intro x hx
    have hxc : x≠c := by
      rintro rfl
      exact hcplace.1 (mem_of_head? hx)
    rw [show (g.close c).phase x=g.phase x from enter_phase_of_ne g _ hxc]
    have hfirst:=h.first x hx
    have hplace:=h.places x
    cases hpx : g.phase x with
    | storeFetching copy early =>
      rw [hpx] at hplace
      have hfetching : g.mode.fetches=some x := hplace.2.1
      rw [hq] at hfetching
      cases hfetching
    | _ =>
      rw [hpx] at hfirst
      exact hfirst
  · exact h.nobody
  · exact h.acks
  · refine ⟨hw,fun x hx => ((hmem x).mp hx).imp id ?_⟩
    rintro rfl
    exact hl

end

theorem close_step (h : g.Inv) (hp : g.phase c = .loadAsked)
    (hq : g.mode = .owned) : g.Yields (g.system.step (.request c ⟨.GetS,c,default⟩)) := by
  have hw : g.writers≠[] := by
    have hfits:=h.mode
    rw [hq] at hfits
    exact hfits.1
  obtain ⟨l,hl⟩ : ∃ l, g.writers.getLast?=some l := ⟨_,getLast?_eq_some_getLast hw⟩
  have howner : g.owner={l} := owner_last hq rfl hl
  have hself : (g.close c).phase c = .loadPending := enter_phase_self g c _
  have hother : ∀ x, x≠c → (g.close c).phase x=g.phase x := fun x => enter_phase_of_ne g _
  have hturn : Directory.doTransition ⟨none,none,some (⟨.GetS,c,default⟩ : RequestMsg C V)⟩ .GetS
      g.system.dir = .ok ⟨⟨.S_D,insert c g.sharers ∪ g.owner,∅⟩,[({l},forwarded .GetS c)],[],[],true,
        false,false⟩ := by
    show Directory.doTransition _ _ (⟨g.mode.dirState,g.sharers,g.owner⟩ : Directory C)=_
    rw [hq,howner]
    rfl
  refine Taken.yields (g.close c) ?_ (h.close hp hq) rfl hturn
  constructor
  · exact hother
  · rw [hself,hp]
    rfl
  · rw [hself,hp]
    exact ⟨rfl,rfl⟩
  · rw [hself,hp]
    rfl
  · rfl
  · rfl
  · exact fun x => rfl
  · rfl
  · intro x
    have hacked : ((g.close c).phase x).acked=(g.phase x).acked := by
      rcases eq_or_ne x c with rfl | hx
      · rw [hself,hp]
        rfl
      · rw [hother x hx]
    have hw' : (g.close c).writers=g.writers := rfl
    have hi' : (g.close c).invalidated=g.invalidated := rfl
    have hm' : (g.close c).mode = .downgrading c := rfl
    rw [forwardedTo_singleton]
    unfold forwards
    rw [hacked,hw',hi',hm',hq,hl]
    rcases eq_or_ne l x with rfl | hx
    · rw [h.last_not_acked hq hl]
      simp [Mode.downgrade]
    · have hxl : x≠l := hx.symm
      simp [hx,hxl]
  · rfl
  · rw [hq]
    rfl
  · rw [hq]
    rfl
  · rw [hq]
    rfl
  · rfl

def fetch (g : Protocol C V) (c : C) (copy : Copy V) : Protocol C V :=
  {g.enter c (.storeFetching copy 0) with
    mode := .fetching c false
    writers := [c]
    sharers := g.sharers.erase c
    invalidated := g.sharers.erase c}

variable {copy : Copy V}

section

omit [DecidableEq V] [Inhabited V]

theorem Inv.fetch (h : g.Inv) (hp : g.phase c = .storeAsked copy) (hq : g.mode = .invalid ∨ g.mode = .shared) :
    (g.fetch c copy).Inv := by
  obtain ⟨hw,hmemory⟩:=h.resting hq
  obtain ⟨hi,hacks⟩:=h.nobody hw
  have hfetch : g.mode.fetches=none := by rcases hq with hq | hq <;> rw [hq] <;> rfl
  have hreader : g.mode.reader=none := by rcases hq with hq | hq <;> rw [hq] <;> rfl
  constructor
  · exact nodup_singleton c
  · intro x
    have hplace:=h.places x
    rcases eq_or_ne x c with rfl | hx
    · rw [show (g.fetch x copy).phase x = .storeFetching copy 0 from enter_phase_self g x _]
      exact ⟨rfl,rfl,Finset.notMem_erase x _,nofun⟩
    · rw [show (g.fetch c copy).phase x=g.phase x from enter_phase_of_ne g _ hx]
      have hqueued : ¬((g.fetch c copy).place x).queued := by
        show x∉[c]
        simpa using hx
      have hqueued' : ¬(g.place x).queued := by
        show x∉g.writers
        simp [hw]
      have hhead : ¬(g.place x).head := by
        show ¬g.writers.head?=some x
        simp [hw]
      have hsharer : ¬((g.fetch c copy).place x).sharer := fun hs => nomatch hs.2
      have hreading : ¬((g.fetch c copy).place x).reading := nofun
      have hreading' : ¬(g.place x).reading := by
        show ¬g.mode.reader=some x
        simp [hreader]
      have hswap : ((g.fetch c copy).place x).invalidated ↔ (g.place x).sharer := by
        show x∈g.sharers.erase c ↔ x∈g.sharers ∧ g.mode.fetches=none
        simp [hx,hfetch]
      have hfree : ¬(g.place x).invalidated := by
        show x∉g.invalidated
        simp [hi]
      cases hr : (g.phase x).role with
      | absent =>
        rw [hr] at hplace
        exact ⟨hqueued,hsharer,fun e => hplace.2.1 (hswap.mp e),hreading⟩
      | reader =>
        rw [hr] at hplace
        exact absurd hplace.2.2.2 hreading'
      | sharer =>
        rw [hr] at hplace
        have hs : (g.place x).sharer := hplace.2.1.mpr hfree
        exact ⟨hqueued,iff_of_false hsharer (not_not.mpr (hswap.mpr hs)),hreading⟩
      | waiting current =>
        rw [hr] at hplace
        exact absurd hplace.1 hqueued'
      | dropped => exact ⟨hqueued,hsharer,hreading⟩
      | _ =>
        rw [hr] at hplace
        exact absurd hplace.1 hhead
  · intro x hx
    obtain rfl : c=x := Option.some.inj hx
    rw [show (g.fetch c copy).phase c = .storeFetching copy 0 from enter_phase_self g c _]
    show (g.sharers.erase c).card=(g.sharers.erase c).card+Multiset.card g.acks+0
    rw [hacks]
    rfl
  · exact nofun
  · exact h.acks
  · exact ⟨rfl,hmemory⟩

theorem Inv.sharer_not_acked (h : g.Inv) (hf : g.mode.fetches=none) {x : C}
    (hx : x∈g.sharers) : (g.phase x).acked=false := by
  by_contra ha
  rw [Bool.not_eq_false] at ha
  have hplace:=h.places x
  have hsharer : (g.place x).sharer := ⟨hx,hf⟩
  rcases role_of_acked ha with hr | hr | hr <;> rw [hr] at hplace
  · exact hplace.2.1 hsharer
  · exact hplace.2.2.2.2.1 hsharer
  · exact hplace.2.1 hsharer

end

theorem fetch_step (h : g.Inv) (hp : g.phase c = .storeAsked copy) (hq : g.mode = .invalid ∨ g.mode = .shared) :
    g.Yields (g.system.step (.request c ⟨.GetM,c,default⟩)) := by
  obtain ⟨hw,hmemory⟩:=h.resting hq
  obtain ⟨hi,hacks⟩:=h.nobody hw
  have hfetch : g.mode.fetches=none := by rcases hq with hq | hq <;> rw [hq] <;> rfl
  have howner : g.owner = ∅ := hq.elim (owner_none · rfl) (owner_none · rfl)
  have hself : (g.fetch c copy).phase c = .storeFetching copy 0 := enter_phase_self g c _
  have hother : ∀ x, x≠c → (g.fetch c copy).phase x=g.phase x := fun x => enter_phase_of_ne g _
  -- an invalid block has no sharers, and nothing is sent to them
  have hturn : ∃ sent, Directory.doTransition
      ⟨none,none,some (⟨.GetM,c,default⟩ : RequestMsg C V)⟩ .GetM g.system.dir =
        .ok ⟨⟨.M_m,g.sharers.erase c,insert c ∅⟩,sent,[],[⟨.MEMORY_READ,.L1Cache c,default⟩],true,
          false,false⟩ ∧
      ∀ x, System.forwardedTo x sent=if x∈g.sharers.erase c then [forwarded .Inv c] else [] := by
    have hfits:=h.mode
    show ∃ sent, Directory.doTransition _ _ (⟨g.mode.dirState,g.sharers,g.owner⟩ : Directory C) =
      _ ∧ _
    rcases hq with hq | hq <;> rw [hq] at hfits ⊢
    · rw [howner,hfits.2.1]
      exact ⟨[],rfl,fun x => rfl⟩
    · rw [howner]
      exact ⟨[(g.sharers.erase c,forwarded .Inv c)],rfl,fun x => forwardedTo_singleton x _ _⟩
  obtain ⟨sent,hturn,hsent⟩:=hturn
  refine Taken.yields (g.fetch c copy) ?_ (h.fetch hp hq) rfl hturn
  constructor
  · exact hother
  · rw [hself,hp]
    cases copy <;> rfl
  · rw [hself,hp]
    exact ⟨rfl,rfl⟩
  · rw [hself,hp]
    rfl
  · rfl
  · rfl
  · intro x
    show (if [c].head?=some x then g.acks else 0)=_
    rw [hacks,ite_self,ite_self]
  · rfl
  · intro x
    have hacked : ((g.fetch c copy).phase x).acked=(g.phase x).acked := by
      rcases eq_or_ne x c with rfl | hx
      · rw [hself,hp]
        rfl
      · rw [hother x hx]
    have hbefore : g.forwards x=if (g.phase x).acked then [putAck] else [] := by
      rw [forwards_of_not_queued (by simp [hw]),if_neg (by simp [hi])]
      rfl
    have hafter : (g.fetch c copy).forwards x =
        (if x∈g.sharers.erase c then [forwarded .Inv c] else []) ++
          if (g.phase x).acked then [putAck] else [] := by
      rw [← hacked]
      simp [forwards,fetch,Mode.downgrade]
    rw [hsent,hbefore,hafter]
    by_cases hx : x∈g.sharers.erase c
    · rw [h.sharer_not_acked hfetch (Finset.mem_of_mem_erase hx),if_pos hx]
      rfl
    · rw [if_neg hx,append_nil]
      rfl
  · rfl
  · rcases hq with hq | hq <;> rw [hq] <;> rfl
  · rcases hq with hq | hq <;> rw [hq] <;> rfl
  · rcases hq with hq | hq <;> rw [hq] <;> rfl
  · rfl

def join (g : Protocol C V) (c : C) (copy : Copy V) : Protocol C V :=
  {g.enter c (.storeQueued copy) with writers := g.writers++[c]}

omit [DecidableEq C] [DecidableEq V] [Inhabited V] in
theorem fits_forwarded {r : Role} {p : Place} {f : Prop} (h : r.Fits p) (hf : p.forwarded → f) :
    r.Fits {p with forwarded := f} := by
  cases r with
  | retired => exact ⟨h.1,h.2.1,h.2.2.1,h.2.2.2.1,h.2.2.2.2.1,hf h.2.2.2.2.2⟩
  | _ => exact h

omit [DecidableEq V] [Inhabited V] in
theorem Inv.join (h : g.Inv) (hp : g.phase c = .storeAsked copy) (hq : g.mode = .owned) : (g.join c copy).Inv := by
  have hfits:=h.mode
  rw [hq] at hfits
  obtain ⟨hw,hsharers⟩:=hfits
  have hcplace:=h.places c
  have hc : c∉g.writers := by
    rw [hp] at hcplace
    cases copy with
    | current | stale v => exact hcplace.1
  have hnodup : (g.writers++[c]).Nodup := by
    simpa [nodup_append] using ⟨h.nodup,fun x hx e => hc (e ▸ hx)⟩
  have hhead : (g.writers++[c]).head?=g.writers.head? := head?_append_of_ne_nil _ hw
  have hclosing : ∀ x, ¬(g.join c copy).Closing x := by
    intro x hx
    have hdown : g.mode.downgrade≠none := hx.2
    rw [hq] at hdown
    exact hdown rfl
  have hother : ∀ x, x≠c → (g.join c copy).phase x=g.phase x := fun x => enter_phase_of_ne g _
  constructor
  · exact hnodup
  · intro x
    have hplace:=h.places x
    rcases eq_or_ne x c with rfl | hx
    · have hqueued : x∈g.writers++[x] := by simp
      have hnothead : ¬((g.join x copy).place x).head := by
        show ¬(g.writers++[x]).head?=some x
        rw [hhead]
        exact fun e => hc (mem_of_head? e)
      have hreading : ¬((g.join x copy).place x).reading := by
        show ¬g.mode.reader=some x
        rw [hq]
        exact nofun
      have hcloses : ((g.join x copy).place x).closing → ((g.join x copy).place x).sharer :=
        fun e => absurd e (hclosing x)
      rw [hp] at hplace
      rw [show (g.join x copy).phase x = .storeQueued copy from enter_phase_self g x _]
      cases copy with
      | current =>
        have hinvalidated : x∈g.invalidated := by
          by_contra hi
          have hs : x∈g.sharers := (hplace.2.1.mpr hi).1
          simp [hsharers] at hs
        exact ⟨hqueued,hnothead,iff_of_true hinvalidated rfl,hreading,hcloses⟩
      | stale v =>
        exact ⟨hqueued,hnothead,iff_of_false hplace.2.2.1 nofun,hreading,hcloses⟩
    · rw [hother x hx]
      have hclosing' : ¬g.Closing x := fun e => e.2 (by rw [hq]; rfl)
      have heq : (g.join c copy).place x =
          {g.place x with
            forwarded := successor (g.writers++[c]) x≠none ∨ (g.join c copy).Closing x} := by
        have hwriters : (g.join c copy).writers=g.writers++[c] := rfl
        simp only [place,hwriters,mem_append,mem_singleton,hx,or_false,hhead,hclosing',
          hclosing x]
        rfl
      rw [heq]
      refine fits_forwarded hplace fun hf => .inl ?_
      rw [successor_append hnodup]
      split
      · exact Option.some_ne_none c
      · exact hf.resolve_right hclosing'
  · intro x hx
    have hx' : g.writers.head?=some x := hhead ▸ hx
    have hxc : x≠c := by
      rintro rfl
      exact hc (mem_of_head? hx')
    rw [hother x hxc]
    exact h.first x hx'
  · intro hnil
    exact absurd hnil (by simp [Protocol.join,Protocol.enter])
  · exact h.acks
  · show ModeFits (g.join c copy) g.mode
    rw [hq]
    exact ⟨by simp [Protocol.join,Protocol.enter],hsharers⟩

theorem join_step (h : g.Inv) (hp : g.phase c = .storeAsked copy) (hq : g.mode = .owned) :
    g.Yields (g.system.step (.request c ⟨.GetM,c,default⟩)) := by
  have hfits:=h.mode
  rw [hq] at hfits
  obtain ⟨hw,hsharers⟩:=hfits
  have hc : c∉g.writers := by
    have hplace:=h.places c
    rw [hp] at hplace
    cases copy with
    | current | stale v => exact hplace.1
  have hnodup : (g.writers++[c]).Nodup := by
    simpa [nodup_append] using ⟨h.nodup,fun x hx e => hc (e ▸ hx)⟩
  obtain ⟨l,hl⟩ : ∃ l, g.writers.getLast?=some l := ⟨_,getLast?_eq_some_getLast hw⟩
  have howner : g.owner={l} := owner_last hq rfl hl
  have hself : (g.join c copy).phase c = .storeQueued copy := enter_phase_self g c _
  have hother : ∀ x, x≠c → (g.join c copy).phase x=g.phase x := fun x => enter_phase_of_ne g _
  have hturn : Directory.doTransition ⟨none,none,some (⟨.GetM,c,default⟩ : RequestMsg C V)⟩ .GetM
      g.system.dir = .ok ⟨⟨.M,∅,{c}⟩,[({l},forwarded .GetM c)],[],[],true,false,false⟩ := by
    show Directory.doTransition _ _ (⟨g.mode.dirState,g.sharers,g.owner⟩ : Directory C)=_
    rw [hq,howner,hsharers]
    rfl
  refine Taken.yields (g.join c copy) ?_ (h.join hp hq) rfl hturn
  constructor
  · exact hother
  · rw [hself,hp]
    rfl
  · rw [hself,hp]
    exact ⟨rfl,rfl⟩
  · rw [hself,hp]
    rfl
  · rfl
  · rfl
  · intro x
    show (if (g.writers++[c]).head?=some x then g.acks else 0)=_
    rw [head?_append_of_ne_nil _ hw]
  · show _=(⟨g.mode.dirState,g.sharers,if g.mode.owns then
      (g.writers++[c]).getLast?.toFinset else ∅⟩ : Directory C)
    rw [hq,hsharers,getLast?_concat]
    rfl
  · intro x
    have hacked : ((g.join c copy).phase x).acked=(g.phase x).acked := by
      rcases eq_or_ne x c with rfl | hx
      · rw [hself,hp]
        rfl
      · rw [hother x hx]
    have hw' : (g.join c copy).writers=g.writers++[c] := rfl
    have hi' : (g.join c copy).invalidated=g.invalidated := rfl
    have hm' : (g.join c copy).mode=g.mode := rfl
    rw [forwardedTo_singleton]
    unfold forwards
    rw [hacked,hw',hi',hm',hq,hl,head?_append_of_ne_nil _ hw,successor_append hnodup,hl]
    rcases eq_or_ne l x with rfl | hx
    · rw [h.last_not_acked hq hl,successor_getLast h.nodup hl]
      simp [Mode.downgrade]
    · have hxl : x≠l := hx.symm
      simp [Mode.downgrade,hx,hxl]
  · rfl
  · rfl
  · exact (add_zero _).symm
  · rfl
  · rfl

theorem get_stall (h : g.Inv) (he : g.system.dir.requestIn m = .ok event)
    (hevent : event = .GetS ∨ event = .GetM) (hq : g.mode ≠ .invalid ∧ g.mode ≠ .shared ∧ g.mode ≠ .owned) :
    g.Yields (g.system.step (.request c m)) := by
  refine request_stall h he ?_
  show Directory.doTransition _ event (⟨g.mode.dirState,g.sharers,g.owner⟩ : Directory C) =
    .ok (Directory.Turn.start ⟨g.mode.dirState,g.sharers,g.owner⟩)
  cases hm : g.mode with
  | invalid => exact absurd hm hq.1
  | shared => exact absurd hm hq.2.1
  | owned => exact absurd hm hq.2.2
  | _ => rcases hevent with rfl | rfl <;> rfl

theorem get_step (h : g.Inv) (hm : m∈(g.phase c).request c g.block) (ht : m.type = .GetS ∨ m.type = .GetM) :
    g.Yields (g.system.step (.request c m)) := by
  cases hp : g.phase c with
  | loadAsked =>
    rw [hp] at hm
    obtain rfl:=Multiset.mem_singleton.mp hm
    by_cases hrest : g.mode = .invalid ∨ g.mode = .shared
    · exact read_step h hp hrest
    · rw [not_or] at hrest
      by_cases hq : g.mode = .owned
      · exact close_step h hp hq
      · exact get_stall h rfl (.inl rfl) ⟨hrest.1,hrest.2,hq⟩
  | storeAsked copy =>
    rw [hp] at hm
    obtain rfl:=Multiset.mem_singleton.mp hm
    by_cases hrest : g.mode = .invalid ∨ g.mode = .shared
    · exact fetch_step h hp hrest
    · rw [not_or] at hrest
      by_cases hq : g.mode = .owned
      · exact join_step h hp hq
      · exact get_stall h rfl (.inr rfl) ⟨hrest.1,hrest.2,hq⟩
  | ownerPut =>
    rw [hp] at hm
    obtain rfl:=Multiset.mem_singleton.mp hm
    simp at ht
  | sharerPut v dirty | invalidPut v dirty =>
    rw [hp] at hm
    obtain rfl:=Multiset.mem_singleton.mp hm
    cases dirty <;> simp [Phase.put] at ht
  | _ =>
    rw [hp] at hm
    exact absurd hm (Multiset.notMem_zero m)

end Protocol

end AquaGem5.Ruby.MSI
