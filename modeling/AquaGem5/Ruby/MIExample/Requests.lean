import AquaGem5.Ruby.MIExample.Forwards

/-!
# Requests of caches arriving at the directory

A `GETX` joins the queue of caches the block is promised to. While the directory waits for the owner's block it has no
transition for the `PUTX` of another cache.
-/

namespace AquaGem5.Ruby.MIExample
open Checked Succession Function List

variable {C D : Type} {n : ℕ} {B : Type} {exact : Prop} {c o : C} {d : D} {g g' : Protocol C D n B}

namespace Mode

def busy {V : Type} : Mode C D B V → Bool
  | fetching _ _ => true
  | retiring _ _ _ => true
  | dmaReading _ _ _ => true
  | dmaWriting _ _ _ => true
  | _ => false

def awaits {V : Type} : Mode C D B V → Bool
  | recalling _ _ => true
  | returning _ _ _ _ _ => true
  | _ => false

variable {V : Type}

theorem recycles_of_busy {mode : Mode C D B V} (h : mode.busy=true) {event : Directory.Event}
    (he : event = .GETX ∨ event = .PUTX ∨ event = .PUTX_NotOwner) :
    Directory.transition mode.dirState event=some ([.recycleRequestQueue],mode.dirState) := by
  cases mode with
  | fetching writer answered | retiring source v answered | dmaReading d pkt answered | dmaWriting d pkt answered =>
    obtain rfl | rfl | rfl := he <;> rfl
  | _ => cases h

theorem recycles_of_awaits {mode : Mode C D B V} (h : mode.awaits=true) :
    Directory.transition mode.dirState .GETX=some ([.recycleRequestQueue],mode.dirState) := by
  cases mode with
  | recalling d pkt | returning d pkt source v answered =>
    cases hw : pkt.write <;> simp [dirState,hw,Directory.transition]
  | _ => cases h

end Mode

namespace Protocol

theorem Inv.last_quiet [DecidableEq C] [DecidableEq D] [Inhabited B] (h : g.Inv exact) (hm : g.mode = .owned)
    (ho : g.writers.getLast?=some o) : g.system.forwardFromDir o=[] := by
  have hmem : o∈g.writers := mem_of_getLast? ho
  have hnext : successor g.writers o=none := successor_getLast h.nodup ho
  have hinv : o∉g.invalidated := by
    intro hinv
    have hrecalls:=(h.invalidated o hinv hmem).2
    rw [hm] at hrecalls
    cases hrecalls
  have hfits:=h.fits o
  cases hp : g.phase o with
  | putNacked v =>
    rw [hp] at hfits
    exact (hfits.2.2.2 ho).elim
  | goneNacked v | acked v =>
    rw [hp] at hfits
    exact (hfits.1 hmem).elim
  | _ => simp [system,notices,hnext,hinv,hp,Phase.ack]

variable [DecidableEq C] [DecidableEq D] [Inhabited B]

variable {m : RequestMsg C (Block n B)} {event : Directory.Event}

theorem request_result {t : Directory.Turn C D (Block n B)} (hlist : (g.phase c).request c=[m])
    (he : g.system.dir.requestQueueIn m = .ok event)
    (ht : Directory.doTransition ⟨none,some m,none⟩ event g.system.dir = .ok t) :
    g.system.step (.request c) = .ok ({g.system.afterDirectory t with
      requestToDir := update g.system.requestToDir c (System.taken t.takeRequest [m])},
      t.dmaResponses.map System.answerReport) := by
  have hchannel : g.system.requestToDir c=[m] := hlist
  simp only [System.step,hchannel,head?_cons,orFault,he,ht,bind,Except.bind,pure,Except.pure]

variable {p : Phase C D (Block n B)}

theorem request_leads (g' : Protocol C D n B) {t : Directory.Turn C D (Block n B)} (hlist : (g.phase c).request c=[m])
    (he : g.system.dir.requestQueueIn m = .ok event)
    (ht : Directory.doTransition ⟨none,some m,none⟩ event g.system.dir = .ok t) (hleads : Leads g g' t)
    (hphase : g'.phase=update g.phase c p) (hrequest : p.request c=System.taken t.takeRequest [m])
    (hdma : ∀ x,(g'.dma x).request x=(g.dma x).request x)
    (hmemory : g'.mode.responseFromMemory=g.mode.responseFromMemory) (hinv : g'.Inv exact)
    (hreports : Evolves exact g (t.dmaResponses.map System.answerReport) g') :
    g.Yields exact (g.system.step (.request c)) := by
  rw [request_result hlist he ht]
  refine ⟨g',_,?_,hinv,hreports⟩
  rw [hleads.system]
  congr 2
  apply System.ext
  case requestToDir =>
    funext x
    by_cases hx : x=c
    · subst hx
      simp [system,hphase,hrequest]
    · simp [system,hphase,hx]
  case dmaRequestToDir => exact (funext hdma).symm
  case responseFromMemory => exact hmemory.symm
  all_goals rfl

theorem recycle_request (h : g.Inv exact)
    (hlist : (g.phase c).request c=[m]) (he : g.system.dir.requestQueueIn m = .ok event)
    (hrecycles : Directory.transition g.mode.dirState event=some ([.recycleRequestQueue],g.mode.dirState)) :
    g.Yields exact (g.system.step (.request c)) :=
  request_leads g hlist he (h.turn_dir hrecycles rfl rfl) (leads_self g .recycle .stay .stay)
    (update_eq_self c g.phase).symm (by simpa using hlist) (fun _ => rfl) rfl h (.silent g rfl rfl)

omit [DecidableEq D] [Inhabited B] in
theorem of_update {α : Type} (f : Phase C D (Block n B) → α) (hp : f p=f (g.phase c))
    (x : C) : f (update g.phase c p x)=f (g.phase x) := by
  by_cases hx : x=c
  · subst hx
    simpa using hp
  · simp [hx]

variable {v : Block n B}

theorem nack_request (h : g.Inv exact)
    (hmode : g.mode = .invalid ∨ g.mode = .owned) (hlist : (g.phase c).request c=[⟨.PUTX,c,v⟩])
    (hlast : c∉g.owner) (hp : g.Fits c p) (hcache : p.cache=(g.phase c).cache) (hrequest : p.request c=[])
    (hack : p.ack c=[⟨.WB_NACK,.L1Cache c,default⟩]) (hold : (g.phase c).ack c=[])
    (hdata : ∀ source,p.data source=(g.phase c).data source) : g.Yields exact (g.system.step (.request c)) := by
  have he : g.system.dir.requestQueueIn ⟨.PUTX,c,v⟩ = .ok .PUTX_NotOwner := if_neg hlast
  have hactions : Directory.transition g.mode.dirState .PUTX_NotOwner =
      some ([.sendWriteBackNack,.popIncomingRequestQueue],g.mode.dirState) := by
    obtain hm | hm:=hmode <;> rw [hm] <;> rfl
  have hleads : Leads g (g.enter c p)
      ⟨g.system.dir,[({c},⟨.WB_NACK,.L1Cache c,default⟩)],[],[],[],.pop,.stay,.stay⟩ :=
    { cache := of_update (fun q => q.cache) hcache
      dir := rfl
      forwards := by
        intro x
        by_cases hx : x=c
        · subst hx
          simp [system,hack,hold]
        · simp [system,hx]
      responses := fun source x => by
        simpa [enter] using of_update (fun q => q.data source) (hdata source) x
      controller := fun _ => rfl
      dmaResponses := fun x => by simp [enter]
      memoryRequests := by simp
      memory := rfl}
  exact request_leads _ hlist he (h.turn_dir hactions rfl rfl) hleads rfl hrequest (fun _ => rfl) rfl (h.enter hp)
    (.silent _ rfl rfl)

def fetch (g : Protocol C D n B) (c : C) (store : Bool) (stale : Block n B) : Protocol C D n B :=
  {g.enter c (.queued store stale) with mode := .fetching c none,writers := [c]}

variable {stale : Block n B} {store : Bool}

omit [DecidableEq D] in
theorem Inv.fetch (h : g.Inv exact) (hp : g.phase c = .asked store stale)
    (hm : g.mode = .invalid) : (g.fetch c store stale).Inv exact := by
  have hmode:=h.mode
  rw [hm] at hmode
  obtain ⟨hw,hmemory⟩:=hmode
  have hc:=h.fits c
  rw [hp] at hc
  constructor
  · exact nodup_singleton c
  · intro x
    by_cases hx : x=c
    · subst hx
      simp [Protocol.fetch,Fits,Mode.fetches]
    · have hfits:=h.fits x
      simp only [Protocol.fetch,enter_phase_of_ne g _ hx]
      cases hq : g.phase x <;> simp_all [Fits,Mode.source]
  · intro x hx hmem
    obtain rfl:=mem_singleton.mp hmem
    exact (hc.2.2 hx).elim
  · refine ⟨rfl,hmemory,?_⟩
    intro v hv
    cases hv
  · have hserves:=h.serves
    rw [hm] at hserves
    exact hserves
  · exact h.aligned

theorem fetch_request (h : g.Inv exact) (hp : g.phase c = .asked store stale)
    (hm : g.mode = .invalid) : g.Yields exact (g.system.step (.request c)) := by
  have hmode:=h.mode
  rw [hm] at hmode
  have hlist : (g.phase c).request c=[⟨.GETX,c,default⟩] := by rw [hp]; rfl
  have hdir : g.system.dir=⟨.I,∅,∅,none⟩ := by simp [system,hm,Mode.dirState,Mode.tbe,owner,Mode.owns]
  have ht : Directory.doTransition ⟨none,some ⟨.GETX,c,default⟩,none⟩ .GETX g.system.dir =
      .ok ⟨⟨.IM,∅,{c},some ⟨0,.IM,default,0,none⟩⟩,[],[],[],[⟨.MEMORY_READ,.L1Cache c,default,0⟩],.pop,.stay,
        .stay⟩ := by
    rw [hdir]
    rfl
  refine request_leads (g.fetch c store stale) hlist rfl ht ?_ rfl rfl (fun _ => rfl) (by rw [hm]; rfl)
    (h.fetch hp hm) (.silent _ rfl rfl)
  constructor
  · exact of_update (fun q => q.cache) (by rw [hp]; rfl)
  · simp [system,fetch,Mode.dirState,Mode.tbe,owner,Mode.owns]
  · intro x
    have hack:=of_update (c := c) (p := .queued store stale) (fun q => q.ack x) (by rw [hp]; rfl) x
    simpa [system,fetch,notices,hmode.1,enter] using hack
  · intro source x
    simpa [fetch,enter] using of_update (c := c) (p := .queued store stale) (fun q => q.data source) (by rw [hp]; rfl) x
  · exact fun _ => rfl
  · exact fun x => by simp [fetch,enter]
  · simp [fetch,hm,Mode.requestToMemory]
  · rfl

def join (g : Protocol C D n B) (c : C) (store : Bool) (stale : Block n B) : Protocol C D n B :=
  {g.enter c (.queued store stale) with writers := g.writers++[c]}

omit [DecidableEq D] in
theorem Inv.join (h : g.Inv exact) (hp : g.phase c = .asked store stale)
    (hm : g.mode = .owned) : (g.join c store stale).Inv exact := by
  have hmode:=h.mode
  rw [hm] at hmode
  have hne : g.writers≠[] := hmode
  have hc:=h.fits c
  rw [hp] at hc
  have hhead : (g.writers++[c]).head?=g.writers.head? := head?_append_of_ne_nil g.writers hne
  constructor
  · show (g.writers++[c]).Nodup
    rw [← concat_eq_append]
    exact h.nodup.concat hc.1
  · intro x
    by_cases hx : x=c
    · subst hx
      have hnot : g.writers.head?≠some x := fun hx => hc.1 (mem_of_head hx)
      simp [Protocol.join,Fits,hhead,hnot]
    · have hfits:=h.fits x
      simp only [Protocol.join,enter_phase_of_ne g _ hx]
      cases hq : g.phase x <;> simp_all [Fits,Ne.symm hx]
  · intro x hx hmem
    cases mem_append.mp hmem with
    | inl hmem =>
      have hrecalls:=(h.invalidated x hx hmem).2
      rw [hm] at hrecalls
      cases hrecalls
    | inr hmem =>
      obtain rfl:=mem_singleton.mp hmem
      exact (hc.2.2 hx).elim
  · show ModeFits exact (g.join c store stale) g.mode
    rw [hm]
    exact append_ne_nil_of_right_ne_nil _ (cons_ne_nil c [])
  · exact h.serves
  · exact h.aligned

theorem join_request (h : g.Inv exact) (hp : g.phase c = .asked store stale)
    (hm : g.mode = .owned) : g.Yields exact (g.system.step (.request c)) := by
  obtain ⟨o,hlast,ho⟩:=h.owner_of_owns (by rw [hm]; rfl)
  have hjoin:=h.join hp hm
  have hlist : (g.phase c).request c=[⟨.GETX,c,default⟩] := by rw [hp]; rfl
  have hdir : g.system.dir=⟨.M,∅,{o},none⟩ := by simp [system,hm,Mode.dirState,Mode.tbe,ho]
  have ht : Directory.doTransition ⟨none,some ⟨.GETX,c,default⟩,none⟩ .GETX g.system.dir =
      .ok ⟨⟨.M,∅,{c},none⟩,[({o},⟨.GETX,.L1Cache c,default⟩)],[],[],[],.pop,.stay,.stay⟩ := by
    rw [hdir]
    rfl
  refine request_leads (g.join c store stale) hlist rfl ht ?_ rfl rfl (fun _ => rfl) rfl hjoin
    (.silent _ rfl rfl)
  constructor
  · exact of_update (fun q => q.cache) (by rw [hp]; rfl)
  · simp [system,join,owner,hm,Mode.dirState,Mode.tbe,Mode.owns]
  · intro x
    have hack:=of_update (c := c) (p := .queued store stale) (fun q => q.ack x) (by rw [hp]; rfl) x
    have hnext:=successor_append hjoin.nodup x
    by_cases hx : x=o
    · subst hx
      have hquiet:=h.last_quiet hm hlast
      have hnone:=successor_getLast h.nodup hlast
      simp_all [system,join,notices,enter]
    · have hne : g.writers.getLast?≠some x := fun hx' => hx (Option.some.inj (hx'.symm.trans hlast))
      simp_all [system,join,notices,enter]
  · intro source x
    simpa [join,enter] using of_update (c := c) (p := .queued store stale) (fun q => q.data source) (by rw [hp]; rfl) x
  · exact fun _ => rfl
  · exact fun x => by simp [join,enter]
  · simp [join]
  · rfl

def retire (g : Protocol C D n B) (c : C) (v : Block n B) (mode : Mode C D B (Block n B))
    (dma : D → DMAPhase B (Block n B)) : Protocol C D n B :=
  {g.enter c (.retired v) with mode,writers := [],dma}

omit [DecidableEq C] [DecidableEq D] in
theorem Inv.alone (h : g.Inv exact) (hp : g.phase c = .put v)
    (hlast : g.writers.getLast?=some c) : g.writers=[c] := by
  have hfits:=h.fits c
  rw [hp] at hfits
  obtain ⟨l,hw⟩ : ∃ l,g.writers=c::l := head?_eq_some_iff.mp hfits.1
  have hnodup:=h.nodup
  rw [hw] at hnodup hlast ⊢
  rw [eq_singleton_of_getLast hnodup hlast]

variable {dma : D → DMAPhase B (Block n B)} {mode : Mode C D B (Block n B)}

omit [DecidableEq D] in
theorem Inv.retire (h : g.Inv exact) (hp : g.phase c = .put v) (hw : g.writers=[c]) (hnone : g.mode.source=none)
    (hsource : mode.source=some c) (hmode : (g.retire c v mode dma).ModeFits exact mode)
    (hserves : ∀ d pkt,dma d = .taken pkt ↔ mode.serves=some (d,pkt))
    (hcurrent : ∀ d,(dma d).current=(g.dma d).current) : (g.retire c v mode dma).Inv exact where
  nodup := nodup_nil
  fits x := by
    by_cases hx : x=c
    · subst hx
      simp [Protocol.retire,Fits,hsource]
    · have hfits:=h.fits x
      simp only [Protocol.retire,enter_phase_of_ne g _ hx]
      cases hq : g.phase x <;> simp_all [Fits,Ne.symm hx]
  invalidated x _ hmem := by cases hmem
  mode := hmode
  serves := hserves
  aligned he d pkt hcur := h.aligned he d pkt (hcurrent d ▸ hcur)

theorem retire_leads (hp : g.phase c = .put v) (hw : g.writers=[c]) (howns : mode.owns=false)
    {dmaResponses : List (D × DMAResponseMsg (Block n B))} (hcontroller : ∀ x,(dma x).controller=(g.dma x).controller)
    (hresponses : ∀ x,(dma x).response=(g.dma x).response++System.sentTo x dmaResponses)
    (hmemory : g.mode.requestToMemory=[]) : Leads g (g.retire c v mode dma)
      ⟨⟨mode.dirState,∅,∅,mode.tbe⟩,[],[],dmaResponses,mode.requestToMemory,.pop,.stay,.stay⟩ where
  cache := of_update (fun q => q.cache) (by rw [hp]; rfl)
  dir := by simp [system,retire,owner,howns]
  forwards x := by
    have hack:=of_update (c := c) (p := .retired v) (fun q => q.ack x) (by rw [hp]; rfl) x
    simpa [system,retire,notices,hw,enter] using hack
  responses source x := by
    simpa [retire,enter] using of_update (c := c) (p := .retired v) (fun q => q.data source) (by rw [hp]; rfl) x
  controller := hcontroller
  dmaResponses := hresponses
  memoryRequests := by simp [hmemory,retire]
  memory := rfl

theorem retire_yields (hp : g.phase c = .put v) (hw : g.writers=[c])
    (dmaResponses : List (D × DMAResponseMsg (Block n B))) (howns : mode.owns=false) (hm : g.mode.owns=true)
    (ht : Directory.doTransition ⟨none,some ⟨.PUTX,c,v⟩,none⟩ .PUTX g.system.dir =
      .ok ⟨⟨mode.dirState,∅,∅,mode.tbe⟩,[],[],dmaResponses,mode.requestToMemory,.pop,.stay,.stay⟩)
    (hcontroller : ∀ x,(dma x).controller=(g.dma x).controller)
    (hresponses : ∀ x,(dma x).response=(g.dma x).response++System.sentTo x dmaResponses)
    (hrequest : ∀ x,(dma x).request x=(g.dma x).request x)
    (hto : g.mode.requestToMemory=[]) (hfrom : mode.responseFromMemory=g.mode.responseFromMemory) (hinv : (g.retire c v mode dma).Inv exact)
    (hreports : Evolves exact g (dmaResponses.map System.answerReport) (g.retire c v mode dma)) :
    g.Yields exact (g.system.step (.request c)) := by
  have hlist : (g.phase c).request c=[⟨.PUTX,c,v⟩] := by rw [hp]; rfl
  have howner : c∈g.system.dir.owner := by simp [system,owner,hm,hw]
  exact request_leads _ hlist (if_pos howner) ht (retire_leads hp hw howns hcontroller hresponses hto) rfl rfl hrequest
    hfrom hinv hreports

theorem retire_request (h : g.Inv exact) (hp : g.phase c = .put v) (hm : g.mode = .owned)
    (hlast : g.writers.getLast?=some c) : g.Yields exact (g.system.step (.request c)) := by
  have hw:=h.alone hp hlast
  have hfits:=h.fits c
  rw [hp] at hfits
  have hserves:=h.serves
  rw [hm] at hserves
  have hdir : g.system.dir=⟨.M,∅,{c},none⟩ := by simp [system,hm,Mode.dirState,Mode.tbe,owner,Mode.owns,hw]
  have hinv : (g.retire c v (.retiring c v false) g.dma).Inv exact :=
    h.retire hp hw (by rw [hm]; rfl) rfl ⟨rfl,hfits.2.2,fun hf => by cases hf⟩ hserves fun _ => rfl
  exact retire_yields hp hw [] rfl (by rw [hm]; rfl) (by rw [hdir]; rfl) (fun _ => rfl) (fun x => (append_nil _).symm)
    (fun _ => rfl) (by rw [hm]; rfl) (by rw [hm]; rfl) hinv (.silent _ rfl rfl)

def MergesExactly (g : Protocol C D n B) (c : C) : Prop :=
  ∀ d pkt,g.mode = .recalling d pkt → pkt.write=true → (∃ v,g.phase c = .put v) → g.writers.getLast?=some c →
    merged pkt g.memory=overlay pkt g.block

theorem return_read (h : g.Inv exact) {pkt : DMARequest B} (hp : g.phase c = .put v)
    (hm : g.mode = .recalling d pkt) (hr : pkt.write=false) (hlast : g.writers.getLast?=some c) :
    g.Yields exact (g.system.step (.request c)) := by
  have hw:=h.alone hp hlast
  have hfits:=h.fits c
  rw [hp] at hfits
  obtain ⟨-,-,rfl⟩:=hfits
  have hd : g.dma d = .taken pkt := (h.serves d pkt).mpr (by rw [hm]; rfl)
  have hdir : g.system.dir=⟨.M_DRD,∅,{c},some (Mode.dmaTBE .M_DRD d pkt)⟩ := by
    simp [system,hm,Mode.dirState,Mode.tbe,owner,Mode.owns,hw,hr]
  have hinv : (g.retire c g.block (.returning d pkt c g.block false)
      (update g.dma d (.answered pkt g.block))).Inv exact := by
    refine h.retire hp hw (by rw [hm]; rfl) rfl ?_ ?_ ?_
    · simp [ModeFits,retire,hr]
    · intro x q
      have hserves:=h.serves x q
      rw [hm] at hserves
      by_cases hx : x=d
      · subst hx
        simp [Mode.serves,hr]
      · simp_all [Mode.serves,Ne.symm hx]
    · intro x
      by_cases hx : x=d
      · subst hx
        simp [hd,DMAPhase.current]
      · simp [hx]
  have hdma : ∀ x,(update g.dma d (.answered pkt g.block) x).controller=(g.dma x).controller ∧
      (update g.dma d (.answered pkt g.block) x).request x=(g.dma x).request x ∧
      (update g.dma d (.answered pkt g.block) x).response =
        (g.dma x).response++System.sentTo x [(d,⟨.DATA,g.block⟩)] := by
    intro x
    by_cases hx : x=d
    · subst hx
      simp [hd,DMAPhase.controller,DMAPhase.current,DMAPhase.request,DMAPhase.response,hr]
    · simp [hx,Ne.symm hx]
  refine retire_yields hp hw [(d,⟨.DATA,g.block⟩)] rfl (by rw [hm]; rfl) ?_ (fun x => (hdma x).1)
    (fun x => (hdma x).2.2) (fun x => (hdma x).2.1) (by rw [hm]; rfl) (by rw [hm]; rfl) hinv
    (.answers _ d pkt rfl hd hr rfl)
  rw [hdir]
  simp [Mode.dirState,Mode.tbe,Mode.requestToMemory,hr]
  rfl

theorem return_write (h : g.Inv exact) {pkt : DMARequest B} (hp : g.phase c = .put v)
    (hm : g.mode = .recalling d pkt) (hr : pkt.write=true) (hlast : g.writers.getLast?=some c)
    (hmerge : exact → g.MergesExactly c) : g.Yields exact (g.system.step (.request c)) := by
  have hw:=h.alone hp hlast
  have hfits:=h.fits c
  rw [hp] at hfits
  have hserves:=h.serves
  rw [hm] at hserves
  have hdir : g.system.dir=⟨.M_DWR,∅,{c},some (Mode.dmaTBE .M_DWR d pkt)⟩ := by
    simp [system,hm,Mode.dirState,Mode.tbe,owner,Mode.owns,hw,hr]
  have hinv : (g.retire c v (.returning d pkt c v false) g.dma).Inv exact := by
    refine h.retire hp hw (by rw [hm]; rfl) rfl ?_ ?_ fun _ => rfl
    · refine ⟨rfl,hfits.2.2,fun hf => ?_,fun he _ => ?_⟩
      · rw [hr] at hf
        cases hf
      · exact hmerge he d pkt hm hr ⟨v,hp⟩ hlast
    · simpa [Mode.serves,hr] using hserves
  refine retire_yields hp hw [] rfl (by rw [hm]; rfl) ?_ (fun _ => rfl) (fun x => (append_nil _).symm)
    (fun _ => rfl) (by rw [hm]; rfl) (by rw [hm]; rfl) hinv (.silent _ rfl rfl)
  rw [hdir]
  simp [Mode.dirState,Mode.tbe,Mode.requestToMemory,hr]
  rfl

def Takes (g : Protocol C D n B) (c : C) : Prop :=
  g.mode.awaits=true → ∀ m∈(g.phase c).request c,m.type = .PUTX → c∈g.owner

section

omit [DecidableEq C] [DecidableEq D] [Inhabited B]

theorem last_of_owner (hc : c∈g.owner) : g.writers.getLast?=some c := by
  unfold owner at hc
  split at hc
  · simpa using hc
  · simp at hc

theorem not_mem_owner (hlast : g.writers.getLast?≠some c) : c∉g.owner := fun hc => hlast (last_of_owner hc)

end

theorem getx_yields (h : g.Inv exact) (hp : g.phase c = .asked store stale) :
    g.Yields exact (g.system.step (.request c)) := by
  have hlist : (g.phase c).request c=[⟨.GETX,c,default⟩] := by rw [hp]; rfl
  cases hm : g.mode with
  | invalid => exact fetch_request h hp hm
  | owned => exact join_request h hp hm
  | recalling d pkt => exact recycle_request h hlist rfl (Mode.recycles_of_awaits (by rw [hm]; rfl))
  | returning d pkt source v answered =>
    exact recycle_request h hlist rfl (Mode.recycles_of_awaits (by rw [hm]; rfl))
  | _ => exact recycle_request h hlist rfl (Mode.recycles_of_busy (by rw [hm]; rfl) (.inl rfl))

theorem recycle_putx (h : g.Inv exact) (hlist : (g.phase c).request c=[⟨.PUTX,c,v⟩])
    (hbusy : g.mode.busy=true) : g.Yields exact (g.system.step (.request c)) := by
  by_cases hc : c∈g.owner
  · exact recycle_request h hlist (if_pos hc) (Mode.recycles_of_busy hbusy (.inr (.inl rfl)))
  · exact recycle_request h hlist (if_neg hc) (Mode.recycles_of_busy hbusy (.inr (.inr rfl)))

theorem putx_yields (h : g.Inv exact) (hp : g.phase c = .put v) (htakes : g.Takes c)
    (hmerge : exact → g.MergesExactly c) : g.Yields exact (g.system.step (.request c)) := by
  have hfits:=h.fits c
  rw [hp] at hfits
  have hne : g.writers≠[] := ne_nil_of_mem (mem_of_head hfits.1)
  have hlist : (g.phase c).request c=[⟨.PUTX,c,v⟩] := by rw [hp]; rfl
  have hmode:=h.mode
  cases hm : g.mode with
  | invalid | returning d pkt source w answered =>
    rw [hm] at hmode
    exact (hne hmode.1).elim
  | owned =>
    by_cases hlast : g.writers.getLast?=some c
    · exact retire_request h hp hm hlast
    · exact nack_request (p := .putNacked v) h (.inr hm) hlist (not_mem_owner hlast)
        ⟨hfits.1,hfits.2.1,hfits.2.2,hlast⟩ (by rw [hp]; rfl) rfl rfl (by rw [hp]; rfl) (by rw [hp]; exact fun _ => rfl)
  | recalling d pkt =>
    have hlast : g.writers.getLast?=some c :=
      last_of_owner (htakes (by rw [hm]; rfl) _ (hlist ▸ mem_singleton_self _) rfl)
    cases hr : pkt.write with
    | false => exact return_read h hp hm hr hlast
    | true => exact return_write h hp hm hr hlast hmerge
  | _ => exact recycle_putx h hlist (by rw [hm]; rfl)

theorem late_putx_yields (h : g.Inv exact) (hp : g.phase c = .gone v) (htakes : g.Takes c) :
    g.Yields exact (g.system.step (.request c)) := by
  have hfits:=h.fits c
  rw [hp] at hfits
  have hlist : (g.phase c).request c=[⟨.PUTX,c,v⟩] := by rw [hp]; rfl
  have hlast : g.writers.getLast?≠some c := fun hlast => hfits.1 (mem_of_getLast? hlast)
  have hnack : g.mode = .invalid ∨ g.mode = .owned → g.Yields exact (g.system.step (.request c)) := fun hm =>
    nack_request (p := .goneNacked v) h hm hlist (not_mem_owner hlast) hfits (by rw [hp]; rfl) rfl rfl
      (by rw [hp]; rfl) (by rw [hp]; exact fun _ => rfl)
  have hrefused : g.mode.awaits=false := by
    by_contra ha
    exact not_mem_owner hlast (htakes (Bool.eq_true_of_not_eq_false ha) _ (hlist ▸ mem_singleton_self _) rfl)
  cases hm : g.mode with
  | invalid => exact hnack (.inl hm)
  | owned => exact hnack (.inr hm)
  | recalling d pkt | returning d pkt source w answered => simp [hm,Mode.awaits] at hrefused
  | _ => exact recycle_putx h hlist (by rw [hm]; rfl)

theorem request_yields (h : g.Inv exact) (hne : g.system.requestToDir c≠[]) (htakes : g.Takes c)
    (hmerge : exact → g.MergesExactly c) : g.Yields exact (g.system.step (.request c)) := by
  have hchannel : g.system.requestToDir c=(g.phase c).request c := rfl
  rw [hchannel] at hne
  cases hp : g.phase c with
  | asked store stale => exact getx_yields h hp
  | put v => exact putx_yields h hp htakes hmerge
  | gone v => exact late_putx_yields h hp htakes
  | _ =>
    rw [hp] at hne
    exact (hne rfl).elim

end Protocol

end AquaGem5.Ruby.MIExample
