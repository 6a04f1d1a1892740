import AquaGem5.Ruby.MIExample.DmaRequests

/-!
# The memory and its answers

The memory reads and writes for the directory, one message at a time. A DMA write that lies at the start of its block
is written as it is.
-/

namespace AquaGem5.Ruby.MIExample
open Checked Succession

variable {C D : Type} {n : ℕ} {B : Type} {exact : Prop} {c : C} {d : D} {pkt : DMARequest B} {g g' : Protocol C D n B}

namespace Protocol

section

variable [Inhabited B]

theorem merged_of_aligned (haligned : Aligned n pkt) (hw : pkt.write=true) (memory : Block n B) :
    merged pkt memory=overlay pkt memory := by
  obtain ⟨hoffset,hpos,hlen⟩:=haligned
  funext i
  simp only [merged,overlay,DMASequencer.makeRequest,DMASequencer.setData,hoffset,zero_add,hlen,hpos,hw,if_true,
    Nat.sub_zero,Nat.zero_le,true_and]
  by_cases hi : i.val<pkt.len <;> simp [hi]

omit [Inhabited B] in
theorem service_block (sender : MachineID C D) (v memory : Block n B) :
    System.serviceMemoryQueue ⟨.MEMORY_WB,sender,v,0⟩ memory=v := by
  funext i
  simp [System.serviceMemoryQueue]

theorem service_writeback (sender : MachineID C D) (d : D) (pkt : DMARequest B) (memory : Block n B) :
    System.serviceMemoryQueue (Mode.writeback sender d pkt) memory=merged pkt memory := rfl

end

end Protocol

namespace Mode

def answer {V : Type} (memory : V) : Mode C D B V → Mode C D B V
  | fetching w _ => fetching w (some memory)
  | retiring source v _ => retiring source v true
  | dmaReading d pkt _ => dmaReading d pkt (some memory)
  | dmaWriting d pkt _ => dmaWriting d pkt true
  | returning d pkt source v _ => returning d pkt source v true
  | invalid => invalid
  | owned => owned
  | recalling d pkt => recalling d pkt

section

variable {V : Type} (memory : V) (mode : Mode C D B V)

@[simp] theorem answer_dirState : (mode.answer memory).dirState=mode.dirState := by cases mode <;> rfl

@[simp] theorem answer_owns : (mode.answer memory).owns=mode.owns := by cases mode <;> rfl

@[simp] theorem answer_source : (mode.answer memory).source=mode.source := by cases mode <;> rfl

@[simp] theorem answer_fetches : (mode.answer memory).fetches=mode.fetches := by cases mode <;> rfl

@[simp] theorem answer_recalls : (mode.answer memory).recalls=mode.recalls := by cases mode <;> rfl

@[simp] theorem answer_serves : (mode.answer memory).serves=mode.serves := by cases mode <;> rfl

end

variable [Inhabited B]

@[simp] theorem answer_tbe (memory : Block n B) (mode : Mode C D B (Block n B)) :
    (mode.answer memory).tbe=mode.tbe := by
  cases mode <;> rfl

@[simp] theorem answer_requestToMemory (memory : Block n B) (mode : Mode C D B (Block n B)) :
    (mode.answer memory).requestToMemory=[] := by
  cases mode <;> rfl

theorem answer_responseFromMemory (memory : Block n B) {mode : Mode C D B (Block n B)} {m : MemoryMsg C D (Block n B)}
    (h : mode.requestToMemory=[m]) : mode.responseFromMemory=[] ∧
      (mode.answer memory).responseFromMemory=[System.recvTimingResp m memory] := by
  cases mode with
  | fetching w answered | dmaReading d pkt answered =>
    cases answered with
    | some v => cases h
    | none =>
      cases h
      exact ⟨rfl,rfl⟩
  | retiring source v answered | dmaWriting d pkt answered =>
    cases answered with
    | true => cases h
    | false =>
      cases h
      exact ⟨rfl,rfl⟩
  | returning d pkt source v answered =>
    cases answered with
    | true => cases h
    | false =>
      have hm : (if pkt.write then writeback (.L1Cache source) d pkt
          else ⟨.MEMORY_WB,.L1Cache source,v,0⟩)=m := by
        cases hw : pkt.write <;> simpa [requestToMemory,hw] using h
      subst hm
      cases hw : pkt.write <;> exact ⟨rfl,rfl⟩
  | _ => cases h

end Mode

namespace Protocol

def remember [Inhabited B] (g : Protocol C D n B) (m : MemoryMsg C D (Block n B)) : Protocol C D n B :=
  {g with mode := g.mode.answer g.memory,memory := System.serviceMemoryQueue m g.memory}

variable {m : MemoryMsg C D (Block n B)}

theorem Inv.remember [Inhabited B] (h : g.Inv exact)
    (hmode : (g.remember m).ModeFits exact (g.mode.answer g.memory)) : (g.remember m).Inv exact where
  nodup := h.nodup
  fits x := by
    have hfits:=h.fits x
    show (g.remember m).Fits x (g.phase x)
    cases hp : g.phase x <;> simp_all [Fits,Protocol.remember]
  invalidated x hx hmem := by simpa [Protocol.remember] using h.invalidated x hx hmem
  mode := hmode
  serves x q := by simpa [Protocol.remember] using h.serves x q
  aligned := h.aligned

variable [DecidableEq C] [DecidableEq D] [Inhabited B]

theorem remember_system (hlist : g.mode.requestToMemory=[m]) : (g.remember m).system={g.system with
      requestToMemory := []
      responseFromMemory := g.system.responseFromMemory++[System.recvTimingResp m g.memory]
      memory := System.serviceMemoryQueue m g.memory} := by
  obtain ⟨hnone,hanswer⟩:=Mode.answer_responseFromMemory g.memory hlist
  apply System.ext
  case dir => simp [system,remember,owner]
  case requestToMemory => simp [system,remember]
  case responseFromMemory => simp [system,remember,hnone,hanswer]
  all_goals rfl

theorem remember_yields (h : g.Inv exact) (hlist : g.mode.requestToMemory=[m])
    (hmode : (g.remember m).ModeFits exact (g.mode.answer g.memory)) : g.Yields exact (g.system.step .memoryRequest) := by
  have hchannel : g.system.requestToMemory=[m] := hlist
  refine ⟨g.remember m,[],?_,h.remember hmode,.silent _ rfl rfl⟩
  rw [remember_system hlist]
  simp only [System.step,hchannel,List.head?_cons,orFault,bind,Except.bind,pure,Except.pure,List.tail_cons]
  rfl

theorem memoryRequest_yields (h : g.Inv exact) (hne : g.system.requestToMemory≠[]) :
    g.Yields exact (g.system.step .memoryRequest) := by
  have hchannel : g.system.requestToMemory=g.mode.requestToMemory := rfl
  have hmode:=h.mode
  rw [hchannel] at hne
  cases hm : g.mode with
  | fetching w answered =>
    rw [hm] at hne hmode
    cases answered with
    | some v => exact (hne rfl).elim
    | none =>
      apply remember_yields h (by rw [hm]; rfl)
      rw [hm]
      refine ⟨hmode.1,hmode.2.1,?_⟩
      intro v hv
      cases hv
      exact hmode.2.1
  | retiring source v answered =>
    rw [hm] at hne hmode
    cases answered with
    | true => exact (hne rfl).elim
    | false =>
      apply remember_yields h (by rw [hm]; rfl)
      rw [hm]
      exact ⟨hmode.1,hmode.2.1,fun _ => (service_block _ v g.memory).trans hmode.2.1⟩
  | dmaReading d pkt answered =>
    rw [hm] at hne hmode
    cases answered with
    | some v => exact (hne rfl).elim
    | none =>
      apply remember_yields h (by rw [hm]; rfl)
      rw [hm]
      refine ⟨hmode.1,hmode.2.1,hmode.2.2.1,?_⟩
      intro v hv
      cases hv
      exact hmode.2.2.1
  | dmaWriting d pkt answered =>
    rw [hm] at hne hmode
    cases answered with
    | true => exact (hne rfl).elim
    | false =>
      obtain ⟨hw,hr,hmemory,-⟩:=hmode
      have hd : g.dma d = .taken pkt := (h.serves d pkt).mpr (by rw [hm]; rfl)
      apply remember_yields (m := Mode.writeback (.DMA d) d pkt) h (by rw [hm]; rfl)
      rw [hm]
      refine ⟨hw,hr,?_,?_⟩
      · intro hf
        cases hf
      · intro he _
        have haligned : Aligned n pkt := h.aligned he d pkt (by rw [hd]; rfl) hr
        show System.serviceMemoryQueue (Mode.writeback (.DMA d) d pkt) g.memory=overlay pkt g.block
        rw [service_writeback,merged_of_aligned haligned hr,hmemory rfl]
  | returning d pkt source v answered =>
    rw [hm] at hne hmode
    cases answered with
    | true => exact (hne rfl).elim
    | false =>
      obtain ⟨hw,hv,-,hmerged⟩:=hmode
      cases hr : pkt.write with
      | false =>
        apply remember_yields (m := ⟨.MEMORY_WB,.L1Cache source,v,0⟩) h (by simp [hm,Mode.requestToMemory,hr])
        rw [hm]
        refine ⟨hw,hv,fun _ _ => (service_block _ v g.memory).trans hv,?_⟩
        intro _ hf
        rw [hr] at hf
        cases hf
      | true =>
        apply remember_yields (m := Mode.writeback (.L1Cache source) d pkt) h (by simp [hm,Mode.requestToMemory,hr])
        rw [hm]
        refine ⟨hw,hv,?_,fun he _ => hmerged he hr⟩
        intro hf
        rw [hr] at hf
        cases hf
  | _ =>
    rw [hm] at hne
    exact (hne rfl).elim

end Protocol

/-!
## Answers of the memory arriving at the directory

The answer to a fetch gives the block to the cache it was fetched for.
-/

open List
variable {w : C}

namespace Protocol

section

variable [DecidableEq C] [DecidableEq D] [Inhabited B]

theorem memoryResponse_result {m : MemoryMsg C D (Block n B)} {t : Directory.Turn C D (Block n B)}
    (hlist : g.mode.responseFromMemory=[m])
    (ht : Directory.doTransition ⟨none,none,some m⟩ (Directory.memQueueIn m) g.system.dir = .ok t) :
    g.system.step .memoryResponse = .ok ({g.system.afterDirectory t with
      responseFromMemory := System.taken t.takeMem [m]},t.dmaResponses.map System.answerReport) := by
  have hchannel : g.system.responseFromMemory=[m] := hlist
  simp only [System.step,hchannel,head?_cons,orFault,ht,bind,Except.bind,pure,Except.pure]

theorem memoryResponse_leads (g' : Protocol C D n B) {m : MemoryMsg C D (Block n B)}
    {t : Directory.Turn C D (Block n B)} (hlist : g.mode.responseFromMemory=[m])
    (ht : Directory.doTransition ⟨none,none,some m⟩ (Directory.memQueueIn m) g.system.dir = .ok t)
    (hleads : Leads g g' t) (htake : t.takeMem = .pop) (hrequest : ∀ x,(g'.phase x).request x=(g.phase x).request x)
    (hdma : ∀ x,(g'.dma x).request x=(g.dma x).request x) (hfrom : g'.mode.responseFromMemory=[])
    (hinv : g'.Inv exact) (hreports : Evolves exact g (t.dmaResponses.map System.answerReport) g') :
    g.Yields exact (g.system.step .memoryResponse) := by
  rw [memoryResponse_result hlist ht]
  refine ⟨g',_,?_,hinv,hreports⟩
  rw [hleads.system]
  congr 2
  apply System.ext
  case requestToDir => exact (funext hrequest).symm
  case dmaRequestToDir => exact (funext hdma).symm
  case responseFromMemory =>
    rw [htake]
    exact hfrom.symm
  all_goals rfl

end

def give [DecidableEq C] (g : Protocol C D n B) (w : C) (store : Bool) (stale : Block n B) : Protocol C D n B :=
  {g.enter w (.granted store stale g.block .Directory) with mode := .owned}

theorem Inv.queued_of_fetching [Inhabited B] (h : g.Inv exact) (hf : g.mode.fetches=some w)
    (hw : g.writers=[w]) : ∃ store stale,g.phase w = .queued store stale := by
  have hfits:=h.fits w
  have hmem : w∈g.writers := by simp [hw]
  have hfetches : g.mode.fetches≠none := by simp [hf]
  cases hp : g.phase w with
  | queued store stale => exact ⟨store,stale,rfl⟩
  | granted | modified | put | putNacked =>
    rw [hp] at hfits
    exact (hfetches hfits.2.1).elim
  | _ =>
    rw [hp] at hfits
    exact (hfits.1 hmem).elim

theorem Inv.give [DecidableEq C] [Inhabited B] (h : g.Inv exact) {answered : Option (Block n B)}
    (hm : g.mode = .fetching w answered) (store : Bool) (stale : Block n B) : (g.give w store stale).Inv exact := by
  have hmode:=h.mode
  rw [hm] at hmode
  obtain ⟨hw,-⟩:=hmode
  constructor
  · exact h.nodup
  · intro x
    by_cases hx : x=w
    · subst hx
      simp [Protocol.give,Fits,hw,Mode.fetches]
    · have hfits:=h.fits x
      simp only [Protocol.give,enter_phase_of_ne g _ hx]
      cases hq : g.phase x <;> simp_all [Fits,Mode.source,Mode.fetches]
  · intro x hx hmem
    have hrecalls:=(h.invalidated x hx hmem).2
    rw [hm] at hrecalls
    cases hrecalls
  · show g.writers≠[]
    simp [hw]
  · have hserves:=h.serves
    rw [hm] at hserves
    exact hserves
  · exact h.aligned

theorem give_yields [DecidableEq C] [DecidableEq D] [Inhabited B] (h : g.Inv exact) {v : Block n B}
    (hm : g.mode = .fetching w (some v)) : g.Yields exact (g.system.step .memoryResponse) := by
  have hmode:=h.mode
  rw [hm] at hmode
  obtain ⟨hw,hmemory,hv⟩:=hmode
  obtain rfl : v=g.block := hv v rfl
  obtain ⟨store,stale,hp⟩:=h.queued_of_fetching (by rw [hm]; rfl) hw
  have hdir : g.system.dir=⟨.IM,∅,{w},some ⟨0,.IM,default,0,none⟩⟩ := by
    simp [system,hm,Mode.dirState,Mode.tbe,owner,Mode.owns,hw]
  have ht : Directory.doTransition ⟨none,none,some ⟨.MEMORY_READ,.L1Cache w,g.block,0⟩⟩ .Memory_Data g.system.dir =
      .ok ⟨⟨.M,∅,{w},none⟩,[],[(.L1Cache w,⟨.DATA,.Directory,g.block⟩)],[],[],.stay,.stay,.pop⟩ := by
    rw [hdir]
    rfl
  refine memoryResponse_leads (g.give w store stale) (by rw [hm]; rfl) ht ?_ rfl ?_ (fun _ => rfl) rfl
    (h.give hm store stale) (.silent _ rfl rfl)
  · constructor
    · exact of_update (fun q => q.cache) (by rw [hp]; rfl)
    · simp [system,give,owner,Mode.dirState,Mode.tbe,Mode.owns,hw]
    · intro x
      have hack:=of_update (c := w) (p := .granted store stale g.block .Directory) (fun q => q.ack x)
        (by rw [hp]; rfl) x
      exact (congrArg (g.notices x++·) hack).trans (append_nil _).symm
    · intro source x
      by_cases hx : x=w
      · subst hx
        by_cases hs : source = .Directory <;> simp [give,hp,Phase.data,hs]
      · simp [give,hx,Ne.symm hx]
    · exact fun _ => rfl
    · exact fun x => (append_nil _).symm
    · simp [give,hm,Mode.requestToMemory]
    · rfl
  · intro x
    simpa [give,enter] using of_update (c := w) (p := .granted store stale g.block .Directory)
      (fun q => q.request x) (by rw [hp]; rfl) x

def settle (g : Protocol C D n B) (phase : C → Phase C D (Block n B)) (dma : D → DMAPhase B (Block n B)) :
    Protocol C D n B :=
  {g with phase,dma,mode := .invalid,block := g.memory}

variable {phase : C → Phase C D (Block n B)} {dma : D → DMAPhase B (Block n B)}

theorem Inv.settle [Inhabited B] (h : g.Inv exact) (hw : g.writers=[])
    (hfits : ∀ x,(g.settle phase dma).Fits x (phase x))
    (htaken : ∀ x q,dma x ≠ .taken q) (hcurrent : ∀ x,(dma x).current=(g.dma x).current) :
    (g.settle phase dma).Inv exact where
  nodup := h.nodup
  fits := hfits
  invalidated x _ hmem := by
    have hnone : x∈g.writers := hmem
    simp [hw] at hnone
  mode := ⟨hw,rfl⟩
  serves x q := by simpa [Protocol.settle,Mode.serves] using htaken x q
  aligned he x q hq hx := h.aligned he x q (hcurrent x ▸ hq) hx

theorem fits_settle (hw : g.writers=[]) (hnone : g.mode.source=none)
    {x : C} {p : Phase C D (Block n B)} (hfits : g.Fits x p) : (g.settle phase dma).Fits x p := by
  cases p <;> simp_all [Fits,settle,Mode.source]

theorem Inv.retired_of_source [Inhabited B] (h : g.Inv exact) (hw : g.writers=[]) (hs : g.mode.source=some c) :
    ∃ v,g.phase c = .retired v := by
  have hfits:=h.fits c
  cases hp : g.phase c with
  | retired v => exact ⟨v,rfl⟩
  | _ =>
    rw [hp] at hfits
    simp_all [Fits]

theorem fits_acked [DecidableEq C] [Inhabited B] (h : g.Inv exact) (hw : g.writers=[]) (hs : g.mode.source=some c)
    (v : Block n B) (x : C) : (g.settle phase dma).Fits x (Function.update g.phase c (.acked v) x) := by
  by_cases hx : x=c
  · subst hx
    simp [settle,Fits,hw,Mode.source]
  · have hfits:=h.fits x
    rw [Function.update_of_ne hx]
    cases hp : g.phase x <;> simp_all [Fits,settle,Mode.source]

section

variable [DecidableEq C] [DecidableEq D] [Inhabited B]

def answered (g : Protocol C D n B) (d : D) (pkt : DMARequest B) : D → DMAPhase B (Block n B) :=
  Function.update g.dma d (.answered pkt g.memory)

omit [DecidableEq C] in
theorem Inv.answered_not_taken (h : g.Inv exact) (hs : g.mode.serves=some (d,pkt)) (x : D) (q : DMARequest B) :
    g.answered d pkt x ≠ .taken q := by
  have hserves:=h.serves x q
  by_cases hx : x=d
  · subst hx
    simp [answered]
  · simp_all [answered,Ne.symm hx]

omit [DecidableEq C] [DecidableEq D] in
theorem Inv.dma_of_serves (h : g.Inv exact) (hs : g.mode.serves=some (d,pkt)) : g.dma d = .taken pkt :=
  (h.serves d pkt).mpr hs

omit [DecidableEq C] [Inhabited B] in
theorem answered_current (hd : g.dma d = .taken pkt) (x : D) : (g.answered d pkt x).current=(g.dma x).current := by
  by_cases hx : x=d
  · subst hx
    simp [answered,hd,DMAPhase.current]
  · simp [answered,hx]

omit [DecidableEq C] in
theorem answered_request (hd : g.dma d = .taken pkt) (x : D) : (g.answered d pkt x).request x=(g.dma x).request x := by
  by_cases hx : x=d
  · subst hx
    simp [answered,hd,DMAPhase.request]
  · simp [answered,hx]

omit [DecidableEq C] in
theorem answered_response (hd : g.dma d = .taken pkt) (x : D) : (g.answered d pkt x).response =
    (g.dma x).response++System.sentTo x [(d,if pkt.write then ⟨.ACK,default⟩ else ⟨.DATA,g.memory⟩)] := by
  by_cases hx : x=d
  · subst hx
    cases hw : pkt.write <;> simp [answered,hd,DMAPhase.response,hw]
  · simp [answered,hx,Ne.symm hx]

theorem settle_leads (phase : C → Phase C D (Block n B)) {dma : D → DMAPhase B (Block n B)}
    (forwards : List (Finset C × RequestMsg (MachineID C D) (Block n B)))
    {dmaResponses : List (D × DMAResponseMsg (Block n B))} (hcache : ∀ x,(phase x).cache=(g.phase x).cache)
    (hack : ∀ x,(phase x).ack x=(g.phase x).ack x++System.forwardedTo x forwards)
    (hdata : ∀ source x,(phase x).data source=(g.phase x).data source)
    (hcontroller : ∀ x,(dma x).controller=(g.dma x).controller)
    (hresponses : ∀ x,(dma x).response=(g.dma x).response++System.sentTo x dmaResponses)
    (hto : g.mode.requestToMemory=[]) : Leads g (g.settle phase dma)
      ⟨⟨.I,∅,∅,none⟩,forwards,[],dmaResponses,[],.stay,.stay,.pop⟩ where
  cache := hcache
  dir := by simp [system,settle,owner,Mode.dirState,Mode.tbe,Mode.owns]
  forwards x := by
    show g.notices x++(phase x).ack x=(g.notices x++(g.phase x).ack x)++System.forwardedTo x forwards
    rw [hack x,append_assoc]
  responses source x := by simpa [settle] using hdata source x
  controller := hcontroller
  dmaResponses := hresponses
  memoryRequests := by
    rw [hto]
    rfl
  memory := rfl

variable {v : Block n B}

theorem acked_leads (hp : g.phase c = .retired v) (dma : D → DMAPhase B (Block n B))
    (dmaResponses : List (D × DMAResponseMsg (Block n B))) (hcontroller : ∀ x,(dma x).controller=(g.dma x).controller)
    (hresponses : ∀ x,(dma x).response=(g.dma x).response++System.sentTo x dmaResponses)
    (hto : g.mode.requestToMemory=[]) : Leads g (g.settle (Function.update g.phase c (.acked v)) dma)
      ⟨⟨.I,∅,∅,none⟩,[({c},⟨.WB_ACK,.L1Cache c,default⟩)],[],dmaResponses,[],.stay,.stay,.pop⟩ := by
  refine settle_leads _ _ ?_ ?_ ?_ hcontroller hresponses hto
  · exact of_update (fun q => q.cache) (by rw [hp]; rfl)
  · intro x
    by_cases hx : x=c
    · subst hx
      simp [hp,Phase.ack]
    · simp [hx]
  · exact fun source => of_update (fun q => q.data source) (by rw [hp]; rfl)

omit [DecidableEq D] in
theorem acked_request (hp : g.phase c = .retired v) (x : C) :
    (Function.update g.phase c (.acked v) x).request x=(g.phase x).request x :=
  of_update (fun q => q.request x) (by rw [hp]; rfl) x

theorem retiring_yields (h : g.Inv exact) (hm : g.mode = .retiring c v true) :
    g.Yields exact (g.system.step .memoryResponse) := by
  have hmode:=h.mode
  rw [hm] at hmode
  obtain ⟨hw,-,hmemory⟩:=hmode
  have hsource : g.mode.source=some c := by rw [hm]; rfl
  have hserves:=h.serves
  rw [hm] at hserves
  obtain ⟨u,hp⟩:=h.retired_of_source hw hsource
  have hdir : g.system.dir=⟨.MI,∅,∅,some ⟨0,.MI,v,0,none⟩⟩ := by
    simp [system,hm,Mode.dirState,Mode.tbe,owner,Mode.owns]
  have hleads:=acked_leads hp g.dma [] (fun _ => rfl) (fun _ => (append_nil _).symm)
    (by rw [hm]; rfl)
  refine memoryResponse_leads _ (by rw [hm]; rfl) (by rw [hdir]; rfl) hleads rfl (acked_request hp) (fun _ => rfl) rfl
    (h.settle hw (fits_acked h hw hsource u) ?_ fun _ => rfl) (.silent _ (hmemory rfl) rfl)
  intro x q hx
  cases (hserves x q).mp hx

omit [DecidableEq C] in
theorem answered_controller (hd : g.dma d = .taken pkt) (x : D) : (g.answered d pkt x).controller=(g.dma x).controller := by
  simp only [DMAPhase.controller,answered_current hd x]

theorem answered_leads (hd : g.dma d = .taken pkt) (hto : g.mode.requestToMemory=[]) :
    Leads g (g.settle g.phase (g.answered d pkt)) ⟨⟨.I,∅,∅,none⟩,[],[],
      [(d,if pkt.write then ⟨.ACK,default⟩ else ⟨.DATA,g.memory⟩)],[],.stay,.stay,.pop⟩ :=
  settle_leads g.phase [] (fun _ => rfl) (fun _ => (append_nil _).symm) (fun _ _ => rfl) (answered_controller hd)
    (answered_response hd) hto

theorem dmaReading_yields (h : g.Inv exact) (hm : g.mode = .dmaReading d pkt (some v)) :
    g.Yields exact (g.system.step .memoryResponse) := by
  have hmode:=h.mode
  rw [hm] at hmode
  obtain ⟨hw,hr,hmemory,hv⟩:=hmode
  have hd : g.dma d = .taken pkt := h.dma_of_serves (by rw [hm]; rfl)
  have hdir : g.system.dir=⟨.ID,∅,∅,some ⟨0,.ID,default,0,some d⟩⟩ := by
    simp [system,hm,Mode.dirState,Mode.tbe,owner,Mode.owns]
  have hleads:=answered_leads hd (by rw [hm]; rfl)
  rw [hr] at hleads
  refine memoryResponse_leads _ (m := ⟨.MEMORY_READ,.DMA d,g.memory,0⟩) ?_ (by rw [hdir]; rfl) hleads rfl (fun _ => rfl)
    (answered_request hd) rfl (h.settle hw (fun x => fits_settle hw (by rw [hm]; rfl) (h.fits x))
    (h.answered_not_taken (by rw [hm]; rfl)) (answered_current hd)) ?_
  · rw [hm,hmemory,← hv v rfl]
    rfl
  · show Evolves exact g [.answers d g.memory] _
    rw [hmemory]
    exact .answers _ d pkt hmemory hd hr (by rw [← hmemory]; rfl)

theorem dmaWriting_yields (h : g.Inv exact) (hm : g.mode = .dmaWriting d pkt true) :
    g.Yields exact (g.system.step .memoryResponse) := by
  have hmode:=h.mode
  rw [hm] at hmode
  obtain ⟨hw,hr,-,hexact⟩:=hmode
  have hd : g.dma d = .taken pkt := h.dma_of_serves (by rw [hm]; rfl)
  have hdir : g.system.dir=⟨.ID_W,∅,∅,some (Mode.dmaTBE .ID_W d pkt)⟩ := by
    simp [system,hm,Mode.dirState,Mode.tbe,owner,Mode.owns]
  have hleads:=answered_leads hd (by rw [hm]; rfl)
  rw [hr] at hleads
  exact memoryResponse_leads _ (by rw [hm]; rfl) (by rw [hdir]; rfl) hleads rfl (fun _ => rfl) (answered_request hd) rfl
    (h.settle hw (fun x => fits_settle hw (by rw [hm]; rfl) (h.fits x)) (h.answered_not_taken (by rw [hm]; rfl))
      (answered_current hd)) (.writes _ d pkt g.memory hd hr rfl rfl fun he => hexact he rfl)

theorem returning_yields (h : g.Inv exact) (hm : g.mode = .returning d pkt c v true) :
    g.Yields exact (g.system.step .memoryResponse) := by
  have hmode:=h.mode
  rw [hm] at hmode
  obtain ⟨hw,-,hread,hexact⟩:=hmode
  have hsource : g.mode.source=some c := by rw [hm]; rfl
  have hserves:=h.serves
  rw [hm] at hserves
  obtain ⟨u,hp⟩:=h.retired_of_source hw hsource
  cases hr : pkt.write with
  | false =>
    have hdir : g.system.dir=⟨.M_DRDI,∅,∅,some (Mode.dmaTBE .M_DRDI d pkt)⟩ := by
      simp [system,hm,Mode.dirState,Mode.tbe,owner,Mode.owns,hr]
    have hleads:=acked_leads hp g.dma [] (fun _ => rfl)
      (fun _ => (append_nil _).symm) (by rw [hm]; rfl)
    refine memoryResponse_leads _ (by rw [hm]; rfl) (by rw [hdir]; rfl) hleads rfl (acked_request hp) (fun _ => rfl) rfl
      (h.settle hw (fits_acked h hw hsource u) ?_ fun _ => rfl) (.silent _ (hread hr rfl) rfl)
    intro x q hx
    have hnone:=(hserves x q).mp hx
    simp [Mode.serves,hr] at hnone
  | true =>
    have hs : g.mode.serves=some (d,pkt) := by simp [hm,Mode.serves,hr]
    have hd:=h.dma_of_serves hs
    have hdir : g.system.dir=⟨.M_DWRI,∅,∅,some (Mode.dmaTBE .M_DWRI d pkt)⟩ := by
      simp [system,hm,Mode.dirState,Mode.tbe,owner,Mode.owns,hr]
    have hresponses:=answered_response hd
    rw [hr] at hresponses
    exact memoryResponse_leads _ (by rw [hm]; rfl) (by rw [hdir]; rfl)
      (acked_leads hp _ _ (answered_controller hd) hresponses (by rw [hm]; rfl)) rfl (acked_request hp) (answered_request hd) rfl
      (h.settle hw (fits_acked h hw hsource u) (h.answered_not_taken hs) (answered_current hd))
      (.writes _ d pkt g.memory hd hr rfl rfl fun he => hexact he hr)

theorem memoryResponse_yields (h : g.Inv exact) (hne : g.system.responseFromMemory≠[]) :
    g.Yields exact (g.system.step .memoryResponse) := by
  have hchannel : g.system.responseFromMemory=g.mode.responseFromMemory := rfl
  rw [hchannel] at hne
  cases hm : g.mode with
  | fetching w answered =>
    rw [hm] at hne
    cases answered with
    | none => exact (hne rfl).elim
    | some v => exact give_yields h hm
  | retiring source v answered =>
    rw [hm] at hne
    cases answered with
    | false => exact (hne rfl).elim
    | true => exact retiring_yields h hm
  | dmaReading d pkt answered =>
    rw [hm] at hne
    cases answered with
    | none => exact (hne rfl).elim
    | some v => exact dmaReading_yields h hm
  | dmaWriting d pkt answered =>
    rw [hm] at hne
    cases answered with
    | false => exact (hne rfl).elim
    | true => exact dmaWriting_yields h hm
  | returning d pkt source v answered =>
    rw [hm] at hne
    cases answered with
    | false => exact (hne rfl).elim
    | true => exact returning_yields h hm
  | _ =>
    rw [hm] at hne
    exact (hne rfl).elim

end

end Protocol

end AquaGem5.Ruby.MIExample
