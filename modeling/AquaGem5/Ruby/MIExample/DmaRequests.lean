import AquaGem5.Ruby.MIExample.Requests

/-!
# DMA requests

A controller takes up one request at a time.
-/

namespace AquaGem5.Ruby.MIExample
open Checked Succession Function

variable {C D : Type} {n : ℕ} {B : Type} {exact : Prop} {d : D} {pkt : DMARequest B} {g : Protocol C D n B}

namespace Protocol

def proceed [DecidableEq D] (g : Protocol C D n B) (d : D) (p : DMAPhase B (Block n B)) : Protocol C D n B :=
  {g with dma := Function.update g.dma d p}

theorem fits_proceed [DecidableEq D] {p : DMAPhase B (Block n B)} {x : C} {q : Phase C D (Block n B)} :
    (g.proceed d p).Fits x q ↔ g.Fits x q := by
  cases q <;> rfl

theorem Inv.proceed [DecidableEq D] [Inhabited B] (h : g.Inv exact) {p : DMAPhase B (Block n B)}
    (hold : ∀ q,g.dma d ≠ .taken q) (hnew : ∀ q,p ≠ .taken q)
    (hcurrent : exact → ∀ q,p.current=some q → q.write=true → Aligned n q) : (g.proceed d p).Inv exact where
  nodup := h.nodup
  fits x := fits_proceed.mpr (h.fits x)
  invalidated := h.invalidated
  mode := by
    have hmode:=h.mode
    show (g.proceed d p).ModeFits exact g.mode
    cases hm : g.mode <;> (rw [hm] at hmode; exact hmode)
  serves x q := by
    by_cases hx : x=d
    · subst hx
      simpa [Protocol.proceed,hnew q,hold q] using h.serves x q
    · simpa [Protocol.proceed,hx] using h.serves x q
  aligned he x q hq hw := by
    by_cases hx : x=d
    · subst hx
      exact hcurrent he q (by simpa [Protocol.proceed] using hq) hw
    · exact h.aligned he x q (by simpa [Protocol.proceed,hx] using hq) hw

section

variable [DecidableEq C] [DecidableEq D] [Inhabited B]

theorem proceed_system (g : Protocol C D n B) (d : D) (p : DMAPhase B (Block n B)) : (g.proceed d p).system =
    {g.system with
      dma := update g.system.dma d p.controller
      dmaRequestToDir := update g.system.dmaRequestToDir d (p.request d)
      dmaResponseFromDir := update g.system.dmaResponseFromDir d p.response} := by
  apply System.ext
  case dma | dmaRequestToDir | dmaResponseFromDir =>
    funext x
    by_cases hx : x=d
    · subst hx
      simp [system,proceed]
    · simp [system,proceed,hx]
  all_goals rfl

end

section Turns

variable [Inhabited B]

theorem event_of_request (pkt : DMARequest B) :
    DMA.requestQueueIn (DMASequencer.makeRequest pkt : SequencerMsg (Block n B)) =
      .ok (if pkt.write then .WriteRequest else .ReadRequest) := by
  cases hw : pkt.write <;> simp [DMASequencer.makeRequest,DMA.requestQueueIn,hw]

theorem request_turn (d : D) (pkt : DMARequest B) :
    DMA.doTransition d ⟨some (DMASequencer.makeRequest pkt),none⟩ (if pkt.write then .WriteRequest else .ReadRequest)
      (DMAPhase.ready : DMAPhase B (Block n B)).controller =
      .ok ⟨(DMAPhase.asked pkt : DMAPhase B (Block n B)).controller,[dmaMsg d pkt],[],true,false⟩ := by
  cases hw : pkt.write <;> simp [DMAPhase.controller,DMAPhase.current,dmaMsg,hw] <;> rfl

variable {q : DMARequest B}

theorem busy_turn (d : D) (pkt : DMARequest B) {p : DMAPhase B (Block n B)}
    (hp : p.current=some q) (peek : DMA.Peek (Block n B)) :
    DMA.doTransition d peek (if pkt.write then .WriteRequest else .ReadRequest) p.controller =
      .ok ⟨p.controller,[],[],false,false⟩ := by
  cases hw : pkt.write <;> cases hq : q.write <;> simp [DMAPhase.controller,hp,hq] <;> rfl

theorem data_callback_turn (d : D) (hq : q.write=false) (v w : Block n B) :
    DMA.doTransition d ⟨none,some ⟨.DATA,v⟩⟩ .Data (DMAPhase.answered q w).controller =
      .ok ⟨(DMAPhase.ready : DMAPhase B (Block n B)).controller,[],[.data v],false,true⟩ := by
  simp [DMAPhase.controller,DMAPhase.current,hq]
  rfl

theorem ack_callback_turn (d : D) (hq : q.write=true) (v w : Block n B) :
    DMA.doTransition d ⟨none,some ⟨.ACK,v⟩⟩ .Ack (DMAPhase.answered q w).controller =
      .ok ⟨(DMAPhase.ready : DMAPhase B (Block n B)).controller,[],[.ack],false,true⟩ := by
  simp [DMAPhase.controller,DMAPhase.current,hq]
  rfl

end Turns

variable [DecidableEq C] [DecidableEq D] [Inhabited B]

theorem dmaMandatory_yields (h : g.Inv exact) (d : D) (pkt : DMARequest B)
    (haligned : exact → pkt.write=true → Aligned n pkt) : g.Yields exact (g.system.step (.dmaMandatory d pkt)) := by
  have hcontroller : g.system.dma d=(g.dma d).controller := rfl
  cases hcurrent : (g.dma d).current with
  | none =>
    have hd : g.dma d = .ready := by
      cases hd : g.dma d <;> simp_all [DMAPhase.current]
    have hstep : g.system.step (.dmaMandatory d pkt) = .ok ((g.proceed d (.asked pkt)).system,[.issues d pkt]) := by
      rw [proceed_system]
      simp only [System.step,event_of_request,hcontroller,hd,request_turn,bind,Except.bind,pure,Except.pure,if_true]
      simp [system,hd,DMAPhase.request,DMAPhase.response]
    refine ⟨g.proceed d (.asked pkt),_,hstep,h.proceed ?_ ?_ ?_,.issues _ d pkt rfl rfl⟩
    · simp [hd]
    · simp
    · intro he q hq hw
      obtain rfl : pkt=q := by simpa [DMAPhase.current] using hq
      exact haligned he hw
  | some q =>
    have hstep : g.system.step (.dmaMandatory d pkt) = .ok (g.system,[]) := by
      simp only [System.step,event_of_request,hcontroller,busy_turn d pkt hcurrent,bind,Except.bind,pure,Except.pure]
      simp [← hcontroller]
    exact ⟨g,[],hstep,h,.silent g rfl rfl⟩

theorem dmaResponse_yields (h : g.Inv exact) (hne : g.system.dmaResponseFromDir d≠[]) :
    g.Yields exact (g.system.step (.dmaResponse d)) := by
  have hcontroller : g.system.dma d=(g.dma d).controller := rfl
  have hchannel : g.system.dmaResponseFromDir d=(g.dma d).response := rfl
  rw [hchannel] at hne
  cases hd : g.dma d with
  | answered q v =>
    have hinv : (g.proceed d .ready).Inv exact := by
      refine h.proceed ?_ ?_ ?_
      · simp [hd]
      · simp
      · simp [DMAPhase.current]
    cases hq : q.write with
    | false =>
      have hlist : g.system.dmaResponseFromDir d=[⟨.DATA,v⟩] := by simp [hchannel,hd,DMAPhase.response,hq]
      have hstep : g.system.step (.dmaResponse d) = .ok ((g.proceed d .ready).system,[.dataCallback d v]) := by
        rw [proceed_system]
        simp only [System.step,hlist,List.head?_cons,orFault,DMA.responseQueueIn,hcontroller,hd,
          data_callback_turn d hq,bind,Except.bind,pure,Except.pure,if_true,List.tail_cons]
        simp [system,hd,DMAPhase.request,DMAPhase.response,System.dmaReport]
      exact ⟨g.proceed d .ready,_,hstep,hinv,.dataCallback _ d q v rfl hd hq rfl⟩
    | true =>
      have hlist : g.system.dmaResponseFromDir d=[⟨.ACK,default⟩] := by simp [hchannel,hd,DMAPhase.response,hq]
      have hstep : g.system.step (.dmaResponse d) = .ok ((g.proceed d .ready).system,[.ackCallback d]) := by
        rw [proceed_system]
        simp only [System.step,hlist,List.head?_cons,orFault,DMA.responseQueueIn,hcontroller,hd,
          ack_callback_turn d hq,bind,Except.bind,pure,Except.pure,if_true,List.tail_cons]
        simp [system,hd,DMAPhase.request,DMAPhase.response,System.dmaReport]
      exact ⟨g.proceed d .ready,_,hstep,hinv,.ackCallback _ d q v rfl hd hq rfl⟩
  | _ =>
    rw [hd] at hne
    exact (hne rfl).elim

def TakesDMA (g : Protocol C D n B) : Prop := g.mode.awaits=false

theorem dmaRequest_result {m : DMARequestMsg D (Block n B)} {event : Directory.Event}
    {t : Directory.Turn C D (Block n B)} (hlist : (g.dma d).request d=[m])
    (he : Directory.dmaRequestQueueIn m = .ok event)
    (ht : Directory.doTransition ⟨some m,none,none⟩ event g.system.dir = .ok t) :
    g.system.step (.dmaRequest d) = .ok ({g.system.afterDirectory t with
      dmaRequestToDir := update g.system.dmaRequestToDir d (System.taken t.takeDMARequest [m])},
      t.dmaResponses.map System.answerReport) := by
  have hchannel : g.system.dmaRequestToDir d=[m] := hlist
  simp only [System.step,hchannel,List.head?_cons,orFault,he,ht,bind,Except.bind,pure,Except.pure]

omit [DecidableEq C] [DecidableEq D] in
theorem event_of_dmaMsg (d : D) (pkt : DMARequest B) :
    Directory.dmaRequestQueueIn (dmaMsg d pkt : DMARequestMsg D (Block n B)) =
      .ok (if pkt.write then .DMA_WRITE else .DMA_READ) := by
  cases hw : pkt.write <;> simp [dmaMsg,Directory.dmaRequestQueueIn,hw]

theorem recycle_dmaRequest (h : g.Inv exact) (hd : g.dma d = .asked pkt) (hbusy : g.mode.busy=true) :
    g.Yields exact (g.system.step (.dmaRequest d)) := by
  have hlist : (g.dma d).request d=[dmaMsg d pkt] := by rw [hd]; rfl
  have hrecycles : Directory.transition g.mode.dirState (if pkt.write then .DMA_WRITE else .DMA_READ) =
      some ([.recycleDMARequestQueue],g.mode.dirState) := by
    cases hm : g.mode with
    | fetching | retiring | dmaReading | dmaWriting => cases pkt.write <;> rfl
    | _ =>
      rw [hm] at hbusy
      cases hbusy
  rw [dmaRequest_result hlist (event_of_dmaMsg d pkt) (h.turn_dir hrecycles rfl rfl)]
  refine ⟨g,[],?_,h,.silent g rfl rfl⟩
  conv_rhs => rw [(leads_self g .stay .recycle .stay).system]
  congr 2
  apply System.ext
  case dmaRequestToDir => exact update_eq_self_iff.mpr (by simpa [system] using hlist.symm)
  all_goals rfl

def serve (g : Protocol C D n B) (d : D) (pkt : DMARequest B) (mode : Mode C D B (Block n B))
    (invalidated : Finset C) : Protocol C D n B :=
  {g.proceed d (.taken pkt) with mode,invalidated}

omit [DecidableEq C] in
theorem Inv.serve (h : g.Inv exact) (hd : g.dma d = .asked pkt) {mode : Mode C D B (Block n B)}
    {invalidated : Finset C} (hnone : g.mode.serves=none) (hserves : mode.serves=some (d,pkt))
    (hfits : ∀ x,(g.serve d pkt mode invalidated).Fits x (g.phase x))
    (hinvalidated : ∀ x∈invalidated,x∈g.writers → g.writers.getLast?=some x ∧ mode.recalls=true)
    (hmode : (g.serve d pkt mode invalidated).ModeFits exact mode) : (g.serve d pkt mode invalidated).Inv exact where
  nodup := h.nodup
  fits := hfits
  invalidated := hinvalidated
  mode := hmode
  serves x q := by
    have hold:=h.serves x q
    show update g.dma d (.taken pkt) x = .taken q ↔ mode.serves=some (x,q)
    by_cases hx : x=d
    · subst hx
      simp [hserves]
    · simpa [hx,Ne.symm hx,hserves,hnone] using hold
  aligned he x q hq hw := by
    by_cases hx : x=d
    · subst hx
      have hcur : (g.dma x).current=some q := by simpa [Protocol.serve,Protocol.proceed,hd,DMAPhase.current] using hq
      exact h.aligned he x q hcur hw
    · exact h.aligned he x q (by simpa [Protocol.serve,Protocol.proceed,hx] using hq) hw

theorem serve_yields (hd : g.dma d = .asked pkt) {mode : Mode C D B (Block n B)} {invalidated : Finset C}
    (forwards : List (Finset C × RequestMsg (MachineID C D) (Block n B)))
    (ht : Directory.doTransition ⟨some (dmaMsg d pkt),none,none⟩ (if pkt.write then .DMA_WRITE else .DMA_READ)
      g.system.dir = .ok ⟨(g.serve d pkt mode invalidated).system.dir,forwards,[],[],mode.requestToMemory,.stay,.pop,.stay⟩)
    (hforwards : ∀ x,(g.serve d pkt mode invalidated).system.forwardFromDir x =
      g.system.forwardFromDir x++System.forwardedTo x forwards)
    (hto : g.mode.requestToMemory=[]) (hfrom : mode.responseFromMemory=g.mode.responseFromMemory)
    (hinv : (g.serve d pkt mode invalidated).Inv exact) : g.Yields exact (g.system.step (.dmaRequest d)) := by
  have hlist : (g.dma d).request d=[dmaMsg d pkt] := by rw [hd]; rfl
  have hleads : Leads g (g.serve d pkt mode invalidated)
      ⟨(g.serve d pkt mode invalidated).system.dir,forwards,[],[],mode.requestToMemory,.stay,.pop,.stay⟩ := by
    have hdma : ∀ x,((g.serve d pkt mode invalidated).dma x).controller=(g.dma x).controller ∧
        ((g.serve d pkt mode invalidated).dma x).response=(g.dma x).response := by
      intro x
      by_cases hx : x=d
      · subst hx
        simp [serve,proceed,hd,DMAPhase.controller,DMAPhase.current,DMAPhase.response]
      · simp [serve,proceed,hx]
    constructor
    · exact fun _ => rfl
    · rfl
    · exact hforwards
    · simp [serve,proceed]
    · exact fun x => (hdma x).1
    · simpa using fun x => (hdma x).2
    · simp [serve,hto]
    · rfl
  rw [dmaRequest_result hlist (event_of_dmaMsg d pkt) ht]
  refine ⟨g.serve d pkt mode invalidated,[],?_,hinv,.takes _ d pkt rfl hd rfl⟩
  rw [hleads.system]
  congr 2
  apply System.ext
  case dmaRequestToDir =>
    funext x
    by_cases hx : x=d
    · subst hx
      simp [system,serve,proceed,DMAPhase.request]
    · simp [system,serve,proceed,hx]
  case responseFromMemory => exact hfrom.symm
  all_goals rfl

theorem serve_invalid (h : g.Inv exact) (hd : g.dma d = .asked pkt) (hm : g.mode = .invalid) :
    g.Yields exact (g.system.step (.dmaRequest d)) := by
  have hmode:=h.mode
  rw [hm] at hmode
  obtain ⟨hw,hmemory⟩:=hmode
  have hdir : g.system.dir=⟨.I,∅,∅,none⟩ := by simp [system,hm,Mode.dirState,Mode.tbe,owner,Mode.owns]
  have hquiet : ∀ mode : Mode C D B (Block n B),∀ x,(g.serve d pkt mode g.invalidated).system.forwardFromDir x =
      g.system.forwardFromDir x++System.forwardedTo x [] := fun mode x => (List.append_nil _).symm
  have hfits : ∀ mode : Mode C D B (Block n B),mode.source=none → ∀ x,
      (g.serve d pkt mode g.invalidated).Fits x (g.phase x) := by
    intro mode hsource x
    have hfits:=h.fits x
    cases hp : g.phase x <;> simp_all [Fits,serve,proceed,Mode.source]
  have hno : ∀ mode : Mode C D B (Block n B),∀ x∈g.invalidated,x∈g.writers →
      g.writers.getLast?=some x ∧ mode.recalls=true := by simp [hw]
  cases hr : pkt.write with
  | false =>
    have hinv : (g.serve d pkt (.dmaReading d pkt none) g.invalidated).Inv exact :=
      h.serve hd (by rw [hm]; rfl) rfl (hfits _ rfl) (hno _) ⟨hw,hr,hmemory,fun v hv => by cases hv⟩
    refine serve_yields hd [] ?_ (hquiet _) (by rw [hm]; rfl) (by rw [hm]; rfl) hinv
    rw [hdir]
    simp [system,serve,proceed,Mode.dirState,Mode.tbe,owner,Mode.owns,Mode.requestToMemory,hr]
    rfl
  | true =>
    have hinv : (g.serve d pkt (.dmaWriting d pkt false) g.invalidated).Inv exact :=
      h.serve hd (by rw [hm]; rfl) rfl (hfits _ rfl) (hno _) ⟨hw,hr,fun _ => hmemory,fun _ hf => by cases hf⟩
    refine serve_yields hd [] ?_ (hquiet _) (by rw [hm]; rfl) (by rw [hm]; rfl) hinv
    rw [hdir]
    simp [system,serve,proceed,Mode.dirState,Mode.tbe,owner,Mode.owns,Mode.requestToMemory,hr]
    rfl

theorem serve_owned (h : g.Inv exact) (hd : g.dma d = .asked pkt) (hm : g.mode = .owned) :
    g.Yields exact (g.system.step (.dmaRequest d)) := by
  obtain ⟨o,hlast,ho⟩:=h.owner_of_owns (by rw [hm]; rfl)
  have hmode:=h.mode
  rw [hm] at hmode
  have hmem : o∈g.writers := List.mem_of_getLast? hlast
  have hdir : g.system.dir=⟨.M,∅,{o},none⟩ := by simp [system,hm,Mode.dirState,Mode.tbe,ho]
  have hinv : (g.serve d pkt (.recalling d pkt) (insert o g.invalidated)).Inv exact := by
    refine h.serve hd (by rw [hm]; rfl) rfl ?_ ?_ hmode
    · intro x
      have hfits:=h.fits x
      have hne : x∉g.writers → x≠o := fun hx hxo => hx (hxo ▸ hmem)
      cases hp : g.phase x <;> simp_all [Fits,serve,proceed,Mode.source,Mode.fetches]
    · intro x hx hxw
      cases Finset.mem_insert.mp hx with
      | inl hx =>
        subst hx
        exact ⟨hlast,rfl⟩
      | inr hx =>
        have hrecalls:=(h.invalidated x hx hxw).2
        rw [hm] at hrecalls
        cases hrecalls
  refine serve_yields hd [({o},⟨.INV,.Directory,default⟩)] ?_ ?_ (by rw [hm]; rfl) (by rw [hm]; rfl) hinv
  · rw [hdir]
    cases hr : pkt.write <;>
      (simp [system,serve,proceed,Mode.dirState,Mode.tbe,owner,Mode.owns,hlast,Mode.requestToMemory,hr]; rfl)
  · intro x
    by_cases hx : x=o
    · subst hx
      have hquiet:=h.last_quiet hm hlast
      simp_all [system,serve,proceed,notices]
    · simp [system,serve,proceed,notices,hx]

theorem dmaRequest_yields (h : g.Inv exact) (hne : g.system.dmaRequestToDir d≠[]) (htakes : g.TakesDMA) :
    g.Yields exact (g.system.step (.dmaRequest d)) := by
  have hchannel : g.system.dmaRequestToDir d=(g.dma d).request d := rfl
  rw [hchannel] at hne
  cases hd : g.dma d with
  | asked pkt =>
    cases hm : g.mode with
    | invalid => exact serve_invalid h hd hm
    | owned => exact serve_owned h hd hm
    | recalling | returning => simp [TakesDMA,hm,Mode.awaits] at htakes
    | _ => exact recycle_dmaRequest h hd (by rw [hm]; rfl)
  | _ =>
    rw [hd] at hne
    exact (hne rfl).elim

end Protocol

end AquaGem5.Ruby.MIExample
