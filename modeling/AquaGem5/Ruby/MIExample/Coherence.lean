import AquaGem5.Ruby.MIExample.Answers

/-!
# Runs of the protocol

Every state that a run reaches is a state of the protocol, whose block is what was written last.
-/

namespace AquaGem5.Ruby.MIExample
open Checked Succession

variable {C D : Type} {n : ℕ} {B : Type} {exact : Prop}

/-- The directory waits for the owner's block, or for the memory to take it. -/
def Directory.State.awaits : Directory.State → Bool
  | .M_DRD => true
  | .M_DWR => true
  | .M_DRDI => true
  | .M_DWRI => true
  | _ => false

namespace System

/-- The events that stop the protocol. -/
def Refused (s : System C D n B) : Input C D n B → Prop
  | .mandatory c type cacheAvail _ => type = .other ∧ ((s.cache c).entry.isSome ∨ cacheAvail=true)
  | .request c => s.dir.getState.awaits=true ∧
    ∃ m,(s.requestToDir c).head?=some m ∧ m.type = .PUTX ∧ m.requestor∉s.dir.owner
  | .dmaRequest _ => s.dir.getState.awaits=true
  | _ => False

/-- What DMA writes need: they start with their block and stay inside of it, and the bytes that they leave
alone are in the memory when the owner returns the block. -/
def WritesExactly (s : System C D n B) : Input C D n B → Prop
  | .dmaMandatory _ pkt => pkt.write=true → Protocol.Aligned n pkt
  | .request c => s.dir.getState = .M_DWR → ∀ m∈(s.requestToDir c).head?,m.type = .PUTX → m.requestor∈s.dir.owner →
    ∀ tbe∈s.dir.tbe,∀ i : Fin n,tbe.len ≤ i.val → m.dataBlk i=s.memory i
  | _ => True

theorem error_of_refused [DecidableEq C] [DecidableEq D] [Inhabited B] {s : System C D n B} {i : Input C D n B}
    (h : s.Refused i) : ∃ fault,s.step i = .error fault := by
  cases i with
  | mandatory c type cacheAvail write =>
    obtain ⟨rfl,hroom⟩:=h
    refine ⟨.error "Invalid RubyRequestType",?_⟩
    have hno : ((s.cache c).entry.isNone && !cacheAvail)=false := by
      cases hentry : (s.cache c).entry <;> simp_all
    simp [step,L1Cache.mandatoryQueueIn,hno,L1Cache.mandatoryRequestTypeToEvent,Except.map,bind,Except.bind]
  | request c =>
    obtain ⟨hawaits,m,hhead,htype,howner⟩:=h
    refine ⟨.invalidTransition,?_⟩
    have he : s.dir.requestQueueIn m = .ok .PUTX_NotOwner := by simp [Directory.requestQueueIn,htype,howner]
    have ht : Directory.transition s.dir.getState .PUTX_NotOwner=none := by
      cases hs : s.dir.getState <;> simp [hs,Directory.State.awaits] at hawaits <;> rfl
    simp [step,hhead,orFault,he,Directory.doTransition,ht,bind,Except.bind]
  | dmaRequest d =>
    have hawaits : s.dir.getState.awaits=true := h
    cases hhead : (s.dmaRequestToDir d).head? with
    | none => exact ⟨.noMessage,by simp [step,hhead,orFault,bind,Except.bind]⟩
    | some m =>
      cases he : Directory.dmaRequestQueueIn m with
      | error fault => exact ⟨fault,by simp [step,hhead,orFault,he,bind,Except.bind]⟩
      | ok event =>
        have ht : Directory.transition s.dir.getState event=none := by
          have hevent : event = .DMA_READ ∨ event = .DMA_WRITE := by
            cases hm : m.type <;> simp_all [Directory.dmaRequestQueueIn]
          cases hs : s.dir.getState <;> simp [hs,Directory.State.awaits] at hawaits <;>
            obtain rfl | rfl:=hevent <;> rfl
        exact ⟨.invalidTransition,by simp [step,hhead,orFault,he,Directory.doTransition,ht,bind,Except.bind]⟩
  | _ => exact h.elim

theorem not_refused [DecidableEq C] [DecidableEq D] [Inhabited B] {s : System C D n B} {i : Input C D n B}
    {r : System C D n B × List (Report C D B (Block n B))} (hstep : s.step i = .ok r) : ¬s.Refused i := by
  intro hr
  obtain ⟨fault,herror⟩:=error_of_refused hr
  cases herror.symm.trans hstep

end System

namespace Protocol

variable {g : Protocol C D n B} [DecidableEq C] [DecidableEq D] [Inhabited B]

theorem awaits_of_mode (h : g.mode.awaits=true) : g.system.dir.getState.awaits=true := by
  rw [getState_dir]
  cases hm : g.mode with
  | recalling d pkt | returning d pkt source v answered =>
    cases hw : pkt.write <;> simp [Mode.dirState,hw,Directory.State.awaits]
  | _ => simp [hm,Mode.awaits] at h

omit [DecidableEq C] [DecidableEq D] in
theorem requestor_of_request {c : C} {m : RequestMsg C (Block n B)} (hm : m∈(g.phase c).request c) :
    m.requestor=c ∧ (g.phase c).request c=[m] := by
  cases hp : g.phase c <;> rw [hp] at hm <;> simp_all [Phase.request]

theorem takes_of_served {c : C} (h : ¬g.system.Refused (.request c)) : g.Takes c := by
  intro hawaits m hm htype
  obtain ⟨hrequestor,hlist⟩:=requestor_of_request hm
  by_contra howner
  have hhead : (g.system.requestToDir c).head?=some m := by simp [system,hlist]
  exact h ⟨awaits_of_mode hawaits,m,hhead,htype,hrequestor ▸ howner⟩

theorem Inv.mergesExactly (h : g.Inv exact) (he : exact) {c : C} (hgood : g.system.WritesExactly (.request c)) :
    g.MergesExactly c := by
  intro d pkt hm hw hput hlast
  obtain ⟨v,hp⟩:=hput
  have hfits:=h.fits c
  rw [hp] at hfits
  have hd : g.dma d = .taken pkt := (h.serves d pkt).mpr (by rw [hm]; rfl)
  have haligned : Aligned n pkt := h.aligned he d pkt (by rw [hd]; rfl) hw
  have hstate : g.system.dir.getState = .M_DWR := by rw [getState_dir,hm]; simp [Mode.dirState,hw]
  have hhead : (g.system.requestToDir c).head?=some ⟨.PUTX,c,v⟩ := by simp [system,hp,Phase.request]
  have howner : c∈g.system.dir.owner := by simp [system,owner,hm,Mode.owns,hlast]
  have hrest:=hgood hstate _ hhead rfl howner (Mode.dmaTBE .M_DWR d pkt) (by simp [system,hm,Mode.tbe,Mode.dirState,hw])
  have hlen : (Mode.dmaTBE .M_DWR d pkt : Directory.TBE D (Block n B)).len=pkt.len := by
    simp [Mode.dmaTBE,dmaMsg,DMASequencer.makeRequest,haligned.1,haligned.2.2]
  rw [merged_of_aligned haligned hw]
  funext i
  by_cases hi : i.val<pkt.len
  · simp [overlay,haligned.1,hi]
  · have hmemory : v i=g.memory i := hrest i (by rw [hlen]; exact Nat.le_of_not_lt hi)
    simp [overlay,haligned.1,hi,← hmemory,hfits.2.2]

theorem step_yields (h : g.Inv exact) {i : Input C D n B} (hi : g.system.Deliverable i)
    (hserved : ¬g.system.Refused i) (hgood : exact → g.system.WritesExactly i) :
    g.Yields exact (g.system.step i) := by
  cases i with
  | mandatory c type cacheAvail write => exact mandatory_yields h hserved write
  | replacement c => exact replacement_yields h hi
  | forward c => exact forward_yields h hi
  | response source c write => exact response_yields h hi write
  | request c => exact request_yields h hi (takes_of_served hserved) fun he => h.mergesExactly he (hgood he)
  | dmaMandatory d pkt => exact dmaMandatory_yields h d pkt hgood
  | dmaRequest d =>
    apply dmaRequest_yields h hi
    by_contra hawaits
    exact hserved (awaits_of_mode (Bool.eq_true_of_not_eq_false hawaits))
  | dmaResponse d => exact dmaResponse_yields h hi
  | memoryRequest => exact memoryRequest_yields h hi
  | memoryResponse => exact memoryResponse_yields h hi

end Protocol

namespace System

variable [DecidableEq C] [DecidableEq D] [Inhabited B] {good : System C D n B → Input C D n B → Prop}
  {memory : Block n B} {s : System C D n B} {log : List (Report C D B (Block n B))}

theorem Reachable.protocol (h : Reachable good memory s log) (hgood : exact → ∀ s i,good s i → s.WritesExactly i) :
    ∃ g : Protocol C D n B,g.Inv exact ∧ s=g.system ∧ (exact ∨ IsEmpty D → g.Tracks memory log) := by
  induction h with
  | initial =>
    exact ⟨.initial memory,Protocol.initial_inv exact memory,rfl,fun _ => Protocol.initial_tracks memory⟩
  | step s s' log reports i _ hi hstepGood hstep ih =>
    obtain ⟨g,hg,rfl,htracks⟩:=ih
    have hserved:=not_refused hstep
    obtain ⟨g',reports',hyields,hg',hevolves⟩:=Protocol.step_yields hg hi hserved fun he => hgood he _ _ hstepGood
    rw [hyields] at hstep
    cases hstep
    exact ⟨g',hg',rfl,fun he => hevolves.tracks (htracks he) he⟩

def Unrestricted (_ : System C D n B) (_ : Input C D n B) : Prop := True

instance (s : System C D n B) (i : Input C D n B) : Decidable (s.Unrestricted i) := isTrue trivial

def decidableNonempty {α : Type} : (l : List α) → Decidable (l≠[])
  | [] => isFalse fun h => h rfl
  | _::_ => isTrue (List.cons_ne_nil _ _)

instance (s : System C D n B) : (i : Input C D n B) → Decidable (s.Deliverable i)
  | .mandatory _ _ _ _ => isTrue trivial
  | .replacement c => inferInstanceAs (Decidable ((s.cache c).entry.isSome=true))
  | .forward c => decidableNonempty (s.forwardFromDir c)
  | .response source c _ => decidableNonempty (s.responseToCache source c)
  | .request c => decidableNonempty (s.requestToDir c)
  | .dmaMandatory _ _ => isTrue trivial
  | .dmaRequest d => decidableNonempty (s.dmaRequestToDir d)
  | .dmaResponse d => decidableNonempty (s.dmaResponseFromDir d)
  | .memoryRequest => decidableNonempty s.requestToMemory
  | .memoryResponse => decidableNonempty s.responseFromMemory

section

variable (good) [∀ s i,Decidable (good s i)]

def run (s : System C D n B) (log : List (Report C D B (Block n B))) :
    List (Input C D n B) → Option (System C D n B × List (Report C D B (Block n B)))
  | [] => some (s,log)
  | i::rest =>
    if s.Deliverable i ∧ good s i then
      match s.step i with
      | .ok (s,reports) => run s (reports.reverse++log) rest
      | .error _ => none
    else none

variable {good}

theorem Reachable.run {s' : System C D n B} {log' : List (Report C D B (Block n B))} {inputs : List (Input C D n B)}
    (h : Reachable good memory s log) (hr : s.run good log inputs=some (s',log')) : Reachable good memory s' log' := by
  induction inputs generalizing s log with
  | nil =>
    cases hr
    exact h
  | cons i rest ih =>
    unfold System.run at hr
    split at hr
    · rename_i hi
      cases hstep : s.step i with
      | ok next =>
        rw [hstep] at hr
        exact ih (.step s next.1 log next.2 i h hi.1 hi.2 hstep) hr
      | error fault =>
        rw [hstep] at hr
        cases hr
    · cases hr

variable (good)

def reaches (memory : Block n B) (inputs : List (Input C D n B))
    (p : System C D n B → List (Report C D B (Block n B)) → Bool) : Bool :=
  match (initial memory : System C D n B).run good [] inputs with
  | some (s,log) => p s log
  | none => false

theorem reached (memory : Block n B) (inputs : List (Input C D n B))
    {p : System C D n B → List (Report C D B (Block n B)) → Bool} (h : reaches good memory inputs p=true) :
    ∃ s log,Reachable good memory s log ∧ p s log=true := by
  unfold reaches at h
  split at h
  · rename_i s log hrun
    exact ⟨s,log,Reachable.initial.run hrun,h⟩
  · cases h

end

end System

/-! ## Coherence -/

section

variable [DecidableEq C] [Inhabited B]

namespace Protocol

omit [DecidableEq C] in
theorem modified_of_state {p : Phase C D (Block n B)} (h : p.cache.getState = .M) : ∃ v,p = .modified v := by
  cases p with
  | modified v => exact ⟨v,rfl⟩
  | idle stale => cases stale <;> cases h
  | asked store stale | queued store stale | granted store stale v source => cases store <;> cases h
  | _ => cases h

theorem Inv.unique_owner [DecidableEq D] {g : Protocol C D n B} (h : g.Inv exact) {c d : C}
    (hc : (g.system.cache c).getState = .M) (hd : (g.system.cache d).getState = .M) : c=d := by
  obtain ⟨v,hp⟩:=modified_of_state hc
  obtain ⟨w,hq⟩:=modified_of_state hd
  have hcfits:=h.fits c
  have hdfits:=h.fits d
  rw [hp] at hcfits
  rw [hq] at hdfits
  exact Option.some.inj (hcfits.1.symm.trans hdfits.1)

end Protocol

namespace System

theorem owner_unique_loads_latest {memory : Block n B} {s : System C Empty n B}
    {log : List (Report C Empty B (Block n B))} (h : Reachable Unrestricted memory s log) :
    (∀ c d,(s.cache c).getState = .M → (s.cache d).getState = .M → c=d) ∧
    ∀ later c v earlier,log=later ++ .load c v::earlier → v=latest memory earlier := by
  obtain ⟨g,hg,rfl,htracks⟩:=(h.protocol fun hf => hf.elim : ∃ g : Protocol C Empty n B,g.Inv False ∧ s=g.system ∧
    (False ∨ IsEmpty Empty → g.Tracks memory log))
  refine ⟨fun c d hc hd => hg.unique_owner hc hd,?_⟩
  intro later c v earlier hlog
  exact (htracks (.inr inferInstance)).told later (.load c v) earlier hlog

def loads (c : C) : List (Report C D B (Block n B)) → Bool
  | .load x _::_ => x=c
  | _ => false

omit [Inhabited B] in
theorem eq_load_of_loads {c : C} {log : List (Report C D B (Block n B))} (h : loads c log=true) :
    ∃ v earlier,log = .load c v::earlier := by
  unfold loads at h
  split at h
  · rename_i x v earlier
    obtain rfl : x=c := of_decide_eq_true h
    exact ⟨v,earlier,rfl⟩
  · cases h

theorem owner_unique_loads_latest_handover :
    ∃ (s : System Bool Empty 1 ℕ) (earlier : List (Report Bool Empty ℕ (Block 1 ℕ))) (v : Block 1 ℕ),
      Reachable Unrestricted (fun _ => 0) s (.load true v::earlier) ∧ (s.cache true).getState = .M ∧
        (s.cache false).getState ≠ .M ∧ v=latest (fun _ => 0) earlier := by
  obtain ⟨s,log,hs,hp⟩:=reached (C := Bool) (D := Empty) (n := 1) (B := ℕ) Unrestricted
    (p := fun s log => decide ((s.cache true).getState = .M)&&loads true log) (fun _ => 0)
    [.mandatory false .ST true id,.request false,.memoryRequest,.memoryResponse,
      .response .Directory false (fun _ _ => 7),.mandatory true .LD true id,.request true,.forward false,
      .response (.L1Cache false) true id] (by decide +kernel)
  rw [Bool.and_eq_true,decide_eq_true_iff] at hp
  obtain ⟨v,earlier,rfl⟩:=eq_load_of_loads hp.2
  obtain ⟨hunique,hloads⟩:=owner_unique_loads_latest hs
  exact ⟨s,earlier,v,hs,hp.1,fun hM => Bool.noConfusion (hunique false true hM hp.1),hloads [] true v earlier rfl⟩

end System

end

/-! ## Which events the protocol handles -/

variable [DecidableEq C] [DecidableEq D] [Inhabited B]

namespace System

def Handled (s : System C D n B) (i : Input C D n B) : Prop := ∃ s' reports,s.step i = .ok (s',reports)

theorem handled_iff_not_refused {memory : Block n B} {s : System C D n B} {log : List (Report C D B (Block n B))}
    {i : Input C D n B} (h : Reachable Unrestricted memory s log) (hi : s.Deliverable i) :
    s.Handled i ↔ ¬s.Refused i := by
  obtain ⟨g,hg,rfl,-⟩:=(h.protocol fun hf => hf.elim : ∃ g : Protocol C D n B,g.Inv False ∧ s=g.system ∧
    (False ∨ IsEmpty D → g.Tracks memory log))
  constructor
  · exact fun ⟨s',reports,hstep⟩ => not_refused hstep
  · intro hserved
    obtain ⟨g',reports,hstep,-,-⟩:=Protocol.step_yields hg hi hserved fun hf => hf.elim
    exact ⟨g'.system,reports,hstep⟩

/-- The `PUTX` of a cache that no longer owns the block is handled while the directory waits for nothing. -/
theorem handled_iff_not_refused_putx : ∃ (s : System Bool Bool 1 ℕ) (log : List (Report Bool Bool ℕ (Block 1 ℕ))),
    Reachable Unrestricted (fun _ => 0) s log ∧ s.forwardFromDir false≠[] ∧ false∉s.dir.owner ∧
      s.Handled (.request false) := by
  obtain ⟨s,log,hs,hp⟩:=reached (C := Bool) (D := Bool) (n := 1) (B := ℕ) Unrestricted
    (p := fun s _ => s.forwardFromDir false≠[] ∧ s.requestToDir false≠[] ∧ false∉s.dir.owner ∧
      s.dir.getState.awaits=false) (fun _ => 0)
    [.mandatory false .ST true id,.request false,.memoryRequest,.memoryResponse,
      .response .Directory false (fun _ _ => 7),.replacement false,.mandatory true .ST true id,.request true]
    (by decide +kernel)
  obtain ⟨hforward,hputx,howner,hawaits⟩:=of_decide_eq_true hp
  exact ⟨s,log,hs,hforward,howner,(handled_iff_not_refused (i := .request false) hs hputx).mpr fun h =>
    Bool.false_ne_true (hawaits.symm.trans h.1)⟩

def stops (i : Input C D n B) (s : System C D n B) (_ : List (Report C D B (Block n B))) : Bool :=
  decide (s.Deliverable i)&&match s.step i with
    | .ok _ => false
    | .error fault => fault = .invalidTransition

theorem error_of_stops {i : Input C D n B} {s : System C D n B} {log : List (Report C D B (Block n B))}
    (h : stops i s log=true) : s.Deliverable i ∧ s.step i = .error .invalidTransition := by
  unfold stops at h
  rw [Bool.and_eq_true,decide_eq_true_iff] at h
  refine ⟨h.1,?_⟩
  have hstep:=h.2
  split at hstep
  · cases hstep
  · rename_i fault hfault
    rw [hfault,of_decide_eq_true hstep]

/-- Two runs of two caches and two DMA controllers. In the first, a cache hands the block over while its
`PUTX` is in flight, and a DMA read reaches the directory before the `PUTX` does. In the second, another
DMA read comes while the directory waits for the owner's block. -/
theorem late_putx_unhandled :
    (∃ (s : System Bool Bool 1 ℕ) (log : List (Report Bool Bool ℕ (Block 1 ℕ))),
      Reachable Unrestricted (fun _ => 0) s log ∧ s.Deliverable (.request false) ∧
        s.step (.request false) = .error .invalidTransition) ∧
    ∃ (s : System Bool Bool 1 ℕ) (log : List (Report Bool Bool ℕ (Block 1 ℕ))),
      Reachable Unrestricted (fun _ => 0) s log ∧ s.Deliverable (.dmaRequest true) ∧
        s.step (.dmaRequest true) = .error .invalidTransition := by
  constructor
  · obtain ⟨s,log,hs,hstop⟩:=reached (C := Bool) (D := Bool) (n := 1) (B := ℕ) Unrestricted
      (p := stops (.request false)) (fun _ => 0)
      [.mandatory false .ST true id,.request false,.memoryRequest,.memoryResponse,
        .response .Directory false (fun _ _ => 7),.replacement false,.mandatory true .ST true id,.request true,
        .dmaMandatory false ⟨false,0,1,fun _ => 0⟩,.dmaRequest false] (by decide +kernel)
    exact ⟨s,log,hs,error_of_stops hstop⟩
  · obtain ⟨s,log,hs,hstop⟩:=reached (C := Bool) (D := Bool) (n := 1) (B := ℕ) Unrestricted
      (p := stops (.dmaRequest true)) (fun _ => 0)
      [.mandatory false .ST true id,.request false,.memoryRequest,.memoryResponse,
        .response .Directory false (fun _ _ => 7),.dmaMandatory false ⟨false,0,1,fun _ => 0⟩,.dmaRequest false,
        .dmaMandatory true ⟨false,0,1,fun _ => 0⟩] (by decide +kernel)
    exact ⟨s,log,hs,error_of_stops hstop⟩

end System

/-!
## DMA writes

A DMA write that starts with its block, and meets no owner with newer bytes after its own, leaves in the
memory what the block held, with the bytes of the request.
-/

namespace Protocol

theorem Inv.memory_of_invalid {exact : Prop} {g : Protocol C D n B} (h : g.Inv exact)
    (hs : g.system.dir.getState = .I) : g.memory=g.block := by
  have hmode:=h.mode
  rw [getState_dir] at hs
  cases hm : g.mode with
  | invalid =>
    rw [hm] at hmode
    exact hmode.2
  | recalling d pkt | returning d pkt source v answered => cases hw : pkt.write <;> simp [hm,Mode.dirState,hw] at hs
  | _ => simp [hm,Mode.dirState] at hs

end Protocol

namespace System

instance [DecidableEq B] (s : System C D n B) : (i : Input C D n B) → Decidable (s.WritesExactly i)
  | .dmaMandatory _ pkt => inferInstanceAs (Decidable (pkt.write=true → pkt.offset=0 ∧ 0<pkt.len ∧ pkt.len≤n))
  | .request c => inferInstanceAs (Decidable (s.dir.getState = .M_DWR → ∀ m∈(s.requestToDir c).head?,m.type = .PUTX →
      m.requestor∈s.dir.owner → ∀ tbe∈s.dir.tbe,∀ i : Fin n,tbe.len ≤ i.val → m.dataBlk i=s.memory i))
  | .mandatory _ _ _ _ => isTrue trivial
  | .replacement _ => isTrue trivial
  | .forward _ => isTrue trivial
  | .response _ _ _ => isTrue trivial
  | .dmaRequest _ => isTrue trivial
  | .dmaResponse _ => isTrue trivial
  | .memoryRequest => isTrue trivial
  | .memoryResponse => isTrue trivial

/-- A step that acknowledges a DMA write has left its bytes in the memory, and the content of the block
around them. -/
def AcknowledgesExactly (memory : Block n B) (log : List (Report C D B (Block n B)))
    (reports : List (Report C D B (Block n B))) (s : System C D n B) : Prop :=
  ∀ d,.writes d∈reports → ∃ pkt,lastIssue d log=some pkt ∧ s.memory=Protocol.overlay pkt (latest memory log)

/-- The run has told only the content of the block, and has it in the memory when no cache was promised
the block. -/
def TellsExactly (memory : Block n B) (log : List (Report C D B (Block n B))) (s : System C D n B) : Prop :=
  Always (Told memory) log ∧ (s.dir.getState = .I → s.memory=latest memory log)

theorem dma_writes_exact {memory : Block n B} {s s' : System C D n B} {log : List (Report C D B (Block n B))}
    {reports : List (Report C D B (Block n B))} {i : Input C D n B} (h : Reachable WritesExactly memory s log)
    (hi : s.Deliverable i) (hgood : s.WritesExactly i) (hstep : s.step i = .ok (s',reports)) :
    AcknowledgesExactly memory log reports s' ∧ TellsExactly memory (reports.reverse++log) s' := by
  obtain ⟨g,hg,rfl,htracks⟩:=(h.protocol fun _ _ _ hgood => hgood : ∃ g : Protocol C D n B,g.Inv True ∧
    s=g.system ∧ (True ∨ IsEmpty D → g.Tracks memory log))
  have ht:=htracks (.inl trivial)
  have hserved:=not_refused hstep
  obtain ⟨g',reports',hyields,hg',hevolves⟩:=Protocol.step_yields hg hi hserved fun _ => hgood
  rw [hyields] at hstep
  cases hstep
  have ht':=hevolves.tracks ht (.inl trivial)
  refine ⟨?_,ht'.told,fun hI => (hg'.memory_of_invalid hI).trans ht'.block.symm⟩
  intro d hd
  cases hevolves with
  | writes _ x pkt u hx hw hdma hmemory hexact =>
    cases List.mem_singleton.mp hd
    refine ⟨pkt,ht.issued d pkt (by rw [hx]; rfl),?_⟩
    rw [ht.block,← hexact trivial]
    exact hmemory
  | _ => simp at hd

def acknowledges (s : System C D n B) : Bool :=
  match s.step .memoryResponse with
  | .ok (_,[.writes _]) => true
  | _ => false

theorem step_of_acknowledges {s : System C D n B} (h : s.acknowledges=true) :
    ∃ s' d,s.step .memoryResponse = .ok (s',[.writes d]) := by
  unfold acknowledges at h
  split at h
  · rename_i s' d hstep
    exact ⟨s',d,hstep⟩
  · cases h

theorem dma_writes_exact_first_byte :
    ∃ (s s' : System Bool Unit 2 ℕ) (log : List (Report Bool Unit ℕ (Block 2 ℕ))),
      Reachable WritesExactly (fun _ => 9) s log ∧ s.step .memoryResponse = .ok (s',[.writes ()]) ∧
        AcknowledgesExactly (fun _ => 9) log [.writes ()] s' ∧ TellsExactly (fun _ => 9) (.writes ()::log) s' := by
  obtain ⟨s,log,hs,hp⟩:=reached (C := Bool) (D := Unit) (n := 2) (B := ℕ) WritesExactly
    (p := fun s _ => decide (s.Deliverable .memoryResponse)&&s.acknowledges) (fun _ => 9)
    [.mandatory false .ST true id,.request false,.memoryRequest,.memoryResponse,
      .response .Directory false (fun v i => if i.val=0 then 7 else v i),.dmaMandatory () ⟨true,0,1,fun _ => 5⟩,
      .dmaRequest (),.forward false,.request false,.memoryRequest] (by decide +kernel)
  rw [Bool.and_eq_true,decide_eq_true_iff] at hp
  obtain ⟨s',d,hstep⟩:=step_of_acknowledges hp.2
  exact ⟨s,s',log,hs,hstep,dma_writes_exact hs hp.1 trivial hstep⟩

def misses [DecidableEq B] (memory : Block n B) (s : System C D n B) (log : List (Report C D B (Block n B))) : Bool :=
  match s.step .memoryResponse with
  | .ok (s',[.writes d]) =>
    match lastIssue d log with
    | some pkt => decide (∃ i,s'.memory i≠Protocol.overlay pkt (latest memory log) i)
    | none => false
  | _ => false

theorem inexact_of_misses [DecidableEq B] {memory : Block n B} {s : System C D n B}
    {log : List (Report C D B (Block n B))} (h : misses memory s log=true) :
    ∃ s' reports,s.step .memoryResponse = .ok (s',reports) ∧ ¬AcknowledgesExactly memory log reports s' := by
  unfold misses at h
  split at h
  · rename_i s' d hstep
    refine ⟨s',[.writes d],hstep,?_⟩
    intro hexact
    obtain ⟨pkt,hissue,hmemory⟩:=hexact d (List.mem_singleton_self _)
    rw [hissue] at h
    obtain ⟨i,hi⟩:=of_decide_eq_true h
    exact hi (congrFun hmemory i)
  · cases h

/-- A write of the second byte of an uncached block goes to the first byte. A write of the first byte of a
block that a cache has modified loses what the cache stored in the second byte. -/
theorem dma_writes_inexact :
    (∃ (s s' : System Bool Unit 2 ℕ) (log reports : List (Report Bool Unit ℕ (Block 2 ℕ))),
      Reachable Unrestricted (fun _ => 9) s log ∧ s.step .memoryResponse = .ok (s',reports) ∧
        ¬AcknowledgesExactly (fun _ => 9) log reports s') ∧
    ∃ (s s' : System Bool Unit 2 ℕ) (log reports : List (Report Bool Unit ℕ (Block 2 ℕ))),
      Reachable Unrestricted (fun _ => 9) s log ∧ s.step .memoryResponse = .ok (s',reports) ∧
        ¬AcknowledgesExactly (fun _ => 9) log reports s' := by
  constructor
  · obtain ⟨s,log,hs,hp⟩:=reached (C := Bool) (D := Unit) (n := 2) (B := ℕ) Unrestricted (p := misses (fun _ => 9))
      (fun _ => 9) [.dmaMandatory () ⟨true,1,1,fun _ => 5⟩,.dmaRequest (),.memoryRequest] (by decide +kernel)
    obtain ⟨s',reports,hstep,hinexact⟩:=inexact_of_misses hp
    exact ⟨s,s',log,reports,hs,hstep,hinexact⟩
  · obtain ⟨s,log,hs,hp⟩:=reached (C := Bool) (D := Unit) (n := 2) (B := ℕ) Unrestricted (p := misses (fun _ => 9))
      (fun _ => 9) [.mandatory false .ST true id,.request false,.memoryRequest,.memoryResponse,
        .response .Directory false (fun _ _ => 7),.dmaMandatory () ⟨true,0,1,fun _ => 5⟩,.dmaRequest (),.forward false,
        .request false,.memoryRequest] (by decide +kernel)
    obtain ⟨s',reports,hstep,hinexact⟩:=inexact_of_misses hp
    exact ⟨s,s',log,reports,hs,hstep,hinexact⟩

end System

end AquaGem5.Ruby.MIExample
