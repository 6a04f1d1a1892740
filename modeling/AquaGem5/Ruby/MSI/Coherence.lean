import AquaGem5.Ruby.MSI.Evictions

/-!
# Runs of the protocol

Every state that a run reaches is a state of the abstract protocol, whose block is what was stored last.
-/

namespace AquaGem5.Ruby.MSI
open Checked Multiset

variable {C V : Type} [DecidableEq C] [DecidableEq V] [Inhabited V]

namespace System

/-- The events that stop the protocol. -/
def Refused (s : System C V) : Input C V → Prop
  | .request _ m => s.dir.Refuses m
  | _ => False

end System

namespace Protocol

variable {g : Protocol C V} {m : RequestMsg C V}

omit [DecidableEq C] [DecidableEq V] in
theorem type_of_request {c : C} (hm : m∈(g.phase c).request c g.block) :
    (m.type = .GetS ∨ m.type = .GetM) ∨ m.type = .PutS ∨ m.type = .PutM := by
  cases hp : g.phase c with
  | sharerPut v dirty | invalidPut v dirty =>
    rw [hp] at hm
    obtain rfl:=mem_singleton.mp hm
    cases dirty <;> simp [Phase.put]
  | loadAsked | storeAsked copy | ownerPut =>
    rw [hp] at hm
    obtain rfl:=mem_singleton.mp hm
    simp
  | _ =>
    rw [hp] at hm
    exact absurd hm (notMem_zero m)

theorem put_step (h : g.Inv) {c : C} (hm : m∈(g.phase c).request c g.block) (ht : m.type = .PutS ∨ m.type = .PutM)
    (hok : ¬g.system.dir.Refuses m) : g.Acknowledges c (g.system.step (.request c m)) := by
  rcases ht with ht | ht
  · exact putS_step h hm ht hok
  · exact putM_step h hm ht

theorem request_step (h : g.Inv) {c : C} (hm : m∈(g.phase c).request c g.block) (hok : ¬g.system.dir.Refuses m) :
    g.Yields (g.system.step (.request c m)) := by
  rcases type_of_request hm with ht | ht
  · exact get_step h hm ht
  · obtain ⟨g',hstep,hg,hblock,-⟩:=put_step h hm ht hok
    exact ⟨g',[],hstep,hg,hblock ▸ .silent _⟩

theorem step_yields (h : g.Inv) {i : Input C V} (hi : g.system.Deliverable i)
    (hok : ¬g.system.Refused i) : g.Yields (g.system.step i) := by
  cases i with
  | mandatory c type cacheAvail write => exact mandatory_step h c hi cacheAvail write
  | replacement c => exact replacement_step h c hi
  | forward c => exact forward_step h hi
  | response c m write => exact response_step h hi
  | request c m => exact request_step h hi hok
  | responseToDir m => exact responseToDir_step h hi
  | memoryResponse m => exact memoryResponse_step h hi
  | memoryRequest m => exact memoryRequest_step h hi

end Protocol

/-- The value of the latest store, or the initial contents. -/
def latest (memory : V) : List (Callback C V) → V
  | [] => memory
  | .store _ v::_ => v
  | .load _ _::earlier => latest memory earlier

omit [DecidableEq C] [DecidableEq V] [Inhabited V] in
theorem Records.latest {memory : V} {log callbacks : List (Callback C V)} {v w : V}
    (h : Records v callbacks w) (hv : latest memory log=v) : MSI.latest memory (callbacks.reverse++log)=w := by
  cases h with
  | silent | load => exact hv
  | store => rfl

def LoadsLatest (memory : V) (log : List (Callback C V)) : Prop :=
  ∀ later c v earlier, log=later ++ .load c v::earlier → v=latest memory earlier

section

omit [DecidableEq C] [DecidableEq V] [Inhabited V]

theorem LoadsLatest.cons {memory : V} {log : List (Callback C V)} (h : LoadsLatest memory log)
    {e : Callback C V} (he : ∀ c v, e = .load c v → v=latest memory log) : LoadsLatest memory (e::log) := by
  intro later c v earlier hlog
  cases later with
  | nil =>
    obtain ⟨rfl,rfl⟩:=List.cons.inj hlog
    exact he c v rfl
  | cons x later =>
    exact h later c v earlier (List.cons.inj hlog).2

theorem Records.loadsLatest {memory : V} {log callbacks : List (Callback C V)} {v w : V}
    (h : Records v callbacks w) (hlog : LoadsLatest memory log) (hv : MSI.latest memory log=v) :
    LoadsLatest memory (callbacks.reverse++log) := by
  cases h with
  | silent => exact hlog
  | load c v =>
    refine hlog.cons fun c' v' he => ?_
    cases he
    exact hv.symm
  | store c v w => exact hlog.cons fun c' v' he => nomatch he

end

namespace System

theorem not_refused {s : System C V} {i : Input C V} {r : System C V × List (Callback C V)} (hstep : s.step i = .ok r) :
    ¬s.Refused i := by
  intro hr
  cases i with
  | request c m =>
    obtain ⟨fault,herror⟩:=s.refuse_step c hr
    cases herror.symm.trans hstep
  | _ => exact absurd hr not_false

theorem Reachable.protocol {memory : V} {s : System C V} {log : List (Callback C V)} (h : Reachable memory s log) :
    (∃ g : Protocol C V, g.Inv ∧ s=g.system ∧ MSI.latest memory log=g.block) ∧ LoadsLatest memory log := by
  induction h with
  | initial =>
    refine ⟨⟨.initial memory,Protocol.initial_inv memory,rfl,rfl⟩,?_⟩
    intro later c v earlier hlog
    simp at hlog
  | @step _ _ _ _ i _ hi hstep ih =>
    obtain ⟨⟨g,hg,rfl,hblock⟩,hloads⟩:=ih
    have hok:=not_refused hstep
    obtain ⟨g',callbacks,hyields,hg',hrecords⟩:=Protocol.step_yields hg hi hok
    rw [hyields] at hstep
    cases hstep
    exact ⟨⟨g',hg',rfl,hrecords.latest hblock⟩,hrecords.loadsLatest hloads hblock⟩

def run (s : System C V) (log : List (Callback C V)) :
    List (Input C V) → Option (System C V × List (Callback C V))
  | [] => some (s,log)
  | i::rest =>
    if s.Deliverable i then
      match s.step i with
      | .ok (s,callbacks) => run s (callbacks.reverse++log) rest
      | .error _ => none
    else none

theorem Reachable.run {memory : V} {s s' : System C V} {log log' : List (Callback C V)}
    {inputs : List (Input C V)} (h : Reachable memory s log)
    (hr : s.run log inputs=some (s',log')) : Reachable memory s' log' := by
  induction inputs generalizing s log with
  | nil =>
    cases hr
    exact h
  | cons i rest ih =>
    unfold System.run at hr
    split at hr
    · rename_i hi
      cases hstep : s.step i with
      | ok next =>
        rw [hstep] at hr
        exact ih (.step h hi hstep) hr
      | error fault =>
        rw [hstep] at hr
        cases hr
    · cases hr

def reaches (memory : V) (inputs : List (Input C V))
    (p : System C V → List (Callback C V) → Bool) : Bool :=
  match (initial memory : System C V).run [] inputs with
  | some (s,log) => p s log
  | none => false

theorem reached (memory : V) (inputs : List (Input C V))
    {p : System C V → List (Callback C V) → Bool} (h : reaches memory inputs p=true) :
    ∃ s log, Reachable memory s log ∧ p s log=true := by
  unfold reaches at h
  split at h
  · rename_i s log hrun
    exact ⟨s,log,Reachable.initial.run hrun,h⟩
  · cases h

end System

/-! ## Single writer, multiple readers -/

namespace Protocol

section

omit [DecidableEq C] [DecidableEq V]

theorem modified_of_state {p : Phase C V} {block : V} (h : (p.cache block).getState = .M) : p = .modified := by
  cases p with
  | modified => rfl
  | storeAsked copy | storeQueued copy | storeFetching copy early | storeGranted copy acks early =>
    cases copy <;> cases h
  | storeCollecting copied left => cases copied <;> cases h
  | _ => cases h

theorem state_of_blind {p : Phase C V} {block : V} (h : p.role.Blind) :
    (p.cache block).getState∉([.S,.SM_AD,.SM_A,.M] : List L1Cache.State) := by
  cases p with
  | storeAsked copy =>
    cases copy with
    | current => exact absurd h not_false
    | stale v => simp [Phase.cache,Phase.storing,L1Cache.getState]
  | storeQueued copy =>
    cases copy with
    | current => simp [Phase.role,Role.Blind] at h
    | stale v => simp [Phase.cache,Phase.storing,L1Cache.getState]
  | _ =>
    first
    | exact absurd h not_false
    | simp [Phase.cache,Phase.loading,L1Cache.empty,L1Cache.getState]

end

omit [DecidableEq V] in
theorem Inv.single_writer {g : Protocol C V} (h : g.Inv) {c d : C}
    (hc : (g.system.cache c).getState = .M) (hd : d≠c) :
    (g.system.cache d).getState∉([.S,.SM_AD,.SM_A,.M] : List L1Cache.State) := by
  have hp : g.phase c = .modified := modified_of_state hc
  obtain ⟨hhead,hmode⟩:=h.mode_of_owner (c := c) (.inl (by rw [hp]; rfl))
  obtain ⟨hi,-⟩:=h.settled (c := c) (by rw [hp]; trivial)
  have hfetch : g.mode.fetches=none := by rcases hmode with hq | ⟨r,hq⟩ <;> rw [hq] <;> rfl
  exact state_of_blind (h.alone hhead hi hfetch hd)

end Protocol

namespace System

theorem coherence {memory : V} {s : System C V} {log : List (Callback C V)}
    (h : Reachable memory s log) :
    (∀ c d, (s.cache c).getState = .M → d≠c →
      (s.cache d).getState∉([.S,.SM_AD,.SM_A,.M] : List L1Cache.State)) ∧
    ∀ later c v earlier, log=later ++ .load c v::earlier → v=MSI.latest memory earlier := by
  obtain ⟨⟨g,hg,rfl,-⟩,hloads⟩:=h.protocol
  exact ⟨fun c d hc hd => hg.single_writer hc hd,hloads⟩

theorem coherence_store : ∃ s, Reachable (C := Fin 2) 0 s [.load 1 7,.store 1 7] ∧
    (s.cache 1).getState = .M ∧
    (s.cache 0).getState∉([.S,.SM_AD,.SM_A,.M] : List L1Cache.State) ∧
    7=MSI.latest 0 [(.store 1 7 : Callback (Fin 2) ℕ)] := by
  obtain ⟨s,log,hs,hp⟩:=reached (C := Fin 2)
    (p := fun s log => log=[.load 1 7,.store 1 7] ∧ (s.cache 1).getState = .M) 0
    [.mandatory 1 .ST true id,.request 1 ⟨.GetM,1,0⟩,.memoryRequest ⟨.MEMORY_READ,.L1Cache 1,0⟩,
      .memoryResponse ⟨.MEMORY_READ,.L1Cache 1,0⟩,
      .response 1 ⟨.Data,.Directory,0,0⟩ (fun _ => 7),.mandatory 1 .LD true id]
    (by decide +kernel)
  obtain ⟨rfl,hM⟩:=of_decide_eq_true hp
  obtain ⟨hwriter,hloads⟩:=coherence hs
  exact ⟨s,hs,hM,hwriter 1 0 hM (by decide),hloads [] 1 7 _ rfl⟩

end System

/-!
## Which events the protocol handles

An event of a run is served unless it is an eviction notice that the directory refuses. Two runs
lead to such a notice.
-/

namespace System

def Notice (c : C) (m : RequestMsg C V) : Input C V → Prop
  | .request d n => d=c ∧ n=m ∧ (m.type = .PutS ∨ m.type = .PutM)
  | _ => False

/-- The event has a transition, no assertion and no `error` is reached, and an eviction notice is
taken and acknowledged to its sender. -/
def Served (s : System C V) (i : Input C V) : Prop :=
  ∃ s' callbacks, s.step i = .ok (s',callbacks) ∧
    ∀ c m, Notice c m i → s'.requestToDir c=(s.requestToDir c).erase m ∧
      s'.forwardFromDir c=s.forwardFromDir c++[⟨.PutAck,.Directory,default⟩]

theorem served_iff {memory : V} {s : System C V} {log : List (Callback C V)} {i : Input C V}
    (h : Reachable memory s log) (hi : s.Deliverable i) : s.Served i ↔ ¬s.Refused i := by
  obtain ⟨⟨g,hg,rfl,-⟩,-⟩:=h.protocol
  constructor
  · exact fun ⟨s',callbacks,hstep,_⟩ => not_refused hstep
  · intro hok
    obtain ⟨g',callbacks,hstep,-,-⟩:=Protocol.step_yields hg hi hok
    refine ⟨g'.system,callbacks,hstep,fun c m hn => ?_⟩
    cases i with
    | request d n =>
      obtain ⟨rfl,rfl,ht⟩:=hn
      obtain ⟨-,hrequest,-⟩:=Protocol.evicts_of_request hi ht
      obtain ⟨g'',hstep',-,-,hempty,hforwards⟩:=Protocol.put_step hg hi ht hok
      rw [hstep'] at hstep
      obtain ⟨hsystem,-⟩:=Prod.mk.inj (Except.ok.inj hstep)
      have hsent : g.system.requestToDir d={n} := hrequest
      rw [← hsystem,hempty,hsent]
      exact ⟨(Multiset.erase_singleton n).symm,hforwards⟩
    | _ => exact absurd hn not_false

/-- The directory takes a `PutS` whose sender an invalidation is on its way to, and acknowledges it. -/
theorem served_iff_putS : ∃ s log,Reachable (C := Fin 2) 0 s log ∧ s.forwardFromDir 0≠[] ∧
    s.Served (.request 0 ⟨.PutS,0,0⟩) := by
  obtain ⟨s,log,hs,hp⟩:=reached (C := Fin 2) (p := fun s _ => s.forwardFromDir 0≠[] ∧
      (⟨.PutS,0,0⟩ : RequestMsg (Fin 2) ℕ)∈s.requestToDir 0 ∧ 0∈s.dir.sharers ∧ s.dir.dirState ≠ .SS_m) 0
    [.mandatory 0 .LD true id,.request 0 ⟨.GetS,0,0⟩,.memoryRequest ⟨.MEMORY_READ,.L1Cache 0,0⟩,
      .memoryResponse ⟨.MEMORY_READ,.L1Cache 0,0⟩,.response 0 ⟨.Data,.Directory,0,0⟩ id,.replacement 0,
      .mandatory 1 .ST true id,.request 1 ⟨.GetM,1,0⟩] (by decide +kernel)
  obtain ⟨hinv,hputS,hsharer,hstate⟩:=of_decide_eq_true hp
  exact ⟨s,log,hs,hinv,(served_iff (i := .request 0 ⟨.PutS,0,0⟩) hs hputS).mpr fun hr =>
    hr.2.2.elim (absurd hsharer) hstate⟩

def stops (i : Input C V) (fault : Fault) (s : System C V) (_ : List (Callback C V)) : Bool :=
  decide (s.Deliverable i)&&match s.step i with
    | .ok _ => false
    | .error f => f=fault

theorem error_of_stops {i : Input C V} {fault : Fault} {s : System C V}
    {log : List (Callback C V)} (h : stops i fault s log=true) : s.Deliverable i ∧ s.step i = .error fault := by
  unfold stops at h
  rw [Bool.and_eq_true,decide_eq_true_iff] at h
  refine ⟨h.1,?_⟩
  have hstep:=h.2
  split at hstep
  · cases hstep
  · rename_i f hf
    rw [hf,of_decide_eq_true hstep]

/-- Two runs of three caches. In the first, cache 0 is invalidated before its `PutS` arrives, and
cache 2 has become the only sharer. In the second, owner and reader both evict while the directory
writes the owner's data to memory. -/
theorem late_putS_refused :
    (∃ s log, Reachable (C := Fin 3) 0 s log ∧ s.Deliverable (.request 0 ⟨.PutS,0,0⟩) ∧
      s.step (.request 0 ⟨.PutS,0,0⟩) = .error .assertion) ∧
    ∃ s log, Reachable (C := Fin 3) 0 s log ∧ s.Deliverable (.request 1 ⟨.PutS,1,0⟩) ∧
      s.step (.request 1 ⟨.PutS,1,0⟩) = .error .invalidTransition := by
  constructor
  · obtain ⟨s,log,hs,hstop⟩:=reached (C := Fin 3)
      (p := stops (.request 0 ⟨.PutS,0,0⟩) .assertion) 0
      [.mandatory 0 .LD true id,.request 0 ⟨.GetS,0,0⟩,.memoryRequest ⟨.MEMORY_READ,.L1Cache 0,0⟩,
        .memoryResponse ⟨.MEMORY_READ,.L1Cache 0,0⟩,.response 0 ⟨.Data,.Directory,0,0⟩ id,
        .replacement 0,.mandatory 1 .ST true id,.request 1 ⟨.GetM,1,0⟩,.forward 0,
        .memoryRequest ⟨.MEMORY_READ,.L1Cache 1,0⟩,.memoryResponse ⟨.MEMORY_READ,.L1Cache 1,0⟩,
        .response 1 ⟨.InvAck,.L1Cache 0,0,0⟩ id,.response 1 ⟨.Data,.Directory,0,1⟩ id,
        .replacement 1,.request 1 ⟨.PutM,1,0⟩,.memoryRequest ⟨.MEMORY_WB,.L1Cache 1,0⟩,
        .memoryResponse ⟨.MEMORY_WB,.L1Cache 1,0⟩,.mandatory 2 .LD true id,
        .request 2 ⟨.GetS,2,0⟩] (by decide +kernel)
    exact ⟨s,log,hs,error_of_stops hstop⟩
  · obtain ⟨s,log,hs,hstop⟩:=reached (C := Fin 3)
      (p := stops (.request 1 ⟨.PutS,1,0⟩) .invalidTransition) 0
      [.mandatory 0 .ST true id,.request 0 ⟨.GetM,0,0⟩,.memoryRequest ⟨.MEMORY_READ,.L1Cache 0,0⟩,
        .memoryResponse ⟨.MEMORY_READ,.L1Cache 0,0⟩,.response 0 ⟨.Data,.Directory,0,0⟩ id,
        .mandatory 1 .LD true id,.request 1 ⟨.GetS,1,0⟩,.forward 0,
        .responseToDir ⟨.Data,.L1Cache 0,0,0⟩,.response 1 ⟨.Data,.L1Cache 0,0,0⟩ id,
        .replacement 0,.request 0 ⟨.PutS,0,0⟩,.replacement 1] (by decide +kernel)
    exact ⟨s,log,hs,error_of_stops hstop⟩

end System

/-!
## Deadlock freedom

As long as a message is in flight, some message can be taken from its channel. When none is, the
directory knows exactly who holds the block.
-/

open Succession

omit [DecidableEq V] in
theorem Directory.doTransition_pops (p : Directory.Peek C V) (event : Directory.Event) (x : Directory C) :
    Post (doTransition p event x) (fun t => (event∈[.MemData,.MemAck] → t.popMem=true) ∧
      (event = .Data → t.popResponse=true ∧ t.responses=[]) ∧
      (x.dirState∈[.I,.S,.M] → event∉[.MemData,.MemAck,.Data] → t.popRequest=true)) := by
  unfold doTransition
  cases x.dirState <;> cases event <;>
    simp [-bind_pure_comp,transition,runActions,Action.run,Turn.forward,Turn.start,post_true]

omit [DecidableEq C] [DecidableEq V] in
theorem L1Cache.doTransition_pops (self : C) (p : L1Cache.Peek C V) (event : L1Cache.Event) (x : L1Cache V) :
    Post (doTransition self p event x) (fun t =>
      (event∈[.DataDirNoAcks,.DataDirAcks,.DataOwner,.InvAck,.LastInvAck] → t.popResponse=true ∧ t.responses=[]) ∧
      (event = .PutAck ∨ event = .Inv ∧ x.getState ≠ .IS_D ∨ event∈[.FwdGetS,.FwdGetM] ∧ x.getState∈[.M,.MI_A] →
        t.popForward=true)) := by
  unfold doTransition
  cases x.getState <;> cases event <;>
    simp [-bind_pure_comp,transition,runActions,Action.run,Turn.request,Turn.load,Turn.store,Turn.start,post_true]

/-- What arrives, as opposed to what a processor asks for. -/
def Input.message : Input C V → Bool
  | .mandatory _ _ _ _ => false
  | .replacement _ => false
  | _ => true

namespace System

/-- The event stops the protocol or changes the state, where a stalled one leaves it as it is. -/
def Moves (s : System C V) (i : Input C V) : Prop := Post (s.step i) (fun r => r.1≠s)

variable {s : System C V} {c : C}

theorem erase_ne {α : Type} [DecidableEq α] {q : Multiset α} {m : α} (h : m∈q) : q.erase m≠q := fun he =>
  absurd (card_erase_lt_of_mem h) (by rw [he]; exact lt_irrefl _)

theorem forward_moves {m : RequestMsg (MachineID C) V} {rest : List (RequestMsg (MachineID C) V)}
    (hq : s.forwardFromDir c=m::rest) (hm : m.type = .PutAck ∨ m.type = .Inv ∧ (s.cache c).getState ≠ .IS_D ∨
      m.type∈[.GetS,.GetM] ∧ (s.cache c).getState∈[.M,.MI_A]) : s.Moves (.forward c) := by
  simp only [Moves,System.step,hq,List.head?_cons,L1Cache.orFault,post_bind,post_ok]
  refine (post_true (L1Cache.forwardIn m)).eq_ok.imp fun event he => ?_
  refine (L1Cache.doTransition_pops _ _ event _).imp fun t ht heq => ?_
  have hpop:=ht.2 (by
    have hevent:=he.1
    unfold L1Cache.forwardIn at hevent
    split at hevent <;> cases hevent <;> simp_all)
  have htail:=congrFun (congrArg System.forwardFromDir heq) c
  simp [hpop,hq] at htail

theorem response_moves {m : ResponseMsg C V} (hm : m∈s.responseToCache c) : s.Moves (.response c m id) := by
  simp only [Moves,System.step,post_bind]
  refine (post_true ((s.cache c).responseIn m)).eq_ok.imp fun event he => ?_
  refine (L1Cache.doTransition_pops _ _ event _).imp fun t ht heq => ?_
  obtain ⟨hpop,hsent⟩:=ht.1 (by
    have hevent:=he.1
    unfold L1Cache.responseIn at hevent
    repeat' split at hevent
    all_goals cases hevent <;> decide)
  have herase:=congrFun (congrArg System.responseToCache heq) c
  simp only [hpop,hsent,afterCache,sentTo] at herase
  exact erase_ne hm (by simpa using herase)

theorem request_moves {m : RequestMsg C V} (hs : s.dir.dirState∈[.I,.S,.M]) (hm : m∈s.requestToDir c) :
    s.Moves (.request c m) := by
  simp only [Moves,System.step,post_bind]
  refine (post_true (s.dir.requestIn m)).eq_ok.imp fun event he => ?_
  refine (Directory.doTransition_pops _ event _).imp fun t ht heq => ?_
  have hpop:=ht.2.2 hs (by
    have hevent:=he.1
    unfold Directory.requestIn at hevent
    repeat' split at hevent
    all_goals cases hevent <;> decide)
  have herase:=congrFun (congrArg System.requestToDir heq) c
  exact erase_ne hm (by simpa [hpop] using herase)

theorem responseToDir_moves {m : ResponseMsg C V} (hm : m∈s.responseToDir) : s.Moves (.responseToDir m) := by
  simp only [Moves,System.step,post_bind]
  refine (post_true (Directory.responseIn m)).eq_ok.imp fun event he => ?_
  refine (Directory.doTransition_pops _ event _).imp fun t ht heq => ?_
  obtain ⟨hpop,hsent⟩:=ht.2.1 (by
    have hevent:=he.1
    unfold Directory.responseIn at hevent
    split at hevent <;> cases hevent
    rfl)
  have herase:=congrArg System.responseToDir heq
  exact erase_ne hm (by simpa [hpop,hsent,afterDirectory,sentTo] using herase)

theorem memoryResponse_moves {m : MemoryMsg C V} (hm : m∈s.responseFromMemory) : s.Moves (.memoryResponse m) := by
  simp only [Moves,System.step,post_bind]
  refine (Directory.doTransition_pops _ _ _).imp fun t ht heq => ?_
  have hpop:=ht.1 (by unfold Directory.memQueueIn; split <;> decide)
  have herase:=congrArg System.responseFromMemory heq
  exact erase_ne hm (by simpa [hpop] using herase)

theorem memoryRequest_moves {m : MemoryMsg C V} (hm : m∈s.requestToMemory) : s.Moves (.memoryRequest m) := by
  intro heq
  refine erase_ne hm (Eq.trans ?_ (congrArg System.requestToMemory heq))
  unfold memoryStep
  split <;> rfl

/-- Nothing is in flight and no cache is in a transaction. The directory knows the sharers and the owner, and
each copy is the block. -/
structure AtRest (s : System C V) (block : V) : Prop where
  channels : ∀ c, s.requestToDir c=0 ∧ s.forwardFromDir c=[] ∧ s.responseToCache c=0
  directory : s.responseToDir=0 ∧ s.requestToMemory=0 ∧ s.responseFromMemory=0
  caches : ∀ c, (s.cache c).tbe=none ∧ (s.cache c).getState∈[.I,.S,.M] ∧
    (c∈s.dir.sharers ↔ (s.cache c).getState = .S) ∧ (c∈s.dir.owner ↔ (s.cache c).getState = .M) ∧
    ∀ e∈(s.cache c).entry, e.dataBlk=block
  memory : s.dir.owner = ∅ → s.memory=block

end System

namespace Protocol

variable {g : Protocol C V} {c : C}

/-- No message can be taken. -/
def Stuck (g : Protocol C V) : Prop := ∀ i : Input C V, i.message=true → g.system.Deliverable i → ¬g.system.Moves i

theorem Stuck.forward (hs : g.Stuck) {m : RequestMsg (MachineID C) V} {rest : List (RequestMsg (MachineID C) V)}
    (hq : g.forwards c=m::rest) : ¬(m.type = .PutAck ∨
      m.type = .Inv ∧ ((g.phase c).cache g.block).getState ≠ .IS_D ∨
      m.type∈[.GetS,.GetM] ∧ ((g.phase c).cache g.block).getState∈[.M,.MI_A]) := fun hm =>
  hs (.forward c) rfl (by show g.forwards c≠[]; rw [hq]; simp) (System.forward_moves hq hm)

theorem Stuck.mode (hs : g.Stuck) :
    (g.mode = .invalid ∨ g.mode = .shared) ∨ g.mode = .owned ∨ ∃ r, g.mode = .downgrading r := by
  have hsent : g.mode.requestToMemory g.block=0 := eq_zero_of_forall_notMem fun m hm =>
    hs (.memoryRequest m) rfl hm (System.memoryRequest_moves hm)
  have hanswer : g.mode.responseFromMemory g.block=0 := eq_zero_of_forall_notMem fun m hm =>
    hs (.memoryResponse m) rfl hm (System.memoryResponse_moves hm)
  have hdata : g.mode.responseToDir g.block=0 := eq_zero_of_forall_notMem fun m hm =>
    hs (.responseToDir m) rfl hm (System.responseToDir_moves hm)
  cases hq : g.mode <;> rw [hq] at hsent hanswer hdata
  case returning => exact absurd hdata (singleton_ne_zero _)
  case reading _ a | fetching _ a | sharing _ a | retiring _ a =>
    cases a with
    | true => exact absurd hanswer (singleton_ne_zero _)
    | false => exact absurd hsent (singleton_ne_zero _)
  all_goals simp

theorem Stuck.responses (hs : g.Stuck) (c : C) :
    (g.phase c).data g.block=0 ∧ (g.writers.head?=some c → g.acks=0) := by
  have hnone (m : ResponseMsg C V) : m∉(g.phase c).data g.block+if g.writers.head?=some c then g.acks else 0 :=
    fun hm => hs (.response c m id) rfl hm (System.response_moves hm)
  refine ⟨eq_zero_of_forall_notMem fun m hm => hnone m (mem_add.mpr (.inl hm)),fun hc => ?_⟩
  exact eq_zero_of_forall_notMem fun m hm => hnone m (mem_add.mpr (.inr (by rwa [if_pos hc])))

theorem Stuck.pending (hs : g.Stuck) (h : g.Inv) : g.invalidated = ∅ ∧ g.acks=0 := by
  constructor
  · refine Finset.eq_empty_of_forall_notMem fun c hi => ?_
    obtain ⟨w,rest,-,hq⟩:=h.forwards_of_invalidated hi
    refine hs.forward hq (.inr (.inl ⟨rfl,fun hstate => ?_⟩))
    have hplace:=h.places c
    have hdata:=(hs.responses c).1
    cases hp : g.phase c <;> rw [hp] at hplace hdata hstate
    case loadAsked => exact hplace.2.2.1 hi
    case loadPending => exact hplace.2.2.1 hi
    case loadAnswered => exact singleton_ne_zero _ hdata
    case storeCollecting copied left => cases copied <;> cases hstate
    case storeAsked copy | storeQueued copy | storeFetching copy _ | storeGranted copy _ _ =>
      cases copy <;> cases hstate
    all_goals cases hstate
  · cases hw : g.writers with
    | nil => exact (h.nobody hw).2
    | cons w rest => exact (hs.responses w).2 (by rw [hw]; rfl)

/-- The first of the queue has the block. -/
theorem Stuck.holds (hs : g.Stuck) (h : g.Inv) (hc : g.writers.head?=some c) : (g.phase c).Holds := by
  obtain ⟨hi,hacks⟩:=hs.pending h
  have hpending : g.pending=0 := by simp [Protocol.pending,hi,hacks]
  have hplace:=h.places c
  have hfirst:=h.first c hc
  have hdata:=(hs.responses c).1
  have hqueued : c∈g.writers := List.mem_of_head? hc
  have hfetch : g.mode.fetches=none := by
    rcases hs.mode with (hq | hq) | hq | ⟨r,hq⟩ <;> rw [hq] <;> rfl
  cases hp : g.phase c <;> rw [hp] at hplace hfirst hdata
  case modified | ownerPut | ownerAcked => trivial
  case storeAsked copy => cases copy <;> exact absurd hqueued hplace.1
  case storeQueued copy => cases copy <;> exact absurd hc hplace.2.1
  case storeFetching => cases hfetch.symm.trans hplace.2.1
  case storeGranted | storePassed => exact absurd hdata (singleton_ne_zero _)
  case storeCollecting =>
    obtain ⟨hleft,hpos⟩:=hfirst
    omega
  all_goals exact absurd hqueued hplace.1

theorem Stuck.queue (hs : g.Stuck) (h : g.Inv) : g.writers=[] ∧ (g.mode = .invalid ∨ g.mode = .shared) ∨
    (∃ w,g.writers=[w]) ∧ g.mode = .owned := by
  have hfits:=h.mode
  cases hw : g.writers with
  | nil =>
    rcases hs.mode with hq | hq | ⟨r,hq⟩
    · exact .inl ⟨rfl,hq⟩
    all_goals rw [hq] at hfits; exact absurd hw hfits.1
  | cons w rest =>
    have hholds:=hs.holds h (c := w) (by rw [hw]; rfl)
    have hlone : ¬(successor g.writers w≠none ∨ g.Closing w) := by
      intro hf
      obtain ⟨type,x,rest,htype,hq⟩:=forwards_of_forwarded (by rw [(hs.pending h).1]; exact Finset.notMem_empty w) hf
      refine hs.forward hq (.inr (.inr ⟨by rcases htype with rfl | rfl <;> simp [forwarded],?_⟩))
      cases hp : g.phase w <;> rw [hp] at hholds <;> first
        | exact absurd hholds not_false
        | simp [Phase.cache,L1Cache.getState]
    push Not at hlone
    obtain rfl : rest=[] := by
      cases rest with
      | nil => rfl
      | cons x rest => rw [hw,successor_head] at hlone; cases hlone.1
    rcases hs.mode with (hq | hq) | hq | ⟨r,hq⟩
    · rw [hq] at hfits; cases hw.symm.trans hfits.1
    · rw [hq] at hfits; cases hw.symm.trans hfits.1
    · exact .inr ⟨⟨w,rfl⟩,hq⟩
    · exact absurd ⟨by rw [hw]; rfl,by rw [hq]; exact Option.some_ne_none r⟩ hlone.2

theorem Stuck.forwards_eq (hs : g.Stuck) (h : g.Inv) (c : C) : g.forwards c=[] ∧ (g.phase c).acked=false := by
  have hforwards : g.forwards c=if (g.phase c).acked then [putAck] else [] := by
    rcases hs.queue h with ⟨hw,-⟩ | ⟨⟨w,hw⟩,hq⟩
    · simp [forwards,(hs.pending h).1,hw]
    · simp [forwards,(hs.pending h).1,hw,hq,Mode.downgrade]
  cases ha : (g.phase c).acked with
  | true =>
    rw [ha] at hforwards
    exact absurd (.inl rfl) (hs.forward hforwards)
  | false =>
    rw [ha] at hforwards
    exact ⟨hforwards,rfl⟩

theorem Stuck.requests (hs : g.Stuck) (h : g.Inv) (c : C) : (g.phase c).request c g.block=0 := by
  refine eq_zero_of_forall_notMem fun m hm => hs (.request c m) rfl hm (System.request_moves ?_ hm)
  show g.mode.dirState∈_
  rcases hs.queue h with ⟨-,hq | hq⟩ | ⟨-,hq⟩ <;> rw [hq] <;> simp [Mode.dirState]

theorem Stuck.directory (hs : g.Stuck) (h : g.Inv) (c : C) : (c∈g.owner ↔ g.writers.head?=some c) ∧
    (c∈g.writers → c∉g.sharers ∧ g.writers.head?=some c) ∧ g.mode.fetches=none ∧ g.mode.reader=none := by
  have hfits:=h.mode
  rcases hs.queue h with ⟨hw,hq | hq⟩ | ⟨⟨w,hw⟩,hq⟩
  · simp [owner,hw,hq,Mode.owns,Mode.fetches,Mode.reader]
  · simp [owner,hw,hq,Mode.owns,Mode.fetches,Mode.reader]
  · rw [hq] at hfits
    simp [owner,hw,hq,hfits.2,Mode.owns,Mode.fetches,Mode.reader,eq_comm]

theorem Stuck.phase (hs : g.Stuck) (h : g.Inv) (c : C) :
    g.phase c = .idle ∧ c∉g.sharers ∧ c∉g.owner ∨ g.phase c = .shared ∧ c∈g.sharers ∧ c∉g.owner ∨
      g.phase c = .modified ∧ c∉g.sharers ∧ c∈g.owner := by
  obtain ⟨howner,hqueue,hfetch,hreader⟩:=hs.directory h c
  have hplace:=h.places c
  have hdata:=(hs.responses c).1
  have hrequest:=hs.requests h c
  have hacked:=(hs.forwards_eq h c).2
  have hholds:=fun hc => hs.holds h (c := c) hc
  have hi : c∉g.invalidated := by rw [(hs.pending h).1]; exact Finset.notMem_empty c
  rw [howner]
  cases hp : g.phase c <;> rw [hp] at hplace hdata hrequest hacked hholds
  case idle => exact .inl ⟨rfl,fun hc => hplace.2.1 ⟨hc,hfetch⟩,fun hc => hplace.1 (List.mem_of_head? hc)⟩
  case shared =>
    exact .inr (.inl ⟨rfl,(hplace.2.1.mpr hi).1,fun hc => hplace.1 (List.mem_of_head? hc)⟩)
  case modified => exact .inr (.inr ⟨rfl,(hqueue (List.mem_of_head? hplace.1)).1,hplace.1⟩)
  case loadPending => cases hreader.symm.trans hplace.2.2.2
  case storeQueued copy => cases copy <;> exact absurd (hqueue hplace.1).2 hplace.2.1
  case storeFetching => cases hfetch.symm.trans hplace.2.1
  case storeCollecting => exact (hholds hplace.1).elim
  all_goals first
    | exact absurd hdata (singleton_ne_zero _)
    | exact absurd hrequest (singleton_ne_zero _)
    | cases hacked

theorem Stuck.rest (hs : g.Stuck) (h : g.Inv) : g.system.AtRest g.block where
  channels c := by
    refine ⟨hs.requests h c,(hs.forwards_eq h c).1,?_⟩
    show (g.phase c).data g.block+(if g.writers.head?=some c then g.acks else 0)=0
    rw [(hs.responses c).1,(hs.pending h).2,ite_self,zero_add]
  directory := by
    show g.mode.responseToDir g.block=0 ∧ g.mode.requestToMemory g.block=0 ∧ g.mode.responseFromMemory g.block=0
    rcases hs.queue h with ⟨-,hq | hq⟩ | ⟨-,hq⟩ <;> rw [hq] <;> exact ⟨rfl,rfl,rfl⟩
  caches c := by
    show ((g.phase c).cache g.block).tbe=none ∧ ((g.phase c).cache g.block).getState∈_ ∧
      (c∈g.sharers ↔ ((g.phase c).cache g.block).getState=_) ∧
      (c∈g.owner ↔ ((g.phase c).cache g.block).getState=_) ∧ ∀ e∈((g.phase c).cache g.block).entry,_
    rcases hs.phase h c with ⟨hp,hc⟩ | ⟨hp,hc⟩ | ⟨hp,hc⟩ <;>
      simp [hp,hc,Phase.cache,L1Cache.empty,L1Cache.getState]
  memory hno := by
    have hfits:=h.mode
    rcases hs.queue h with ⟨-,hq | hq⟩ | ⟨⟨w,hw⟩,hq⟩
    · rw [hq] at hfits; exact hfits.2.2
    · rw [hq] at hfits; exact hfits.2
    · have hmem : w∈g.owner := (hs.directory h w).1.mpr (by rw [hw]; rfl)
      rw [show g.owner=∅ from hno] at hmem
      exact absurd hmem (Finset.notMem_empty w)

end Protocol

namespace System

/-- Some message in flight can be taken, or is an eviction notice that the directory refuses. -/
def CanMove (s : System C V) : Prop := ∃ i : Input C V,i.message=true ∧ s.Deliverable i ∧
  (s.Refused i ∨ ∃ s' callbacks,s.step i = .ok (s',callbacks) ∧ s'≠s)

theorem moves_or_rests {memory : V} {s : System C V} {log : List (Callback C V)} (h : Reachable memory s log) :
    s.CanMove ∨ s.AtRest (latest memory log) := by
  obtain ⟨⟨g,hg,rfl,hblock⟩,-⟩:=h.protocol
  by_cases hs : g.Stuck
  · exact .inr (hblock ▸ hs.rest hg)
  · unfold Protocol.Stuck at hs
    push Not at hs
    obtain ⟨i,hmessage,hi,hmoves⟩:=hs
    refine .inl ⟨i,hmessage,hi,or_iff_not_imp_left.mpr fun hr => ?_⟩
    obtain ⟨g',callbacks,hstep,-⟩:=Protocol.step_yields hg hi hr
    unfold System.Moves at hmoves
    rw [hstep] at hmoves
    exact ⟨g'.system,callbacks,hstep,hmoves⟩

/-- Cache 0 stores and cache 1 loads. The owner's block is on its way to cache 1 and to the directory in the first state,
and in memory in the second one. -/
theorem moves_or_rests_shared :
    (∃ s log,Reachable (C := Fin 2) 0 s log ∧ s.responseToCache 1≠0 ∧ s.responseToDir≠0 ∧ s.CanMove) ∧
    ∃ s log,Reachable (C := Fin 2) 0 s log ∧ (s.cache 1).getState = .S ∧ s.AtRest 7 := by
  constructor
  · obtain ⟨s,log,hs,hp⟩:=reached (C := Fin 2) (p := fun s _ => s.responseToCache 1≠0 ∧ s.responseToDir≠0) 0
      [.mandatory 0 .ST true id,.request 0 ⟨.GetM,0,0⟩,.memoryRequest ⟨.MEMORY_READ,.L1Cache 0,0⟩,
        .memoryResponse ⟨.MEMORY_READ,.L1Cache 0,0⟩,.response 0 ⟨.Data,.Directory,0,0⟩ (fun _ => 7),
        .mandatory 1 .LD true id,.request 1 ⟨.GetS,1,0⟩,.forward 0] (by decide +kernel)
    obtain ⟨hcache,hdir⟩:=of_decide_eq_true hp
    exact ⟨s,log,hs,hcache,hdir,(moves_or_rests hs).resolve_right fun hrest => hcache (hrest.channels 1).2.2⟩
  · obtain ⟨s,log,hs,hp⟩:=reached (C := Fin 2) (p := fun s log => (s.cache 1).getState = .S ∧ latest 0 log=7 ∧
        (∀ c,s.requestToDir c=0 ∧ s.forwardFromDir c=[] ∧ s.responseToCache c=0) ∧
        s.responseToDir=0 ∧ s.requestToMemory=0 ∧ s.responseFromMemory=0) 0
      [.mandatory 0 .ST true id,.request 0 ⟨.GetM,0,0⟩,.memoryRequest ⟨.MEMORY_READ,.L1Cache 0,0⟩,
        .memoryResponse ⟨.MEMORY_READ,.L1Cache 0,0⟩,.response 0 ⟨.Data,.Directory,0,0⟩ (fun _ => 7),
        .mandatory 1 .LD true id,.request 1 ⟨.GetS,1,0⟩,.forward 0,.response 1 ⟨.Data,.L1Cache 0,7,0⟩ id,
        .responseToDir ⟨.Data,.L1Cache 0,7,0⟩,.memoryRequest ⟨.MEMORY_WB,.L1Cache 0,7⟩,
        .memoryResponse ⟨.MEMORY_WB,.L1Cache 0,7⟩] (by decide +kernel)
    obtain ⟨hshared,hlatest,hchannels,hdir,hmemory,hread⟩:=of_decide_eq_true hp
    refine ⟨s,log,hs,hshared,hlatest ▸ (moves_or_rests hs).resolve_left ?_⟩
    rintro ⟨i,hmessage,hi,-⟩
    cases i with
    | mandatory | replacement => cases hmessage
    | forward c => exact hi (hchannels c).2.1
    | response c m =>
      have hin : m∈s.responseToCache c := hi
      rw [(hchannels c).2.2] at hin
      exact Multiset.notMem_zero m hin
    | request c m =>
      have hin : m∈s.requestToDir c := hi
      rw [(hchannels c).1] at hin
      exact Multiset.notMem_zero m hin
    | responseToDir m => exact Multiset.notMem_zero m (hdir ▸ hi)
    | memoryResponse m => exact Multiset.notMem_zero m (hread ▸ hi)
    | memoryRequest m => exact Multiset.notMem_zero m (hmemory ▸ hi)

end System

end AquaGem5.Ruby.MSI
