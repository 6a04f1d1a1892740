import AquaGem5.Ruby.MSI.Handover

/-! # The memory, and the data of a former owner -/

namespace AquaGem5.Ruby.MSI
open Checked Succession

variable {C V : Type} [DecidableEq C] [DecidableEq V] [Inhabited V]

omit [DecidableEq C] in
theorem Directory.setState_ok {x : Directory C} {state : Directory.State}
    (hM : state = .M → x.owner.card=1 ∧ x.sharers.card=0)
    (hI : state = .I → x.owner.card=0 ∧ x.sharers.card=0) :
    x.setState state = .ok {x with dirState := state} := by
  have h1 : state = .M → x.owner.card=1 := fun h => (hM h).1
  have h2 : state = .M → x.sharers.card=0 := fun h => (hM h).2
  have h3 : state = .I → x.owner.card=0 := fun h => (hI h).1
  have h4 : state = .I → x.sharers.card=0 := fun h => (hI h).2
  simp only [Directory.setState,check,if_pos h1,if_pos h2,if_pos h3,if_pos h4]
  rfl

namespace Protocol

def remode (g : Protocol C V) (mode : Mode C) (memory : V) : Protocol C V :=
  {g with mode := mode, memory := memory}

variable {g : Protocol C V}

omit [DecidableEq V] [Inhabited V] in
theorem Inv.remode (h : g.Inv) {mode : Mode C} {memory : V}
    (hdown : mode.downgrade=g.mode.downgrade) (hreader : mode.reader=g.mode.reader)
    (hfetch : mode.fetches=g.mode.fetches) (hfits : ModeFits (g.remode mode memory) mode) :
    (g.remode mode memory).Inv where
  nodup := h.nodup
  places c := by
    have hplace : (g.remode mode memory).place c=g.place c := by
      simp only [place,Closing,Protocol.remode,hdown,hreader,hfetch]
    rw [hplace]
    exact h.places c
  first := h.first
  nobody := h.nobody
  acks := h.acks
  mode := hfits

omit [DecidableEq V] in
theorem remode_system {mode : Mode C} {memory : V}
    (hdown : mode.downgrade=g.mode.downgrade) (howns : mode.owns=g.mode.owns) :
    (g.remode mode memory).system =
      {g.system with
        dir := ⟨mode.dirState,g.sharers,g.owner⟩
        responseToDir := mode.responseToDir g.block
        requestToMemory := mode.requestToMemory g.block
        responseFromMemory := mode.responseFromMemory g.block
        memory := memory} := by
  apply System.ext
  · rfl
  · show (⟨_,_,if mode.owns then _ else ∅⟩ : Directory C)=_
    rw [howns]
    rfl
  · rfl
  · funext c
    show (g.remode mode memory).forwards c=g.forwards c
    unfold forwards
    rw [show (g.remode mode memory).mode.downgrade=g.mode.downgrade from hdown]
    rfl
  all_goals rfl

variable {m : MemoryMsg C V}

theorem memory_yields (h : g.Inv) {before : Mode C} (hq : g.mode=before) (m' : MemoryMsg C V) (mode : Mode C) (memory : V)
    (hstep : g.system.memoryStep m =
      {g.system with
        requestToMemory := (g.mode.requestToMemory g.block).erase m
        responseFromMemory := m' ::ₘ g.mode.responseFromMemory g.block
        memory := memory}) (hsent : before.requestToMemory g.block={m} ∧ mode.requestToMemory g.block=0)
    (hanswer : before.responseFromMemory g.block=0 ∧ mode.responseFromMemory g.block={m'})
    (hstate : mode.dirState=before.dirState ∧ mode.owns=before.owns ∧
      mode.responseToDir g.block=before.responseToDir g.block)
    (hdown : mode.downgrade=before.downgrade) (hreader : mode.reader=before.reader)
    (hfetch : mode.fetches=before.fetches) (hfits : ModeFits (g.remode mode memory) mode) :
    g.Yields (g.system.step (.memoryRequest m)) := by
  subst hq
  refine ⟨g.remode mode memory,[],congrArg (fun s => Except.ok (s,[])) ?_,
    h.remode hdown hreader hfetch hfits,.silent _⟩
  rw [hstep,remode_system hdown hstate.2.1,hstate.1,hstate.2.2,hsent.1,hsent.2,hanswer.1,hanswer.2]
  refine System.ext rfl rfl rfl rfl rfl rfl ?_ rfl rfl
  exact Multiset.erase_singleton m

theorem memoryRequest_step (h : g.Inv)
    (hm : m∈g.mode.requestToMemory g.block) : g.Yields (g.system.step (.memoryRequest m)) := by
  have hfits:=h.mode
  cases hq : g.mode with
  | reading r answered =>
    rw [hq] at hfits hm
    cases answered with
    | true => exact absurd hm (Multiset.notMem_zero m)
    | false =>
      obtain rfl:=Multiset.mem_singleton.mp hm
      exact memory_yields h hq ⟨.MEMORY_READ,.L1Cache r,g.memory⟩ (.reading r true) g.memory rfl ⟨rfl,rfl⟩
        (by rw [hfits.2]; exact ⟨rfl,rfl⟩) ⟨rfl,rfl,rfl⟩ rfl rfl rfl hfits
  | fetching w answered =>
    rw [hq] at hfits hm
    cases answered with
    | true => exact absurd hm (Multiset.notMem_zero m)
    | false =>
      obtain rfl:=Multiset.mem_singleton.mp hm
      exact memory_yields h hq ⟨.MEMORY_READ,.L1Cache w,g.memory⟩ (.fetching w true) g.memory rfl ⟨rfl,rfl⟩
        (by rw [hfits.2]; exact ⟨rfl,rfl⟩) ⟨rfl,rfl,rfl⟩ rfl rfl rfl hfits
  | sharing source answered =>
    rw [hq] at hfits hm
    cases answered with
    | true => exact absurd hm (Multiset.notMem_zero m)
    | false =>
      obtain rfl:=Multiset.mem_singleton.mp hm
      exact memory_yields h hq ⟨.MEMORY_WB,.L1Cache source,g.block⟩ (.sharing source true) g.block rfl ⟨rfl,rfl⟩ ⟨rfl,rfl⟩
        ⟨rfl,rfl,rfl⟩ rfl rfl rfl ⟨hfits.1,fun _ => rfl⟩
  | retiring source answered =>
    rw [hq] at hfits hm
    cases answered with
    | true => exact absurd hm (Multiset.notMem_zero m)
    | false =>
      obtain rfl:=Multiset.mem_singleton.mp hm
      exact memory_yields h hq ⟨.MEMORY_WB,.L1Cache source,g.block⟩ (.retiring source true) g.block rfl ⟨rfl,rfl⟩ ⟨rfl,rfl⟩
        ⟨rfl,rfl,rfl⟩ rfl rfl rfl ⟨hfits.1,hfits.2.1,fun _ => rfl⟩
  | _ =>
    rw [hq] at hm
    exact absurd hm (Multiset.notMem_zero m)

theorem memoryResponse_result (s : System C V) {t : Directory.Turn C V}
    (ht : Directory.doTransition ⟨some m,none,none⟩ (Directory.memQueueIn m) s.dir = .ok t) :
    s.step (.memoryResponse m) = .ok ({s.afterDirectory t with
      responseFromMemory := if t.popMem then s.responseFromMemory.erase m
        else s.responseFromMemory},[]) := by
  simp only [System.step,ht,bind,Except.bind]
  rfl

theorem ack_yields (h : g.Inv) {before : Mode C} (hq : g.mode=before) (mode : Mode C)
    (hturn : Directory.doTransition ⟨some m,none,none⟩ (Directory.memQueueIn m) g.system.dir =
      .ok ⟨⟨mode.dirState,g.sharers,g.owner⟩,[],[],[],false,false,true⟩)
    (hsent : before.requestToMemory g.block=0 ∧ mode.requestToMemory g.block=0)
    (hanswer : before.responseFromMemory g.block={m} ∧ mode.responseFromMemory g.block=0)
    (hdata : mode.owns=before.owns ∧ mode.responseToDir g.block=before.responseToDir g.block)
    (hdown : mode.downgrade=before.downgrade) (hreader : mode.reader=before.reader)
    (hfetch : mode.fetches=before.fetches) (hfits : ModeFits (g.remode mode g.memory) mode) :
    g.Yields (g.system.step (.memoryResponse m)) := by
  subst hq
  rw [memoryResponse_result g.system hturn]
  refine ⟨g.remode mode g.memory,[],congrArg (fun s => Except.ok (s,[])) ?_,
    h.remode hdown hreader hfetch hfits,.silent _⟩
  rw [remode_system hdown hdata.1,hdata.2,hsent.2,hanswer.2]
  refine System.ext rfl rfl rfl ?_ ?_ ?_ ?_ ?_ rfl
  · funext x
    exact List.append_nil _
  · funext x
    exact add_zero _
  · exact add_zero _
  · exact (add_zero _).trans hsent.1
  · show (g.mode.responseFromMemory g.block).erase m=0
    rw [hanswer.1]
    exact Multiset.erase_singleton m

theorem fetched_yields {g g' : Protocol C V} (h' : g'.Inv) {c : C} (q : Phase C V) (mode : Mode C)
    (sharers : Finset C) (acks : ℕ) (hg : g'={g.enter c q with mode := mode, sharers := sharers})
    (hturn : Directory.doTransition ⟨some ⟨.MEMORY_READ,.L1Cache c,g.block⟩,none,none⟩ .MemData
      g.system.dir = .ok ⟨g'.system.dir,[],[(.L1Cache c,⟨.Data,.Directory,g.block,acks⟩)],[],false,
        false,true⟩)
    (hcache : q.cache g.block=(g.phase c).cache g.block)
    (hrequest : q.request c g.block=(g.phase c).request c g.block)
    (hacked : q.acked=(g.phase c).acked)
    (hdata : q.data g.block=(g.phase c).data g.block+{⟨.Data,.Directory,g.block,acks⟩})
    (hdown : mode.downgrade=g.mode.downgrade)
    (hdir : mode.responseToDir g.block=g.mode.responseToDir g.block)
    (hsent : mode.requestToMemory g.block=g.mode.requestToMemory g.block)
    (hanswer : g.mode.responseFromMemory g.block={⟨.MEMORY_READ,.L1Cache c,g.block⟩} ∧
      mode.responseFromMemory g.block=0) :
    g.Yields (g.system.step (.memoryResponse ⟨.MEMORY_READ,.L1Cache c,g.block⟩)) := by
  subst hg
  rw [memoryResponse_result g.system hturn]
  refine ⟨_,[],congrArg (fun s => Except.ok (s,[])) ?_,h',.silent _⟩
  have hself : (g.enter c q).phase c=q := enter_phase_self g c q
  have hother : ∀ x, x≠c → (g.enter c q).phase x=g.phase x := fun x => enter_phase_of_ne g q
  apply System.ext
  · funext x
    show (g.phase x).cache g.block=((g.enter c q).phase x).cache g.block
    rcases eq_or_ne x c with rfl | hx
    · rw [hself,hcache]
    · rw [hother x hx]
  · rfl
  · funext x
    show (g.phase x).request x g.block=((g.enter c q).phase x).request x g.block
    rcases eq_or_ne x c with rfl | hx
    · rw [hself,hrequest]
    · rw [hother x hx]
  · funext x
    have hackedx : ((g.enter c q).phase x).acked=(g.phase x).acked := by
      rcases eq_or_ne x c with rfl | hx
      · rw [hself,hacked]
      · rw [hother x hx]
    show g.forwards x++[]=_
    unfold system forwards
    dsimp only
    rw [List.append_nil,hackedx,hdown]
    rfl
  · funext x
    show (g.phase x).data g.block+(if g.writers.head?=some x then g.acks else 0) +
        System.sentTo (.L1Cache x) [(.L1Cache c,_)] =
      ((g.enter c q).phase x).data g.block+if g.writers.head?=some x then g.acks else 0
    rw [sentTo_cons,sentTo_nil,add_zero]
    rcases eq_or_ne x c with rfl | hx
    · rw [hself,hdata,if_pos rfl,add_right_comm]
    · rw [hother x hx,if_neg (fun e => hx (MachineID.L1Cache.inj e).symm),add_zero]
  · show g.mode.responseToDir g.block+System.sentTo .Directory [(.L1Cache c,_)]=mode.responseToDir g.block
    rw [sentTo_directory,sentTo_nil,hdir,add_zero]
  · show g.mode.requestToMemory g.block+0=mode.requestToMemory g.block
    rw [hsent,add_zero]
  · show (g.mode.responseFromMemory g.block).erase _=mode.responseFromMemory g.block
    rw [hanswer.1,hanswer.2]
    exact Multiset.erase_singleton _
  · rfl

def answer (g : Protocol C V) (r : C) : Protocol C V :=
  {g.enter r (.loadAnswered .Directory) with mode := .shared}

variable {answered : Bool}

omit [DecidableEq V] [Inhabited V] in
theorem Inv.answer (h : g.Inv) {r : C} (hq : g.mode = .reading r answered) : (g.answer r).Inv := by
  have hfits:=h.mode
  rw [hq] at hfits
  obtain ⟨hw,hmemory⟩:=hfits
  have hphase:=h.reader_phase (r := r) (by rw [hq]; rfl)
  constructor
  · exact h.nodup
  · intro x
    have hplace:=h.places x
    rcases eq_or_ne x r with rfl | hx
    · rw [hphase] at hplace
      rw [show (g.answer x).phase x = .loadAnswered .Directory from enter_phase_self g x _]
      exact ⟨hplace.1,iff_of_true ⟨hplace.2.1.1,rfl⟩ hplace.2.2.1,nofun⟩
    · have hrx : r≠x := hx.symm
      have heq : (g.answer r).place x=g.place x := by
        simp [place,Protocol.answer,Protocol.enter,Closing,hq,Mode.fetches,Mode.reader,
          Mode.downgrade,hrx]
      rw [show (g.answer r).phase x=g.phase x from enter_phase_of_ne g _ hx,heq]
      exact hplace
  · intro x hx
    have hhead : g.writers.head?=some x := hx
    simp [hw] at hhead
  · exact h.nobody
  · exact h.acks
  · exact ⟨hw,hmemory⟩

theorem answer_step (h : g.Inv) {r : C} (hq : g.mode = .reading r true) :
    g.Yields (g.system.step (.memoryResponse ⟨.MEMORY_READ,.L1Cache r,g.block⟩)) := by
  have hphase:=h.reader_phase (r := r) (by rw [hq]; rfl)
  have hdir : g.system.dir=⟨.S_m,g.sharers,∅⟩ := by
    show (⟨_,_,if _ then _ else ∅⟩ : Directory C)=_
    rw [hq]
    rfl
  refine fetched_yields (h.answer hq) (.loadAnswered .Directory) .shared g.sharers 0 rfl
    ?_ ?_ ?_ ?_ ?_ ?_ ?_ ?_ ?_
  · rw [hdir]
    rfl
  · rw [hphase]
    rfl
  · rw [hphase]
    rfl
  · rw [hphase]
    rfl
  · rw [hphase]
    rfl
  · rw [hq]
    rfl
  · rw [hq]
    rfl
  · rw [hq]
    rfl
  · rw [hq]
    exact ⟨rfl,rfl⟩

omit [DecidableEq V] [Inhabited V] in
theorem Inv.writer_phase (h : g.Inv) {w : C}
    (hq : g.mode = .fetching w answered) : ∃ copy early, g.phase w = .storeFetching copy early := by
  have hplace:=h.places w
  have hfits:=h.mode
  rw [hq] at hfits
  have hqueued : w∈g.writers := by simp [hfits.1]
  have hhead : g.writers.head?=some w := by simp [hfits.1]
  have hfetching : g.mode.fetches=some w := by rw [hq]; rfl
  cases hp : g.phase w with
  | storeFetching copy early => exact ⟨copy,early,rfl⟩
  | storeAsked copy =>
    rw [hp] at hplace
    cases copy with
    | current | stale v => exact absurd hqueued hplace.1
  | storeQueued copy =>
    rw [hp] at hplace
    cases copy with
    | current | stale v => exact absurd hhead hplace.2.1
  | _ =>
    rw [hp] at hplace
    first
    | exact absurd hqueued hplace.1
    | exact absurd hfetching hplace.2.1

def grant (g : Protocol C V) (w : C) (copy : Copy V) (early : ℕ) : Protocol C V :=
  {g.enter w (.storeGranted copy g.sharers.card early) with mode := .owned, sharers := ∅ }

omit [DecidableEq V] [Inhabited V] in
theorem Inv.grant (h : g.Inv) {w : C} {copy : Copy V}
    {early : ℕ} (hq : g.mode = .fetching w answered) (hp : g.phase w = .storeFetching copy early) :
    (g.grant w copy early).Inv := by
  have hfits:=h.mode
  rw [hq] at hfits
  have hself : (g.grant w copy early).phase w = .storeGranted copy g.sharers.card early :=
    enter_phase_self g w _
  have hother : ∀ x, x≠w → (g.grant w copy early).phase x=g.phase x :=
    fun x => enter_phase_of_ne g _
  constructor
  · exact h.nodup
  · intro x
    have hplace:=h.places x
    rcases eq_or_ne x w with rfl | hx
    · rw [hp] at hplace
      rw [hself]
      exact ⟨hplace.1,nofun,hplace.2.2.1,nofun,fun hc => absurd rfl hc.2⟩
    · have hwx : w≠x := hx.symm
      have heq : (g.grant w copy early).place x=g.place x := by
        simp [place,Protocol.grant,Protocol.enter,Closing,hq,Mode.fetches,Mode.reader,
          Mode.downgrade,hwx]
      rw [hother x hx,heq]
      exact hplace
  · intro x hx
    have hhead : g.writers.head?=some x := hx
    rw [hfits.1] at hhead
    obtain rfl : w=x := Option.some.inj hhead
    have hfirst:=h.first w hx
    rw [hp] at hfirst
    rw [hself]
    exact hfirst
  · exact h.nobody
  · exact h.acks
  · exact ⟨by simp [Protocol.grant,Protocol.enter,hfits.1],rfl⟩

theorem grant_step (h : g.Inv) {w : C} (hq : g.mode = .fetching w true) :
    g.Yields (g.system.step (.memoryResponse ⟨.MEMORY_READ,.L1Cache w,g.block⟩)) := by
  obtain ⟨copy,early,hphase⟩:=h.writer_phase hq
  have hfits:=h.mode
  rw [hq] at hfits
  have hdir : g.system.dir=⟨.M_m,g.sharers,{w}⟩ := by
    show (⟨_,_,if _ then g.writers.getLast?.toFinset else ∅⟩ : Directory C)=_
    rw [hq,hfits.1]
    rfl
  have hturn : Directory.doTransition ⟨some ⟨.MEMORY_READ,.L1Cache w,g.block⟩,none,none⟩ .MemData
      g.system.dir = .ok ⟨⟨.M,∅,{w}⟩,[],
        [(.L1Cache w,⟨.Data,.Directory,g.block,g.sharers.card⟩)],[],false,false,true⟩ := by
    have hstate : Directory.setState (⟨.M_m,∅,{w}⟩ : Directory C) .M = .ok ⟨.M,∅,{w}⟩ :=
      Directory.setState_ok (fun _ => ⟨Finset.card_singleton w,rfl⟩) (by simp)
    have helement : Directory.isElement {w} (.L1Cache w)=true := by simp [Directory.isElement]
    rw [hdir]
    simp only [Directory.doTransition,Directory.transition,Directory.runActions,
      Directory.Action.run,Directory.Turn.start,L1Cache.orFault,bind,Except.bind,pure,Except.pure,
      helement,if_true,hstate,List.nil_append]
  have hgranted : (g.grant w copy early).system.dir=⟨.M,∅,{w}⟩ := by
    show (⟨.M,∅,if _ then g.writers.getLast?.toFinset else ∅⟩ : Directory C)=_
    rw [hfits.1]
    rfl
  refine fetched_yields (h.grant hq hphase) (.storeGranted copy g.sharers.card early) .owned ∅
    g.sharers.card rfl (hgranted ▸ hturn) ?_ ?_ ?_ ?_ ?_ ?_ ?_ ?_
  · rw [hphase]
    rfl
  · rw [hphase]
    rfl
  · rw [hphase]
    rfl
  · rw [hphase]
    rfl
  · rw [hq]
    rfl
  · rw [hq]
    rfl
  · rw [hq]
    rfl
  · rw [hq]
    exact ⟨rfl,rfl⟩

theorem memoryResponse_step (h : g.Inv) (hm : m∈g.mode.responseFromMemory g.block) :
    g.Yields (g.system.step (.memoryResponse m)) := by
  have hfits:=h.mode
  cases hq : g.mode with
  | reading r answered =>
    rw [hq] at hm
    cases answered with
    | true =>
      obtain rfl:=Multiset.mem_singleton.mp hm
      exact answer_step h hq
    | false => exact absurd hm (Multiset.notMem_zero m)
  | fetching w answered =>
    rw [hq] at hm
    cases answered with
    | true =>
      obtain rfl:=Multiset.mem_singleton.mp hm
      exact grant_step h hq
    | false => exact absurd hm (Multiset.notMem_zero m)
  | sharing source answered =>
    rw [hq] at hm hfits
    cases answered with
    | true =>
      obtain rfl:=Multiset.mem_singleton.mp hm
      have hdir : g.system.dir=⟨.SS_m,g.sharers,g.owner⟩ := system_dir hq
      exact ack_yields h hq .shared (by rw [hdir]; rfl) ⟨rfl,rfl⟩ ⟨rfl,rfl⟩ ⟨rfl,rfl⟩ rfl rfl rfl
        ⟨hfits.1,hfits.2 rfl⟩
    | false => exact absurd hm (Multiset.notMem_zero m)
  | retiring source answered =>
    rw [hq] at hm hfits
    cases answered with
    | true =>
      obtain rfl:=Multiset.mem_singleton.mp hm
      have hdir : g.system.dir=⟨.MI_m,g.sharers,g.owner⟩ := system_dir hq
      have howner : g.owner = ∅ := owner_none hq rfl
      have hstate : Directory.setState (⟨.MI_m,g.sharers,g.owner⟩ : Directory C) .I =
          .ok ⟨.I,g.sharers,g.owner⟩ :=
        Directory.setState_ok nofun fun _ => ⟨by simp [howner],by simp [hfits.2.1]⟩
      have hturn : Directory.doTransition ⟨some ⟨.MEMORY_WB,.L1Cache source,g.block⟩,none,none⟩
          .MemAck g.system.dir =
          .ok (⟨⟨.I,g.sharers,g.owner⟩,[],[],[],false,false,true⟩ : Directory.Turn C V) := by
        rw [hdir]
        simp only [Directory.doTransition,Directory.transition,Directory.runActions,
          Directory.Action.run,Directory.Turn.start,bind,Except.bind,pure,Except.pure,hstate]
      exact ack_yields h hq .invalid hturn ⟨rfl,rfl⟩ ⟨rfl,rfl⟩ ⟨rfl,rfl⟩ rfl rfl rfl
        ⟨hfits.1,hfits.2.1,hfits.2.2 rfl⟩
    | false => exact absurd hm (Multiset.notMem_zero m)
  | _ =>
    rw [hq] at hm
    exact absurd hm (Multiset.notMem_zero m)

theorem responseToDir_step (h : g.Inv) {m : ResponseMsg C V}
    (hm : m∈g.mode.responseToDir g.block) : g.Yields (g.system.step (.responseToDir m)) := by
  have hfits:=h.mode
  cases hq : g.mode with
  | returning source =>
    rw [hq] at hm hfits
    obtain rfl:=Multiset.mem_singleton.mp hm
    have hdir : g.system.dir=⟨.S_D,g.sharers,g.owner⟩ := system_dir hq
    have hturn : Directory.doTransition ⟨none,some ⟨.Data,.L1Cache source,g.block,0⟩,none⟩ .Data
        g.system.dir = .ok ⟨⟨.SS_m,g.sharers,g.owner⟩,[],[],[⟨.MEMORY_WB,.L1Cache source,g.block⟩],
          false,true,false⟩ := by
      rw [hdir]
      rfl
    refine ⟨g.remode (.sharing source false) g.memory,[],?_,
      h.remode (by rw [hq]; rfl) (by rw [hq]; rfl) (by rw [hq]; rfl) ⟨hfits,nofun⟩,.silent _⟩
    simp only [System.step,Directory.responseIn,hturn,bind,Except.bind]
    refine congrArg (fun s => Except.ok (s,[])) ?_
    rw [remode_system (by rw [hq]; rfl) (by rw [hq]; rfl)]
    refine System.ext rfl rfl rfl ?_ ?_ ?_ ?_ ?_ rfl
    · funext x
      exact List.append_nil _
    · funext x
      exact add_zero _
    · show (g.mode.responseToDir g.block).erase _+0=0
      rw [hq,add_zero]
      exact Multiset.erase_singleton _
    · show g.mode.requestToMemory g.block+_=_
      rw [hq]
      rfl
    · show g.mode.responseFromMemory g.block=_
      rw [hq]
      rfl
  | _ =>
    rw [hq] at hm
    exact absurd hm (Multiset.notMem_zero m)

end Protocol

end AquaGem5.Ruby.MSI
