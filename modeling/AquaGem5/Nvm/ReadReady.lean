import AquaGem5.Nvm.Interface

/-!
# Ready reads of the NVM interface

The ready ticks of the reads on their way are in an unsorted queue. One event stands for all of them: it is scheduled at
the earliest one, and finds the next one when it fires.
-/

namespace AquaGem5.Nvm
open Ticks Controller Checked List Nat

variable {P : Params} {fuel curTick : ℕ} {burstTicks : Multiset ℕ} {s s' : State}

theorem min?_concat (ticks : List ℕ) (t : ℕ) : (ticks++[t]).min?=some ((ticks.min?.map fun m => min m t).getD t) := by
  cases ticks with
  | nil => rfl
  | cons m ticks =>
    rw [cons_append,min?_cons',min?_cons',foldl_append]
    rfl

structure Found (before : List ℕ) (k ready next : ℕ) : Prop where
  mem : ready∈before
  index : k=before.idxOf ready
  least : ∀ t∈before,ready≤t
  next : next=(before.erase ready).min?.getD maxTick

theorem found_first (t : ℕ) : Found [t] 0 t maxTick := by
  refine ⟨mem_singleton_self t,?_,fun t' ht' => (mem_singleton.mp ht').ge,?_⟩
  · rw [idxOf_cons_self]
  · rw [erase_cons_head]
    rfl

theorem Found.earlier {before : List ℕ} {k ready next t : ℕ} (h : Found before k ready next) (ht : t<ready) :
    Found (before++[t]) before.length t ready := by
  have hout : t∉before := fun hin => absurd (h.least t hin) (by omega)
  refine ⟨mem_append_right _ (mem_singleton_self t),?_,fun t' ht' => ?_,?_⟩
  · rw [idxOf_append,if_neg hout,idxOf_cons_self,zero_add]
  · rcases mem_append.mp ht' with hin | hin
    · exact ht.le.trans (h.least t' hin)
    · exact (mem_singleton.mp hin).ge
  · rw [erase_append_right _ hout,erase_cons_head,append_nil,
      min?_eq_some_iff.mpr ⟨h.mem,h.least⟩,Option.getD_some]

theorem Found.later {before : List ℕ} {k ready next t : ℕ} (h : Found before k ready next) (ht : ready≤t)
    (hlast : t ≤ maxTick) : Found (before++[t]) k ready (min next t) := by
  refine ⟨mem_append_left _ h.mem,?_,fun t' ht' => ?_,?_⟩
  · rw [idxOf_append,if_pos h.mem,h.index]
  · rcases mem_append.mp ht' with hin | hin
    · exact h.least t' hin
    · exact (mem_singleton.mp hin) ▸ ht
  · rw [erase_append_left _ h.mem,min?_concat,Option.getD_some,h.next]
    cases (before.erase ready).min? with
    | none => exact min_eq_right hlast
    | some m => rfl

theorem earliest_found {ticks before : List ℕ} {k ready next : ℕ} (h : Found before k ready next)
    (hlast : ∀ t∈ticks,t ≤ maxTick) : Found (before++ticks) (earliest ticks before.length (k,ready,next)).1
      (earliest ticks before.length (k,ready,next)).2.1 (earliest ticks before.length (k,ready,next)).2.2 := by
  induction ticks generalizing before k ready next with
  | nil =>
    rw [append_nil]
    exact h
  | cons t ticks ih =>
    have ht:=hlast t (mem_cons_self ..)
    have hrest : ∀ t'∈ticks,t' ≤ maxTick := fun t' ht' => hlast t' (mem_cons_of_mem _ ht')
    have hk : before.length≠k := h.index ▸ (idxOf_lt_length_of_mem h.mem).ne'
    have hlen : before.length+1=(before++[t]).length := by rw [length_append,length_singleton]
    rw [append_cons before t ticks,earliest,hlen]
    split
    next hlt => exact ih (h.earlier hlt) hrest
    next hge =>
      have hlater:=h.later (not_lt.mp hge) ht
      split
      next hnext =>
        rw [min_eq_right hnext.1.le] at hlater
        exact ih hlater hrest
      next hnext =>
        rw [min_eq_left (not_lt.mp fun hlt => hnext ⟨hlt,hk⟩)] at hlater
        exact ih hlater hrest

structure State.Scheduled (s : State) (curTick : ℕ) : Prop where
  event : s.readReadyEvent=s.readReadyQueue.min?
  later : ∀ t∈s.readReadyQueue,curTick≤t
  last : ∀ t∈s.readReadyQueue,t < maxTick

theorem State.Scheduled.mem {at_ : ℕ} (h : s.Scheduled curTick) (hat : s.readReadyEvent=some at_) :
    at_∈s.readReadyQueue := List.min?_mem (h.event.symm.trans hat)

theorem State.Scheduled.same (h : s.Scheduled curTick) (hqueue : s'.readReadyQueue=s.readReadyQueue)
    (hevent : s'.readReadyEvent=s.readReadyEvent) : s'.Scheduled curTick := by
  constructor
  · rw [hqueue,hevent]
    exact h.event
  · rw [hqueue]
    exact h.later
  · rw [hqueue]
    exact h.last

theorem State.Scheduled.wait {t : ℕ} (h : s.Scheduled curTick) (ht : ∀ at_∈s.readReadyEvent,t≤at_) : s.Scheduled t := by
  refine ⟨h.event,fun t' ht' => ?_,h.last⟩
  obtain ⟨at_,hat⟩:=Option.isSome_iff_exists.mp (isSome_min?_of_mem ht')
  exact (ht at_ (h.event.trans hat)).trans ((min?_eq_some_iff.mp hat).2 t' ht')

theorem readyAt_scheduled (curTick : ℕ) {readyTime : ℕ} (h : s.Scheduled curTick) (hle : curTick≤readyTime) (hlast : readyTime < maxTick) :
    Post (s.readyAt readyTime) (fun s' => s'.Scheduled curTick ∧ s'.readReadyQueue=s.readReadyQueue++[readyTime] ∧
      s'.numReadDataReady=s.numReadDataReady) fun _ => False := by
  have hin : ∀ t∈s.readReadyQueue++[readyTime],curTick≤t ∧ t < maxTick := by
    intro t ht
    rcases mem_append.mp ht with ht | ht
    · exact ⟨h.later t ht,h.last t ht⟩
    · rw [mem_singleton.mp ht]
      exact ⟨hle,hlast⟩
  rw [State.readyAt]
  cases hevent : s.readReadyEvent with
  | none =>
    have hempty : s.readReadyQueue=[] := min?_eq_none_iff.mp (h.event.symm.trans hevent)
    have hmin : some readyTime=(s.readReadyQueue++[readyTime]).min? := by
      rw [hempty]
      rfl
    simp only [post_bind,post_check,post_pure,hempty,not_true,false_imp_iff,and_true,forall_const]
    exact ⟨hempty ▸ hmin,fun t ht => (hin t (hempty ▸ ht)).1,fun t ht => (hin t (hempty ▸ ht)).2⟩
  | some at_ =>
    have hne : s.readReadyQueue≠[] := ne_nil_of_mem (h.mem hevent)
    have hmin : some (min at_ readyTime)=(s.readReadyQueue++[readyTime]).min? := by
      rw [min?_concat,← h.event,hevent]
      rfl
    simp only [post_bind,post_check,post_pure,and_true]
    exact ⟨fun _ => ⟨hmin,fun t ht => (hin t ht).1,fun t ht => (hin t ht).2⟩,fun hno => hno hne⟩

theorem processReadReadyEvent_scheduled (h : s.Scheduled curTick) (hat : s.readReadyEvent=some curTick) :
    Post (processReadReadyEvent curTick s) (fun s' => s'.Scheduled curTick ∧
      s'.readReadyQueue=s.readReadyQueue.erase curTick ∧ s'.numReadDataReady=inc16 s.numReadDataReady) fun _ => False := by
  have hin:=h.mem hat
  have hleast:=(min?_eq_some_iff.mp (h.event.symm.trans hat)).2
  obtain ⟨t,ticks,hqueue⟩:=exists_cons_of_ne_nil (ne_nil_of_mem hin)
  have hfound : Found s.readReadyQueue (earliest s.readReadyQueue 0 (0,s.readReadyQueue.headD 0,maxTick)).1
      (earliest s.readReadyQueue 0 (0,s.readReadyQueue.headD 0,maxTick)).2.1
      (earliest s.readReadyQueue 0 (0,s.readReadyQueue.headD 0,maxTick)).2.2 := by
    rw [hqueue,headD_cons,earliest,if_neg (lt_irrefl t),if_neg fun hk => hk.2 rfl]
    exact earliest_found (found_first t) fun t' ht' => (h.last t' (hqueue ▸ mem_cons_of_mem _ ht')).le
  rw [processReadReadyEvent]
  generalize earliest s.readReadyQueue 0 (0,s.readReadyQueue.headD 0,maxTick)=r at hfound
  obtain ⟨k,ready,next⟩:=r
  replace hfound : Found s.readReadyQueue k ready next := hfound
  obtain ⟨hmem,hindex,hmin,hnext⟩:=hfound
  have hready : ready=curTick := le_antisymm (hmin curTick hin) (hleast ready hmem)
  subst hready
  have herase:=erase_eq_eraseIdx_of_idxOf hindex.symm
  have hleft : ∀ t'∈s.readReadyQueue.erase ready,ready≤t' ∧ t' < maxTick := fun t' ht' =>
    ⟨hmin t' (mem_of_mem_erase ht'),h.last t' (mem_of_mem_erase ht')⟩
  simp only [post_bind,post_check,← herase]
  refine ⟨fun _ => ?_,fun hno => hno ⟨ne_nil_of_mem hin,trivial⟩⟩
  cases hrest : s.readReadyQueue.erase ready with
  | nil =>
    rw [if_pos rfl]
    have hnone : ∀ t'∈([] : List ℕ),ready≤t' ∧ t' < maxTick := hrest ▸ hleft
    exact ⟨⟨rfl,fun t' ht' => (hnone t' ht').1,fun t' ht' => (hnone t' ht').2⟩,rfl,rfl⟩
  | cons first rest =>
    rw [hrest] at hleft hnext
    rw [if_neg (cons_ne_nil first rest),post_bind,post_check]
    exact ⟨fun _ => ⟨⟨congrArg some hnext,fun t' ht' => (hleft t' ht').1,fun t' ht' => (hleft t' ht').2⟩,rfl,rfl⟩,
      fun hno => hno (hleft first (mem_cons_self ..)).1⟩

theorem le_verify (P : Params) (fuel : ℕ) (pair : Bool) (burstTicks : Multiset ℕ) (t : ℕ) :
    Post (verify P fuel pair burstTicks t) (fun r => t≤r.1) := by
  have hzero : P.commandWindow=0 → P.maxCommandsPerWindow=0 := fun h => by
    rw [Params.maxCommandsPerWindow,h,Nat.zero_div]
  rw [verify]
  split
  next r hr =>
    cases pair with
    | true =>
      rw [if_pos rfl] at hr
      obtain ⟨slots,_,hfirst,_⟩:=verifyMultiCmd_room hr
      cases Nat.eq_zero_or_pos P.commandWindow with
      | inl hwindow => exact absurd (hzero hwindow ▸ hfirst) (not_lt_zero _)
      | inr hpos => exact (verifyMultiCmd_spec hpos hr).1
    | false =>
      rw [if_neg Bool.false_ne_true] at hr
      cases Nat.eq_zero_or_pos P.commandWindow with
      | inl hwindow =>
        unfold verifySingleCmd at hr
        simp only [Option.bind_eq_bind,Option.bind_eq_some_iff] at hr
        obtain ⟨_,hloop,_⟩:=hr
        exact absurd (hzero hwindow ▸ (singleLoop_spec hloop).1) (not_lt_zero _)
      | inr hpos => exact (verifySingleCmd_spec hpos hr).2.2.1
  next => trivial

theorem issueRead_scheduled (h : s.Scheduled curTick) (pkt : MemPacket) :
    Post (s.issueRead P fuel curTick burstTicks pkt) (fun r => r.1.Scheduled curTick ∧
      r.1.readReadyQueue=s.readReadyQueue++[r.2.1] ∧ r.1.numReadDataReady=s.numReadDataReady) := by
  rw [State.issueRead]
  dsimp only
  rw [post_bind,partly_check]
  refine fun _ => (le_verify P fuel P.twoCycleRdWr burstTicks _).bind fun r hr => ?_
  rw [post_bind,partly_check]
  intro hlast
  refine ((readyAt_scheduled curTick (h.same ?_ ?_) ?_ hlast).mono (fun _ hq => hq) fun _ he => he.elim).bind fun s' hs' => hs'
  · rfl
  · rfl
  · exact ((le_max_left _ _).trans hr).trans (le_max_left _ _)

def issuedAt (queue queue' : List MemPacket) : List ℕ :=
  ((queue.findIdx? unissued).bind fun i => queue'[i]?.map MemPacket.readyTime).toList

theorem chooseRead_scheduled (h : s.Scheduled curTick) (queue : List MemPacket) :
    Post (chooseRead P fuel curTick burstTicks s queue) (fun r => r.2.1.Scheduled curTick ∧
      r.2.1.readReadyQueue=s.readReadyQueue++issuedAt queue r.1 ∧
      r.2.1.numReadDataReady=s.numReadDataReady) := by
  rw [chooseRead,post_bind,partly_check]
  intro _
  rw [post_bind,partly_check]
  intro _
  have hsame : ({s with numReadsToIssue := dec16 s.numReadsToIssue} : State).Scheduled curTick := h.same rfl rfl
  have hready : ∀ m,({s with numReadsToIssue := m} : State).numReadDataReady=s.numReadDataReady := fun _ => rfl
  have hqueue : ∀ m,({s with numReadsToIssue := m} : State).readReadyQueue=s.readReadyQueue := fun _ => rfl
  cases hfind : queue.findIdx? unissued with
  | none =>
    refine ⟨hsame,(hqueue _).trans ?_,hready _⟩
    rw [issuedAt,hfind]
    exact (append_nil _).symm
  | some i =>
    dsimp only
    cases hget : queue[i]? with
    | none =>
      refine ⟨hsame,(hqueue _).trans ?_,hready _⟩
      simp [issuedAt,hfind,hget]
    | some pkt =>
      refine (issueRead_scheduled hsame pkt).bind fun r hr => ?_
      refine ⟨hr.1,hr.2.1.trans ?_,hr.2.2.trans (hready _)⟩
      have hi:=(List.getElem?_eq_some_iff.mp hget).1
      rw [hqueue]
      simp [issuedAt,hfind,hi]

theorem doBurstAccess_ready (pkt : MemPacket) (nextBurstAt : ℕ) :
    Post (doBurstAccess P fuel curTick burstTicks s pkt nextBurstAt) (fun r =>
      r.2.2.2.1.readReadyQueue=s.readReadyQueue ∧ r.2.2.2.1.readReadyEvent=s.readReadyEvent ∧
      r.2.2.2.1.numReadDataReady+(if pkt.read then 1 else 0)=s.numReadDataReady) := by
  rw [doBurstAccess]
  refine (post_true _).bind fun r _ => ?_
  cases hread : pkt.read with
  | true =>
    simp only [if_true,post_bind,partly_check,post_pure]
    refine fun _ hready => ⟨rfl,rfl,?_⟩
    exact Nat.sub_add_cancel (Nat.pos_of_ne_zero hready)
  | false =>
    simp only [Bool.false_eq_true,if_false,State.write,post_bind,partly_check,post_pure]
    refine fun _ _ _ => ⟨rfl,rfl,rfl⟩

theorem processReadReadyEvent_frame (curTick : ℕ) (s : State) :
    Post (processReadReadyEvent curTick s) (fun s' => s'.numReadsToIssue=s.numReadsToIssue ∧
      s'.nextReadAt=s.nextReadAt ∧ s'.banks=s.banks ∧ s'.numPendingReads=s.numPendingReads) := by
  rw [processReadReadyEvent]
  generalize earliest s.readReadyQueue 0 (0,s.readReadyQueue.headD 0,maxTick)=r
  dsimp only
  rw [post_bind,partly_check]
  intro _
  rw [post_ite]
  refine ⟨fun _ => ⟨rfl,rfl,rfl,rfl⟩,fun _ => ?_⟩
  rw [post_bind,partly_check]
  exact fun _ => ⟨rfl,rfl,rfl,rfl⟩

theorem processWriteRespondEvent_ready (curTick : ℕ) (s : State) :
    Post (processWriteRespondEvent curTick s) (fun s' => s'.readReadyQueue=s.readReadyQueue ∧
      s'.readReadyEvent=s.readReadyEvent ∧ s'.numReadDataReady=s.numReadDataReady ∧
      s'.numPendingReads=s.numPendingReads) := by
  rw [processWriteRespondEvent,post_ite]
  refine ⟨fun _ => ⟨rfl,rfl,rfl,rfl⟩,fun _ => ?_⟩
  rw [post_bind,partly_check]
  exact fun _ => ⟨rfl,rfl,rfl,rfl⟩

/-- The ready ticks of the reads that were issued, the ticks at which the event fired, and the number of reads that
were sent. -/
structure History where
  issued : List ℕ
  fired : List ℕ
  sent : ℕ

/-- The states after calls and firings in any order, each firing with `ok` before it. Time does not go past the event. -/
inductive Reads (P : Params) (ok : State → Prop) : ℕ → History → State → Prop
  | init : Reads P ok 0 ⟨[],[],0⟩ State.new
  | wait (curTick t : ℕ) (past : History) (s : State) : Reads P ok curTick past s → curTick≤t →
      (∀ at_∈s.readReadyEvent,t≤at_) → Reads P ok t past s
  | setupRank (curTick : ℕ) (past : History) (s : State) (isRead : Bool) : Reads P ok curTick past s →
      Reads P ok curTick past (s.setupRank isRead)
  | chooseRead (curTick fuel : ℕ) (burstTicks burstTicks' : Multiset ℕ) (past : History) (s s' : State)
      (queue queue' : List MemPacket) : Reads P ok curTick past s →
      chooseRead P fuel curTick burstTicks s queue = .ok (queue',s',burstTicks') →
      Reads P ok curTick {past with issued := past.issued++issuedAt queue queue'} s'
  | ready (curTick : ℕ) (past : History) (s s' : State) : Reads P ok curTick past s → s.readReadyEvent=some curTick →
      ok s → processReadReadyEvent curTick s = .ok s' →
      Reads P ok curTick {past with fired := past.fired++[curTick]} s'
  | burst (curTick fuel : ℕ) (burstTicks burstTicks' : Multiset ℕ) (past : History) (s s' : State) (pkt pkt' : MemPacket)
      (nextBurstAt cmdAt nextAt : ℕ) : Reads P ok curTick past s →
      doBurstAccess P fuel curTick burstTicks s pkt nextBurstAt = .ok (pkt',cmdAt,nextAt,s',burstTicks') →
      Reads P ok curTick {past with sent := past.sent+if pkt.read then 1 else 0} s'
  | writeRespond (curTick : ℕ) (past : History) (s s' : State) : Reads P ok curTick past s →
      processWriteRespondEvent curTick s = .ok s' → Reads P ok curTick past s'
  | otherBurst (curTick : ℕ) (past : History) (s : State) (cmdAt : ℕ) : Reads P ok curTick past s →
      Reads P ok curTick past (s.addRankToRankDelay P cmdAt)

def State.CountsOn (s : State) : Prop := s.numReadDataReady+1<2^16

instance (s : State) : Decidable s.CountsOn := inferInstanceAs (Decidable (_<_))

variable {past : History} {ok : State → Prop}

theorem reads_scheduled (h : Reads P ok curTick past s) : s.Scheduled curTick := by
  induction h with
  | init => exact ⟨rfl,fun t ht => absurd ht not_mem_nil,fun t ht => absurd ht not_mem_nil⟩
  | wait curTick t past s _ _ ht ih => exact ih.wait ht
  | setupRank curTick past s isRead _ ih =>
    rw [State.setupRank]
    split
    next => exact ih.same rfl rfl
    next => exact ih.same rfl rfl
  | chooseRead curTick fuel burstTicks burstTicks' past s s' queue queue' _ hcall ih =>
    exact ((chooseRead_scheduled ih queue).of_ok hcall).1
  | ready curTick past s s' _ hat _ hcall ih => exact ((processReadReadyEvent_scheduled ih hat).of_ok hcall).1
  | burst curTick fuel burstTicks burstTicks' past s s' pkt pkt' nextBurstAt cmdAt nextAt _ hcall ih =>
    obtain ⟨hqueue,hevent,_⟩:=(doBurstAccess_ready pkt nextBurstAt).of_ok hcall
    exact ih.same hqueue hevent
  | writeRespond curTick past s s' _ hcall ih =>
    obtain ⟨hqueue,hevent,_⟩:=(processWriteRespondEvent_ready curTick s).of_ok hcall
    exact ih.same hqueue hevent
  | otherBurst curTick past s cmdAt _ ih => exact ih.same rfl rfl

theorem reads_fired (h : Reads P ok curTick past s) : (past.fired++s.readReadyQueue).Perm past.issued := by
  induction h with
  | init => exact .refl []
  | wait curTick t past s _ _ _ ih | otherBurst curTick past s cmdAt _ ih => exact ih
  | setupRank curTick past s isRead _ ih =>
    rw [State.setupRank]
    split
    next => exact ih
    next => exact ih
  | chooseRead curTick fuel burstTicks burstTicks' past s s' queue queue' hpast hcall ih =>
    rw [((chooseRead_scheduled (reads_scheduled hpast) queue).of_ok hcall).2.1,← append_assoc]
    exact ih.append_right _
  | ready curTick past s s' hpast hat _ hcall ih =>
    have hsched:=reads_scheduled hpast
    rw [((processReadReadyEvent_scheduled hsched hat).of_ok hcall).2.1,append_assoc,singleton_append]
    exact ((perm_cons_erase (hsched.mem hat)).symm.append_left past.fired).trans ih
  | burst curTick fuel burstTicks burstTicks' past s s' pkt pkt' nextBurstAt cmdAt nextAt _ hcall ih =>
    rw [((doBurstAccess_ready pkt nextBurstAt).of_ok hcall).1]
    exact ih
  | writeRespond curTick past s s' _ hcall ih =>
    rw [((processWriteRespondEvent_ready curTick s).of_ok hcall).1]
    exact ih

theorem reads_count (h : Reads P State.CountsOn curTick past s) : s.numReadDataReady+past.sent=past.fired.length := by
  induction h with
  | init => rfl
  | wait curTick t past s _ _ _ ih | otherBurst curTick past s cmdAt _ ih => exact ih
  | setupRank curTick past s isRead _ ih =>
    rw [State.setupRank]
    split
    next => exact ih
    next => exact ih
  | chooseRead curTick fuel burstTicks burstTicks' past s s' queue queue' hpast hcall ih =>
    rw [((chooseRead_scheduled (reads_scheduled hpast) queue).of_ok hcall).2.2]
    exact ih
  | ready curTick past s s' hpast hat hok hcall ih =>
    have hinc : s'.numReadDataReady=s.numReadDataReady+1 :=
      ((processReadReadyEvent_scheduled (reads_scheduled hpast) hat).of_ok hcall).2.2.trans (mod_eq_of_lt hok)
    rw [hinc,length_append,length_singleton,Nat.add_right_comm,ih]
  | burst curTick fuel burstTicks burstTicks' past s s' pkt pkt' nextBurstAt cmdAt nextAt _ hcall ih =>
    have hcount:=((doBurstAccess_ready pkt nextBurstAt).of_ok hcall).2.2
    simp only at hcount ⊢
    omega
  | writeRespond curTick past s s' _ hcall ih =>
    rw [((processWriteRespondEvent_ready curTick s).of_ok hcall).2.2.1]
    exact ih

/-- In a run that does not overflow the count of ready reads, the event is scheduled at the earliest tick of the
queue. It fires without a fault, takes one occurrence of its tick out of the queue and is scheduled at the earliest one
left. Each read has become ready once, at its own tick. -/
theorem read_ready {past : History} (h : Reads P State.CountsOn curTick past s) :
    s.readReadyEvent=s.readReadyQueue.min? ∧
      (∀ t,s.readReadyEvent=some t → curTick≤t ∧ ∃ s',processReadReadyEvent t s = .ok s' ∧
        s'.readReadyQueue=s.readReadyQueue.erase t ∧ s'.readReadyEvent=s'.readReadyQueue.min?) ∧
      (past.fired++s.readReadyQueue).Perm past.issued ∧ s.numReadDataReady+past.sent=past.fired.length := by
  have hsched:=reads_scheduled h
  refine ⟨hsched.event,fun t hat => ⟨hsched.later t (hsched.mem hat),?_⟩,reads_fired h,reads_count h⟩
  have hnow : s.Scheduled t := hsched.wait fun at_ hin => (Option.some.inj (hat.symm.trans hin)).le
  obtain ⟨s',hcall,hsched',hqueue,_⟩:=(processReadReadyEvent_scheduled hnow hat).returns
  exact ⟨s',hcall,hqueue,hsched'.event⟩

theorem readyAt_pending (s : State) (readyTime : ℕ) :
    Post (s.readyAt readyTime) (fun s' => s'.numPendingReads=s.numPendingReads) := by
  rw [State.readyAt]
  cases s.readReadyEvent with
  | none | some at_ => simp only [post_bind,post_check,post_pure,implies_true,and_self]

theorem issueRead_pending (pkt : MemPacket) :
    Post (s.issueRead P fuel curTick burstTicks pkt) (fun r => r.1.numPendingReads=inc16 s.numPendingReads ∧
      inc16 s.numPendingReads≤P.maxPendingReads) := by
  rw [State.issueRead]
  dsimp only
  rw [post_bind,partly_check]
  refine fun hle => (post_true _).bind fun r _ => ?_
  rw [post_bind,partly_check]
  intro _
  exact (readyAt_pending _ _).bind fun s' hs' => ⟨hs',hle⟩

theorem chooseRead_pending (queue : List MemPacket) : Post (chooseRead P fuel curTick burstTicks s queue) (fun r =>
      r.2.1.numPendingReads=s.numPendingReads ∧ issuedAt queue r.1=[] ∨
      r.2.1.numPendingReads=inc16 s.numPendingReads ∧ inc16 s.numPendingReads≤P.maxPendingReads ∧
        (issuedAt queue r.1).length=1) := by
  rw [chooseRead,post_bind,partly_check]
  intro _
  rw [post_bind,partly_check]
  intro _
  have hpending : ∀ m,({s with numReadsToIssue := m} : State).numPendingReads=s.numPendingReads := fun _ => rfl
  cases hfind : queue.findIdx? unissued with
  | none => exact .inl ⟨hpending _,by rw [issuedAt,hfind]; rfl⟩
  | some i =>
    dsimp only
    cases hget : queue[i]? with
    | none => exact .inl ⟨hpending _,by simp [issuedAt,hfind,hget]⟩
    | some pkt =>
      have hi:=(List.getElem?_eq_some_iff.mp hget).1
      refine (issueRead_pending pkt).bind fun r hr => ?_
      exact .inr ⟨hr.1,hr.2,by simp [issuedAt,hfind,hi]⟩

structure State.Pending (P : Params) (s : State) : Prop where
  count : s.numPendingReads=s.numReadDataReady+s.readReadyQueue.length
  limit : s.numPendingReads≤P.maxPendingReads

theorem State.Pending.same (h : s.Pending P) (hpending : s'.numPendingReads=s.numPendingReads)
    (hready : s'.numReadDataReady=s.numReadDataReady) (hqueue : s'.readReadyQueue=s.readReadyQueue) : s'.Pending P := by
  constructor
  · rw [hpending,hready,hqueue]
    exact h.count
  · rw [hpending]
    exact h.limit

theorem doBurstAccess_pending (pkt : MemPacket) (nextBurstAt : ℕ) :
    Post (doBurstAccess P fuel curTick burstTicks s pkt nextBurstAt) (fun r =>
      r.2.2.2.1.numPendingReads+(if pkt.read then 1 else 0)=s.numPendingReads) := by
  rw [doBurstAccess]
  refine (post_true _).bind fun r _ => ?_
  cases hread : pkt.read with
  | true =>
    simp only [if_true,post_bind,partly_check,post_pure]
    intro hpending _
    exact Nat.sub_add_cancel (Nat.pos_of_ne_zero hpending)
  | false =>
    simp only [Bool.false_eq_true,if_false,State.write,post_bind,partly_check,post_pure]
    refine fun _ _ _ => rfl

theorem State.Pending.countsOn (h : s.Pending P) (hmax : P.maxPendingReads+1<2^16) (hne : s.readReadyQueue≠[]) :
    s.CountsOn := by
  have hpos:=length_pos_of_ne_nil hne
  obtain ⟨hcount,hlimit⟩:=h
  rw [State.CountsOn]
  omega

theorem reads_pending (hmax : P.maxPendingReads+1<2^16) (h : Reads P ok curTick past s) : s.Pending P := by
  induction h with
  | init => exact ⟨rfl,zero_le _⟩
  | wait curTick t past s _ _ _ ih => exact ih
  | setupRank curTick past s isRead _ ih =>
    rw [State.setupRank]
    split
    next => exact ih.same rfl rfl rfl
    next => exact ih.same rfl rfl rfl
  | chooseRead curTick fuel burstTicks burstTicks' past s s' queue queue' hpast hcall ih =>
    obtain ⟨_,hqueue,hready⟩:=(chooseRead_scheduled (reads_scheduled hpast) queue).of_ok hcall
    rcases (chooseRead_pending queue).of_ok hcall with ⟨hpending,hnone⟩ | ⟨hpending,hle,hone⟩
    · exact ih.same hpending hready (by rw [hqueue,hnone,append_nil])
    · have hlt : s.numPendingReads+1<2^16 := (Nat.add_le_add_right ih.limit 1).trans_lt hmax
      have hinc : s'.numPendingReads=s.numPendingReads+1 := hpending.trans (mod_eq_of_lt hlt)
      refine ⟨?_,hpending.le.trans hle⟩
      rw [hinc,ih.count,hready,hqueue,length_append,hone]
      rfl
  | ready curTick past s s' hpast hat _ hcall ih =>
    obtain ⟨hsched,hqueue,hready⟩:=(processReadReadyEvent_scheduled (reads_scheduled hpast) hat).of_ok hcall
    have hpending:=((processReadReadyEvent_frame curTick s).of_ok hcall).2.2.2
    have hin:=(reads_scheduled hpast).mem hat
    have hinc : s'.numReadDataReady=s.numReadDataReady+1 :=
      hready.trans (mod_eq_of_lt (ih.countsOn hmax (ne_nil_of_mem hin)))
    have hlen:=length_erase_add_one hin
    refine ⟨?_,hpending.le.trans ih.limit⟩
    rw [hpending,hinc,hqueue,ih.count]
    omega
  | burst curTick fuel burstTicks burstTicks' past s s' pkt pkt' nextBurstAt cmdAt nextAt _ hcall ih =>
    obtain ⟨hqueue,_,hready⟩:=(doBurstAccess_ready pkt nextBurstAt).of_ok hcall
    have hpending:=(doBurstAccess_pending pkt nextBurstAt).of_ok hcall
    have hcount:=ih.count
    have hlimit:=ih.limit
    refine ⟨?_,?_⟩
    · rw [show s'.readReadyQueue=s.readReadyQueue from hqueue]
      simp only at hready hpending
      omega
    · simp only at hpending
      omega
  | writeRespond curTick past s s' _ hcall ih =>
    obtain ⟨hqueue,_,hready,hpending⟩:=(processWriteRespondEvent_ready curTick s).of_ok hcall
    exact ih.same hpending hready hqueue
  | otherBurst curTick past s cmdAt _ ih => exact ih.same rfl rfl rfl

theorem reads_countsOn (hmax : P.maxPendingReads+1<2^16) (h : Reads P (fun _ => True) curTick past s) :
    Reads P State.CountsOn curTick past s := by
  induction h with
  | init => exact .init
  | wait curTick t past s _ hle ht ih => exact ih.wait curTick t past s hle ht
  | setupRank curTick past s isRead _ ih => exact ih.setupRank curTick past s isRead
  | chooseRead curTick fuel burstTicks burstTicks' past s s' queue queue' _ hcall ih =>
    exact ih.chooseRead curTick fuel burstTicks burstTicks' past s s' queue queue' hcall
  | ready curTick past s s' hpast hat _ hcall ih =>
    have hne:=ne_nil_of_mem ((reads_scheduled hpast).mem hat)
    exact ih.ready curTick past s s' hat ((reads_pending hmax hpast).countsOn hmax hne) hcall
  | burst curTick fuel burstTicks burstTicks' past s s' pkt pkt' nextBurstAt cmdAt nextAt _ hcall ih =>
    exact ih.burst curTick fuel burstTicks burstTicks' past s s' pkt pkt' nextBurstAt cmdAt nextAt hcall
  | writeRespond curTick past s s' _ hcall ih => exact ih.writeRespond curTick past s s' hcall
  | otherBurst curTick past s cmdAt _ ih => exact ih.otherBurst curTick past s cmdAt

theorem burstSize_pow : ∃ k,64=2^k := ⟨6,rfl⟩

def nvm (maxPendingReads : ℕ) : Params where
  burstSize := 64
  tCK := 833
  tCS := 1666
  tBURST := 3332
  tRTW := 1666
  tWTR := 1666
  tREAD := 150000
  tWRITE := 500000
  tSEND := 14160
  maxPendingReads := maxPendingReads
  maxPendingWrites := 128
  twoCycleRdWr := false
  commandWindow := 10000
  burstPow := burstSize_pow

def readOf : MemPacket := ⟨0,0,0,true,false,0,0,0,0,0,64,none,0,0,maxTick,false,0,0⟩

structure State.Rested (n t : ℕ) (s : State) : Prop where
  event : s.readReadyEvent=none
  queue : s.readReadyQueue=[]
  toIssue : s.numReadsToIssue=0
  ready : s.numReadDataReady=n%2^16
  next : s.nextReadAt≤t
  bank : (s.banks 0 0).actAllowedAt≤t

theorem issueRead_rested {n t : ℕ} {s : State} (hs : s.Rested n t) (hlast : t+150000 < maxTick) (m : ℕ) :
    Post (({s with numReadsToIssue := m} : State).issueRead (nvm (2^16)) 1 t 0 readOf) (fun r =>
      r.1.readReadyEvent=some r.2.1 ∧ r.1.readReadyQueue=[r.2.1] ∧ r.1.numReadsToIssue=m ∧
      r.1.numReadDataReady=s.numReadDataReady ∧ t≤r.2.1 ∧ r.2.1≤t+150000 ∧ r.1.nextReadAt≤t+833 ∧
      (r.1.banks 0 0).actAllowedAt≤r.2.1) fun _ => False := by
  obtain ⟨hevent,hqueue,_,_,hnext,hbank⟩:=hs
  have hverify : verify (nvm (2^16)) 1 (nvm (2^16)).twoCycleRdWr 0 (max t s.nextReadAt) =
      .ok (t,{getBurstWindow 10000 t}) := by
    rw [max_eq_left hnext]
    rfl
  have hpending : inc16 s.numPendingReads≤2^16 := (mod_lt _ (by decide)).le
  rw [State.issueRead]
  dsimp only
  rw [post_bind,post_check]
  refine ⟨fun _ => ?_,fun hno => hno hpending⟩
  rw [hverify,post_bind,post_ok]
  dsimp only
  generalize hbank' : (if (s.banks readOf.rank readOf.bank).openRow=some readOf.row then s.banks readOf.rank readOf.bank
      else {s.banks readOf.rank readOf.bank with
        openRow := some readOf.row
        actAllowedAt := max t (s.banks readOf.rank readOf.bank).actAllowedAt+(nvm (2^16)).tREAD})=bank'
  have hact : bank'.actAllowedAt≤t+150000 := by
    rw [← hbank']
    split
    next => exact hbank.trans (le_add_right _ _)
    next => exact Nat.add_le_add_right (max_le (le_refl t) hbank) _
  have hready : max t bank'.actAllowedAt≤t+150000 := max_le (le_add_right _ _) hact
  rw [post_bind,post_check]
  refine ⟨fun _ => ?_,fun hno => hno (by omega)⟩
  simp only [State.readyAt,State.setBank,hevent,hqueue,post_bind,post_check,post_pure,not_true,false_imp_iff,and_true,
    forall_const,true_and,nil_append]
  exact ⟨le_max_left _ _,hready,le_refl _,le_max_right _ _⟩

theorem chooseRead_rested {n t : ℕ} {s : State} (hs : s.Rested n t) (hlast : t+150000 < maxTick) :
    Post (chooseRead (nvm (2^16)) 1 t 0 (s.setupRank true) [readOf]) (fun r => ∃ at_,
      r.2.1.readReadyEvent=some at_ ∧ r.2.1.readReadyQueue=[at_] ∧ r.2.1.numReadsToIssue=0 ∧
      r.2.1.numReadDataReady=s.numReadDataReady ∧ t≤at_ ∧ at_≤t+150000 ∧ r.2.1.nextReadAt≤t+833 ∧
      (r.2.1.banks 0 0).actAllowedAt≤at_) fun _ => False := by
  have hto : dec16 (inc16 s.numReadsToIssue)=0 := by
    rw [hs.toIssue]
    rfl
  have hpos : 0 < inc16 s.numReadsToIssue := by
    rw [hs.toIssue]
    decide
  have hfind : [readOf].findIdx? unissued=some 0 := by decide
  rw [chooseRead,post_bind,post_check]
  refine ⟨fun _ => ?_,fun hno => hno (cons_ne_nil _ _)⟩
  rw [post_bind,post_check]
  refine ⟨fun _ => ?_,fun hno => hno hpos⟩
  rw [hfind]
  refine (issueRead_rested hs hlast (dec16 (inc16 s.numReadsToIssue))).bind fun r hr => ?_
  obtain ⟨hevent,hqueue,hzero,hrest⟩:=hr
  exact ⟨r.2.1,hevent,hqueue,hzero.trans hto,hrest⟩

theorem reads_round {n t : ℕ} (h : Reads (nvm (2^16)) (fun _ => True) t past s) (hs : s.Rested n t)
    (hlast : t+150000 < maxTick) :
    ∃ t' past' s',Reads (nvm (2^16)) (fun _ => True) t' past' s' ∧ s'.Rested (n+1) t' ∧ t'≤t+150000 ∧
      past'.fired.length=past.fired.length+1 ∧ past'.sent=past.sent := by
  obtain ⟨⟨queue',s1,burstTicks'⟩,hcall,at_,hevent,hqueue,hzero,hready,hle,hfar,hnext,hbank⟩ :=
    (chooseRead_rested hs hlast).returns
  have hissued:=(h.setupRank t past s true).chooseRead t 1 0 burstTicks' past _ s1 [readOf] queue' hcall
  have hwaited:=hissued.wait t at_ _ s1 hle fun at' hat => (Option.some.inj (hevent.symm.trans hat)).le
  obtain ⟨s2,hfire,hsched,hleft,hcount⟩:=(processReadReadyEvent_scheduled (reads_scheduled hwaited) hevent).returns
  have hfired:=hwaited.ready at_ _ s1 s2 hevent trivial hfire
  obtain ⟨hzero',hnext',hbanks',_⟩:=(processReadReadyEvent_frame at_ s1).of_ok hfire
  have hempty : s2.readReadyQueue=[] := by rw [hleft,hqueue,erase_cons_head]
  have hnone : s2.readReadyEvent=none := by
    rw [hsched.event,hempty]
    rfl
  have hrested:=hfired.wait at_ (max at_ (t+833)) _ s2 (le_max_left _ _) fun at' hat => by
    rw [hnone] at hat
    cases hat
  refine ⟨_,_,s2,hrested,⟨hnone,hempty,hzero'.trans hzero,?_,?_,?_⟩,max_le hfar (by omega),length_append,rfl⟩
  · rw [hcount,hready,hs.ready,inc16,mod_add_mod]
  · rw [hnext']
    exact hnext.trans (le_max_right _ _)
  · rw [hbanks']
    exact hbank.trans (le_max_left _ _)

theorem reads_rounds (n : ℕ) (hn : n*150000 < maxTick) :
    ∃ t past s,Reads (nvm (2^16)) (fun _ => True) t past s ∧ s.Rested n t ∧ t≤n*150000 ∧ past.fired.length=n ∧
      past.sent=0 := by
  induction n with
  | zero => exact ⟨0,_,_,.init,⟨rfl,rfl,rfl,rfl,le_refl _,le_refl _⟩,le_refl _,rfl,rfl⟩
  | succ n ih =>
    rw [Nat.add_mul,Nat.one_mul] at hn ⊢
    obtain ⟨t,past,s,h,hs,ht,hfired,hsent⟩:=ih ((le_add_right _ _).trans_lt hn)
    have hround:=(Nat.add_le_add_right ht 150000).trans_lt hn
    obtain ⟨t',past',s',h',hs',ht',hfired',hsent'⟩:=reads_round h hs hround
    exact ⟨t',past',s',h',hs',ht'.trans (Nat.add_le_add_right ht _),hfired'.trans (congrArg (·+1) hfired),hsent'.trans hsent⟩

/-- The event has fired for 65536 reads, none of them has been sent, and the count of ready reads is zero. -/
theorem not_read_ready : ∃ t past s,Reads (nvm (2^16)) (fun _ => True) t past s ∧ past.fired.length=2^16 ∧
    past.sent=0 ∧ s.numReadDataReady=0 := by
  have hlast : 2^16*150000 < maxTick := by
    rw [maxTick]
    omega
  obtain ⟨t,past,s,h,hs,_,hfired,hsent⟩:=reads_rounds (2^16) hlast
  exact ⟨t,past,s,h,hfired,hsent,hs.ready.trans (Nat.mod_self _)⟩

/-- Two reads that become ready at one tick. -/
theorem read_ready_two_reads : ∃ s : State,s.readReadyQueue=[150000,150000] ∧ s.readReadyEvent=some 150000 ∧
    ∃ s',processReadReadyEvent 150000 s = .ok s' ∧ s'.readReadyQueue=[150000] ∧ s'.readReadyEvent=some 150000 := by
  have hrun : Post (do
      let r ← chooseRead (nvm 64) 1 0 0 ((State.new.setupRank true).setupRank true) [readOf,readOf]
      chooseRead (nvm 64) 1 0 r.2.2 r.2.1 r.1) (fun r => r.2.1.readReadyQueue=[150000,150000]) fun _ => False := by
    decide +kernel
  obtain ⟨⟨queue',s,burstTicks⟩,hcalls,hqueue⟩:=hrun.returns
  obtain ⟨_,hfirst,hcall⟩:=bind_ok hcalls
  have hissued : Reads (nvm 64) (fun _ => True) 0 _ s :=
    (((Reads.init.setupRank 0 _ _ true).setupRank 0 _ _ true).chooseRead 0 1 0 _ _ _ _ _ _ hfirst).chooseRead 0 1 _
      burstTicks _ _ s _ queue' hcall
  obtain ⟨hevent,hfire,_⟩:=read_ready (reads_countsOn (by decide) hissued)
  have hat : s.readReadyEvent=some 150000 := by rw [hevent,hqueue]; rfl
  obtain ⟨_,s',hcall',hleft,hnext⟩:=hfire 150000 hat
  rw [hqueue] at hleft
  refine ⟨s,hqueue,hat,s',hcall',hleft,?_⟩
  rw [hnext,hleft]
  rfl

end AquaGem5.Nvm
