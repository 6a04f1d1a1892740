import AquaGem5.Controller.MemCtrl
import AquaGem5.Dram.BurstAccess
import AquaGem5.Nvm.ReadReady

/-!
# Capacity of the queues

A total counts the packets of its direction. Escalation takes them from queue to queue, so that the check on arrival is
enough: the queues never hold more than their buffers.
-/

namespace AquaGem5.Controller
open Ticks Checked Queues Function List

namespace Qos

variable {n entrySize id curr tgt : ℕ} {dir : BusState} {q q' : Qos} {pkt : MemPacket} {before ahead : List MemPacket}

def queuedLength (n : ℕ) (q : Qos) (dir : BusState) : ℕ := (queued n (q.queue dir)).length

structure Kept (n : ℕ) (q q' : Qos) : Prop where
  queued : ∀ dir,q'.queuedLength n dir=q.queuedLength n dir
  total : q'.totalQueueSize=q.totalQueueSize

theorem length_update (queue : ℕ → List MemPacket) {prio : ℕ} (hprio : prio<n) (l : List MemPacket) :
    (queued n (update queue prio l)).length+(queue prio).length=(queued n queue).length+l.length := by
  have hsum:=congrArg Multiset.card (queued_update (q := queue) hprio l)
  simpa only [Multiset.card_add,Multiset.coe_card] using hsum

theorem queuedLength_setQueue (q : Qos) {prio : ℕ} (hprio : prio<n) (dir : BusState) (l : List MemPacket) :
    (q.setQueue dir prio l).queuedLength n dir+(q.queue dir prio).length=q.queuedLength n dir+l.length := by
  rw [queuedLength,queuedLength,setQueue]
  simp only [update_self]
  exact length_update _ hprio l

theorem queuedLength_setQueue_of_ne (q : Qos) (prio : ℕ) {dir other : BusState} (h : other≠dir) (l : List MemPacket) :
    (q.setQueue dir prio l).queuedLength n other=q.queuedLength n other := by
  rw [queuedLength,queuedLength,setQueue]
  simp only [update_of_ne h]

def forgetQos (pkt : MemPacket) : MemPacket := {pkt with qosValue := 0}

def contents (n : ℕ) (q : Qos) (dir : BusState) : Multiset MemPacket := (queued n (q.queue dir) : Multiset MemPacket).map forgetQos

theorem card_contents (n : ℕ) (q : Qos) (dir : BusState) : (q.contents n dir).card=q.queuedLength n dir := by
  rw [contents,Multiset.card_map,Multiset.coe_card,queuedLength]

structure Rearranged (n : ℕ) (q q' : Qos) : Prop where
  contents : ∀ dir,q'.contents n dir=q.contents n dir
  total : q'.totalQueueSize=q.totalQueueSize

theorem Rearranged.refl (q : Qos) : Rearranged n q q := ⟨fun _ => rfl,rfl⟩

theorem Rearranged.trans {q'' : Qos} (h : Rearranged n q q') (h' : Rearranged n q' q'') : Rearranged n q q'' :=
  ⟨fun dir => (h'.contents dir).trans (h.contents dir),h'.total.trans h.total⟩

theorem Rearranged.kept (h : Rearranged n q q') : Kept n q q' := by
  refine ⟨fun dir => ?_,h.total⟩
  rw [← card_contents,h.contents,card_contents]

theorem Shifted.rearranged (h : Shifted dir curr tgt before ahead pkt q q') (hq : q.queue dir curr=before++pkt::ahead)
    (hcurr : curr<n) (htgt : tgt<n) (hne : curr≠tgt) (htotal : q'.totalQueueSize=q.totalQueueSize) :
    Rearranged n q q' := by
  refine ⟨fun other => ?_,htotal⟩
  rw [contents,contents]
  by_cases hother : other=dir
  · subst hother
    have hqueue : q'.queue other=update (update (q.queue other) tgt
        (q.queue other tgt++[{pkt with qosValue := tgt}])) curr (before++ahead) := by
      funext prio
      by_cases hc : prio=curr
      · rw [hc,h.source,update_self]
      · by_cases ht : prio=tgt
        · rw [ht,h.target,update_of_ne hne.symm,update_self]
        · rw [h.others other prio fun _ => ⟨hc,ht⟩,update_of_ne hc,update_of_ne ht]
    have hat : (update (q.queue other) tgt (q.queue other tgt++[{pkt with qosValue := tgt}]) curr)[before.length]? =
        some pkt := by
      rw [update_of_ne hne,hq]
      simp
    have hleave:=queued_erase hcurr hat
    have hrest : (before++pkt::ahead).eraseIdx before.length=before++ahead := by
      rw [eraseIdx_append_of_length_le (le_refl _),Nat.sub_self,eraseIdx_cons_zero]
    rw [update_of_ne hne,hq,hrest,queued_push htgt] at hleave
    have hforget:=congrArg (Multiset.map forgetQos) hleave
    rw [Multiset.map_cons,Multiset.map_cons] at hforget
    rw [hqueue]
    exact ((Multiset.cons_inj_right _).mp hforget).symm
  · have hqueue : q'.queue other=q.queue other := funext fun prio => h.others other prio fun heq => absurd heq hother
    rw [hqueue]

theorem escalateFrom_rearranged (hcurr : curr<n) (hne : curr≠tgt) :
    ∀ (ahead before : List MemPacket) (q : Qos),q.queue dir curr=before++ahead →
      Post (escalateFrom n entrySize dir id curr tgt before ahead q) (Rearranged n q) := by
  intro ahead
  induction ahead with
  | nil => exact fun _ q _ => Rearranged.refl q
  | cons pkt ahead ih =>
    intro before q hq
    rw [escalateFrom,post_ite]
    refine ⟨fun _ => Rearranged.refl q,fun _ => ?_⟩
    rw [post_ite]
    refine ⟨fun _ => ?_,fun _ => ih (before++[pkt]) q (by rw [hq,append_assoc]; rfl)⟩
    refine (moveTo_shifted id hne q).bind fun q1 h1 => ?_
    obtain ⟨htgt,hshift,htotal⟩:=h1
    have hsame:=hshift.rearranged hq hcurr htgt hne htotal
    exact (ih before q1 hshift.source).imp fun _ h2 => hsame.trans h2

theorem escalateWhile_rearranged (hcurr : curr<n) (hne : curr≠tgt) (fuel : ℕ) (q : Qos) :
    Post (escalateWhile n entrySize id curr tgt fuel q) (Rearranged n q) := by
  induction fuel generalizing q with
  | zero => trivial
  | succ fuel ih =>
    rw [escalateWhile,post_ite]
    refine ⟨fun _ => Rearranged.refl q,fun _ => ?_⟩
    refine (escalateFrom_rearranged hcurr hne (q.queue .READ curr) [] q rfl).bind fun q1 h1 => ?_
    refine (escalateFrom_rearranged hcurr hne (q1.queue .WRITE curr) [] q1 rfl).bind fun q2 h2 => ?_
    exact (ih q2).imp fun _ h3 => (h1.trans h2).trans h3

theorem escalate_rearranged (n entrySize fuel id tgt : ℕ) (q : Qos) :
    Post (escalate n entrySize fuel id tgt q) (Rearranged n q) := by
  have hself : Rearranged n q (q.addRequestor id) := by
    rw [addRequestor]
    split
    next => exact Rearranged.refl q
    next => exact ⟨fun _ => rfl,rfl⟩
  refine Post.foldlM hself fun q1 h1 curr hcurr => ?_
  rw [post_ite]
  refine ⟨fun _ => h1,fun hne => ?_⟩
  exact (escalateWhile_rearranged (mem_range.mp hcurr) hne fuel q1).imp fun _ h2 => h1.trans h2

theorem qosSchedule_rearranged (n entrySize : ℕ) (syncro escalation : Bool) (d : Schedule) (id : ℕ) (q : Qos) :
    Post (qosSchedule n entrySize syncro escalation d id q) (fun q' => d.pktPriority<n ∧ Rearranged n q q') := by
  rw [qosSchedule,post_bind,partly_check]
  intro hprio
  have hothers : Post (if syncro&&escalation then
      ((d.order q.requestors).filter (·≠id)).foldlM
        (fun q other => escalate n entrySize d.fuel other (d.priorityOf other) q) q
      else pure q) (Rearranged n q) := by
    rw [post_ite]
    refine ⟨fun _ => Post.foldlM (Rearranged.refl q) fun q1 h1 other _ => ?_,fun _ => Rearranged.refl q⟩
    exact (escalate_rearranged n entrySize d.fuel other (d.priorityOf other) q1).imp fun _ h2 => h1.trans h2
  refine hothers.bind fun q1 h1 => ?_
  rw [post_ite]
  refine ⟨fun _ => ?_,fun _ => ⟨hprio,h1⟩⟩
  exact (escalate_rearranged n entrySize d.fuel id d.pktPriority q1).imp fun _ h2 => ⟨hprio,h1.trans h2⟩

def Counted (n : ℕ) (q : Qos) : Prop := ∀ dir,q.totalQueueSize dir=q.queuedLength n dir

theorem Kept.counted (h : Kept n q q') (hq : q.Counted n) : q'.Counted n := fun dir => by
  rw [h.total,h.queued]
  exact hq dir

theorem new_counted (n : ℕ) : new.Counted n := fun dir => by
  have hnone : queued n (new.queue dir)=[] := List.flatMap_eq_nil_iff.mpr fun _ _ => rfl
  rw [queuedLength,hnone]
  rfl

theorem push_total (q : Qos) (curTick : ℕ) (pkt : MemPacket) :
    (q.push curTick pkt).totalQueueSize=update q.totalQueueSize pkt.dir (q.totalQueueSize pkt.dir+1) := by
  unfold push logRequest addRequestor
  split <;> rfl

theorem push_counted (h : q.Counted n) (curTick : ℕ) (hprio : pkt.qosValue<n) : (q.push curTick pkt).Counted n := by
  intro dir
  have hqueue : (q.push curTick pkt).queuedLength n dir =
      (q.setQueue pkt.dir pkt.qosValue (q.queue pkt.dir pkt.qosValue++[pkt])).queuedLength n dir := by
    rw [queuedLength,push_queue]
    rfl
  rw [hqueue,push_total]
  by_cases hdir : dir=pkt.dir
  · subst hdir
    have hlength:=queuedLength_setQueue q hprio pkt.dir (q.queue pkt.dir pkt.qosValue++[pkt])
    rw [length_append,length_singleton] at hlength
    rw [update_self,h pkt.dir]
    omega
  · rw [update_of_ne hdir,queuedLength_setQueue_of_ne q _ hdir]
    exact h dir

theorem logResponse_spec (q : Qos) (dir : BusState) (id qos addr : ℕ) :
    Post (q.logResponse dir id qos addr) (fun q' => q'.queue=q.queue ∧
      q'.totalQueueSize=update q.totalQueueSize dir (tickSub (q.totalQueueSize dir) 1)) := by
  rw [logResponse]
  simp only [post_bind,partly_check,post_pure]
  exact fun _ _ _ => ⟨rfl,rfl⟩

theorem served_counted {prio k : ℕ} (h : q.Counted n) (hprio : prio<n) (hk : (q.queue dir prio)[k]?=some pkt)
    (hqueue : q'.queue=q.queue) (htotal : q'.totalQueueSize=update q.totalQueueSize dir (tickSub (q.totalQueueSize dir) 1)) :
    (q'.setQueue dir prio ((q'.queue dir prio).eraseIdx k)).Counted n ∧ q'.totalQueueSize dir+1=q.totalQueueSize dir ∧
      ∀ other,other≠dir → q'.totalQueueSize other=q.totalQueueSize other := by
  obtain ⟨hlt,_⟩:=List.getElem?_eq_some_iff.mp hk
  have hsame : ∀ other,q'.queuedLength n other=q.queuedLength n other := fun other => by rw [queuedLength,hqueue,queuedLength]
  have hlength:=queuedLength_setQueue q' hprio dir ((q'.queue dir prio).eraseIdx k)
  rw [hqueue,length_eraseIdx_of_lt hlt,hsame] at hlength
  have hself : q'.totalQueueSize dir+1=q.totalQueueSize dir := by
    have hpos:=h dir
    rw [htotal,update_self,tickSub_of_le (by omega)]
    omega
  have hothers : ∀ other,other≠dir → q'.totalQueueSize other=q.totalQueueSize other := fun other hother => by
    rw [htotal,update_of_ne hother]
  refine ⟨fun other => ?_,hself,hothers⟩
  have hkeep : (q'.setQueue dir prio ((q'.queue dir prio).eraseIdx k)).totalQueueSize=q'.totalQueueSize := rfl
  rw [hkeep]
  by_cases hother : other=dir
  · subst hother
    have hq:=h other
    rw [hqueue]
    omega
  · rw [hothers other hother,queuedLength_setQueue_of_ne q' _ hother,hsame]
    exact h other

end Qos

section Arrivals
open MemCtrl

variable {P : MemCtrl.Params} {s s' : MemCtrl.State} {curTick : ℕ} {defense : MemPacket → Protection} {isDram : Bool}
  {pkt : Packet}

structure Bounded (P : MemCtrl.Params) (s : MemCtrl.State) : Prop where
  counted : s.qos.Counted P.numPriorities
  read : s.qos.totalQueueSize .READ+s.respQueue.length≤P.readBufferSize
  write : s.qos.totalQueueSize .WRITE≤P.writeBufferSize

structure SameQueues (s s' : MemCtrl.State) : Prop where
  qos : s'.qos=s.qos
  respQueue : s'.respQueue=s.respQueue

def RoomLeft (e : MemCtrl.Fault) : Prop := e ≠ .readQueueFull ∧ e ≠ .writeQueueFull

instance (e : MemCtrl.Fault) : Decidable (RoomLeft e) := inferInstanceAs (Decidable (_ ∧ _))

theorem roomLeft_decode (fault : MemInterface.Fault) : RoomLeft (.decode fault) := by
  constructor <;> intro h <;> cases h

theorem roomLeft_qos (fault : Qos.Fault) : RoomLeft (.qos fault) := by
  constructor <;> intro h <;> cases h

theorem Bounded.kept {qos : Qos} (h : Bounded P s) (hkept : s.qos.Kept P.numPriorities qos) :
    Bounded P {s with qos := qos} :=
  ⟨hkept.counted h.counted,hkept.total ▸ h.read,hkept.total ▸ h.write⟩

theorem decodePacket_spec (g : MemInterface) (curTick ref : ℕ) (pkt : Packet) (addr size : ℕ) (isRead isDram : Bool) :
    Post (g.decodePacket curTick ref pkt addr size isRead isDram) (fun memPkt => memPkt.qosValue=pkt.qosValue ∧
      memPkt.read=isRead) :=
  (post_true (g.decode (g.getCtrlAddr addr))).bind fun _ _ => ⟨rfl,rfl⟩

theorem protect_qosValue (P : MemCtrl.Params) (defense : MemPacket → Protection) (memPkt : MemPacket) :
    (protect P defense memPkt).qosValue=memPkt.qosValue := by
  unfold protect
  split <;> rfl

theorem protect_read (P : MemCtrl.Params) (defense : MemPacket → Protection) (memPkt : MemPacket) :
    (protect P defense memPkt).read=memPkt.read := by
  unfold protect
  split <;> rfl

theorem readPacket_spec (s : MemCtrl.State) (addr size : ℕ) :
    Post (readPacket P curTick defense isDram pkt s addr size) (fun found => found.1.qosValue=pkt.qosValue ∧
      found.1.read=true ∧ SameQueues s found.2) RoomLeft := by
  rw [readPacket]
  refine Post.bind (R := fun memPkt => memPkt.qosValue=pkt.qosValue ∧ memPkt.read=true) ?_ fun memPkt hpkt => ?_
  · rw [post_within]
    exact (decodePacket_spec _ _ _ _ _ _ _ _).mono (fun _ h => h) fun fault _ => roomLeft_decode fault
  · obtain ⟨hqos,hread⟩:=hpkt
    rw [post_ite]
    refine ⟨fun _ => ⟨?_,?_,rfl,rfl⟩,fun _ => ⟨hqos,hread,rfl,rfl⟩⟩
    · rw [protect_qosValue,hqos]
    · rw [protect_read,hread]

structure ReadsAdded (n : ℕ) (s : MemCtrl.State) (added : ℕ) (s' : MemCtrl.State) : Prop where
  counted : s'.qos.Counted n
  read : s'.qos.totalQueueSize .READ+s'.respQueue.length ≤ s.qos.totalQueueSize .READ+s.respQueue.length+added
  write : s'.qos.totalQueueSize .WRITE=s.qos.totalQueueSize .WRITE

theorem addReadPiece_spec {loop : ReadLoop} {pktCount added : ℕ} (h : ReadsAdded P.numPriorities s added loop.s)
    (hprio : pkt.qosValue<P.numPriorities) (hroom : ¬readQueueFull P s pktCount) (hadded : added<pktCount) (piece : ℕ × ℕ) :
    Post (addReadPiece P curTick defense isDram pkt pktCount loop piece)
      (fun loop' => ReadsAdded P.numPriorities s (added+1) loop'.s) RoomLeft := by
  rw [addReadPiece,post_bind,post_check]
  refine ⟨fun _ => ?_,fun _ => by decide⟩
  rw [post_ite]
  refine ⟨fun _ => ⟨h.counted,h.read.trans (Nat.le_succ _),h.write⟩,fun _ => ?_⟩
  -- a helper does not touch the queues
  generalize hhelper : (if 1<pktCount ∧ loop.burstHelper=none then
      ({loop.s with burstHelpers := loop.s.burstHelpers++[⟨pktCount,0⟩]},some loop.s.burstHelpers.length)
    else (loop.s,loop.burstHelper) : MemCtrl.State × Option ℕ)=helped
  have hsame : SameQueues loop.s helped.1 := by
    rw [← hhelper]
    split <;> exact ⟨rfl,rfl⟩
  refine (readPacket_spec helped.1 piece.1 piece.2).bind fun found hfound => ?_
  obtain ⟨memPkt,s1⟩:=found
  obtain ⟨hqos,hread,hqueues⟩:=hfound
  have hqos1 : s1.qos=loop.s.qos := hqueues.qos.trans hsame.qos
  have hresp1 : s1.respQueue=loop.s.respQueue := hqueues.respQueue.trans hsame.respQueue
  have hle:=h.read
  have hdir : ({memPkt with burstHelper := helped.2} : MemPacket).dir = .READ := if_pos hread
  rw [readQueueFull] at hroom
  rw [post_bind,post_check]
  refine ⟨fun _ => ⟨Qos.push_counted (hqos1 ▸ h.counted) curTick (hqos ▸ hprio),?_,?_⟩,fun hfull => absurd ?_ hfull⟩
  · rw [Qos.push_total,hdir,update_self,hqos1,hresp1]
    omega
  · rw [Qos.push_total,hdir,update_of_ne (by decide),hqos1]
    exact h.write
  · rw [readQueueFull,hqos1,hresp1]
    omega

theorem addToReadQueue_spec {pktCount : ℕ} (h : Bounded P s) (hprio : pkt.qosValue<P.numPriorities)
    (hroom : ¬readQueueFull P s pktCount) :
    Post (addToReadQueue P curTick defense isDram pkt pktCount s) (Bounded P) RoomLeft := by
  rw [addToReadQueue]
  simp only [post_bind,post_check]
  refine ⟨fun _ => ⟨fun _ => ⟨fun _ => ?_,fun _ => by decide⟩,fun _ => by decide⟩,fun _ => by decide⟩
  have hlen:=pieces_length (P.burstSize isDram) pkt.addr pkt.size pktCount pkt.addr
  refine Post.mono (Post.foldlM_count (I := fun added loop => ReadsAdded P.numPriorities s added loop.s)
    ⟨h.counted,le_refl _,rfl⟩ fun i hi loop hloop piece _ => ?_) (fun loop hloop => ?_) fun _ he => he
  · exact addReadPiece_spec hloop hprio hroom (hlen ▸ hi) piece
  · rw [hlen] at hloop
    have hbounded : Bounded P loop.s := by
      have hread:=hloop.read
      rw [readQueueFull] at hroom
      exact ⟨hloop.counted,by omega,hloop.write ▸ h.write⟩
    have hanswered : Bounded P (loop.s.accessAndRespond pkt.ref) :=
      ⟨hbounded.counted,hbounded.read,hbounded.write⟩
    rw [post_ite]
    refine ⟨fun _ => hanswered,fun _ => ?_⟩
    cases loop.burstHelper with
    | none => exact hbounded
    | some i => exact ⟨hbounded.counted,hbounded.read,hbounded.write⟩

structure WritesAdded (n : ℕ) (s : MemCtrl.State) (added : ℕ) (s' : MemCtrl.State) : Prop where
  counted : s'.qos.Counted n
  read : s'.qos.totalQueueSize .READ+s'.respQueue.length=s.qos.totalQueueSize .READ+s.respQueue.length
  write : s'.qos.totalQueueSize .WRITE ≤ s.qos.totalQueueSize .WRITE+added

theorem addWritePiece_spec {s0 : MemCtrl.State} {pktCount added : ℕ} (h : WritesAdded P.numPriorities s0 added s)
    (hprio : pkt.qosValue<P.numPriorities) (hroom : ¬writeQueueFull P s0 pktCount) (hadded : added<pktCount) (piece : ℕ × ℕ) :
    Post (addWritePiece P curTick defense isDram pkt s piece) (WritesAdded P.numPriorities s0 (added+1)) RoomLeft := by
  have hle:=h.write
  rw [addWritePiece,post_bind,post_check]
  refine ⟨fun _ => ?_,fun _ => by decide⟩
  rw [post_ite]
  refine ⟨fun _ => ⟨h.counted,h.read,hle.trans (Nat.le_succ _)⟩,fun _ => ?_⟩
  refine Post.bind (R := fun memPkt => memPkt.qosValue=pkt.qosValue ∧ memPkt.read=false) ?_ fun memPkt hpkt => ?_
  · rw [post_within]
    exact (decodePacket_spec _ _ _ _ _ _ _ _).mono (fun _ hpkt => hpkt) fun fault _ => roomLeft_decode fault
  obtain ⟨hqos,hread⟩:=hpkt
  dsimp only
  -- neither the defense nor the rank touches the queues
  generalize hranked : (if isDram=true then _ else _ : MemPacket × MemCtrl.State)=ranked
  have hqueues : ranked.1.qosValue=pkt.qosValue ∧ ranked.1.read=false ∧ SameQueues s ranked.2 := by
    rw [← hranked]
    split
    · exact ⟨(protect_qosValue ..).trans hqos,(protect_read ..).trans hread,rfl,rfl⟩
    · exact ⟨hqos,hread,rfl,rfl⟩
  obtain ⟨memPkt1,s1⟩:=ranked
  obtain ⟨hqos1,hread1,hsame⟩:=hqueues
  have hdir : memPkt1.dir = .WRITE := if_neg (by rw [hread1]; decide)
  rw [writeQueueFull] at hroom
  rw [post_bind,post_check]
  refine ⟨fun _ => ?_,fun hfull => absurd ?_ hfull⟩
  · rw [post_bind,post_check]
    refine ⟨fun _ => ⟨?_,?_,?_⟩,fun _ => by decide⟩
    · exact Qos.push_counted (hsame.qos ▸ h.counted) curTick (hqos1 ▸ hprio)
    · rw [Qos.push_total,hdir,update_of_ne (by decide),hsame.qos,hsame.respQueue]
      exact h.read
    · rw [Qos.push_total,hdir,update_self,hsame.qos]
      omega
  · rw [hsame.qos]
    omega

theorem addToWriteQueue_spec {pktCount : ℕ} (h : Bounded P s) (hprio : pkt.qosValue<P.numPriorities)
    (hroom : ¬writeQueueFull P s pktCount) :
    Post (addToWriteQueue P curTick defense isDram pkt pktCount s) (Bounded P) RoomLeft := by
  rw [addToWriteQueue]
  simp only [post_bind,post_check]
  refine ⟨fun _ => ⟨fun _ => ?_,fun _ => by decide⟩,fun _ => by decide⟩
  have hlen:=pieces_length (P.burstSize isDram) pkt.addr pkt.size pktCount pkt.addr
  refine Post.mono (Post.foldlM_count (I := WritesAdded P.numPriorities s) ⟨h.counted,rfl,le_refl _⟩
    fun i hi s1 hs1 piece _ => ?_) (fun s1 hs1 => ?_) fun _ he => he
  · exact addWritePiece_spec hs1 hprio hroom (hlen ▸ hi) piece
  · rw [hlen] at hs1
    have hwrite:=hs1.write
    rw [writeQueueFull] at hroom
    exact ⟨hs1.counted,hs1.read.trans_le h.read,hwrite.trans (by omega)⟩

theorem recvTimingReq_spec (h : Bounded P s) (schedule : Qos.Schedule) :
    Post (recvTimingReq P curTick schedule defense pkt s) (fun answer => Bounded P answer.2) RoomLeft := by
  rw [recvTimingReq]
  simp only [post_bind,post_check,post_within]
  refine ⟨fun _ => ⟨fun _ => ⟨fun _ => ?_,fun _ => by decide⟩,fun _ => by decide⟩,fun _ => by decide⟩
  refine (Qos.qosSchedule_rearranged _ _ _ _ schedule pkt.requestorId s.qos).mono (fun qos hqos => ?_)
    fun fault _ => roomLeft_qos fault
  obtain ⟨hprio,hsame⟩:=hqos
  have hbounded:=h.kept hsame.kept
  refine ⟨fun _ => ?_,fun _ => by decide⟩
  rw [post_ite]
  refine ⟨fun _ => ?_,fun _ => ?_⟩
  · rw [post_ite]
    refine ⟨fun _ => ⟨hbounded.counted,hbounded.read,hbounded.write⟩,fun hroom => ?_⟩
    exact (addToWriteQueue_spec hbounded hprio hroom).bind fun _ hs => hs
  · rw [post_ite]
    refine ⟨fun _ => ⟨hbounded.counted,hbounded.read,hbounded.write⟩,fun hroom => ?_⟩
    exact (addToReadQueue_spec hbounded hprio hroom).bind fun _ hs => hs

end Arrivals

section Service
open MemCtrl

variable {P : MemCtrl.Params} {s s' : MemCtrl.State} {fuel curTick : ℕ} {memPkt : MemPacket}

theorem serviced_sameQueues (s : MemCtrl.State) (memPkt : MemPacket) : SameQueues s (s.serviced memPkt) := by
  unfold MemCtrl.State.serviced
  cases memPkt.burstHelper with
  | none => exact ⟨rfl,rfl⟩
  | some i =>
    dsimp only
    split <;> exact ⟨rfl,rfl⟩

theorem processRespondEvent_spec (h : Bounded P s) : Post (processRespondEvent curTick s) (Bounded P) := by
  rw [processRespondEvent]
  cases hresp : s.respQueue with
  | nil => trivial
  | cons memPkt respQueue =>
    have hqos:=(serviced_sameQueues s memPkt).qos
    have hread:=h.read
    rw [hresp,length_cons] at hread
    have hcounted : (s.serviced memPkt).qos.Counted P.numPriorities := hqos ▸ h.counted
    have hle : (s.serviced memPkt).qos.totalQueueSize .READ+respQueue.length≤P.readBufferSize := by
      rw [hqos]
      omega
    have hwrite : (s.serviced memPkt).qos.totalQueueSize .WRITE≤P.writeBufferSize := hqos ▸ h.write
    dsimp only
    cases respQueue.head? with
    | none => exact ⟨hcounted,hle,hwrite⟩
    | some next =>
      dsimp only
      rw [post_bind,partly_check]
      exact fun _ => ⟨hcounted,hle,hwrite⟩

theorem doBurstAccess_sameQueues (s : MemCtrl.State) (memPkt : MemPacket) :
    Post (s.doBurstAccess P fuel curTick memPkt) (fun served => SameQueues s served.2) := by
  rw [MemCtrl.State.doBurstAccess]
  dsimp only
  rw [post_ite]
  exact ⟨fun _ => (post_true _).bind fun _ _ => ⟨rfl,rfl⟩,fun _ => (post_true _).bind fun _ _ => ⟨rfl,rfl⟩⟩

theorem chosen_spec {choose : ℕ → Option ℕ} {queue : ℕ → List MemPacket} {prio k n : ℕ}
    (h : chosen choose queue n=some (prio,k,memPkt)) : prio<n ∧ (queue prio)[k]?=some memPkt := by
  induction n with
  | zero => cases h
  | succ n ih =>
    rw [chosen] at h
    split at h
    next found hfound =>
      cases h
      obtain ⟨i,_,hi⟩:=Option.bind_eq_some_iff.mp hfound
      obtain ⟨pkt,hpkt,heq⟩:=Option.map_eq_some_iff.mp hi
      cases heq
      exact ⟨Nat.lt_succ_self _,hpkt⟩
    next =>
      obtain ⟨hprio,hk⟩:=ih h
      exact ⟨Nat.lt_succ_of_lt hprio,hk⟩

theorem eraseServed_spec (dir : BusState) (prio k : ℕ) (memPkt : MemPacket) (q : Qos) :
    Post (eraseServed dir prio k memPkt q) (fun q' => q'=q.setQueue dir prio ((q.queue dir prio).eraseIdx k)) := by
  rw [eraseServed,post_bind,partly_check]
  exact fun _ => rfl

theorem serveRead_spec {prio k : ℕ} (h : Bounded P s) (hprio : prio<P.numPriorities)
    (hk : (s.qos.queue .READ prio)[k]?=some memPkt) :
    Post (serveRead P fuel curTick prio k memPkt s) (Bounded P) := by
  rw [serveRead]
  refine (doBurstAccess_sameQueues s memPkt).bind fun served hserved => ?_
  obtain ⟨memPkt1,s1⟩:=served
  have hqos : s1.qos=s.qos := hserved.qos
  have hresp : s1.respQueue=s.respQueue := hserved.respQueue
  simp only [post_bind,partly_check,post_within]
  intro _ _
  refine (Qos.logResponse_spec s1.qos .READ _ _ _).forget fun qos hlog => ?_
  obtain ⟨hqueue,htotal⟩:=hlog
  refine (post_true _).forget fun respondEvent _ => ?_
  refine (eraseServed_spec .READ prio k memPkt1 qos).forget fun qos' herased => ?_
  have hcounted : s1.qos.Counted P.numPriorities := hqos ▸ h.counted
  have hk1 : (s1.qos.queue .READ prio)[k]?=some memPkt := hqos ▸ hk
  obtain ⟨hleft,hself,hothers⟩:=Qos.served_counted hcounted hprio hk1 hqueue htotal
  have hread:=h.read
  have hwrite:=h.write
  rw [← hqos] at hread hwrite
  subst herased
  refine ⟨hleft,?_,(hothers .WRITE (by decide)).trans_le hwrite⟩
  have hkeep : (qos.setQueue .READ prio ((qos.queue .READ prio).eraseIdx k)).totalQueueSize=qos.totalQueueSize := rfl
  rw [hkeep,hresp,length_append,length_singleton]
  omega

theorem serveWrite_spec {prio k : ℕ} (h : Bounded P s) (hprio : prio<P.numPriorities)
    (hk : (s.qos.queue .WRITE prio)[k]?=some memPkt) :
    Post (serveWrite P fuel curTick prio k memPkt s) (Bounded P) := by
  rw [serveWrite,post_bind,partly_check]
  intro _
  refine (doBurstAccess_sameQueues s memPkt).bind fun served hserved => ?_
  obtain ⟨memPkt1,s1⟩:=served
  have hqos : s1.qos=s.qos := hserved.qos
  have hresp : s1.respQueue=s.respQueue := hserved.respQueue
  simp only [post_bind,post_within]
  refine (Qos.logResponse_spec s1.qos .WRITE _ _ _).forget fun qos hlog => ?_
  obtain ⟨hqueue,htotal⟩:=hlog
  refine (eraseServed_spec .WRITE prio k memPkt1 qos).forget fun qos' herased => ?_
  have hcounted : s1.qos.Counted P.numPriorities := hqos ▸ h.counted
  have hk1 : (s1.qos.queue .WRITE prio)[k]?=some memPkt := hqos ▸ hk
  obtain ⟨hleft,hself,hothers⟩:=Qos.served_counted hcounted hprio hk1 hqueue htotal
  have hread:=h.read
  have hwrite:=h.write
  rw [← hqos] at hread hwrite
  subst herased
  have hkeep : (qos.setQueue .WRITE prio ((qos.queue .WRITE prio).eraseIdx k)).totalQueueSize=qos.totalQueueSize := rfl
  refine ⟨hleft,?_,?_⟩
  · rw [hkeep,hresp,hothers .READ (by decide)]
    exact hread
  · rw [hkeep]
    omega

theorem chooseRead_length (queue : List MemPacket) (burstTicks : Multiset ℕ) (nvm : Nvm.State) :
    Post (Nvm.chooseRead P.nvm fuel curTick burstTicks nvm queue) (fun issued => issued.1.length=queue.length) := by
  rw [Nvm.chooseRead]
  simp only [post_bind,partly_check]
  intro _ _
  cases queue.findIdx? Nvm.unissued with
  | none => rfl
  | some i =>
    dsimp only
    cases queue[i]? with
    | none => rfl
    | some pkt => exact (post_true _).bind fun _ _ => length_set

theorem issueReads_spec (h : Bounded P s) : Post (issueReads P fuel curTick s) (Bounded P) := by
  refine Post.foldlM h fun s1 h1 prio hprio => ?_
  rw [post_ite]
  refine ⟨fun _ => ?_,fun _ => h1⟩
  simp only [post_bind,post_within]
  refine (chooseRead_length (s1.qos.queue .READ prio) s1.burstTicks s1.nvm).forget fun issued hissued => ?_
  have hlt:=mem_range.mp (mem_reverse.mp hprio)
  have hkept : s1.qos.Kept P.numPriorities (s1.qos.setQueue .READ prio issued.1) := by
    refine ⟨fun dir => ?_,rfl⟩
    by_cases hdir : dir = .READ
    · subst hdir
      have hlength:=Qos.queuedLength_setQueue s1.qos hlt .READ issued.1
      omega
    · exact Qos.queuedLength_setQueue_of_ne s1.qos prio hdir issued.1
  have hbounded:=h1.kept hkept
  exact ⟨hbounded.counted,hbounded.read,hbounded.write⟩

theorem retryWrite_bounded (h : Bounded P s) (dir : BusState) : Bounded P ({s with busStateNext := dir}.retryWrite P) :=
  ⟨h.counted,h.read,h.write⟩

theorem nextRead_spec (h : Bounded P s) (turn : Turn) (allWritesNvm : Bool) :
    Post (nextRead P fuel curTick turn allWritesNvm s) (Bounded P) := by
  rw [nextRead,post_ite]
  refine ⟨fun _ => ?_,fun _ => ?_⟩
  · rw [post_ite]
    exact ⟨fun _ => retryWrite_bounded h .WRITE,fun _ => h⟩
  · cases hchosen : chosen (turn.chooseNext .READ) (s.qos.queue .READ) P.numPriorities with
    | none => exact h
    | some found =>
      obtain ⟨prio,k,memPkt⟩:=found
      obtain ⟨hprio,hk⟩:=chosen_spec hchosen
      refine (serveRead_spec h hprio hk).bind fun s1 h1 => ?_
      dsimp only
      rw [post_pure]
      split
      · exact retryWrite_bounded h1 .WRITE
      · exact retryWrite_bounded h1 s1.busStateNext

theorem nextWrite_spec (h : Bounded P s) (turn : Turn) (allWritesNvm : Bool) :
    Post (nextWrite P fuel curTick turn allWritesNvm s) (Bounded P) := by
  rw [nextWrite]
  cases hchosen : chosen (turn.chooseNext .WRITE) (s.qos.queue .WRITE) P.numPriorities with
  | none => exact h
  | some found =>
    obtain ⟨prio,k,memPkt⟩:=found
    obtain ⟨hprio,hk⟩:=chosen_spec hchosen
    refine (serveWrite_spec h hprio hk).bind fun s1 h1 => ?_
    dsimp only
    rw [post_pure]
    split
    · exact retryWrite_bounded h1 .READ
    · exact retryWrite_bounded h1 s1.busStateNext

theorem processNextReqEvent_spec (h : Bounded P s) (turn : Turn) :
    Post (processNextReqEvent P fuel curTick turn s) (Bounded P) := by
  rw [processNextReqEvent]
  refine Post.bind (R := Bounded P) ?_ fun s1 h1 => ?_
  · rw [post_ite]
    exact ⟨fun _ => issueReads_spec ⟨h.counted,h.read,h.write⟩,fun _ => ⟨h.counted,h.read,h.write⟩⟩
  dsimp only
  rw [post_ite]
  refine ⟨fun _ => h1,fun _ => ?_⟩
  cases s1.busState with
  | READ => exact nextRead_spec h1 turn _
  | WRITE => exact nextWrite_spec h1 turn _

theorem reachable_bounded (h : MemCtrl.Reachable P s) : Bounded P s := by
  induction h with
  | init => exact ⟨Qos.new_counted _,Nat.zero_le _,Nat.zero_le _⟩
  | recvTimingReq s s' curTick schedule defense pkt accepted _ hrun ih => exact (recvTimingReq_spec ih schedule).of_ok hrun
  | processRespondEvent s s' curTick _ hrun ih => exact (processRespondEvent_spec ih).of_ok hrun
  | processNextReqEvent s s' fuel curTick turn _ hrun ih => exact (processNextReqEvent_spec ih turn).of_ok hrun
  | mediaEvent s dram nvm _ ih => exact ⟨ih.counted,ih.read,ih.write⟩

/-- In every state a controller reaches its buffers are not over their sizes, and the packet that arrives next does not
stop at the assertion of a full queue. -/
structure Capacity (P : MemCtrl.Params) : Prop where
  read : ∀ s,MemCtrl.Reachable P s → s.qos.totalQueueSize .READ+s.respQueue.length≤P.readBufferSize
  write : ∀ s,MemCtrl.Reachable P s → s.qos.totalQueueSize .WRITE≤P.writeBufferSize
  asserts : ∀ s,MemCtrl.Reachable P s → ∀ curTick schedule defense pkt,
    recvTimingReq P curTick schedule defense pkt s ≠ .error .readQueueFull ∧
      recvTimingReq P curTick schedule defense pkt s ≠ .error .writeQueueFull

theorem reachable_capacity (P : MemCtrl.Params) : Capacity P := by
  refine ⟨fun s hs => (reachable_bounded hs).read,fun s hs => (reachable_bounded hs).write,fun s hs => ?_⟩
  intro curTick schedule defense pkt
  have hspec : Post (recvTimingReq P curTick schedule defense pkt s) (fun answer => Bounded P answer.2) RoomLeft :=
    recvTimingReq_spec (reachable_bounded hs) schedule
  exact ⟨fun hfault => (hspec.of_error hfault).1 rfl,fun hfault => (hspec.of_error hfault).2 rfl⟩

/-- The loops take a packet apart exactly when the count of its pieces has not overflowed and the histograms of sizes
have a bucket for each piece, and the queues keep to their sizes whatever the count is. -/
theorem splitting (P : MemCtrl.Params) :
    (∀ k addr size,k<32 → 0<size → size<2^32 → (addr+size+2^k-1)/2^k*2^k<2^64 →
      (Countable (2^k) addr size ∧ Splits (2^k) addr size (split (2^k) addr size) ∧
          (∀ p∈split (2^k) addr size,Recorded P.cacheLineSize p.2) ↔
        addr%2^k+size+2^k≤2^32 ∧ (k=0 → size<2^31) ∧
          ∀ b,inBurst (2^k) addr size b≤2^ceilLog2 P.cacheLineSize)) ∧ Capacity P :=
  ⟨fun _ _ _ hk hsize hsize' hend => split_recorded_iff hk hsize hsize' hend _,reachable_capacity P⟩

/-- A packet of 2^32 - 1 bytes from address 63 on touches 2^26 + 1 bursts of 64 bytes; its count is 1. A burst of 128
bytes is one piece, which the histogram of a line of 64 bytes has no bucket for. -/
theorem not_splitting : pktCount 64 63 (2^32-1)=1 ∧ ¬Splits 64 63 (2^32-1) (split 64 63 (2^32-1)) ∧
    split 128 0 128=[(0,128)] ∧ ¬Recorded 64 128 := by
  have hcount : pktCount 64 63 (2^32-1)=1 := by decide
  refine ⟨hcount,fun h => ?_,by decide,by decide⟩
  have hlen:=h.length
  rw [split,pieces_length,hcount] at hlen
  exact absurd hlen (by decide)

def ddr3Ctrl : MemCtrl.Params where
  media _ := ⟨.RoRaBaCoCh,64,8192,1,2,8,65536,id,by decide⟩
  contains isDram _ := isDram
  dram := Dram.ddr3
  nvm := Nvm.nvm 64
  hasNvm := false
  readBufferSize := 32
  writeBufferSize := 64
  writeHighThreshold := 54
  writeLowThreshold := 32
  minWritesPerSwitch := 16
  numPriorities := 1
  qosSyncroScheduler := false
  qosPriorityEscalation := false
  rhDefenseEnable := false
  cacheLineSize := 64
  cacheLine_pos := by decide

theorem splitting_four : Splits 64 100 200 (split 64 100 200) ∧
    ∃ s,MemCtrl.Reachable ddr3Ctrl s ∧ s.qos.totalQueueSize .READ=4 ∧ 4+s.respQueue.length≤32 := by
  obtain ⟨hsplits,hcapacity⟩:=splitting ddr3Ctrl
  refine ⟨((hsplits 6 100 200 (by decide) (by decide) (by decide) (by decide)).mpr
    ⟨by decide,by decide,inBurst_le 64 100 200⟩).2.1,?_⟩
  have hrun : Post (recvTimingReq ddr3Ctrl 0 ⟨0,fun _ => 0,id,0⟩ (fun _ => ⟨0,0⟩) ⟨0,100,200,true,false,false,true,7,0⟩
      (.new ddr3Ctrl)) (fun answer => answer.2.qos.totalQueueSize .READ=4) fun _ => False := by decide
  obtain ⟨⟨accepted,s⟩,hok,hfour⟩:=hrun.returns
  have hs : MemCtrl.Reachable ddr3Ctrl s := .recvTimingReq _ s 0 _ _ _ accepted .init hok
  have hread:=hcapacity.read s hs
  exact ⟨s,hs,hfour,hfour ▸ hread⟩

end Service

end AquaGem5.Controller
