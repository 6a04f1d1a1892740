import AquaGem5.Controller.Waiting

/-!
# The index of the queued writes

The bursts of the packets in the write queues, each counted as often as it occurs, are the elements of the index. So no
burst occurs twice.
-/

namespace AquaGem5.Controller
open Ticks Checked Queues Multiset

namespace MemCtrl

/-- A packet of DRAM that is a part of one burst. Only the defense injects a bubble. -/
structure Whole (P : Params) (memPkt : MemPacket) : Prop where
  dram : memPkt.dram=true
  positive : 0 < memPkt.size
  burst : memPkt.addr/P.burstSize true=(memPkt.addr+memPkt.size-1)/P.burstSize true
  inject : memPkt.rhInjectDelay=true → P.rhDefenseEnable=true

structure Indexed (P : Params) (v : View) : Prop where
  whole : ∀ memPkt∈v.reads+v.writes,Whole P memPkt
  index : v.writes.map (fun memPkt => burstAlign P memPkt.addr true)=v.isInWriteQueue.val

variable {P : Params} {A : List Packet} {s s' : State} {v v' : View} {fuel curTick n : ℕ}
  {defense : MemPacket → Protection} {pkt : Packet} {memPkt : MemPacket} {piece : ℕ × ℕ} {isRead : Bool}

theorem Indexed.allDram (h : Indexed P v) : AllDram v := fun memPkt hin => (h.whole memPkt hin).dram

theorem Indexed.congr (h : Indexed P v) (hreads : v'.reads=v.reads) (hwrites : v'.writes=v.writes)
    (hindex : v'.isInWriteQueue=v.isInWriteQueue) : Indexed P v' :=
  ⟨hreads ▸ hwrites ▸ h.whole,by rw [hwrites,hindex]; exact h.index⟩

def Part (P : Params) (piece : ℕ × ℕ) : Prop :=
  0<piece.2 ∧ piece.1/P.burstSize true=(piece.1+piece.2-1)/P.burstSize true

theorem PieceOf.whole (h : PieceOf P pkt piece isRead memPkt) (hpart : Part P piece) : Whole P (Qos.forgetQos memPkt) where
  dram := h.dram
  positive := h.size ▸ hpart.1
  burst := by
    rw [Qos.forgetQos,h.addr,h.size]
    exact hpart.2
  inject := h.inject

/-! ### A packet that arrives -/

theorem Indexed.write (h : Indexed P v) (hpiece : PieceOf P pkt piece isRead memPkt) (hpart : Part P piece)
    (hout : burstAlign P piece.1 true∉v.isInWriteQueue) (hreads : v'.reads=v.reads)
    (hwrites : v'.writes=Qos.forgetQos memPkt ::ₘ v.writes)
    (hindex : v'.isInWriteQueue=insert (burstAlign P piece.1 true) v.isInWriteQueue) : Indexed P v' := by
  constructor
  · intro memPkt' hin
    rw [hreads,hwrites,add_cons] at hin
    cases mem_cons.mp hin with
    | inl heq => exact heq ▸ hpiece.whole hpart
    | inr hin => exact h.whole memPkt' hin
  · have haddr : (Qos.forgetQos memPkt).addr=piece.1 := hpiece.addr
    rw [hwrites,hindex,map_cons,h.index,haddr,Finset.insert_val_of_notMem hout]

theorem Indexed.read (h : Indexed P v) (hpiece : PieceOf P pkt piece isRead memPkt) (hpart : Part P piece)
    (hreads : v'.reads=Qos.forgetQos memPkt ::ₘ v.reads) (hwrites : v'.writes=v.writes)
    (hindex : v'.isInWriteQueue=v.isInWriteQueue) : Indexed P v' := by
  constructor
  · intro memPkt' hin
    rw [hreads,hwrites,cons_add] at hin
    cases mem_cons.mp hin with
    | inl heq => exact heq ▸ hpiece.whole hpart
    | inr hin => exact h.whole memPkt' hin
  · rw [hwrites,hindex]
    exact h.index

theorem addWritePiece_indexed (h : Indexed P (s.view n)) (hprio : pkt.qosValue<n) (hpart : Part P piece) :
    Post (addWritePiece P curTick defense true pkt s piece) (fun s' => Indexed P (s'.view n)) := by
  refine (addWritePiece_view hprio piece).forget fun s' hs' => ?_
  rcases hs' with ⟨_,hview⟩ | ⟨hout,memPkt,hpiece,hview⟩
  · rw [hview]
    exact h
  · rw [hview]
    exact h.write hpiece hpart hout rfl rfl rfl

theorem addReadPiece_indexed {loop : ReadLoop} (h : Indexed P (loop.s.view n)) (hprio : pkt.qosValue<n) (pktCount : ℕ)
    (hpart : Part P piece) :
    Post (addReadPiece P curTick defense true pkt pktCount loop piece) (fun loop' => Indexed P (loop'.s.view n)) := by
  refine (addReadPiece_view hprio pktCount loop piece).forget fun loop' hloop' => ?_
  rcases hloop' with ⟨_,heq⟩ | ⟨_,memPkt,hjoined⟩
  · rw [heq]
    exact h
  · rw [hjoined.view]
    exact h.read hjoined.piece hpart rfl rfl rfl

theorem part_of_mem (hP : P.DramOnly) (hpkt : pkt.InMemory) (hsize : pkt.size≠0) :
    ∀ piece∈pieces (P.burstSize true) pkt.addr pkt.size (pktCount (P.burstSize true) pkt.addr pkt.size) pkt.addr,
      Part P piece := by
  obtain ⟨k,hk,hburst⟩:=hP.burst
  have hpos:=Nat.pos_of_ne_zero hsize
  have hcount : pktCount (2^k) pkt.addr pkt.size≤Tiling.cuts (2^k) pkt.addr (pkt.addr+pkt.size) := by
    rw [pktCount_eq k pkt.addr hpos,Tiling.cuts_eq (Nat.two_pow_pos k)]
    exact Nat.div_le_div_right (Nat.mod_le _ _)
  intro piece hin
  rw [hburst] at hin
  rw [Part,hburst]
  exact pieces_part hk rfl hpkt.end_lt (by omega) hcount piece hin

theorem addToWriteQueue_indexed (hP : P.DramOnly) (hpkt : pkt.InMemory) (hsize : pkt.size≠0) (hprio : pkt.qosValue<n)
    (h : Indexed P (s.view n)) :
    Post (addToWriteQueue P curTick defense true pkt (pktCount (P.burstSize true) pkt.addr pkt.size) s)
      (fun s' => Indexed P (s'.view n)) := by
  have hparts:=part_of_mem hP hpkt hsize
  rw [addToWriteQueue]
  simp only [post_bind,partly_check,post_pure]
  intro _ _
  refine Post.mono (Post.foldlM (I := fun s' : State => Indexed P (s'.view n)) h fun s1 h1 piece hin =>
    addWritePiece_indexed h1 hprio (hparts piece hin)) (fun s1 h1 => ?_) fun _ _ => trivial
  exact h1.congr rfl rfl rfl

theorem addToReadQueue_indexed (hP : P.DramOnly) (hpkt : pkt.InMemory) (hsize : pkt.size≠0) (hprio : pkt.qosValue<n)
    (h : Indexed P (s.view n)) :
    Post (addToReadQueue P curTick defense true pkt (pktCount (P.burstSize true) pkt.addr pkt.size) s)
      (fun s' => Indexed P (s'.view n)) := by
  have hparts:=part_of_mem hP hpkt hsize
  rw [addToReadQueue]
  simp only [post_bind,partly_check]
  intro _ _ _
  refine Post.mono (Post.foldlM (I := fun loop : ReadLoop => Indexed P (loop.s.view n)) h fun loop h1 piece hin =>
    addReadPiece_indexed h1 hprio _ (hparts piece hin)) (fun loop hloop => ?_) fun _ _ => trivial
  rw [post_ite]
  refine ⟨fun _ => hloop.congr rfl rfl rfl,fun _ => ?_⟩
  cases loop.burstHelper with
  | none => exact hloop
  | some i => exact hloop.congr rfl rfl rfl

theorem Arrived.indexed {accepted : Bool} (h : Arrived P curTick defense pkt s accepted s') (hP : P.DramOnly)
    (hpkt : pkt.InMemory) (hs : Indexed P (s.view P.numPriorities)) : Indexed P (s'.view P.numPriorities) := by
  cases h with
  | refused _ h => exact h ▸ hs
  | write s1 _ prio hview hprio hsize h =>
    have hpkt' : ({pkt with qosValue := prio} : Packet).InMemory := ⟨hpkt.size_lt,hpkt.end_lt⟩
    exact (addToWriteQueue_indexed hP hpkt' hsize hprio (hview ▸ hs)).of_ok h
  | read s1 _ prio hview hprio hsize h =>
    have hpkt' : ({pkt with qosValue := prio} : Packet).InMemory := ⟨hpkt.size_lt,hpkt.end_lt⟩
    exact (addToReadQueue_indexed hP hpkt' hsize hprio (hview ▸ hs)).of_ok h

/-! ### Packets that are served -/

theorem serviced_view (s : State) (memPkt : MemPacket) : (s.serviced memPkt).view n={s.view n with
    burstHelpers := (s.serviced memPkt).burstHelpers
    responses := (s.serviced memPkt).responses} := by
  unfold State.serviced
  cases memPkt.burstHelper with
  | none => rfl
  | some i =>
    dsimp only
    split <;> rfl

theorem Turned.indexed (h : Turned P n fuel curTick s s') (hs : Indexed P (s.view n)) : Indexed P (s'.view n) := by
  cases h with
  | none h => exact h ▸ hs
  | read s0 memPkt served h =>
    refine ⟨fun memPkt' hin => hs.whole memPkt' ?_,?_⟩
    · rw [h.view] at hin
      rw [h.reads,cons_add]
      exact mem_cons_of_mem hin
    · rw [h.view]
      exact hs.index
  | write s0 memPkt served h =>
    have hindex:=hs.index
    rw [h.writes,map_cons] at hindex
    refine ⟨fun memPkt' hin => hs.whole memPkt' ?_,?_⟩
    · rw [h.view] at hin
      rw [h.writes,add_cons]
      exact mem_cons_of_mem hin
    · rw [h.view]
      dsimp only
      rw [Finset.erase_val,← hindex]
      exact (erase_cons_head _ _).symm

/-! ### Runs -/

theorem Run.indexed (hP : P.DramOnly) (h : Run P A s) : Indexed P (s.view P.numPriorities) := by
  induction h with
  | init =>
    have hempty : ((State.new P).view P.numPriorities).reads+((State.new P).view P.numPriorities).writes=0 :=
      congrArg₂ (·+·) (Qos.new_contents _ .READ) (Qos.new_contents _ .WRITE)
    refine ⟨fun memPkt hin => ?_,congrArg (map _) (Qos.new_contents _ .WRITE)⟩
    rw [hempty] at hin
    exact absurd hin (notMem_zero memPkt)
  | recvTimingReq A s s' curTick schedule defense pkt accepted _ hpkt hrun ih =>
    exact ((recvTimingReq_view hP schedule s).of_ok hrun).indexed hP hpkt ih
  | processRespondEvent A s s' curTick _ _ hrun ih =>
    obtain ⟨memPkt,rest,_,hview⟩:=(processRespondEvent_view s).of_ok hrun
    rw [hview,serviced_view]
    exact ih.congr rfl rfl rfl
  | processNextReqEvent A s s' fuel curTick turn _ hrun ih =>
    exact ((processNextReqEvent_view hP ih.allDram turn).of_ok hrun).indexed ih
  | mediaEvent A s dram nvm _ ih => exact ih

theorem Run.reachable (h : Run P A s) : MemCtrl.Reachable P s := by
  induction h with
  | init => exact .init
  | recvTimingReq A s s' curTick schedule defense pkt accepted _ _ hrun ih =>
    exact .recvTimingReq s s' curTick schedule defense pkt accepted ih hrun
  | processRespondEvent A s s' curTick _ _ hrun ih => exact .processRespondEvent s s' curTick ih hrun
  | processNextReqEvent A s s' fuel curTick turn _ hrun ih => exact .processNextReqEvent s s' fuel curTick turn ih hrun
  | mediaEvent A s dram nvm _ ih => exact .mediaEvent s dram nvm ih

/-- The index and the counter are what the write queues hold, no two queued writes are of one burst, and every queued
packet is a part of one burst. -/
structure WriteIndex (P : Params) (s : State) : Prop where
  index : ∀ addr,addr∈s.isInWriteQueue ↔
    ∃ prio<P.numPriorities,∃ memPkt∈s.qos.queue .WRITE prio,burstAlign P memPkt.addr true=addr
  unique : ((queued P.numPriorities (s.qos.queue .WRITE)).map fun memPkt => burstAlign P memPkt.addr true).Nodup
  burst : ∀ dir,∀ prio<P.numPriorities,∀ memPkt∈s.qos.queue dir prio,
    0 < memPkt.size ∧ memPkt.addr/P.burstSize true=(memPkt.addr+memPkt.size-1)/P.burstSize true
  card : s.qos.totalQueueSize .WRITE=s.isInWriteQueue.card
  length : s.qos.totalQueueSize .WRITE=(queued P.numPriorities (s.qos.queue .WRITE)).length

theorem Indexed.bursts (h : Indexed P (s.view n)) :
    ((queued n (s.qos.queue .WRITE)).map fun memPkt => burstAlign P memPkt.addr true : Multiset ℕ)=s.isInWriteQueue.val := by
  have hindex:=h.index
  rw [State.view] at hindex
  dsimp only at hindex
  rw [Qos.contents,map_map] at hindex
  exact hindex

theorem write_index (hP : P.DramOnly) (h : Run P A s) : WriteIndex P s := by
  have hs:=h.indexed hP
  have hbursts:=hs.bursts
  have hlength : s.qos.totalQueueSize .WRITE=(queued P.numPriorities (s.qos.queue .WRITE)).length :=
    (reachable_bounded h.reachable).counted .WRITE
  refine ⟨fun addr => ?_,?_,fun dir prio hprio memPkt hin => ?_,?_,hlength⟩
  · rw [← Finset.mem_val,← hbursts,Multiset.mem_coe,List.mem_map]
    simp only [mem_queued]
    constructor
    · rintro ⟨memPkt,⟨prio,hprio,hin⟩,haddr⟩
      exact ⟨prio,hprio,memPkt,hin,haddr⟩
    · rintro ⟨prio,hprio,memPkt,hin,haddr⟩
      exact ⟨memPkt,⟨prio,hprio,hin⟩,haddr⟩
  · rw [← Multiset.coe_nodup,hbursts]
    exact s.isInWriteQueue.nodup
  · obtain ⟨k,hk⟩:=List.mem_iff_getElem?.mp hin
    have hwhole : Whole P (Qos.forgetQos memPkt) := by
      refine hs.whole _ (Multiset.mem_add.mpr ?_)
      cases dir with
      | READ => exact .inl (mem_contents hprio hk)
      | WRITE => exact .inr (mem_contents hprio hk)
    exact ⟨hwhole.positive,hwhole.burst⟩
  · have hcard:=congrArg Multiset.card hbursts
    rw [Multiset.coe_card,List.length_map] at hcard
    exact hlength.trans hcard

theorem ddr3Ctrl_dramOnly : ddr3Ctrl.DramOnly := ⟨rfl,fun _ => rfl,6,by decide,rfl⟩

theorem write_index_four : ∃ s,Run ddr3Ctrl [⟨0,100,200,false,true,false,true,7,0⟩] s ∧
    s.qos.totalQueueSize .WRITE=4 ∧ s.isInWriteQueue.card=4 := by
  have hrun : Post (recvTimingReq ddr3Ctrl 0 ⟨0,fun _ => 0,id,0⟩ (fun _ => ⟨0,0⟩) ⟨0,100,200,false,true,false,true,7,0⟩
      (.new ddr3Ctrl)) (fun answer => answer.1=true ∧ answer.2.qos.totalQueueSize .WRITE=4) fun _ => False := by decide
  obtain ⟨⟨accepted,s⟩,hok,htrue,hfour⟩:=hrun.returns
  dsimp only at htrue
  subst htrue
  have hs : Run ddr3Ctrl [⟨0,100,200,false,true,false,true,7,0⟩] s :=
    .recvTimingReq [] _ s 0 _ _ _ true .init ⟨by decide,by decide⟩ hok
  have hindex:=write_index ddr3Ctrl_dramOnly hs
  exact ⟨s,hs,hfour,hindex.card ▸ hfour⟩

end MemCtrl

end AquaGem5.Controller
