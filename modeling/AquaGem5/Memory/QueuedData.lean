import AquaGem5.Memory.Functional

/-!
# Functional reads of queued packets (packet_queue.cc, bridge.cc)

The loops over the packets of a `PacketQueue` and of a port of a `Bridge` are the same: they go from the front, and stop
when the access is satisfied.
-/

namespace AquaGem5.Memory.Functional
open List Bool
open Cache (MemCmd)
open Overlay

/-- A packet in the list, with the number of its insertion. `masked` is that of the request. -/
structure DeferredPacket where
  pkt : Packet
  masked : Bool
  order : ℕ

def DeferredPacket.isMaskedWrite (q : DeferredPacket) : Bool := decide (q.pkt.cmd = .writeReq)&&q.masked

/-- `trySatisfyFunctional(PacketPtr other)`, with the packet and the data of `other` afterwards. -/
def Packet.trySatisfy (pkt : Packet) (other : DeferredPacket) : Except Fault (Bool × Packet × Option (List Byte)) :=
  if other.isMaskedWrite then .ok (false,pkt,none)
  else pkt.trySatisfyFunctional other.pkt.addr other.pkt.isSecure other.pkt.size
    (if other.pkt.cmd.testCmdAttrib .hasData then some other.pkt.data else none)

/-- The loop: whether the access is satisfied, and the packet. -/
def Packet.trySatisfyList (pkt : Packet) : List DeferredPacket → Except Fault (Bool × Packet)
  | [] => .ok (false,pkt)
  | other::rest =>
    match pkt.trySatisfy other with
    | .error e => .error e
    | .ok (found,pkt,_) => if found then .ok (true,pkt) else pkt.trySatisfyList rest

/-- The data of a queued packet, unless a read passes over it. -/
def DeferredPacket.source (isSecure : Bool) (q : DeferredPacket) : Option (Piece Byte) :=
  if q.isMaskedWrite=false ∧ q.pkt.isSecure=isSecure ∧ q.pkt.cmd.testCmdAttrib .hasData=true then
    some ⟨q.pkt.addr,q.pkt.data⟩
  else none

def DeferredPacket.byteAt (isSecure : Bool) (q : DeferredPacket) (x : ℕ) : Option Byte := (q.source isSecure).bind (·.at? x)

def sources (isSecure : Bool) (queue : List DeferredPacket) : List (Piece Byte) := queue.filterMap (·.source isSecure)

structure WellFormed (pkt : Packet) : Prop where
  fits : Fits pkt.addr pkt.size
  data : pkt.data.length=pkt.size

variable {pkt pkt0 : Packet} {q : DeferredPacket} {done rest queue : List DeferredPacket} {past : List (Piece Byte)}

def Covered (pkt : Packet) (pieces : List (Piece Byte)) : Prop :=
  ∀ i<pkt.size,(latest pieces (pkt.addr+i)).isSome=true

theorem sources_append (isSecure : Bool) (queue queue' : List DeferredPacket) :
    sources isSecure (queue++queue')=sources isSecure queue++sources isSecure queue' := List.filterMap_append

theorem Covered.more {pieces : List (Piece Byte)} (h : Covered pkt pieces) (more : List (Piece Byte)) :
    Covered pkt (pieces++more) := by
  induction more using reverseRecOn with
  | nil => rwa [append_nil]
  | append_singleton more p ih =>
    intro i hi
    rw [← append_assoc,latest_append,Option.isSome_or,ih i hi,Bool.or_true]

theorem trySatisfy_read (h : Assembled pkt0 pkt past) (hread : pkt0.isRead=true) (hpkt : Fits pkt0.addr pkt0.size)
    (hsize : 0<pkt0.size) (hq : WellFormed q.pkt) (hpast : ¬Covered pkt0 past) :
    ∃ found pkt' data,pkt.trySatisfy q = .ok (found,pkt',data) ∧
      Assembled pkt0 pkt' (past++sources pkt0.isSecure [q]) ∧
      (found=true ↔ Covered pkt0 (past++sources pkt0.isSecure [q])) := by
  have hnone : q.source pkt0.isSecure=none → past++sources pkt0.isSecure [q]=past := fun hno => by
    rw [sources,filterMap_cons_none hno,filterMap_nil,append_nil]
  have hread' : pkt.isPrint=false := isPrint_of_isRead (by rwa [Packet.isRead,h.cmd])
  rw [Packet.trySatisfy]
  by_cases hmasked : q.isMaskedWrite=true
  · rw [if_pos hmasked,hnone (if_neg fun hall => absurd hmasked (by rw [hall.1]; exact false_ne_true))]
    exact ⟨false,pkt,none,rfl,h,iff_of_false false_ne_true hpast⟩
  rw [if_neg hmasked]
  by_cases hsecure : q.pkt.isSecure=pkt0.isSecure
  swap
  · rw [hnone (if_neg fun hall => hsecure hall.2.1)]
    unfold Packet.trySatisfyFunctional
    dsimp only
    rw [if_pos (.inl (by rw [h.isSecure]; exact hsecure))]
    exact ⟨false,pkt,_,rfl,h,iff_of_false false_ne_true hpast⟩
  by_cases hdata : q.pkt.cmd.testCmdAttrib .hasData=true
  · have hsource : q.source pkt0.isSecure=some ⟨q.pkt.addr,q.pkt.data⟩ :=
      if_pos ⟨eq_false_iff.mpr hmasked,hsecure,hdata⟩
    have hsources : sources pkt0.isSecure [q]=[⟨q.pkt.addr,q.pkt.data⟩] := by
      rw [sources,filterMap_cons_some hsource,filterMap_nil]
    have hfits : Fits q.pkt.addr q.pkt.data.length := hq.data ▸ hq.fits
    obtain ⟨found,pkt',hoffer,hassembled,hfound⟩:=h.offer (p := ⟨q.pkt.addr,q.pkt.data⟩) hread hpkt hsize hfits
    rw [Packet.offer] at hoffer
    rw [if_pos hdata,hsecure,← hq.data,hsources]
    refine ⟨found,pkt',_,hoffer,hassembled,hfound.trans ⟨And.right,fun hcover => ⟨?_,hcover⟩⟩⟩
    by_contra hmeets
    refine hpast fun i hi => ?_
    have hcovered:=hcover i hi
    rwa [latest_append,at?_of_not_meets hmeets hi,Option.none_or] at hcovered
  · rw [if_neg hdata,hnone (if_neg fun hall => hdata hall.2.2),Packet.trySatisfyFunctional]
    rw [hread']
    refine ⟨false,pkt,none,?_,h,iff_of_false false_ne_true hpast⟩
    split <;> rfl

theorem trySatisfyList_pass (hread : pkt0.isRead=true) (hpkt : Fits pkt0.addr pkt0.size) (hsize : 0<pkt0.size)
    (h : Assembled pkt0 pkt past) (hdone : ∀ q∈done,WellFormed q.pkt)
    (hcover : ¬Covered pkt0 (past++sources pkt0.isSecure done)) (rest : List DeferredPacket) :
    ∃ pkt',Assembled pkt0 pkt' (past++sources pkt0.isSecure done) ∧
      pkt.trySatisfyList (done++rest)=pkt'.trySatisfyList rest := by
  induction done generalizing pkt past with
  | nil => exact ⟨pkt,by rwa [sources,filterMap_nil,append_nil],rfl⟩
  | cons q done ih =>
    have hsplit : past++sources pkt0.isSecure (q::done) =
        past++sources pkt0.isSecure [q]++sources pkt0.isSecure done := by
      rw [append_assoc,← sources_append]
      rfl
    rw [hsplit] at hcover ⊢
    obtain ⟨found,pkt',data,hcall,hassembled,hfound⟩:=trySatisfy_read h hread hpkt hsize
      (hdone q (mem_cons_self ..)) fun hpast => hcover ((hpast.more _).more _)
    have hno : found=false := eq_false_iff.mpr fun hyes => hcover ((hfound.mp hyes).more _)
    rw [cons_append,Packet.trySatisfyList,hcall,hno]
    exact ih hassembled (fun q' hq' => hdone q' (mem_cons_of_mem _ hq')) hcover

def Completes (pkt : Packet) (done : List DeferredPacket) (q : DeferredPacket) : Prop :=
  ¬Covered pkt (sources pkt.isSecure done) ∧ Covered pkt (sources pkt.isSecure (done++[q]))

/-- The last one of the packets that contain a byte of the read to be queued. -/
def Newest (pkt : Packet) (queue : List DeferredPacket) (i : ℕ) (q : DeferredPacket) : Prop :=
  q∈queue ∧ (q.byteAt pkt.isSecure (pkt.addr+i)).isSome=true ∧
    ∀ q'∈queue,(q'.byteAt pkt.isSecure (pkt.addr+i)).isSome=true → q'.order≤q.order

def SeesNewest (pkt : Packet) (queue : List DeferredPacket) : Prop :=
  ∃ found pkt',pkt.trySatisfyList queue = .ok (found,pkt') ∧
    (found=true → ∀ i<pkt.size,∀ q,Newest pkt queue i q → pkt'.data[i]?=q.byteAt pkt.isSecure (pkt.addr+i))

/-- Of the packets up to the one that completes the cover, the last in the list with a byte has the value that the newest
packet of the queue has for it. -/
def UpToDate (pkt : Packet) (queue : List DeferredPacket) : Prop :=
  ∀ done q rest,queue=done++q::rest → Completes pkt done q → ∀ i<pkt.size,∀ p,Newest pkt queue i p →
    latest (sources pkt.isSecure (done++[q])) (pkt.addr+i)=p.byteAt pkt.isSecure (pkt.addr+i)

theorem completes_of_covered (hno : ¬Covered pkt (sources pkt.isSecure done))
    (h : Covered pkt (sources pkt.isSecure (done++rest))) :
    ∃ done' q rest',done++rest=done'++q::rest' ∧ Completes pkt done' q := by
  induction rest generalizing done with
  | nil => exact absurd (by rwa [append_nil] at h) hno
  | cons q rest ih =>
    by_cases hnext : Covered pkt (sources pkt.isSecure (done++[q]))
    · exact ⟨done,q,rest,rfl,hno,hnext⟩
    · obtain ⟨done',q',rest',hsplit,hcompletes⟩:=ih hnext (by rwa [append_assoc])
      exact ⟨done',q',rest',by rw [← hsplit,append_assoc]; rfl,hcompletes⟩

/-- A functional read sees the newest data exactly if the packets behind the one that satisfies it change nothing. -/
theorem seesNewest_iff (pkt : Packet) (queue : List DeferredPacket) (hread : pkt.isRead=true)
    (hvalid : pkt.bytesValid=[]) (hsize : 0<pkt.size) (hpkt : WellFormed pkt) (hqueue : ∀ q∈queue,WellFormed q.pkt) :
    SeesNewest pkt queue ↔ UpToDate pkt queue := by
  have hstart:=Assembled.start hpkt.data hvalid
  have hempty : ¬Covered pkt (sources pkt.isSecure []) := fun hcover => by cases hcover 0 hsize
  have hcompleted : ∀ done q rest,queue=done++q::rest → Completes pkt done q →
      ∃ pkt',pkt.trySatisfyList queue = .ok (true,pkt') ∧
        Assembled pkt pkt' (sources pkt.isSecure (done++[q])) := fun done q rest hq hcompletes => by
    rw [hq] at hqueue ⊢
    obtain ⟨hno,hyes⟩:=hcompletes
    obtain ⟨pkt1,h1,hpass⟩:=trySatisfyList_pass hread hpkt.fits hsize hstart
      (fun q' hq' => hqueue q' (List.mem_append_left _ hq')) hno (q::rest)
    obtain ⟨found,pkt',data,hcall,hassembled,hfound⟩:=trySatisfy_read h1 hread hpkt.fits hsize
      (hqueue q (List.mem_append_right _ (List.mem_cons_self ..))) hno
    rw [List.nil_append,← sources_append] at hfound hassembled
    refine ⟨pkt',?_,hassembled⟩
    rw [hpass,Packet.trySatisfyList,hcall,hfound.mpr hyes]
    rfl
  have hbytes : ∀ {done q pkt'},Completes pkt done q → Assembled pkt pkt' (sources pkt.isSecure (done++[q])) →
      ∀ i<pkt.size,pkt'.data[i]?=latest (sources pkt.isSecure (done++[q])) (pkt.addr+i) :=
    fun hcompletes hassembled i hi => by
      rw [hassembled.data i (hassembled.size ▸ hi),hassembled.addr,Option.or_of_isSome (hcompletes.2 i hi)]
  by_cases hcover : Covered pkt (sources pkt.isSecure queue)
  · constructor
    · rintro ⟨found,pkt',hcall,hnewest⟩ done q rest hq hcompletes i hi p hp
      obtain ⟨pkt1,hcall1,hassembled⟩:=hcompleted done q rest hq hcompletes
      obtain ⟨rfl,rfl⟩:=Prod.mk.inj (Except.ok.inj (hcall.symm.trans hcall1))
      rw [← hbytes hcompletes hassembled i hi]
      exact hnewest rfl i hi p hp
    · intro h
      obtain ⟨done,q,rest,hq,hcompletes⟩:=completes_of_covered hempty hcover
      obtain ⟨pkt',hcall,hassembled⟩:=hcompleted done q rest hq hcompletes
      refine ⟨true,pkt',hcall,fun _ i hi p hp => ?_⟩
      rw [hbytes hcompletes hassembled i hi]
      exact h done q rest hq hcompletes i hi p hp
  · obtain ⟨pkt',_,hpass⟩:=trySatisfyList_pass hread hpkt.fits hsize hstart hqueue hcover []
    rw [List.append_nil] at hpass
    refine iff_of_true ⟨false,pkt',hpass,fun hno => absurd hno Bool.false_ne_true⟩ fun done q rest hq hcompletes => ?_
    have hsplit : sources pkt.isSecure queue=sources pkt.isSecure (done++[q])++sources pkt.isSecure rest := by
      rw [← sources_append,hq,List.append_assoc]
      rfl
    exact absurd (hsplit ▸ hcompletes.2.more _) hcover

def queuedByte (value : Byte) (order : ℕ) : DeferredPacket :=
  ⟨{oneByte with cmd := .writeReq, data := [value]},false,order⟩

theorem queuedByte_wellFormed (value : Byte) (order : ℕ) : WellFormed (queuedByte value order).pkt :=
  ⟨⟨Nat.lt_succ_self 0,(by decide : 0+1≤2^64)⟩,rfl⟩

/-- The packet that is found first is the newer one. -/
theorem seesNewest_iff_two : SeesNewest oneByte [queuedByte 5 1,queuedByte 7 0] ∧
    UpToDate oneByte [queuedByte 5 1,queuedByte 7 0] := by
  have hsees : SeesNewest oneByte [queuedByte 5 1,queuedByte 7 0] := by
    refine ⟨_,_,rfl,fun _ i hi q hq => ?_⟩
    obtain rfl : i=0 := Nat.lt_one_iff.mp hi
    rcases List.mem_cons.mp hq.1 with rfl | hold
    · rfl
    · obtain rfl:=List.mem_singleton.mp hold
      exact absurd (hq.2.2 (queuedByte 5 1) (List.mem_cons_self ..) rfl) (by decide)
  refine ⟨hsees,(seesNewest_iff oneByte _ rfl rfl (by decide) ⟨⟨by decide,by decide⟩,rfl⟩ fun q hq => ?_).mp hsees⟩
  rcases List.mem_cons.mp hq with rfl | hq
  · exact queuedByte_wellFormed 5 1
  · exact List.mem_singleton.mp hq ▸ queuedByte_wellFormed 7 0

/-- The read has the byte of the older packet. -/
theorem not_seesNewest : ¬SeesNewest oneByte [queuedByte 7 0,queuedByte 5 1] := by
  rintro ⟨found,pkt',hcall,hnewest⟩
  obtain ⟨rfl,rfl⟩:=Prod.mk.inj (Except.ok.inj hcall)
  have hbyte:=hnewest rfl 0 (by decide) (queuedByte 5 1) ⟨by simp,rfl,fun q hq _ => ?_⟩
  · exact absurd hbyte (by decide)
  · rcases List.mem_cons.mp hq with rfl | hq
    · exact Nat.zero_le 1
    · exact List.mem_singleton.mp hq ▸ le_refl _

end AquaGem5.Memory.Functional
