import AquaGem5.Lib.Checked
import Mathlib.Algebra.Order.Group.Nat

/-!
# The DMA sequencer (ruby/system/DMASequencer.cc)

A packet has the number of its request. The mandatory queue holds every message since the start.
-/

namespace AquaGem5.Ruby
open Checked Function List

namespace DMASequencer

inductive Fault where
  | assertion

inductive RequestStatus where
  | BufferFull
  | Aliased
  | Issued

inductive SequencerRequestType where
  | LD
  | ST
  deriving DecidableEq

structure Packet where
  addr : ℕ
  size : ℕ
  isWrite : Bool
  data : Option (List UInt8)
  size_pos : 0<size
  data_length : ∀ d∈data,d.length=size

structure DMARequest where
  start_paddr : ℕ
  len : ℕ
  write : Bool
  bytes_completed : ℕ
  bytes_issued : ℕ
  data : Option (List UInt8)
  pkt : ℕ

structure SequencerMsg where
  PhysicalAddress : ℕ
  LineAddress : ℕ
  RequestType : SequencerRequestType
  Len : ℕ
  DataBlk : List UInt8
  deriving DecidableEq

end DMASequencer

open DMASequencer

structure DMASequencer where
  m_RequestTable : ℕ → Option DMARequest
  m_outstanding_count : ℤ
  m_max_outstanding_requests : ℤ
  mandatory_q : List SequencerMsg
  /-- The packets of `ruby_hit_callback`, with their data then. -/
  hits : List (ℕ × Option (List UInt8))

namespace DMASequencer

-- A block has `2 ^ P` bytes.
variable (P : ℕ)

def makeLineAddress (addr : ℕ) : ℕ := addr >>> P <<< P

def m_data_block_mask : ℕ := 2^P-1

def copy (dst : List UInt8) (offset : ℕ) (src : List UInt8) : List UInt8 :=
  dst.take offset++src++dst.drop (offset+src.length)

/-- A block that bytes of the packet are set in. -/
def setData (data : Option (List UInt8)) (from_ offset len : ℕ) : List UInt8 :=
  match data with
  | none => List.replicate (2^P) 0
  | some d => copy (List.replicate (2^P) 0) offset ((d.drop from_).take len)

def makeRequest (s : DMASequencer) (pkt : Packet) (id : ℕ) : Except Fault (RequestStatus × DMASequencer) :=
  if s.m_outstanding_count=s.m_max_outstanding_requests then return (.BufferFull,s)
  else do
    check (s.m_outstanding_count<s.m_max_outstanding_requests) .assertion
    let line_addr := makeLineAddress P pkt.addr
    match s.m_RequestTable line_addr with
    | some _ => return (.Aliased,s)
    | none =>
      let offset := pkt.addr &&& m_data_block_mask P
      let len := if offset+pkt.size≤2^P then pkt.size else 2^P-offset
      let msg : SequencerMsg :=
        { PhysicalAddress := pkt.addr
          LineAddress := line_addr
          RequestType := if pkt.isWrite then .ST else .LD
          Len := len
          DataBlk := if pkt.isWrite then setData P pkt.data 0 offset len else setData P none 0 0 0}
      return (.Issued,{s with
        m_RequestTable := Function.update s.m_RequestTable line_addr
          (some ⟨pkt.addr,pkt.size,pkt.isWrite,0,len,pkt.data,id⟩)
        m_outstanding_count := s.m_outstanding_count+1
        mandatory_q := s.mandatory_q++[msg]})

def issueNext (s : DMASequencer) (address : ℕ) : Except Fault DMASequencer :=
  match s.m_RequestTable address with
  | none => .error .assertion
  | some i => do
    check (s.m_outstanding_count ≤ s.m_max_outstanding_requests) .assertion
    let active_request := {i with bytes_completed := i.bytes_issued}
    if active_request.len=active_request.bytes_completed then
      return {s with
        m_outstanding_count := s.m_outstanding_count-1
        m_RequestTable := Function.update s.m_RequestTable address none
        hits := s.hits++[(active_request.pkt,active_request.data)]}
    else
      let physicalAddress := (active_request.start_paddr+active_request.bytes_completed)%2^64
      check (physicalAddress &&& m_data_block_mask P=0) .assertion
      let left := active_request.len-active_request.bytes_completed
      let len := if left<2^P then left else 2^P
      let msg : SequencerMsg :=
        { PhysicalAddress := physicalAddress
          LineAddress := makeLineAddress P physicalAddress
          RequestType := if active_request.write then .ST else .LD
          Len := len
          DataBlk :=
            if active_request.write then setData P active_request.data active_request.bytes_completed 0 len
            else setData P none 0 0 0}
      return {s with
        m_RequestTable := Function.update s.m_RequestTable address
          (some {active_request with bytes_issued := active_request.bytes_issued+len})
        mandatory_q := s.mandatory_q++[msg]}

def dataCallback (s : DMASequencer) (dblk : List UInt8) (address : ℕ) : Except Fault DMASequencer :=
  match s.m_RequestTable address with
  | none => .error .assertion
  | some active_request => do
    let len := active_request.bytes_issued-active_request.bytes_completed
    let offset := if active_request.bytes_completed=0 then active_request.start_paddr &&& m_data_block_mask P else 0
    check (active_request.write=false) .assertion
    check (active_request.data=none ∨ offset+len≤2^P) .assertion
    let data := active_request.data.map fun d => copy d active_request.bytes_completed ((dblk.drop offset).take len)
    issueNext P
      {s with m_RequestTable := Function.update s.m_RequestTable address (some {active_request with data := data})}
      address

def ackCallback (s : DMASequencer) (address : ℕ) : Except Fault DMASequencer := do
  check (s.m_RequestTable address≠none) .assertion
  issueNext P s address

/-- The answer of the protocol to a message. -/
def callback (s : DMASequencer) (msg : SequencerMsg) (dblk : List UInt8) : Except Fault DMASequencer :=
  match msg.RequestType with
  | .LD => s.dataCallback P dblk msg.LineAddress
  | .ST => s.ackCallback P msg.LineAddress

/-- What happened to a request: its messages, those not yet answered, and the answers. -/
structure Job where
  pkt : Packet
  msgs : List SequencerMsg
  pending : List SequencerMsg
  answers : List (SequencerMsg × List UInt8)

def enqueued (s s' : DMASequencer) : List SequencerMsg := s'.mandatory_q.drop s.mandatory_q.length

def Job.answer (job : Job) (msg : SequencerMsg) (dblk : List UInt8) (new : List SequencerMsg) : Job :=
  {job with
    msgs := job.msgs++new
    pending := job.pending.erase msg++new
    answers := job.answers++[(msg,dblk)]}

inductive Run (C : Packet → Prop) : List Job → DMASequencer → Prop
  | init (max : ℕ) : Run C [] ⟨fun _ => none,0,max,[],[]⟩
  | makeRequest (jobs : List Job) (s s' : DMASequencer) (pkt : Packet) : Run C jobs s → C pkt →
      s.makeRequest P pkt jobs.length = .ok (.Issued,s') → Run C (jobs++[⟨pkt,enqueued s s',enqueued s s',[]⟩]) s'
  | answer (jobs : List Job) (s s' : DMASequencer) (r : ℕ) (job : Job) (msg : SequencerMsg) (dblk : List UInt8) :
      Run C jobs s → jobs[r]?=some job → msg∈job.pending → dblk.length=2^P → s.callback P msg dblk = .ok s' →
      Run C (jobs.set r (job.answer msg dblk (enqueued s s'))) s'

/-- The packet was answered once; its messages cover it in order, each within a line, and what was read is in place. -/
structure Answered (s : DMASequencer) (r : ℕ) (job : Job) : Prop where
  covers : (job.msgs.flatMap fun msg => List.range' msg.PhysicalAddress msg.Len)=List.range' job.pkt.addr job.pkt.size
  lines : ∀ msg∈job.msgs,msg.LineAddress=makeLineAddress P msg.PhysicalAddress ∧
    msg.PhysicalAddress+msg.Len ≤ msg.LineAddress+2^P
  once : ∃ data,s.hits.filter (·.1=r)=[(r,data)] ∧ data.isSome=job.pkt.data.isSome ∧
    (job.pkt.isWrite=false → ∀ d∈data,∀ a∈job.answers,∀ j<a.1.Len,
      d[a.1.PhysicalAddress-job.pkt.addr+j]?=a.2[(a.1.PhysicalAddress &&& m_data_block_mask P)+j]?)

structure Complete (C : Packet → Prop) (jobs : List Job) (s : DMASequencer) : Prop where
  requests : ∀ pkt,C pkt → ∃ r,s.makeRequest P pkt jobs.length = .ok r
  callbacks : ∀ (r : ℕ) (job : Job) (msg : SequencerMsg) (dblk : List UInt8),jobs[r]?=some job → msg∈job.pending →
    dblk.length=2^P → ∃ s',s.callback P msg dblk = .ok s'
  answered : ∀ (r : ℕ) (job : Job),jobs[r]?=some job → job.pending=[] → Answered P s r job
  waiting : ∀ (r : ℕ) (job : Job),jobs[r]?=some job → job.pending≠[] → s.hits.filter (·.1=r)=[]
  count : s.m_outstanding_count=jobs.countP (·.pending≠[])

def Within (pkt : Packet) : Prop := (pkt.addr &&& m_data_block_mask P)+pkt.size≤2^P

def message (pkt : Packet) : SequencerMsg :=
  { PhysicalAddress := pkt.addr
    LineAddress := makeLineAddress P pkt.addr
    RequestType := if pkt.isWrite then .ST else .LD
    Len := pkt.size
    DataBlk := if pkt.isWrite then setData P pkt.data 0 (pkt.addr &&& m_data_block_mask P) pkt.size else setData P none 0 0 0}

def request (pkt : Packet) (id : ℕ) : DMARequest := ⟨pkt.addr,pkt.size,pkt.isWrite,0,pkt.size,pkt.data,id⟩

def received (pkt : Packet) (dblk : List UInt8) : Option (List UInt8) :=
  if pkt.isWrite then pkt.data
  else pkt.data.map fun d => copy d 0 ((dblk.drop (pkt.addr &&& m_data_block_mask P)).take pkt.size)

structure Fits (s : DMASequencer) (r : ℕ) (job : Job) : Prop where
  within : Within P job.pkt
  msgs : job.msgs=[message P job.pkt]
  served : (job.pending=[message P job.pkt] ∧ job.answers=[] ∧ s.hits.filter (·.1=r)=[] ∧
      s.m_RequestTable (makeLineAddress P job.pkt.addr)=some (request job.pkt r)) ∨
    (job.pending=[] ∧ ∃ dblk,dblk.length=2^P ∧ job.answers=[(message P job.pkt,dblk)] ∧
      s.hits.filter (·.1=r)=[(r,received P job.pkt dblk)])

structure Inv (jobs : List Job) (s : DMASequencer) : Prop where
  fits : ∀ r job,jobs[r]?=some job → Fits P s r job
  hits : ∀ hit∈s.hits,hit.1<jobs.length
  count : s.m_outstanding_count=jobs.countP (·.pending≠[])
  bound : s.m_outstanding_count ≤ s.m_max_outstanding_requests

variable {P} {C : Packet → Prop} {jobs : List Job} {s s' : DMASequencer} {pkt : Packet} {job : Job} {r : ℕ} {dblk : List UInt8}

theorem line_add_offset (addr : ℕ) : makeLineAddress P addr+(addr &&& m_data_block_mask P)=addr := by
  rw [makeLineAddress,m_data_block_mask,Nat.and_two_pow_sub_one_eq_mod,Nat.shiftRight_eq_div_pow,Nat.shiftLeft_eq]
  exact Nat.div_add_mod' addr (2^P)

def issue (P : ℕ) (s : DMASequencer) (pkt : Packet) (id : ℕ) : DMASequencer :=
  {s with
    m_RequestTable := Function.update s.m_RequestTable (makeLineAddress P pkt.addr) (some (request pkt id))
    m_outstanding_count := s.m_outstanding_count+1
    mandatory_q := s.mandatory_q++[message P pkt]}

def finish (P : ℕ) (s : DMASequencer) (pkt : Packet) (id : ℕ) (dblk : List UInt8) : DMASequencer :=
  {s with
    m_outstanding_count := s.m_outstanding_count-1
    m_RequestTable := Function.update s.m_RequestTable (makeLineAddress P pkt.addr) none
    hits := s.hits++[(id,received P pkt dblk)]}

theorem makeRequest_eq (hwithin : Within P pkt) (hbound : s.m_outstanding_count ≤ s.m_max_outstanding_requests) (id : ℕ) :
    s.makeRequest P pkt id = .ok (.BufferFull,s) ∨ s.makeRequest P pkt id = .ok (.Aliased,s) ∨
      (s.m_RequestTable (makeLineAddress P pkt.addr)=none ∧ s.m_outstanding_count<s.m_max_outstanding_requests ∧
        s.makeRequest P pkt id = .ok (.Issued,issue P s pkt id)) := by
  unfold makeRequest
  by_cases hfull : s.m_outstanding_count=s.m_max_outstanding_requests
  · exact .inl (if_pos hfull)
  · have hlt:=lt_of_le_of_ne hbound hfull
    rw [if_neg hfull,check,if_pos hlt]
    simp only [bind,Except.bind]
    cases hentry : s.m_RequestTable (makeLineAddress P pkt.addr) with
    | some i => exact .inr (.inl rfl)
    | none =>
      refine .inr (.inr ⟨rfl,hlt,?_⟩)
      have hlen : (if (pkt.addr &&& m_data_block_mask P)+pkt.size≤2^P then pkt.size
          else 2^P-(pkt.addr &&& m_data_block_mask P))=pkt.size := if_pos hwithin
      simp only [hlen]
      rfl

theorem callback_eq (hwithin : Within P pkt) (hbound : s.m_outstanding_count ≤ s.m_max_outstanding_requests)
    (hentry : s.m_RequestTable (makeLineAddress P pkt.addr)=some (request pkt r)) (dblk : List UInt8) :
    s.callback P (message P pkt) dblk = .ok (finish P s pkt r dblk) := by
  cases hwrite : pkt.isWrite with
  | true =>
    have htype : (message P pkt).RequestType = .ST := by simp [message,hwrite]
    have hreceived : received P pkt dblk=pkt.data := by simp [received,hwrite]
    rw [callback,htype]
    simp only [message,ackCallback,hentry,check,ne_eq,reduceCtorEq,not_false_eq_true,if_true]
    show issueNext P s _=_
    simp only [issueNext,hentry,check,if_pos hbound,request,if_true,finish,hreceived]
    rfl
  | false =>
    have htype : (message P pkt).RequestType = .LD := by simp [message,hwrite]
    have hreceived : received P pkt dblk =
        pkt.data.map fun d => copy d 0 ((dblk.drop (pkt.addr &&& m_data_block_mask P)).take pkt.size) := by
      simp [received,hwrite]
    have hfits : (pkt.addr &&& m_data_block_mask P)+pkt.size≤2^P := hwithin
    rw [callback,htype]
    simp only [message,dataCallback,hentry,check,request,if_true,Nat.sub_zero,hwrite,if_pos (Or.inr hfits)]
    show issueNext P _ _=_
    simp only [issueNext,update_self,check,if_pos hbound,if_true,finish,hreceived,update_idem]
    rfl

theorem Inv.issue (h : Inv P jobs s) (hwithin : Within P pkt) (hnone : s.m_RequestTable (makeLineAddress P pkt.addr)=none)
    (hlt : s.m_outstanding_count<s.m_max_outstanding_requests) :
    Inv P (jobs++[⟨pkt,[message P pkt],[message P pkt],[]⟩]) (issue P s pkt jobs.length) where
  fits r job hr := by
    rcases Nat.lt_or_ge r jobs.length with hold | hnew
    · obtain ⟨hw,hm,hs⟩:=h.fits r job (getElem?_append_left hold ▸ hr)
      refine ⟨hw,hm,hs.imp_left fun hwait => ⟨hwait.1,hwait.2.1,hwait.2.2.1,?_⟩⟩
      -- The line of a request that waits is not free.
      have hne : makeLineAddress P job.pkt.addr≠makeLineAddress P pkt.addr := fun heq => by
        rw [← heq,hwait.2.2.2] at hnone
        cases hnone
      exact (update_of_ne hne ..).trans hwait.2.2.2
    · have heq : r=jobs.length := by
        have hlen:=(List.getElem?_eq_some_iff.mp hr).1
        rw [length_append,length_singleton] at hlen
        omega
      subst heq
      rw [getElem?_append_right le_rfl,Nat.sub_self,getElem?_cons_zero] at hr
      cases hr
      refine ⟨hwithin,rfl,.inl ⟨rfl,rfl,?_,update_self ..⟩⟩
      exact filter_eq_nil_iff.mpr fun hit hin => by simpa using (h.hits hit hin).ne
  hits hit hin := by
    rw [length_append]
    exact Nat.lt_add_right _ (h.hits hit hin)
  count := by
    rw [countP_append]
    simp only [DMASequencer.issue,h.count]
    rfl
  bound := Int.add_one_le_of_lt hlt

theorem Inv.finish (h : Inv P jobs s) (hr : jobs[r]?=some job) (hpending : job.pending=[message P job.pkt])
    (hblk : dblk.length=2^P) :
    Inv P (jobs.set r (job.answer (message P job.pkt) dblk [])) (finish P s job.pkt r dblk) := by
  obtain ⟨hlt,hget⟩:=List.getElem?_eq_some_iff.mp hr
  obtain ⟨hw,hm,hs⟩:=h.fits r job hr
  obtain ⟨_,hans,hhits,hentry⟩:=hs.resolve_right fun hserved => by simp [hpending] at hserved
  refine ⟨fun r' job' hr' => ?_,fun hit hin => ?_,?_,?_⟩
  · rcases Decidable.em (r'=r) with rfl | hne
    · rw [getElem?_set_self hlt] at hr'
      cases hr'
      refine ⟨hw,by simp [Job.answer,hm],.inr ⟨by simp [Job.answer,hpending],dblk,hblk,by simp [Job.answer,hans],?_⟩⟩
      simp [DMASequencer.finish,filter_append,hhits,Job.answer]
    · rw [getElem?_set_ne (Ne.symm hne)] at hr'
      obtain ⟨hw',hm',hs'⟩:=h.fits r' job' hr'
      have hfilter : (DMASequencer.finish P s job.pkt r dblk).hits.filter (·.1=r')=s.hits.filter (·.1=r') := by
        simp [DMASequencer.finish,filter_append,Ne.symm hne]
      refine ⟨hw',hm',?_⟩
      rw [hfilter]
      refine hs'.imp_left fun hwait => ⟨hwait.1,hwait.2.1,hwait.2.2.1,?_⟩
      -- Two requests that wait have entries of their own.
      have hline : makeLineAddress P job'.pkt.addr≠makeLineAddress P job.pkt.addr := fun heq => by
        have hsame:=hwait.2.2.2.symm.trans (heq ▸ hentry)
        exact hne (congrArg DMARequest.pkt (Option.some.inj hsame))
      exact (update_of_ne hline ..).trans hwait.2.2.2
  · rw [length_set]
    rcases mem_append.mp hin with hin | hin
    · exact h.hits hit hin
    · exact (mem_singleton.mp hin) ▸ hlt
  · have hpos : 0<jobs.countP (·.pending≠[]) :=
      countP_pos_iff.mpr ⟨job,mem_of_getElem? hr,by simp [hpending]⟩
    have hcount:=h.count
    rw [countP_set hlt]
    simp only [DMASequencer.finish,hget,Job.answer,hpending,erase_cons_head,append_nil]
    simp only [ne_eq,cons_ne_nil,not_false_eq_true,decide_true,if_true,not_true_eq_false,decide_false,
      Bool.false_eq_true,if_false] at hcount hpos ⊢
    omega
  · exact (Int.sub_le_self _ Int.one_nonneg).trans h.bound

theorem run_inv (h : Run P (Within P) jobs s) : Inv P jobs s := by
  induction h with
  | init max =>
    exact ⟨fun r job hr => absurd hr (by simp),fun _ hin => absurd hin not_mem_nil,rfl,Int.natCast_nonneg max⟩
  | makeRequest jobs s s' pkt _ hwithin hcall ih =>
    rcases makeRequest_eq hwithin ih.bound jobs.length with hfull | haliased | ⟨hnone,hlt,hissued⟩
    · rw [hfull] at hcall
      cases hcall
    · rw [haliased] at hcall
      cases hcall
    · rw [hissued] at hcall
      cases hcall
      have hnew : enqueued s (issue P s pkt jobs.length)=[message P pkt] := drop_left ..
      exact hnew ▸ ih.issue hwithin hnone hlt
  | answer jobs s s' r job msg dblk _ hr hmsg hblk hcall ih =>
    obtain ⟨hw,_,hs⟩:=ih.fits r job hr
    rcases hs with ⟨hpending,_,_,hentry⟩ | ⟨hpending,_⟩
    · rw [hpending,mem_singleton] at hmsg
      subst hmsg
      rw [callback_eq hw ih.bound hentry] at hcall
      cases hcall
      have hnew : enqueued s (finish P s job.pkt r dblk)=[] := drop_length ..
      exact hnew ▸ ih.finish hr hpending hblk
    · rw [hpending] at hmsg
      cases hmsg

theorem Fits.answered (h : Fits P s r job) (hpending : job.pending=[]) : Answered P s r job := by
  obtain ⟨hw,hm,hs⟩:=h
  obtain ⟨_,dblk,hblk,hans,hhits⟩:=hs.resolve_left fun hwait => by simp [hpending] at hwait
  refine ⟨by simp [hm,message],fun msg hmsg => ?_,_,hhits,?_,fun hread d hd a ha j hj => ?_⟩
  · rw [hm,mem_singleton] at hmsg
    subst hmsg
    refine ⟨rfl,?_⟩
    have hline:=line_add_offset (P := P) job.pkt.addr
    have hfits : (job.pkt.addr &&& m_data_block_mask P)+job.pkt.size≤2^P := hw
    simp only [message]
    omega
  · unfold received
    split
    · rfl
    · exact Option.isSome_map
  · rw [hans,mem_singleton] at ha
    subst ha
    rw [received,hread] at hd
    obtain ⟨d0,hd0,rfl⟩:=Option.map_eq_some_iff.mp hd
    have hfits : (job.pkt.addr &&& m_data_block_mask P)+job.pkt.size≤2^P := hw
    have hlen : ((dblk.drop (job.pkt.addr &&& m_data_block_mask P)).take job.pkt.size).length=job.pkt.size := by
      rw [length_take,length_drop]
      omega
    have hj' : j<job.pkt.size := hj
    simp only [message,Nat.sub_self,Nat.zero_add,copy,take_zero,nil_append]
    rw [getElem?_append_left (hlen.symm ▸ hj'),getElem?_take_of_lt hj',getElem?_drop]

/-- Requests within a line are answered, each through one message. -/
theorem dma_complete (h : Run P (Within P) jobs s) : Complete P (Within P) jobs s where
  requests pkt hwithin := by
    rcases makeRequest_eq hwithin (run_inv h).bound jobs.length with hcall | hcall | ⟨_,_,hcall⟩
    · exact ⟨_,hcall⟩
    · exact ⟨_,hcall⟩
    · exact ⟨_,hcall⟩
  callbacks r job msg dblk hr hmsg _ := by
    obtain ⟨hw,_,hs⟩:=(run_inv h).fits r job hr
    rcases hs with ⟨hpending,_,_,hentry⟩ | ⟨hpending,_⟩
    · rw [hpending,List.mem_singleton] at hmsg
      exact ⟨_,hmsg ▸ callback_eq hw (run_inv h).bound hentry dblk⟩
    · rw [hpending] at hmsg
      cases hmsg
  answered r job hr hpending := ((run_inv h).fits r job hr).answered hpending
  waiting r job hr hpending := by
    rcases ((run_inv h).fits r job hr).served with hwait | hserved
    · exact hwait.2.2.1
    · exact absurd hserved.1 hpending
  count := (run_inv h).count

def readAt60 (size : ℕ) (h : 0<size) : Packet :=
  ⟨60,size,false,some (List.replicate size 0),h,fun _ hd => by cases hd; exact List.length_replicate⟩

theorem dma_complete_answered : ∃ jobs s,Complete 6 (Within 6) jobs s ∧ s.hits=[(0,some (replicate 4 7))] :=
  ⟨_,_,dma_complete (.answer _ _ _ 0 _ _ (replicate 64 7) (.makeRequest [] _ _ (readAt60 4 (by decide)) (.init 4)
    (by unfold Within; decide) rfl) rfl (mem_cons_self ..) rfl rfl),rfl⟩

/-- The second message of a read of eight bytes is for the line 64, which the table does not have. -/
theorem not_dma_complete : ∃ jobs s,Run 6 (fun _ => True) jobs s ∧ ∃ job msg,jobs[0]?=some job ∧ msg∈job.pending ∧
    s.callback 6 msg (List.replicate 64 0) = .error .assertion :=
  ⟨_,_,.answer _ _ _ 0 _ _ (List.replicate 64 0)
    (.makeRequest [] _ _ (readAt60 8 (by decide)) (.init 4) trivial rfl) rfl (List.mem_cons_self ..) rfl rfl,
    _,_,rfl,List.mem_cons_self ..,rfl⟩

end DMASequencer

end AquaGem5.Ruby
