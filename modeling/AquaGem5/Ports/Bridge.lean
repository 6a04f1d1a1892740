import Mathlib.Data.Multiset.Filter
import AquaGem5.Lib.Checked

/-!
# Bridges (bridge.cc, bridge.hh)

`reqs` is the queue of the memory side and `resps` the one of the CPU side. A peer that calls the
bridge from inside a call of the bridge finds the queues as they are before that call or after it,
so each call is one step.
-/

namespace AquaGem5.Ports
open Checked List

namespace Bridge

inductive Fault where
  /-- `panic_if(pkt->cacheResponding())`. -/
  | cacheResponding
  /-- The event queue's assertions on `schedule`. -/
  | schedule
  /-- `assert(transmitList.size() != reqQueueLimit)`. -/
  | reqQueueFull
  /-- `assert(outstandingResponses != respQueueLimit)`. -/
  | respQueueFull
  | empty
  /-- `assert(req.tick <= curTick())`. -/
  | early
  /-- `assert(outstandingResponses != 0)`. -/
  | noneOutstanding
  deriving DecidableEq

structure Packet where
  id : ℕ
  needsResponse : Bool
  cacheResponding : Bool
  headerDelay : ℕ
  payloadDelay : ℕ
  deriving DecidableEq

structure DeferredPacket where
  pkt : Packet
  tick : ℕ
  deriving DecidableEq

structure Queue where
  transmitList : List DeferredPacket
  sendEvent : Option ℕ

structure Params where
  delay : ℕ
  respQueueLimit : ℕ
  reqQueueLimit : ℕ
  /-- `clockEdge(cycles)` at a tick. -/
  clockEdge : ℕ → ℕ → ℕ

end Bridge

structure Bridge where
  curTick : ℕ
  reqs : Bridge.Queue
  resps : Bridge.Queue
  outstandingResponses : ℕ
  retryReq : Bool

namespace Bridge

def new : Bridge := ⟨0,⟨[],none⟩,⟨[],none⟩,0,false⟩

/-- The packet as it arrives, with its delays paid for. -/
def deferred (P : Params) (curTick : ℕ) (pkt : Packet) : DeferredPacket :=
  ⟨{pkt with headerDelay := 0, payloadDelay := 0},P.clockEdge curTick P.delay+(pkt.headerDelay+pkt.payloadDelay)⟩

def Queue.schedule (q : Queue) (curTick when_ : ℕ) : Except Fault Queue := do
  check (q.sendEvent=none ∧ curTick≤when_) .schedule
  return {q with sendEvent := some when_}

def Queue.scheduleFirst (q : Queue) (curTick when_ : ℕ) : Except Fault Queue :=
  if q.transmitList=[] then q.schedule curTick when_ else return q

def Queue.push (q : Queue) (d : DeferredPacket) : Queue := {q with transmitList := q.transmitList++[d]}

def Queue.pop (q : Queue) : Queue := {q with transmitList := q.transmitList.tail}

def Queue.checkFirst (q : Queue) (curTick : ℕ) : Except Fault Unit := do
  check (q.transmitList≠[]) .empty
  check (∀ d∈q.transmitList.head?,d.tick≤curTick) .early

def Queue.scheduleNext (q : Queue) (curTick clockEdge : ℕ) : Except Fault Queue :=
  match q.transmitList with
  | [] => return q
  | next::_ => q.schedule curTick (max next.tick clockEdge)

variable (P : Params)

def respQueueFull (b : Bridge) : Prop := b.outstandingResponses=P.respQueueLimit

def reqQueueFull (b : Bridge) : Prop := b.reqs.transmitList.length=P.reqQueueLimit

instance (b : Bridge) : Decidable (b.respQueueFull P) := inferInstanceAs (Decidable (_=_))

instance (b : Bridge) : Decidable (b.reqQueueFull P) := inferInstanceAs (Decidable (_=_))

def schedTimingReq (b : Bridge) (d : DeferredPacket) : Except Fault Bridge := do
  let q ← b.reqs.scheduleFirst b.curTick d.tick
  check (q.transmitList.length≠P.reqQueueLimit) .reqQueueFull
  return {b with reqs := q.push d}

def schedTimingResp (b : Bridge) (d : DeferredPacket) : Except Fault Bridge := do
  let q ← b.resps.scheduleFirst b.curTick d.tick
  return {b with resps := q.push d}

def recvTimingResp (b : Bridge) (pkt : Packet) : Except Fault Bridge := b.schedTimingResp (deferred P b.curTick pkt)

/-- Space for the response to a packet that has one. -/
def reserveResponse (b : Bridge) (pkt : Packet) : Except Fault Bridge :=
  if pkt.needsResponse then
    if b.respQueueFull P then return {b with retryReq := true}
    else do
      check (b.outstandingResponses≠P.respQueueLimit) .respQueueFull
      return {b with outstandingResponses := b.outstandingResponses+1}
  else return b

def recvTimingReq (b : Bridge) (pkt : Packet) : Except Fault (Bool × Bridge) := do
  check (pkt.cacheResponding=false) .cacheResponding
  if b.retryReq then return (false,b)
  else if b.reqQueueFull P then return (false,{b with retryReq := true})
  else do
    let b ← b.reserveResponse P pkt
    if b.retryReq then return (false,b)
    else do
      let b ← b.schedTimingReq P (deferred P b.curTick pkt)
      return (true,b)

/-- `trySendTiming` of the memory side, and whether it has the CPU side retry. -/
def trySendReq (b : Bridge) (accepted : Bool) : Except Fault (Bool × Bridge) := do
  b.reqs.checkFirst b.curTick
  if accepted then
    let q ← b.reqs.pop.scheduleNext b.curTick (P.clockEdge b.curTick 0)
    -- retryStalledReq
    return (b.retryReq,{b with reqs := q, retryReq := false})
  else return (false,b)

/-- `trySendTiming` of the CPU side. -/
def trySendResp (b : Bridge) (accepted : Bool) : Except Fault (Bool × Bridge) := do
  b.resps.checkFirst b.curTick
  if accepted then
    check (b.outstandingResponses≠0) .noneOutstanding
    let q ← b.resps.pop.scheduleNext b.curTick (P.clockEdge b.curTick 0)
    let b := {b with resps := q, outstandingResponses := b.outstandingResponses-1}
    if ¬b.reqQueueFull P ∧ b.retryReq=true then return (true,{b with retryReq := false}) else return (false,b)
  else return (false,b)

/-- The packets that came to one side, those that left it with the ticks they left at, and whether
the peer has refused the first packet and owes a retry. -/
structure Traffic where
  arrived : List DeferredPacket
  left : List (DeferredPacket × ℕ)
  refused : Bool

/-- What the CPU side told the requestor. -/
inductive Notice where
  | refused
  | retry
  deriving DecidableEq

structure Run where
  bridge : Bridge
  reqs : Traffic
  resps : Traffic
  notices : List Notice

def Traffic.offer (g : Traffic) (q : Queue) (curTick : ℕ) (accepted : Bool) : Traffic :=
  if accepted then {g with left := g.left++q.transmitList.head?.toList.map fun d => (d,curTick), refused := false}
  else {g with refused := true}

def expecting (ds : List DeferredPacket) : List ℕ := (ds.filter (·.pkt.needsResponse)).map (·.pkt.id)

def Traffic.gone (g : Traffic) : List DeferredPacket := g.left.map Prod.fst

namespace Run

def start : Run := ⟨new,⟨[],[],false⟩,⟨[],[],false⟩,[]⟩

def recvTimingReq (r : Run) (pkt : Packet) : Except Fault Run := do
  let (accepted,b) ← r.bridge.recvTimingReq P pkt
  if accepted then
    return {r with bridge := b, reqs := {r.reqs with arrived := r.reqs.arrived++[deferred P r.bridge.curTick pkt]} }
  else return {r with bridge := b, notices := r.notices++[.refused]}

def recvTimingResp (r : Run) (pkt : Packet) : Except Fault Run := do
  let b ← r.bridge.recvTimingResp P pkt
  return {r with bridge := b, resps := {r.resps with arrived := r.resps.arrived++[deferred P r.bridge.curTick pkt]} }

def notice (retry : Bool) : List Notice := if retry then [.retry] else []

def trySendReq (r : Run) (accepted : Bool) : Except Fault Run := do
  let (retry,b) ← r.bridge.trySendReq P accepted
  return {r with bridge := b, reqs := r.reqs.offer r.bridge.reqs r.bridge.curTick accepted, notices := r.notices++notice retry}

def trySendResp (r : Run) (accepted : Bool) : Except Fault Run := do
  let (retry,b) ← r.bridge.trySendResp P accepted
  return {r with bridge := b, resps := r.resps.offer r.bridge.resps r.bridge.curTick accepted, notices := r.notices++notice retry}

def Answers (r : Run) (pkt : Packet) : Prop :=
  (r.resps.arrived.map (·.pkt.id)).count pkt.id<(expecting r.reqs.gone).count pkt.id

end Run

inductive Offers (curTick : ℕ) (q : Queue) (g : Traffic) : Queue → Prop
  | sendEvent : q.sendEvent=some curTick → Offers curTick q g {q with sendEvent := none}
  | retry : g.refused=true → Offers curTick q g q

inductive Reachable : Run → Prop
  | start : Reachable .start
  | recvTimingReq (r r' : Run) (pkt : Packet) : Reachable r → r.recvTimingReq P pkt = .ok r' → Reachable r'
  | recvTimingResp (r r' : Run) (pkt : Packet) : Reachable r → r.Answers pkt → r.recvTimingResp P pkt = .ok r' →
      Reachable r'
  | trySendReq (r r' : Run) (q : Queue) (accepted : Bool) : Reachable r → Offers r.bridge.curTick r.bridge.reqs r.reqs q →
      {r with bridge := {r.bridge with reqs := q} }.trySendReq P accepted = .ok r' → Reachable r'
  | trySendResp (r r' : Run) (q : Queue) (accepted : Bool) : Reachable r →
      Offers r.bridge.curTick r.bridge.resps r.resps q →
      {r with bridge := {r.bridge with resps := q} }.trySendResp P accepted = .ok r' → Reachable r'
  | tick (r : Run) (t : ℕ) : Reachable r → r.bridge.curTick≤t →
      (∀ w∈r.bridge.reqs.sendEvent,t≤w) → (∀ w∈r.bridge.resps.sendEvent,t≤w) →
      Reachable {r with bridge := {r.bridge with curTick := t} }

/-- The side holds what came and has not left, and something is there to make it send. -/
structure Served (q : Queue) (g : Traffic) (curTick : ℕ) : Prop where
  kept : g.arrived=g.gone++q.transmitList
  early : ∀ d∈g.left,d.1.tick≤d.2
  event : ∀ w∈q.sendEvent,curTick≤w ∧ g.refused=false ∧ ∃ d∈q.transmitList.head?,d.tick≤w
  refused : g.refused=true → ∃ d∈q.transmitList.head?,d.tick≤curTick
  waiting : q.transmitList≠[] → q.sendEvent≠none ∨ g.refused=true

variable {P : Params} {q q' : Queue} {g : Traffic} {curTick edge : ℕ} {d : DeferredPacket}

theorem scheduleFirst_post (h : Served q g curTick) (hd : curTick≤d.tick) :
    Post (q.scheduleFirst curTick d.tick) (fun q' => q'.transmitList=q.transmitList ∧
      Served (q'.push d) {g with arrived := g.arrived++[d]} curTick) fun _ => False := by
  have hkept : g.arrived++[d]=g.gone++(q.transmitList++[d]) := by rw [h.kept,append_assoc]
  unfold Queue.scheduleFirst
  split
  next hempty =>
    have hnone : q.sendEvent=none := by
      cases he : q.sendEvent with
      | none => rfl
      | some w =>
        obtain ⟨_,_,e,hin,_⟩:=h.event w he
        rw [hempty] at hin
        cases hin
    have hfree : g.refused=false := by
      cases hr : g.refused with
      | false => rfl
      | true =>
        obtain ⟨e,hin,_⟩:=h.refused hr
        rw [hempty] at hin
        cases hin
    simp only [Queue.schedule,post_bind,post_check,post_pure]
    refine ⟨fun _ => ⟨trivial,hkept,h.early,fun w hw => ?_,fun hr => ?_,fun _ => .inl (Option.some_ne_none _)⟩,fun hno => hno ⟨hnone,hd⟩⟩
    · cases hw
      exact ⟨hd,hfree,d,by rw [Queue.push,hempty]; rfl,Nat.le_refl _⟩
    · exact absurd (hfree.symm.trans hr) (by simp)
  next hsome =>
    obtain ⟨e,rest,hlist⟩:=exists_cons_of_ne_nil hsome
    have hhead : (q.push d).transmitList.head?=q.transmitList.head? := by rw [Queue.push,hlist]; rfl
    refine ⟨rfl,hkept,h.early,fun w hw => ?_,fun hr => ?_,fun _ => h.waiting hsome⟩
    · rw [hhead]
      exact h.event w hw
    · rw [hhead]
      exact h.refused hr

theorem Offers.ready (h : Served q g curTick) (ho : Offers curTick q g q') :
    q'.transmitList=q.transmitList ∧ q'.sendEvent=none ∧ ∃ d rest,q.transmitList=d::rest ∧ d.tick≤curTick := by
  cases ho with
  | sendEvent hevent =>
    obtain ⟨_,_,d,hin,hle⟩:=h.event curTick hevent
    obtain ⟨rest,hlist⟩:=head?_eq_some_iff.mp hin
    exact ⟨rfl,rfl,d,rest,hlist,hle⟩
  | retry hrefused =>
    obtain ⟨d,hin,hle⟩:=h.refused hrefused
    obtain ⟨rest,hlist⟩:=head?_eq_some_iff.mp hin
    refine ⟨rfl,?_,d,rest,hlist,hle⟩
    cases he : q.sendEvent with
    | none => rfl
    | some w =>
      have hfree:=(h.event w he).2.1
      rw [hrefused] at hfree
      cases hfree

theorem Served.refuse (h : Served q g curTick) (ho : Offers curTick q g q') :
    Served q' (g.offer q' curTick false) curTick := by
  obtain ⟨hsame,hnone,d,rest,hlist,hle⟩:=ho.ready h
  refine ⟨?_,h.early,fun w hw => ?_,fun _ => ⟨d,?_,hle⟩,fun _ => .inr rfl⟩
  · rw [hsame]
    exact h.kept
  · rw [hnone] at hw
    cases hw
  · rw [hsame,hlist]
    rfl

theorem scheduleNext_post (h : Served q g curTick) (ho : Offers curTick q g q') (hedge : curTick≤edge) :
    Post (q'.pop.scheduleNext curTick edge) (fun q'' => Served q'' (g.offer q' curTick true) curTick ∧
      q''.transmitList=q.transmitList.tail) fun _ => False := by
  obtain ⟨hsame,hnone,d,rest,hlist,hle⟩:=ho.ready h
  have hkept : g.arrived=(g.offer q' curTick true).gone++rest := by
    have hgone : (g.offer q' curTick true).gone=g.gone++[d] := by
      simp only [Traffic.gone,Traffic.offer,hsame,hlist]
      simp
    rw [hgone,h.kept,hlist,append_assoc,singleton_append]
  have hearly : ∀ e∈(g.offer q' curTick true).left,e.1.tick≤e.2 := fun e he => by
    rw [Traffic.offer,hsame,hlist] at he
    cases mem_append.mp he with
    | inl hin => exact h.early e hin
    | inr hin =>
      rw [mem_singleton.mp hin]
      exact hle
  have hpop : q'.pop.transmitList=rest := by rw [Queue.pop,hsame,hlist,tail_cons]
  unfold Queue.scheduleNext
  rw [hpop,hlist,tail_cons]
  cases rest with
  | nil =>
    refine ⟨⟨?_,hearly,fun w hw => ?_,fun hr => (by cases hr),fun hno => absurd hpop hno⟩,hpop⟩
    · rw [hpop]
      exact hkept
    · rw [Queue.pop,hnone] at hw
      cases hw
  | cons next rest =>
    simp only [Queue.schedule,post_bind,post_check,post_pure]
    have hlate : curTick ≤ max next.tick edge := Nat.le_trans hedge (Nat.le_max_right _ _)
    refine ⟨fun _ => ⟨⟨?_,hearly,fun w hw => ?_,fun hr => (by cases hr),fun _ => .inl (Option.some_ne_none _)⟩,hpop⟩,
      fun hno => hno ⟨hnone,hlate⟩⟩
    · rw [hpop]
      exact hkept
    · cases hw
      rw [hpop]
      exact ⟨hlate,rfl,next,rfl,Nat.le_max_left _ _⟩

theorem Served.tick (h : Served q g curTick) {t : ℕ} (hle : curTick≤t) (hevent : ∀ w∈q.sendEvent,t≤w) :
    Served q g t := by
  refine ⟨h.kept,h.early,fun w hw => ⟨hevent w hw,(h.event w hw).2⟩,fun hr => ?_,h.waiting⟩
  obtain ⟨d,hd,hready⟩:=h.refused hr
  exact ⟨d,hd,Nat.le_trans hready hle⟩

structure Inv (P : Params) (r : Run) : Prop where
  reqs : Served r.bridge.reqs r.reqs r.bridge.curTick
  resps : Served r.bridge.resps r.resps r.bridge.curTick
  reqLimit : r.bridge.reqs.transmitList.length≤P.reqQueueLimit
  respLimit : r.bridge.outstandingResponses≤P.respQueueLimit
  outstanding : r.bridge.outstandingResponses+r.resps.left.length=(expecting r.reqs.arrived).length
  answers : ((r.resps.arrived.map (·.pkt.id) : List ℕ) : Multiset ℕ)≤expecting r.reqs.gone
  retry : r.bridge.retryReq=true ↔ r.notices.getLast?=some .refused
  live : r.bridge.retryReq=true → r.bridge.reqs.transmitList≠[] ∨ 0<r.bridge.outstandingResponses

theorem expecting_append (xs ys : List DeferredPacket) : expecting (xs++ys)=expecting xs++expecting ys := by
  rw [expecting,filter_append,map_append,expecting,expecting]

variable {r : Run} {pkt : Packet} {accepted : Bool}

theorem Inv.expecting_arrived (h : Inv P r) :
    expecting r.reqs.arrived=expecting r.reqs.gone++expecting r.bridge.reqs.transmitList := by
  rw [h.reqs.kept,expecting_append]

theorem Inv.held_le (h : Inv P r) : r.bridge.resps.transmitList.length≤r.bridge.outstandingResponses := by
  have hanswers:=Multiset.card_le_card h.answers
  have harrived:=congrArg length h.resps.kept
  have hexpecting:=congrArg length h.expecting_arrived
  have hout:=h.outstanding
  rw [Multiset.coe_card,Multiset.coe_card,length_map] at hanswers
  rw [length_append,Traffic.gone,length_map] at harrived
  rw [length_append] at hexpecting
  omega

theorem le_deferred (hedge : ∀ t c,t≤P.clockEdge t c) (t : ℕ) (pkt : Packet) : t≤(deferred P t pkt).tick :=
  Nat.le_trans (hedge t P.delay) (Nat.le_add_right _ _)

theorem Inv.refuse (h : Inv P r) (hlive : r.bridge.reqs.transmitList≠[] ∨ 0<r.bridge.outstandingResponses) :
    Inv P {r with bridge := {r.bridge with retryReq := true}, notices := r.notices++[.refused]} := by
  refine ⟨h.reqs,h.resps,h.reqLimit,h.respLimit,h.outstanding,h.answers,⟨fun _ => ?_,fun _ => rfl⟩,fun _ => hlive⟩
  rw [getLast?_append_of_ne_nil _ (by simp)]
  rfl

theorem schedTimingReq_post (hedge : ∀ t c,t≤P.clockEdge t c) (h : Inv P r) (hfree : r.bridge.retryReq=false)
    (hroom : ¬r.bridge.reqQueueFull P) {n : ℕ} (hn : n≤P.respQueueLimit)
    (hcount : n=r.bridge.outstandingResponses+(expecting [deferred P r.bridge.curTick pkt]).length) :
    Post ({r.bridge with outstandingResponses := n}.schedTimingReq P (deferred P r.bridge.curTick pkt))
      (fun b => Inv P {r with bridge := b, reqs := {r.reqs with arrived := r.reqs.arrived++[deferred P r.bridge.curTick pkt]} })
      fun _ => False := by
  simp only [schedTimingReq,post_bind]
  refine (scheduleFirst_post h.reqs (le_deferred hedge _ pkt)).imp fun q hq => ?_
  obtain ⟨hsame,hserved⟩:=hq
  simp only [post_check,post_pure,hsame]
  refine ⟨fun _ => ⟨hserved,h.resps,?_,hn,?_,h.answers,?_,fun hretry => ?_⟩,fun hno => hroom (not_not.mp hno)⟩
  · have hlimit:=h.reqLimit
    have hne : r.bridge.reqs.transmitList.length≠P.reqQueueLimit := hroom
    rw [Queue.push,hsame,length_append,length_singleton]
    omega
  · have hout:=h.outstanding
    show n+r.resps.left.length=(expecting (r.reqs.arrived++[deferred P r.bridge.curTick pkt])).length
    rw [expecting_append,length_append]
    omega
  · exact h.retry
  · exact absurd (hfree.symm.trans hretry) (by simp)

theorem recvTimingReq_post (hedge : ∀ t c,t≤P.clockEdge t c) (hreq : 0<P.reqQueueLimit) (hresp : 0<P.respQueueLimit)
    (h : Inv P r) (pkt : Packet) :
    Post (r.recvTimingReq P pkt) (Inv P) fun e => e = .cacheResponding ∧ pkt.cacheResponding=true := by
  simp only [Run.recvTimingReq,Bridge.recvTimingReq,post_bind,post_check]
  refine ⟨fun _ => ?_,fun hno => ⟨trivial,by simpa using hno⟩⟩
  cases hfree : r.bridge.retryReq with
  | true =>
    have hsame : ({r.bridge with retryReq := true} : Bridge)=r.bridge := by rw [← hfree]
    have hrefuse:=h.refuse (h.live hfree)
    rw [hsame] at hrefuse
    exact hrefuse
  | false =>
    rw [if_neg (by simp)]
    split
    next hfull =>
      refine h.refuse (.inl fun hempty => ?_)
      have hlength : r.bridge.reqs.transmitList.length=P.reqQueueLimit := hfull
      rw [hempty,length_nil] at hlength
      omega
    next hroom =>
      unfold reserveResponse
      cases hneeds : pkt.needsResponse with
      | false =>
        have hcount : r.bridge.outstandingResponses =
            r.bridge.outstandingResponses+(expecting [deferred P r.bridge.curTick pkt]).length := by
          simp [expecting,deferred,hneeds]
        have hpost:=schedTimingReq_post hedge h hfree hroom h.respLimit hcount
        rw [if_neg (by simp)]
        simp only [post_pure,post_bind,hfree]
        rw [if_neg (by simp),post_bind]
        exact hpost.mono (fun _ hb => hb) fun _ he => he.elim
      | true =>
        rw [if_pos rfl]
        split
        next hfull =>
          refine h.refuse (.inr ?_)
          have hlength : r.bridge.outstandingResponses=P.respQueueLimit := hfull
          omega
        next hspace =>
          have hne : r.bridge.outstandingResponses≠P.respQueueLimit := hspace
          have hlimit:=h.respLimit
          have hcount : r.bridge.outstandingResponses+1 =
              r.bridge.outstandingResponses+(expecting [deferred P r.bridge.curTick pkt]).length := by
            simp [expecting,deferred,hneeds]
          have hpost:=schedTimingReq_post hedge h hfree hroom (by omega) hcount
          simp only [hfree] at hpost
          simp only [post_bind,post_check,post_pure,hfree]
          refine ⟨fun _ => ?_,fun hno => absurd hne hno⟩
          rw [if_neg (by simp),post_bind]
          exact hpost.mono (fun _ hb => hb) fun _ he => he.elim

theorem recvTimingResp_post (hedge : ∀ t c,t≤P.clockEdge t c) (h : Inv P r) (hanswer : r.Answers pkt) :
    Post (r.recvTimingResp P pkt) (Inv P) fun _ => False := by
  simp only [Run.recvTimingResp,Bridge.recvTimingResp,schedTimingResp,post_bind]
  refine (scheduleFirst_post h.resps (le_deferred hedge _ pkt)).imp fun q hq => ?_
  obtain ⟨_,hserved⟩:=hq
  refine ⟨h.reqs,hserved,h.reqLimit,h.respLimit,h.outstanding,Multiset.le_iff_count.mpr fun i => ?_,h.retry,h.live⟩
  have hi:=Multiset.le_iff_count.mp h.answers i
  rw [Multiset.coe_count,Multiset.coe_count] at hi ⊢
  rw [map_append,count_append,map_singleton,count_singleton]
  have hid : (deferred P r.bridge.curTick pkt).pkt.id=pkt.id := rfl
  rw [hid]
  show _≤(expecting r.reqs.gone).count i
  split
  next heq =>
    have hlt : (r.resps.arrived.map (·.pkt.id)).count pkt.id<(expecting r.reqs.gone).count pkt.id := hanswer
    rw [beq_iff_eq.mp heq] at hlt
    omega
  next => omega

theorem notice_getLast? (retry : Bool) (notices : List Notice) (hretry : retry=true ↔ notices.getLast?=some .refused) :
    (notices++Run.notice retry).getLast?≠some .refused := by
  cases retry with
  | false =>
    rw [Run.notice,if_neg (by simp),append_nil]
    exact fun hlast => absurd (hretry.mpr hlast) (by simp)
  | true =>
    rw [Run.notice,if_pos rfl,getLast?_concat]
    exact fun hlast => (by cases hlast)

theorem checkFirst_post (h : Served q g curTick) (ho : Offers curTick q g q') :
    Post (q'.checkFirst curTick) (fun _ => True) fun _ => False := by
  obtain ⟨hsame,_,d,rest,hlist,hle⟩:=ho.ready h
  simp only [Queue.checkFirst,post_bind,post_check]
  rw [hsame,hlist]
  refine ⟨fun _ => ⟨fun _ => trivial,fun hno => hno fun e he => ?_⟩,fun hno => hno (cons_ne_nil _ _)⟩
  cases he
  exact hle

theorem trySendReq_post (hedge : ∀ t c,t≤P.clockEdge t c) (h : Inv P r)
    (ho : Offers r.bridge.curTick r.bridge.reqs r.reqs q) (accepted : Bool) :
    Post ({r with bridge := {r.bridge with reqs := q} }.trySendReq P accepted)
      (fun r' => Inv P r' ∧ (accepted=true → r'.bridge.retryReq=false)) fun _ => False := by
  obtain ⟨hsame,_,d,rest,hlist,_⟩:=ho.ready h.reqs
  simp only [Run.trySendReq,Bridge.trySendReq,post_bind]
  refine (checkFirst_post h.reqs ho).imp fun _ _ => ?_
  cases accepted with
  | false =>
    refine ⟨⟨h.reqs.refuse ho,h.resps,?_,h.respLimit,h.outstanding,h.answers,?_,fun hretry => ?_⟩,fun hno => (by cases hno)⟩
    · show q.transmitList.length≤P.reqQueueLimit
      rw [hsame]
      exact h.reqLimit
    · show r.bridge.retryReq=true ↔ (r.notices++[]).getLast?=some .refused
      rw [append_nil]
      exact h.retry
    · refine (h.live hretry).imp_left fun hne => ?_
      show q.transmitList≠[]
      rwa [hsame]
  | true =>
    rw [if_pos rfl,post_bind]
    refine (scheduleNext_post h.reqs ho (hedge r.bridge.curTick 0)).imp fun q' hq' => ?_
    obtain ⟨hserved,htail⟩:=hq'
    refine ⟨⟨hserved,h.resps,?_,h.respLimit,h.outstanding,?_,⟨fun hno => (by cases hno),fun hlast => ?_⟩,fun hno => (by cases hno)⟩,
      fun _ => rfl⟩
    · show q'.transmitList.length≤P.reqQueueLimit
      have hlimit:=h.reqLimit
      rw [htail,length_tail]
      omega
    · refine Multiset.le_iff_count.mpr fun i => Nat.le_trans (Multiset.le_iff_count.mp h.answers i) ?_
      have hgone : (r.reqs.offer q r.bridge.curTick true).gone=r.reqs.gone++[d] := by
        simp only [Traffic.gone,Traffic.offer,hsame,hlist]
        simp
      show _≤((expecting (r.reqs.offer q r.bridge.curTick true).gone : List ℕ) : Multiset ℕ).count i
      rw [hgone,expecting_append,Multiset.coe_count,Multiset.coe_count,count_append]
      exact Nat.le_add_right _ _
    · exact absurd hlast (notice_getLast? _ _ h.retry)

theorem trySendResp_post (hedge : ∀ t c,t≤P.clockEdge t c) (hreq : 0<P.reqQueueLimit) (h : Inv P r)
    (ho : Offers r.bridge.curTick r.bridge.resps r.resps q) (accepted : Bool) :
    Post ({r with bridge := {r.bridge with resps := q} }.trySendResp P accepted)
      (fun r' => Inv P r' ∧ (accepted=true → ¬r.bridge.reqQueueFull P → r'.bridge.retryReq=false)) fun _ => False := by
  obtain ⟨hsame,_,d,rest,hlist,_⟩:=ho.ready h.resps
  have hheld:=h.held_le
  rw [hlist,length_cons] at hheld
  have hout:=h.outstanding
  have hlimit:=h.respLimit
  simp only [Run.trySendResp,Bridge.trySendResp,post_bind]
  refine (checkFirst_post h.resps ho).imp fun _ _ => ?_
  cases accepted with
  | false =>
    refine ⟨⟨h.reqs,h.resps.refuse ho,h.reqLimit,h.respLimit,h.outstanding,h.answers,?_,h.live⟩,fun hno => (by cases hno)⟩
    show r.bridge.retryReq=true ↔ (r.notices++[]).getLast?=some .refused
    rw [append_nil]
    exact h.retry
  | true =>
    rw [if_pos rfl]
    simp only [post_bind,post_check]
    refine ⟨fun _ => ?_,fun hno => hno (by omega)⟩
    refine (scheduleNext_post h.resps ho (hedge r.bridge.curTick 0)).imp fun q' hq' => ?_
    obtain ⟨hserved,htail⟩:=hq'
    have hleft : (r.resps.offer q r.bridge.curTick true).left.length=r.resps.left.length+1 := by
      simp only [Traffic.offer,hsame,hlist]
      simp
    have hsent : r.bridge.outstandingResponses-1+(r.resps.offer q r.bridge.curTick true).left.length =
        (expecting r.reqs.arrived).length := by
      rw [hleft]
      omega
    split
    next hretry =>
      refine ⟨⟨h.reqs,hserved,h.reqLimit,Nat.le_trans (Nat.sub_le _ 1) hlimit,hsent,h.answers,
        ⟨fun hno => (by cases hno),fun hlast => ?_⟩,fun hno => (by cases hno)⟩,fun _ _ => rfl⟩
      have hlast' : (r.notices++[Notice.retry]).getLast?=some .refused := hlast
      rw [getLast?_concat] at hlast'
      cases hlast'
    next hquiet =>
      have hfull : r.bridge.retryReq=true → r.bridge.reqQueueFull P := fun hretry =>
        by_contra fun hroom => hquiet ⟨hroom,hretry⟩
      refine ⟨⟨h.reqs,hserved,h.reqLimit,Nat.le_trans (Nat.sub_le _ 1) hlimit,hsent,h.answers,?_,fun hretry => .inl fun hempty => ?_⟩,
        fun _ hroom => ?_⟩
      · show r.bridge.retryReq=true ↔ (r.notices++[]).getLast?=some .refused
        rw [append_nil]
        exact h.retry
      · have hlength : r.bridge.reqs.transmitList.length=P.reqQueueLimit := hfull hretry
        have hnil : r.bridge.reqs.transmitList=[] := hempty
        rw [hnil,length_nil] at hlength
        omega
      · cases hr : r.bridge.retryReq with
        | false => rfl
        | true => exact absurd (hfull hr) hroom

theorem reachable_inv (hedge : ∀ t c,t≤P.clockEdge t c) (hreq : 0<P.reqQueueLimit) (hresp : 0<P.respQueueLimit)
    (h : Reachable P r) : Inv P r := by
  induction h with
  | start =>
    have hserved : Served ⟨[],none⟩ ⟨[],[],false⟩ 0 :=
      ⟨rfl,fun d hd => (by cases hd),fun w hw => (by cases hw),fun hr => (by cases hr),fun hno => absurd rfl hno⟩
    exact ⟨hserved,hserved,Nat.zero_le _,Nat.zero_le _,rfl,le_refl _,by simp [Run.start,new],fun hr => (by cases hr)⟩
  | recvTimingReq r r' pkt _ hcall ih => exact (recvTimingReq_post hedge hreq hresp ih pkt).of_ok hcall
  | recvTimingResp r r' pkt _ hanswer hcall ih => exact (recvTimingResp_post hedge ih hanswer).of_ok hcall
  | trySendReq r r' q accepted _ ho hcall ih => exact ((trySendReq_post hedge ih ho accepted).of_ok hcall).1
  | trySendResp r r' q accepted _ ho hcall ih => exact ((trySendResp_post hedge hreq ih ho accepted).of_ok hcall).1
  | tick r t _ hle hreqs hresps ih =>
    exact ⟨ih.reqs.tick hle hreqs,ih.resps.tick hle hresps,ih.reqLimit,ih.respLimit,ih.outstanding,ih.answers,ih.retry,ih.live⟩

theorem Inv.outstanding_eq (h : Inv P r) : r.bridge.outstandingResponses =
    ((expecting r.reqs.arrived : Multiset ℕ) - ↑(r.resps.gone.map (·.pkt.id))).card := by
  have hgone : ((r.resps.gone.map (·.pkt.id) : List ℕ) : Multiset ℕ)≤expecting r.reqs.arrived := by
    calc ((r.resps.gone.map (·.pkt.id) : List ℕ) : Multiset ℕ)
        ≤ ↑(r.resps.arrived.map (·.pkt.id)) := by
          rw [h.resps.kept,map_append,← Multiset.coe_add]
          exact Multiset.le_add_right _ _
      _≤expecting r.reqs.gone := h.answers
      _≤expecting r.reqs.arrived := by
          rw [h.expecting_arrived,← Multiset.coe_add]
          exact Multiset.le_add_right _ _
  have hout:=h.outstanding
  rw [Multiset.card_sub hgone,Multiset.coe_card,Multiset.coe_card,length_map,Traffic.gone,length_map]
  omega

/-- The bridge counts the responses it owes and keeps to its limits, both queues are first in first
out, a refused requestor is remembered until its retry, which the next request or response to
leave brings, and no assertion fails but the panic on a packet a cache responds to. -/
theorem flow_control (hedge : ∀ t c,t≤P.clockEdge t c) (hreq : 0<P.reqQueueLimit) (hresp : 0<P.respQueueLimit)
    (h : Reachable P r) :
    r.bridge.outstandingResponses=((expecting r.reqs.arrived : Multiset ℕ) - ↑(r.resps.gone.map (·.pkt.id))).card ∧
    r.bridge.outstandingResponses≤P.respQueueLimit ∧
    r.bridge.reqs.transmitList.length≤P.reqQueueLimit ∧ r.bridge.resps.transmitList.length≤P.respQueueLimit ∧
    (r.reqs.arrived=r.reqs.gone++r.bridge.reqs.transmitList ∧ ∀ d∈r.reqs.left,d.1.tick≤d.2) ∧
    (r.resps.arrived=r.resps.gone++r.bridge.resps.transmitList ∧ ∀ d∈r.resps.left,d.1.tick≤d.2) ∧
    (r.bridge.retryReq=true ↔ r.notices.getLast?=some .refused) ∧
    (r.bridge.retryReq=true → r.bridge.reqs.transmitList≠[] ∨ 0<r.bridge.outstandingResponses) ∧
    (r.bridge.reqs.transmitList≠[] → r.bridge.reqs.sendEvent≠none ∨ r.reqs.refused=true) ∧
    (r.bridge.resps.transmitList≠[] → r.bridge.resps.sendEvent≠none ∨ r.resps.refused=true) ∧
    (∀ pkt,Post (r.recvTimingReq P pkt) (fun _ => True) fun e => e = .cacheResponding ∧ pkt.cacheResponding=true) ∧
    (∀ pkt,r.Answers pkt → Post (r.recvTimingResp P pkt) (fun _ => True) fun _ => False) ∧
    (∀ q accepted,Offers r.bridge.curTick r.bridge.reqs r.reqs q →
      Post ({r with bridge := {r.bridge with reqs := q} }.trySendReq P accepted)
        (fun r' => accepted=true → r'.bridge.retryReq=false) fun _ => False) ∧
    ∀ q accepted,Offers r.bridge.curTick r.bridge.resps r.resps q →
      Post ({r with bridge := {r.bridge with resps := q} }.trySendResp P accepted)
        (fun r' => accepted=true → ¬r.bridge.reqQueueFull P → r'.bridge.retryReq=false) fun _ => False := by
  have hinv:=reachable_inv hedge hreq hresp h
  refine ⟨hinv.outstanding_eq,hinv.respLimit,hinv.reqLimit,Nat.le_trans hinv.held_le hinv.respLimit,
    ⟨hinv.reqs.kept,hinv.reqs.early⟩,⟨hinv.resps.kept,hinv.resps.early⟩,hinv.retry,hinv.live,hinv.reqs.waiting,hinv.resps.waiting,
    fun pkt => ?_,fun pkt hanswer => ?_,fun q accepted ho => ?_,fun q accepted ho => ?_⟩
  · exact (recvTimingReq_post hedge hreq hresp hinv pkt).imp fun _ _ => trivial
  · exact (recvTimingResp_post hedge hinv hanswer).imp fun _ _ => trivial
  · exact (trySendReq_post hedge hinv ho accepted).imp fun _ hr => hr.2
  · exact (trySendResp_post hedge hreq hinv ho accepted).imp fun _ hr => hr.2

def single : Params := ⟨1,1,1,fun t c => t+c⟩

theorem flow_control_single :
    ∃ r,Reachable single r ∧ r.bridge.retryReq=true ∧ r.bridge.reqs.transmitList.length≤1 ∧
      (r.bridge.retryReq=true → r.bridge.reqs.transmitList≠[] ∨ 0<r.bridge.outstandingResponses) := by
  have hfirst : Reachable single ⟨⟨0,⟨[⟨⟨0,true,false,0,0⟩,1⟩],some 1⟩,⟨[],none⟩,1,false⟩,⟨[⟨⟨0,true,false,0,0⟩,1⟩],[],false⟩,
      ⟨[],[],false⟩,[]⟩ := .recvTimingReq _ _ ⟨0,true,false,0,0⟩ .start rfl
  have hsecond : Reachable single ⟨⟨0,⟨[⟨⟨0,true,false,0,0⟩,1⟩],some 1⟩,⟨[],none⟩,1,true⟩,⟨[⟨⟨0,true,false,0,0⟩,1⟩],[],false⟩,
      ⟨[],[],false⟩,[.refused]⟩ := .recvTimingReq _ _ ⟨1,true,false,0,0⟩ hfirst rfl
  obtain ⟨_,_,hlimit,_,_,_,_,hlive,_⟩:=flow_control (fun t c => Nat.le_add_right t c) Nat.one_pos Nat.one_pos hsecond
  exact ⟨_,hsecond,rfl,hlimit,hlive⟩

end Bridge
end AquaGem5.Ports
