import Mathlib.Data.List.Nodup
import AquaGem5.Lib.Checked

/-!
# Crossbar layers (xbar.cc)

`releaseEvent` holds the tick the event is scheduled at. A call of `sendRetry` runs code of the
port, which may call the layer again, so `retryWaiting` is cut in two around it.
-/

namespace AquaGem5.Ports
open Checked List Option

namespace Layer

inductive State where
  | idle
  | busy
  | retry
  deriving DecidableEq

inductive Fault where
  | state
  /-- `assert(until != 0)`. -/
  | expressSnoop
  /-- The event queue's assertions on `schedule`. -/
  | schedule
  /-- The port is waiting already. -/
  | waitingAlready
  | waitingForPeer
  /-- `assert(!releaseEvent.scheduled())`. -/
  | scheduled
  /-- `assert(!waitingForLayer.empty())`. -/
  | nobodyWaiting
  deriving DecidableEq

end Layer

structure Layer (Port : Type) where
  state : Layer.State
  waitingForLayer : List Port
  waitingForPeer : Option Port
  releaseEvent : Option ℕ

namespace Layer

variable {Port : Type} [DecidableEq Port]

def new : Layer Port := ⟨.idle,[],none,none⟩

def occupyLayer (l : Layer Port) (curTick until_ : ℕ) : Except Fault (Layer Port) := do
  check (l.state = .busy) .state
  check (until_≠0) .expressSnoop
  check (curTick≤until_ ∧ l.releaseEvent=none) .schedule
  return {l with releaseEvent := some until_}

def tryTiming (l : Layer Port) (src_port : Port) : Except Fault (Bool × Layer Port) :=
  if l.state = .busy ∨ l.waitingForPeer≠none then do
    check (src_port∉l.waitingForLayer) .waitingAlready
    return (false,{l with waitingForLayer := l.waitingForLayer++[src_port]})
  else return (true,{l with state := .busy})

def succeededTiming (l : Layer Port) (curTick busy_time : ℕ) : Except Fault (Layer Port) := do
  check (l.state = .busy) .state
  l.occupyLayer curTick busy_time

def failedTiming (l : Layer Port) (src_port : Port) (curTick busy_time : ℕ) : Except Fault (Layer Port) := do
  check (l.waitingForPeer=none) .waitingForPeer
  let l := {l with waitingForPeer := some src_port}
  check (l.state = .busy) .state
  l.occupyLayer curTick busy_time

/-- `retryWaiting` up to its call of `sendRetry`, with the port that is to retry. -/
def retryWaiting (l : Layer Port) : Except Fault (Option Port × Layer Port) := do
  check (l.waitingForLayer≠[]) .nobodyWaiting
  check (l.state = .idle) .state
  return (l.waitingForLayer.head?,{l with state := .retry, waitingForLayer := l.waitingForLayer.tail})

/-- `retryWaiting` from the return of `sendRetry`. -/
def retryReturned (l : Layer Port) (curTick clockEdge : ℕ) : Except Fault (Layer Port) :=
  if l.state = .retry then {l with state := .busy}.occupyLayer curTick clockEdge else return l

def releaseLayer (l : Layer Port) : Except Fault (Option Port × Layer Port) := do
  check (l.state = .busy) .state
  check (l.releaseEvent=none) .scheduled
  let l := {l with state := .idle}
  if l.waitingForLayer≠[] ∧ l.waitingForPeer=none then l.retryWaiting else return (none,l)

def recvRetry (l : Layer Port) : Except Fault (Option Port × Layer Port) := do
  check (l.waitingForPeer≠none) .waitingForPeer
  let l := {l with waitingForLayer := l.waitingForPeer.toList++l.waitingForLayer, waitingForPeer := none}
  if l.state = .idle then l.retryWaiting else do
    check (l.state = .busy) .state
    return (none,l)

inductive Event (Port : Type) where
  | granted (p : Port)
  | refused (p : Port)
  /-- The peer refused the packet of the port. -/
  | failed (p : Port)
  | retried (p : Port)
  | peerRetry
  deriving DecidableEq

def refusals (log : List (Event Port)) (p : Port) : ℕ := log.count (.refused p)+log.count (.failed p)

def Event.refused? : Event Port → Option Port
  | .refused p => some p
  | _ => none

def Event.failed? : Event Port → Option Port
  | .failed p => some p
  | _ => none

/-- The ports of the events of one kind that had no retry since, in the order of the events. -/
def unanswered (kind : Event Port → Option Port) (log : List (Event Port)) : List Port :=
  log.foldl (fun ports e => match e with
    | .retried p => ports.erase p
    | e => ports++(kind e).toList) []

/-- A layer between two events: `retrying` is the port whose `sendRetry` has not returned, and
`granted` the one whose packet is on its way to the peer. -/
structure Run (Port : Type) where
  layer : Layer Port
  curTick : ℕ
  retrying : Option Port
  granted : Option Port
  log : List (Event Port)

namespace Run

def start : Run Port := ⟨new,0,none,none,[]⟩

def tryTiming (r : Run Port) (p : Port) : Except Fault (Run Port) := do
  let (success,l) ← r.layer.tryTiming p
  if success then return {r with layer := l, granted := some p, log := r.log++[.granted p]}
  else return {r with layer := l, log := r.log++[.refused p]}

def succeededTiming (r : Run Port) (busy_time : ℕ) : Except Fault (Run Port) := do
  let l ← r.layer.succeededTiming r.curTick busy_time
  return {r with layer := l, granted := none}

def failedTiming (r : Run Port) (p : Port) (busy_time : ℕ) : Except Fault (Run Port) := do
  let l ← r.layer.failedTiming p r.curTick busy_time
  return {r with layer := l, granted := none, log := r.log++[.failed p]}

def retry (r : Run Port) (next : Option Port × Layer Port) : Run Port :=
  {r with layer := next.2, retrying := next.1.or r.retrying, log := r.log++next.1.toList.map .retried}

def releaseLayer (r : Run Port) : Except Fault (Run Port) := do
  let next ← {r.layer with releaseEvent := none}.releaseLayer
  return r.retry next

def recvRetry (r : Run Port) : Except Fault (Run Port) := do
  let next ← r.layer.recvRetry
  return {r with log := r.log++[Event.peerRetry]}.retry next

def retryReturned (r : Run Port) (clockEdge : ℕ) : Except Fault (Run Port) := do
  let l ← r.layer.retryReturned r.curTick clockEdge
  return {r with layer := l, retrying := none}

/-- A port may send when every refusal it had was followed by a retry, and not while it is sending. -/
def MaySend (r : Run Port) (p : Port) : Prop := refusals r.log p=r.log.count (.retried p) ∧ r.granted≠some p

/-- The peer sends one retry for each packet it refused. -/
def PeerOwes (r : Run Port) : Prop := r.log.count Event.peerRetry<(r.log.filterMap Event.failed?).length

def Between (r : Run Port) : Prop := r.retrying=none ∧ r.granted=none

end Run

inductive Reachable (clockEdge : ℕ → ℕ) : Run Port → Prop
  | start : Reachable clockEdge .start
  | tryTiming (r r' : Run Port) (p : Port) : Reachable clockEdge r → r.MaySend p → r.tryTiming p = .ok r' →
      Reachable clockEdge r'
  | succeededTiming (r r' : Run Port) (p : Port) (busy_time : ℕ) : Reachable clockEdge r → r.granted=some p →
      0<busy_time → r.curTick≤busy_time → r.succeededTiming busy_time = .ok r' → Reachable clockEdge r'
  | failedTiming (r r' : Run Port) (p : Port) (busy_time : ℕ) : Reachable clockEdge r → r.granted=some p →
      0<busy_time → r.curTick≤busy_time → r.failedTiming p busy_time = .ok r' → Reachable clockEdge r'
  | releaseLayer (r r' : Run Port) : Reachable clockEdge r → r.Between → r.layer.releaseEvent=some r.curTick →
      r.releaseLayer = .ok r' → Reachable clockEdge r'
  | recvRetry (r r' : Run Port) : Reachable clockEdge r → r.PeerOwes → r.recvRetry = .ok r' → Reachable clockEdge r'
  | retryReturned (r r' : Run Port) (p : Port) : Reachable clockEdge r → r.retrying=some p → r.granted=none →
      r.retryReturned (clockEdge r.curTick) = .ok r' → Reachable clockEdge r'
  | tick (r : Run Port) (t : ℕ) : Reachable clockEdge r → r.Between → r.curTick≤t →
      (∀ w∈r.layer.releaseEvent,t≤w) → Reachable clockEdge {r with curTick := t}

section Log

variable (kind : Event Port → Option Port) (log : List (Event Port)) (p : Port)

theorem unanswered_retried : unanswered kind (log++[.retried p])=(unanswered kind log).erase p := by
  rw [unanswered,foldl_append]
  rfl

theorem unanswered_snoc {e : Event Port} (he : ∀ p,e ≠ .retried p) :
    unanswered kind (log++[e])=unanswered kind log++(kind e).toList := by
  rw [unanswered,foldl_append]
  cases e with
  | retried p => exact absurd rfl (he p)
  | granted p | refused p | failed p | peerRetry => rfl

end Log

def queue (waitingForPeer : Option Port) (waitingForLayer : List Port) : List Port :=
  waitingForPeer.toList++waitingForLayer

structure Owed (waitingForPeer : Option Port) (waitingForLayer : List Port) (log : List (Event Port)) : Prop where
  queue : queue waitingForPeer waitingForLayer=unanswered Event.failed? log++unanswered Event.refused? log
  peer : ∀ p∈waitingForPeer,unanswered Event.failed? log=[p]
  single : (unanswered Event.failed? log).length≤1
  nodup : (Layer.queue waitingForPeer waitingForLayer).Nodup
  refusals : ∀ p,refusals log p=log.count (.retried p)+(Layer.queue waitingForPeer waitingForLayer).count p
  failures : (log.filterMap Event.failed?).length=log.count Event.peerRetry+waitingForPeer.toList.length
  order : ∀ before p after,log=before ++ .retried p::after →
    (unanswered Event.failed? before++unanswered Event.refused? before).head?=some p

variable {peer : Option Port} {waiting rest : List Port} {log : List (Event Port)} {p : Port}

theorem order_snoc {e : Event Port} (h : Owed peer waiting log) (he : ∀ p,e ≠ .retried p) (before : List (Event Port))
    (p : Port) (after : List (Event Port)) (heq : log++[e]=before ++ .retried p::after) :
    (unanswered Event.failed? before++unanswered Event.refused? before).head?=some p := by
  rcases eq_nil_or_concat after with rfl | ⟨after,last,rfl⟩
  · obtain ⟨_,hlast⟩:=append_inj' heq rfl
    cases hlast
    exact absurd rfl (he p)
  · rw [concat_eq_append,← cons_append,← append_assoc] at heq
    exact h.order before p after (append_inj' heq rfl).1

theorem Owed.grant (h : Owed peer waiting log) (p : Port) : Owed peer waiting (log++[.granted p]) := by
  have hsame : ∀ kind : Event Port → Option Port,kind (.granted p)=none →
      unanswered kind (log++[.granted p])=unanswered kind log := fun kind hk => by
    rw [unanswered_snoc kind log (by simp),hk,toList_none,append_nil]
  constructor
  · rw [hsame _ rfl,hsame _ rfl]
    exact h.queue
  · rw [hsame _ rfl]
    exact h.peer
  · rw [hsame _ rfl]
    exact h.single
  · exact h.nodup
  · intro q
    have hq:=h.refusals q
    simp only [Layer.refusals,count_append] at hq ⊢
    simpa using hq
  · have hf:=h.failures
    simpa [Event.failed?,filterMap_cons] using hf
  · exact order_snoc h (by simp)

theorem Owed.refuse (h : Owed peer waiting log) (hp : p∉Layer.queue peer waiting) :
    Owed peer (waiting++[p]) (log++[.refused p]) := by
  have hline : Layer.queue peer (waiting++[p])=Layer.queue peer waiting++[p] := by rw [Layer.queue,Layer.queue,append_assoc]
  have hfailed : unanswered Event.failed? (log++[.refused p])=unanswered Event.failed? log := by
    rw [unanswered_snoc _ log (by simp)]
    exact append_nil _
  constructor
  · rw [hline,h.queue,hfailed,unanswered_snoc _ log (by simp),append_assoc]
    rfl
  · rw [hfailed]
    exact h.peer
  · rw [hfailed]
    exact h.single
  · rw [hline]
    exact nodup_append.mpr ⟨h.nodup,nodup_singleton p,fun q hq q' hq' hsame => by
      rw [hsame,mem_singleton.mp hq'] at hq
      exact hp hq⟩
  · intro q
    have hq:=h.refusals q
    simp only [Layer.refusals,hline,count_append] at hq ⊢
    by_cases heq : p=q
    · rw [heq]
      simp
      omega
    · simp [heq]
      omega
  · have hf:=h.failures
    simpa [Event.failed?,filterMap_cons] using hf
  · exact order_snoc h (by simp)

theorem Owed.fail (h : Owed none waiting log) (hfailed : unanswered Event.failed? log=[]) (hp : p∉waiting) :
    Owed (some p) waiting (log++[.failed p]) := by
  have hfirst : unanswered Event.failed? (log++[.failed p])=[p] := by
    rw [unanswered_snoc _ log (by simp),hfailed]
    rfl
  have hline:=h.queue
  rw [hfailed] at hline
  constructor
  · rw [hfirst,unanswered_snoc _ log (by simp)]
    exact congrArg (p::·) (hline.trans (append_nil _).symm)
  · intro q hq
    cases hq
    exact hfirst
  · rw [hfirst,length_singleton]
  · exact nodup_cons.mpr ⟨hp,h.nodup⟩
  · intro q
    have hq:=h.refusals q
    simp only [Layer.refusals,Layer.queue,count_append,toList_none,toList_some,count_nil] at hq ⊢
    by_cases heq : p=q
    · rw [heq]
      simp
      omega
    · simp [heq]
      omega
  · have hf:=h.failures
    simp only [filterMap_append,length_append,hf,count_append]
    simp [Event.failed?]
  · exact order_snoc h (by simp)

theorem Owed.peerRetry (h : Owed (some p) waiting log) : Owed none (p::waiting) (log++[.peerRetry]) := by
  have hsame : ∀ kind : Event Port → Option Port,kind .peerRetry=none →
      unanswered kind (log++[.peerRetry])=unanswered kind log := fun kind hk => by
    rw [unanswered_snoc kind log (by simp),hk,toList_none,append_nil]
  constructor
  · rw [hsame _ rfl,hsame _ rfl]
    exact h.queue
  · intro q hq
    cases hq
  · rw [hsame _ rfl]
    exact h.single
  · exact h.nodup
  · intro q
    have hq:=h.refusals q
    simp only [Layer.refusals,count_append] at hq ⊢
    simpa [Layer.queue] using hq
  · have hf:=h.failures
    simp only [filterMap_append,length_append,hf,count_append]
    simp [Event.failed?,filterMap_cons]
  · exact order_snoc h (by simp)

theorem erase_first {xs ys : List Port} (h : xs++ys=p::rest) (hp : p∉rest) : xs.erase p++ys.erase p=rest := by
  cases xs with
  | nil =>
    rw [nil_append] at h
    rw [h,erase_nil,nil_append,erase_cons_head]
  | cons x xs =>
    rw [cons_append,List.cons.injEq] at h
    obtain ⟨rfl,rfl⟩:=h
    rw [erase_cons_head,erase_of_not_mem fun hin => hp (mem_append_right _ hin)]

theorem Owed.no_failure (h : Owed none (p::rest) log) : unanswered Event.failed? (log++[.retried p])=[] := by
  have hqueue : unanswered Event.failed? log++unanswered Event.refused? log=p::rest := h.queue.symm
  have hsingle:=h.single
  rw [unanswered_retried]
  cases hf : unanswered Event.failed? log with
  | nil => rfl
  | cons x xs =>
    rw [hf,cons_append,List.cons.injEq] at hqueue
    rw [hf,length_cons] at hsingle
    rw [hqueue.1,erase_cons_head]
    exact length_eq_zero_iff.mp (by omega)

theorem Owed.retry (h : Owed none (p::rest) log) : Owed none rest (log++[.retried p]) := by
  obtain ⟨hnot,hnodup⟩:=nodup_cons.mp h.nodup
  have hline : unanswered Event.failed? log++unanswered Event.refused? log=p::rest := h.queue.symm
  constructor
  · rw [unanswered_retried,unanswered_retried,erase_first hline hnot]
    rfl
  · intro q hq
    cases hq
  · rw [h.no_failure]
    exact Nat.zero_le 1
  · exact hnodup
  · intro q
    have hq:=h.refusals q
    simp only [Layer.refusals,Layer.queue,count_append,toList_none,count_nil,count_cons] at hq ⊢
    by_cases heq : p=q
    · rw [heq] at hq ⊢
      simp at hq ⊢
      omega
    · simp [heq] at hq ⊢
      omega
  · have hf:=h.failures
    simpa [Event.failed?,filterMap_cons] using hf
  · intro before q after heq
    rcases eq_nil_or_concat after with rfl | ⟨after,last,rfl⟩
    · obtain ⟨rfl,hlast⟩:=append_inj' heq rfl
      cases hlast
      rw [hline,head?_cons]
    · rw [concat_eq_append,← cons_append,← append_assoc] at heq
      exact h.order before q after (append_inj' heq rfl).1

structure Phase (r : Run Port) : Prop where
  idle : r.layer.state = .idle → r.Between ∧ r.layer.releaseEvent=none ∧
    (r.layer.waitingForPeer=none → r.layer.waitingForLayer=[]) ∧ (r.layer.waitingForPeer≠none → 0<r.curTick)
  retry : r.layer.state = .retry → r.retrying≠none ∧ r.granted=none ∧ r.layer.releaseEvent=none ∧
    r.layer.waitingForPeer=none ∧ unanswered Event.failed? r.log=[] ∧ 0<r.curTick
  busy : r.layer.state = .busy → r.granted=none → ∃ t,r.layer.releaseEvent=some t ∧ 0<t ∧ r.curTick≤t
  granted : ∀ p∈r.granted,r.layer.state = .busy ∧ r.layer.releaseEvent=none ∧ r.layer.waitingForPeer=none ∧
    unanswered Event.failed? r.log=[] ∧ p∉r.layer.waitingForLayer

structure Inv (r : Run Port) : Prop where
  owed : Owed r.layer.waitingForPeer r.layer.waitingForLayer r.log
  phase : Phase r

variable {r : Run Port}

theorem Inv.not_mem (h : Inv r) (hp : r.MaySend p) : p∉Layer.queue r.layer.waitingForPeer r.layer.waitingForLayer := by
  have hcount:=h.owed.refusals p
  rw [hp.1] at hcount
  exact count_eq_zero.mp (by omega)

theorem Inv.no_failure (h : Inv r) (hstate : r.layer.state ≠ .busy) (hpeer : r.layer.waitingForPeer=none) :
    unanswered Event.failed? r.log=[] := by
  cases hs : r.layer.state with
  | busy => exact absurd hs hstate
  | retry => exact (h.phase.retry hs).2.2.2.2.1
  | idle =>
    have hqueue:=h.owed.queue
    rw [hpeer,(h.phase.idle hs).2.2.1 hpeer] at hqueue
    exact (append_eq_nil_iff.mp hqueue.symm).1

theorem tryTiming_post (h : Inv r) (hp : r.MaySend p) :
    Post (r.tryTiming p) (fun r' => Inv r' ∧ (r'.granted=some p → r.granted=none ∧
      (r.layer.state = .idle ∨ r.layer.state = .retry ∧ r.retrying≠none))) fun _ => False := by
  have hnot:=h.not_mem hp
  simp only [Run.tryTiming,Layer.tryTiming,post_bind]
  split
  next hblocked =>
    simp only [post_bind,post_check,post_pure]
    refine ⟨fun hfree => ⟨⟨h.owed.refuse hnot,?_⟩,fun hgranted => absurd hgranted hp.2⟩,
      fun hin => hnot (mem_append_right _ (not_not.mp hin))⟩
    have hfailed : unanswered Event.failed? (r.log++[.refused p])=unanswered Event.failed? r.log := by
      rw [unanswered_snoc _ r.log (by simp)]
      exact append_nil _
    constructor
    · intro hidle
      obtain ⟨hbetween,hevent,_,hpos⟩:=h.phase.idle hidle
      refine ⟨hbetween,hevent,fun hpeer => ?_,hpos⟩
      cases hblocked with
      | inl hbusy => rw [hbusy] at hidle; cases hidle
      | inr hwaiting => exact absurd hpeer hwaiting
    · intro hretry
      obtain ⟨hretrying,hgranted,hevent,hpeer,hfailures,hpos⟩:=h.phase.retry hretry
      exact ⟨hretrying,hgranted,hevent,hpeer,hfailed.trans hfailures,hpos⟩
    · exact h.phase.busy
    · intro q hq
      obtain ⟨hbusy,hevent,hpeer,hfailures,hout⟩:=h.phase.granted q hq
      refine ⟨hbusy,hevent,hpeer,hfailed.trans hfailures,fun hin => ?_⟩
      cases mem_append.mp hin with
      | inl hin => exact hout hin
      | inr hin =>
        rw [mem_singleton.mp hin] at hq
        exact hp.2 hq
  next hopen =>
    obtain ⟨hstate,hpeer⟩:=not_or.mp hopen
    rw [ne_eq,not_not] at hpeer
    have hfailures:=h.no_failure hstate hpeer
    have hfree : r.granted=none ∧ r.layer.releaseEvent=none ∧
        (r.layer.state = .idle ∨ r.layer.state = .retry ∧ r.retrying≠none) := by
      cases hs : r.layer.state with
      | busy => exact absurd hs hstate
      | idle =>
        obtain ⟨hbetween,hevent,_⟩:=h.phase.idle hs
        exact ⟨hbetween.2,hevent,.inl rfl⟩
      | retry =>
        obtain ⟨hretrying,hgranted,hevent,_⟩:=h.phase.retry hs
        exact ⟨hgranted,hevent,.inr ⟨rfl,hretrying⟩⟩
    refine ⟨⟨h.owed.grant p,⟨fun hs => (by cases hs),fun hs => (by cases hs),fun _ hno => (by cases hno),fun q hq => ?_⟩⟩,
      fun _ => ⟨hfree.1,hfree.2.2⟩⟩
    cases hq
    refine ⟨rfl,hfree.2.1,hpeer,?_,fun hin => hnot (mem_append_right _ hin)⟩
    rw [unanswered_snoc _ r.log (by simp),hfailures]
    rfl

theorem succeededTiming_post {busy_time : ℕ} (h : Inv r) (hp : r.granted=some p) (hpos : 0<busy_time)
    (hlate : r.curTick≤busy_time) : Post (r.succeededTiming busy_time) Inv fun _ => False := by
  obtain ⟨hbusy,hevent,_⟩:=h.phase.granted p hp
  simp only [Run.succeededTiming,Layer.succeededTiming,Layer.occupyLayer,post_bind,post_check,post_pure]
  refine ⟨fun _ => ⟨fun _ => ⟨fun _ => ⟨fun _ => ⟨h.owed,?_⟩,fun hno => hno ⟨hlate,hevent⟩⟩,fun hno => hno (by omega)⟩,
    fun hno => hno hbusy⟩,fun hno => hno hbusy⟩
  refine ⟨fun hs => ?_,fun hs => ?_,fun _ _ => ⟨busy_time,rfl,hpos,hlate⟩,fun q hq => (by cases hq)⟩
  · cases hbusy.symm.trans hs
  · cases hbusy.symm.trans hs

theorem failedTiming_post {busy_time : ℕ} (h : Inv r) (hp : r.granted=some p) (hpos : 0<busy_time)
    (hlate : r.curTick≤busy_time) : Post (r.failedTiming p busy_time) Inv fun _ => False := by
  obtain ⟨hbusy,hevent,hpeer,hfailures,hout⟩:=h.phase.granted p hp
  simp only [Run.failedTiming,Layer.failedTiming,Layer.occupyLayer,post_bind,post_check,post_pure]
  refine ⟨fun _ => ⟨fun _ => ⟨fun _ => ⟨fun _ => ⟨fun _ => ⟨?_,?_⟩,fun hno => hno ⟨hlate,hevent⟩⟩,
    fun hno => hno (by omega)⟩,fun hno => hno hbusy⟩,fun hno => hno hbusy⟩,fun hno => hno hpeer⟩
  · have howed:=h.owed
    rw [hpeer] at howed
    exact howed.fail hfailures hout
  · refine ⟨fun hs => ?_,fun hs => ?_,fun _ _ => ⟨busy_time,rfl,hpos,hlate⟩,fun q hq => (by cases hq)⟩
    · cases hbusy.symm.trans hs
    · cases hbusy.symm.trans hs

theorem retryWaiting_post (howed : Owed none waiting r.log) (hbetween : r.Between) (hpos : 0<r.curTick)
    (hwaiting : waiting≠[]) :
    Post ((⟨.idle,waiting,none,none⟩ : Layer Port).retryWaiting) (fun next => Inv (r.retry next)) fun _ => False := by
  obtain ⟨p,rest,rfl⟩:=exists_cons_of_ne_nil hwaiting
  simp only [retryWaiting,post_bind,post_check,post_pure]
  refine ⟨fun _ => ⟨fun _ => ⟨howed.retry,?_⟩,fun hno => hno trivial⟩,fun hno => hno hwaiting⟩
  exact ⟨fun hs => (by cases hs),fun _ => ⟨by simp [Run.retry],hbetween.2,rfl,rfl,howed.no_failure,hpos⟩,fun hs => (by cases hs),
    fun q hq => absurd hq (by simp [Run.retry,hbetween.2])⟩

theorem releaseLayer_post (h : Inv r) (hbetween : r.Between) (hevent : r.layer.releaseEvent=some r.curTick) :
    Post r.releaseLayer Inv fun _ => False := by
  have hbusy : r.layer.state = .busy := by
    cases hs : r.layer.state with
    | busy => rfl
    | idle =>
      rw [(h.phase.idle hs).2.1] at hevent
      cases hevent
    | retry =>
      rw [(h.phase.retry hs).2.2.1] at hevent
      cases hevent
  have hpos : 0<r.curTick := by
    obtain ⟨t,ht,hpos,_⟩:=h.phase.busy hbusy hbetween.2
    rw [ht] at hevent
    cases hevent
    exact hpos
  simp only [Run.releaseLayer,Layer.releaseLayer,post_bind,post_check]
  refine ⟨fun _ => ⟨fun _ => ?_,fun hno => hno trivial⟩,fun hno => hno hbusy⟩
  split
  next hturn =>
    obtain ⟨hwaiting,hpeer⟩:=hturn
    have howed:=h.owed
    rw [hpeer] at howed ⊢
    exact retryWaiting_post howed hbetween hpos hwaiting
  next hquiet =>
    refine ⟨?_,⟨fun _ => ⟨hbetween,rfl,fun hpeer => ?_,fun _ => hpos⟩,fun hs => (by cases hs),fun hs => (by cases hs),
      fun p hp => ?_⟩⟩
    · have howed:=h.owed
      simpa [Run.retry] using howed
    · by_contra hwaiting
      exact hquiet ⟨hwaiting,hpeer⟩
    · have hp' : r.granted=some p := hp
      rw [hbetween.2] at hp'
      cases hp'

theorem Inv.peerOwes (h : Inv r) : r.PeerOwes ↔ r.layer.waitingForPeer≠none := by
  rw [Run.PeerOwes,h.owed.failures]
  cases r.layer.waitingForPeer with
  | none | some p => simp

theorem recvRetry_post (h : Inv r) (howes : r.PeerOwes) : Post r.recvRetry Inv fun _ => False := by
  have hpeer:=h.peerOwes.mp howes
  obtain ⟨p,hp⟩:=ne_none_iff_exists'.mp hpeer
  have howed:=h.owed
  rw [hp] at howed
  have hback:=howed.peerRetry
  simp only [Run.recvRetry,Layer.recvRetry,post_bind,post_check]
  refine ⟨fun _ => ?_,fun hno => hno hpeer⟩
  rw [hp,toList_some,singleton_append]
  split
  next hidle =>
    obtain ⟨hbetween,hevent,_,hpos⟩:=h.phase.idle hidle
    rw [hidle,hevent]
    exact retryWaiting_post (r := {r with log := r.log++[.peerRetry]}) hback hbetween (hpos hpeer) (by simp)
  next hbusy =>
    simp only [post_bind,post_check,post_pure]
    have hstate : r.layer.state = .busy := by
      cases hs : r.layer.state with
      | busy => rfl
      | idle => exact absurd hs hbusy
      | retry => exact absurd (h.phase.retry hs).2.2.2.1 hpeer
    refine ⟨fun _ => ⟨?_,⟨fun hs => ?_,fun hs => ?_,h.phase.busy,fun q hq => ?_⟩⟩,fun hno => hno hstate⟩
    · simpa [Run.retry] using hback
    · exact absurd hs hbusy
    · cases hstate.symm.trans hs
    · exact absurd (h.phase.granted q hq).2.2.1 hpeer

theorem retryReturned_post {clockEdge : ℕ} (h : Inv r) (hgranted : r.granted=none) (hedge : r.curTick≤clockEdge) :
    Post (r.retryReturned clockEdge) Inv fun _ => False := by
  simp only [Run.retryReturned,Layer.retryReturned,post_bind]
  split
  next hretry =>
    obtain ⟨_,_,hevent,_,_,hpos⟩:=h.phase.retry hretry
    simp only [occupyLayer,post_bind,post_check,post_pure]
    refine ⟨fun _ => ⟨fun _ => ⟨fun _ => ⟨h.owed,?_⟩,fun hno => hno ⟨hedge,hevent⟩⟩,fun hno => hno (by omega)⟩,
      fun hno => hno trivial⟩
    exact ⟨fun hs => (by cases hs),fun hs => (by cases hs),fun _ _ => ⟨clockEdge,rfl,Nat.lt_of_lt_of_le hpos hedge,hedge⟩,
      fun q hq => absurd hq (by simp [hgranted])⟩
  next hleft =>
    refine ⟨h.owed,⟨fun hs => ?_,fun hs => absurd hs hleft,h.phase.busy,h.phase.granted⟩⟩
    obtain ⟨_,hrest⟩:=h.phase.idle hs
    exact ⟨⟨rfl,hgranted⟩,hrest⟩

variable {clockEdge : ℕ → ℕ}

theorem reachable_inv (hedge : ∀ t,t≤clockEdge t) (h : Reachable clockEdge r) : Inv r := by
  induction h with
  | start =>
    refine ⟨⟨rfl,fun p hp => (by cases hp),Nat.zero_le 1,.nil,fun p => rfl,rfl,fun before p after heq => ?_⟩,
      ⟨fun _ => ⟨⟨rfl,rfl⟩,rfl,fun _ => rfl,fun hno => absurd rfl hno⟩,fun hs => (by cases hs),fun hs => (by cases hs),
        fun p hp => (by cases hp)⟩⟩
    exact absurd heq (by simp [Run.start])
  | tryTiming r r' p _ hp hcall ih => exact ((tryTiming_post ih hp).of_ok hcall).1
  | succeededTiming r r' p busy_time _ hp hpos hlate hcall ih => exact (succeededTiming_post ih hp hpos hlate).of_ok hcall
  | failedTiming r r' p busy_time _ hp hpos hlate hcall ih => exact (failedTiming_post ih hp hpos hlate).of_ok hcall
  | releaseLayer r r' _ hbetween hevent hcall ih => exact (releaseLayer_post ih hbetween hevent).of_ok hcall
  | recvRetry r r' _ howes hcall ih => exact (recvRetry_post ih howes).of_ok hcall
  | retryReturned r r' p _ _ hgranted hcall ih => exact (retryReturned_post ih hgranted (hedge r.curTick)).of_ok hcall
  | tick r t _ hbetween hle hevent ih =>
    refine ⟨ih.owed,⟨fun hs => ?_,fun hs => ?_,fun hs hgranted => ?_,ih.phase.granted⟩⟩
    · obtain ⟨hb,hnone,hempty,hpos⟩:=ih.phase.idle hs
      exact ⟨hb,hnone,hempty,fun hno => Nat.lt_of_lt_of_le (hpos hno) hle⟩
    · exact absurd hbetween.1 (ih.phase.retry hs).1
    · obtain ⟨w,hw,hpos,_⟩:=ih.phase.busy hs hgranted
      exact ⟨w,hw,hpos,hevent w hw⟩

/-- No assertion fails; a port is granted by an idle layer or during a retry, and alone; each refusal has had
its retry or is still waiting for it, in the order of the refusals behind a failure at the peer; and the
layer comes back by itself, or by the retry its peer owes. -/
theorem arbitration (hedge : ∀ t,t≤clockEdge t) (h : Reachable clockEdge r) :
    (∀ p,r.MaySend p → Post (r.tryTiming p) (fun r' => r'.granted=some p → r.granted=none ∧
      (r.layer.state = .idle ∨ r.layer.state = .retry ∧ r.retrying≠none)) fun _ => False) ∧
    (∀ p busy_time,r.granted=some p → 0<busy_time → r.curTick≤busy_time →
      Post (r.succeededTiming busy_time) (fun _ => True) (fun _ => False) ∧
      Post (r.failedTiming p busy_time) (fun _ => True) fun _ => False) ∧
    (r.Between → r.layer.releaseEvent=some r.curTick → Post r.releaseLayer (fun _ => True) fun _ => False) ∧
    (r.PeerOwes → Post r.recvRetry (fun _ => True) fun _ => False) ∧
    (r.retrying≠none → r.granted=none → Post (r.retryReturned (clockEdge r.curTick)) (fun _ => True) fun _ => False) ∧
    (∀ p,refusals r.log p=r.log.count (.retried p)+(queue r.layer.waitingForPeer r.layer.waitingForLayer).count p) ∧
    (queue r.layer.waitingForPeer r.layer.waitingForLayer).Nodup ∧
    (∀ before p after,r.log=before ++ .retried p::after →
      (unanswered Event.failed? before++unanswered Event.refused? before).head?=some p) ∧
    (r.layer.releaseEvent≠none ↔ r.layer.state = .busy ∧ r.granted=none) ∧
    (r.layer.state = .idle → r.layer.waitingForPeer=none → r.layer.waitingForLayer=[]) := by
  have hinv:=reachable_inv hedge h
  refine ⟨fun p hp => (tryTiming_post hinv hp).imp fun _ hr => hr.2,fun p t hp hpos hlate => ⟨?_,?_⟩,
    fun hbetween hevent => ?_,fun howes => ?_,fun _ hgranted => ?_,hinv.owed.refusals,hinv.owed.nodup,hinv.owed.order,
    ⟨fun hevent => ?_,fun hbusy => ?_⟩,fun hs => (hinv.phase.idle hs).2.2.1⟩
  · exact (succeededTiming_post hinv hp hpos hlate).imp fun _ _ => trivial
  · exact (failedTiming_post hinv hp hpos hlate).imp fun _ _ => trivial
  · exact (releaseLayer_post hinv hbetween hevent).imp fun _ _ => trivial
  · exact (recvRetry_post hinv howes).imp fun _ _ => trivial
  · exact (retryReturned_post hinv hgranted (hedge r.curTick)).imp fun _ _ => trivial
  · refine ⟨?_,?_⟩
    · cases hs : r.layer.state with
      | busy => rfl
      | idle => exact absurd (hinv.phase.idle hs).2.1 hevent
      | retry => exact absurd (hinv.phase.retry hs).2.2.1 hevent
    · cases hg : r.granted with
      | none => rfl
      | some p => exact absurd (hinv.phase.granted p hg).2.1 hevent
  · obtain ⟨t,ht,_⟩:=hinv.phase.busy hbusy.1 hbusy.2
    rw [ht]
    exact Option.some_ne_none t

def sending : Run ℕ := ⟨⟨.busy,[],none,none⟩,0,none,some 0,[.granted 0]⟩

theorem reachable_sending : Reachable id sending := .tryTiming _ _ 0 .start ⟨rfl,by decide⟩ rfl

def retryingPort : Run ℕ := ⟨⟨.retry,[],none,none⟩,1,some 1,none,[.granted 0,.refused 1,.retried 1]⟩

theorem reachable_retryingPort : Reachable id retryingPort := by
  have hoccupied : Reachable id ⟨⟨.busy,[],none,some 1⟩,0,none,none,[.granted 0]⟩ :=
    .succeededTiming _ _ 0 1 reachable_sending rfl Nat.one_pos (Nat.zero_le 1) rfl
  have hrefused : Reachable id ⟨⟨.busy,[1],none,some 1⟩,0,none,none,[.granted 0,.refused 1]⟩ :=
    .tryTiming _ _ 1 hoccupied ⟨rfl,by decide⟩ rfl
  have hdue:=Reachable.tick _ 1 hrefused ⟨rfl,rfl⟩ (Nat.zero_le 1) fun w hw => (by cases hw; exact Nat.le_refl 1)
  exact .releaseLayer _ _ hdue ⟨rfl,rfl⟩ rfl rfl

theorem arbitration_retryingPort : refusals retryingPort.log 1=retryingPort.log.count (.retried 1)+0 := by
  obtain ⟨_,_,_,_,_,hcount,_⟩:=arbitration (fun t => Nat.le_refl t) reachable_retryingPort
  exact hcount 1

/-- A layer that forwards a packet is busy without its event, and a port that calls while another
one retries is granted in its place. -/
theorem not_arbitration :
    (¬∀ r : Run ℕ,Reachable id r → (r.layer.releaseEvent≠none ↔ r.layer.state = .busy)) ∧
      ¬∀ (r r' : Run ℕ) (p : ℕ),Reachable id r → r.MaySend p → r.tryTiming p = .ok r' → r'.granted=some p →
        r.layer.state = .idle ∨ r.retrying=some p := by
  refine ⟨fun h => ?_,fun h => ?_⟩
  · exact (h sending reachable_sending).mpr rfl rfl
  · cases h retryingPort _ 2 reachable_retryingPort ⟨rfl,by decide⟩ rfl rfl with
    | inl hidle => cases hidle
    | inr hport => exact absurd hport (by decide)

end Layer
end AquaGem5.Ports
