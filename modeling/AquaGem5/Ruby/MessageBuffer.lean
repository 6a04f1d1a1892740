import Mathlib.Algebra.Order.Group.Multiset
import Mathlib.Data.List.Sort
import Mathlib.Tactic.Abel
import AquaGem5.Lib.Checked

/-!
# Message buffers (MessageBuffer.cc, Message.hh)

The heap is kept as the list of its messages from the front: all that is used of `push_heap` and
`pop_heap` is that the front is the least message. The consumer's events and the statistics are
left out.
-/

namespace AquaGem5.Ruby
open Checked List

structure Message where
  id : ℕ
  lastEnqueueTime : ℕ
  delayedTicks : ℕ
  msgCounter : ℕ

namespace MessageBuffer

inductive Fault where
  /-- `assert(isReady(current_time))`. -/
  | notReady
  /-- `assert(getOffset(addr) == 0)`. -/
  | offset
  /-- `assert(delta > 0)`, or the one on the arrival time. -/
  | delta
  /-- `panic("FIFO ordering violated")`. -/
  | fifo
  /-- A message is used before it arrived. -/
  | lastEnqueueTime
  /-- `assert(m_stall_map_size >= 0)`. -/
  | stallMapSize
  /-- `assert(m_stall_msg_map.count(addr) > 0)`. -/
  | notStalled

structure Params where
  maxSize : ℕ
  strictFifo : Bool
  warmupEnabled : Bool
  blockSizeBits : ℕ

end MessageBuffer

structure MessageBuffer where
  prioHeap : List Message
  stallMsgMap : List (ℕ × List Message)
  stallMapSize : ℤ
  timeLastTimeEnqueue : ℕ
  timeLastTimePop : ℕ
  lastArrivalTime : ℕ
  sizeAtCycleStart : ℕ
  stalledAtCycleStart : ℕ
  msgsThisCycle : ℕ
  msgCounter : ℕ

/-- `operator>` on messages. -/
def Message.greater (l r : Message) : Prop :=
  if l.lastEnqueueTime=r.lastEnqueueTime then l.msgCounter>r.msgCounter
  else l.lastEnqueueTime>r.lastEnqueueTime

instance (l r : Message) : Decidable (l.greater r) := inferInstanceAs (Decidable (ite _ _ _))

def Message.updateDelayedTicks (m : Message) (curTime : ℕ) : Except MessageBuffer.Fault Message := do
  check (m.lastEnqueueTime≤curTime) .lastEnqueueTime
  return {m with delayedTicks := m.delayedTicks+(curTime-m.lastEnqueueTime)}

namespace MessageBuffer

def new : MessageBuffer := ⟨[],[],0,0,0,0,0,0,0,0⟩

def NotGreater (l r : Message) : Prop := ¬l.greater r

instance : DecidableRel NotGreater := fun l r => inferInstanceAs (Decidable (¬l.greater r))

def pushHeap (m : Message) (heap : List Message) : List Message := heap.orderedInsert NotGreater m

def isReady (b : MessageBuffer) (current_time : ℕ) : Prop :=
  ∃ m∈b.prioHeap.head?,m.lastEnqueueTime≤current_time

instance (b : MessageBuffer) (t : ℕ) : Decidable (b.isReady t) :=
  decidable_of_iff (b.prioHeap.head?.any fun m => decide (m.lastEnqueueTime≤t)) (by
    cases h : b.prioHeap.head? <;> simp [isReady,h])

variable (P : Params)

def areNSlotsAvailable (b : MessageBuffer) (n current_time : ℕ) : Bool :=
  if P.maxSize=0 then true
  else
    let sizes : ℕ × ℕ :=
      if b.timeLastTimePop<current_time then (b.prioHeap.length,b.stallMapSize.toNat)
      else if b.timeLastTimeEnqueue<current_time then (b.sizeAtCycleStart,b.stalledAtCycleStart)
      else (b.sizeAtCycleStart+b.msgsThisCycle,b.stalledAtCycleStart)
    decide (sizes.1+sizes.2+n≤P.maxSize)

/-- The first message of a cycle starts the count anew. -/
def countMsg (b : MessageBuffer) (current_time : ℕ) : MessageBuffer :=
  if b.timeLastTimeEnqueue<current_time then
    {b with msgsThisCycle := 1, timeLastTimeEnqueue := current_time, msgCounter := b.msgCounter+1}
  else {b with msgsThisCycle := b.msgsThisCycle+1, msgCounter := b.msgCounter+1}

def enqueue (b : MessageBuffer) (message : Message) (current_time delta : ℕ) : Except Fault MessageBuffer := do
  let b := b.countMsg current_time
  check (0<delta) .delta
  let arrival_time := current_time+delta
  check (current_time<arrival_time) .delta
  check (P.strictFifo=true → b.lastArrivalTime≤arrival_time) .fifo
  let b := {b with lastArrivalTime := if P.warmupEnabled then b.lastArrivalTime else arrival_time}
  check (message.lastEnqueueTime≤current_time) .lastEnqueueTime
  let message ← message.updateDelayedTicks current_time
  let message := {message with lastEnqueueTime := arrival_time, msgCounter := b.msgCounter}
  return {b with prioHeap := pushHeap message b.prioHeap}

def markPop (b : MessageBuffer) (current_time : ℕ) : MessageBuffer :=
  if b.timeLastTimePop<current_time then
    {b with
      sizeAtCycleStart := b.prioHeap.length
      stalledAtCycleStart := b.stallMapSize.toNat
      timeLastTimePop := current_time}
  else b

/-- The message, whose `delayedTicks` is the delay that is returned, and the buffer without it. -/
def dequeue (b : MessageBuffer) (current_time : ℕ) : Except Fault (Message × MessageBuffer) :=
  match b.prioHeap with
  | [] => .error .notReady
  | m::rest => do
    check (b.isReady current_time) .notReady
    let message ← m.updateDelayedTicks current_time
    return (message,{b.markPop current_time with prioHeap := rest})

/-- `m_stall_msg_map[addr].push_back(message)`, the map in the order of its addresses. -/
def stallPush (addr : ℕ) (message : Message) : List (ℕ × List Message) → List (ℕ × List Message)
  | [] => [(addr,[message])]
  | entry::rest =>
    if addr<entry.1 then (addr,[message])::entry::rest
    else if addr=entry.1 then (entry.1,entry.2++[message])::rest
    else entry::stallPush addr message rest

def stallMessage (b : MessageBuffer) (addr current_time : ℕ) : Except Fault (Message × MessageBuffer) := do
  check (b.isReady current_time) .notReady
  check (addr%2^P.blockSizeBits=0) .offset
  let (message,b) ← b.dequeue current_time
  return (message,{b with stallMsgMap := stallPush addr message b.stallMsgMap, stallMapSize := b.stallMapSize+1})

def reanalyzeList (heap lt : List Message) (schdTick : ℕ) : Except Fault (List Message) :=
  lt.foldlM (fun heap m => do
    check (m.lastEnqueueTime ≤ schdTick) .lastEnqueueTime
    return pushHeap m heap) heap

def reanalyzeEntry (b : MessageBuffer) (lt : List Message) (current_time : ℕ) : Except Fault MessageBuffer := do
  let size := b.stallMapSize-lt.length
  check (0 ≤ size) .stallMapSize
  let heap ← reanalyzeList b.prioHeap lt current_time
  return {b with stallMapSize := size, prioHeap := heap}

def hasStalledMsg (b : MessageBuffer) (addr : ℕ) : Bool := b.stallMsgMap.any (·.1 == addr)

def reanalyzeMessages (b : MessageBuffer) (addr current_time : ℕ) : Except Fault MessageBuffer := do
  check (b.hasStalledMsg addr=true) .notStalled
  let b' ← b.reanalyzeEntry ((b.stallMsgMap.find? (·.1 == addr)).map Prod.snd).toList.flatten current_time
  return {b' with stallMsgMap := b.stallMsgMap.eraseP (·.1 == addr)}

def reanalyzeAllMessages (b : MessageBuffer) (current_time : ℕ) : Except Fault MessageBuffer := do
  let b ← b.stallMsgMap.foldlM (fun b entry => b.reanalyzeEntry entry.2 current_time) b
  return {b with stallMsgMap := []}

/-- A message that left the heap, with the messages it left behind there. -/
structure Taken where
  msg : Message
  tick : ℕ
  behind : List Message
  stalled : Bool

/-- `slots` is how many of the slots a check of this tick has found are still free, and `covered`
says that every enqueue had such a slot of its own. -/
structure Run where
  buf : MessageBuffer
  now : ℕ
  enqueued : List Message
  taken : List Taken
  slots : ℕ
  covered : Bool

namespace Run

def start : Run := ⟨new,0,[],[],0,true⟩

def areNSlotsAvailable (r : Run) (n : ℕ) : Run :=
  if r.buf.areNSlotsAvailable P n r.now then {r with slots := max r.slots n} else r

def enqueue (r : Run) (message : Message) (delta : ℕ) : Except Fault Run := do
  let b ← r.buf.enqueue P message r.now delta
  let arrived : Message := {message with lastEnqueueTime := r.now+delta, msgCounter := b.msgCounter}
  return {r with
    buf := b
    enqueued := r.enqueued++[arrived]
    slots := r.slots-1
    covered := r.covered&&decide (0<r.slots)}

def take (r : Run) (next : Message × MessageBuffer) (stalled : Bool) : Run :=
  {r with buf := next.2, taken := r.taken++[⟨next.1,r.now,next.2.prioHeap,stalled⟩]}

def dequeue (r : Run) : Except Fault Run := do
  let next ← r.buf.dequeue r.now
  return r.take next false

def stallMessage (r : Run) (addr : ℕ) : Except Fault Run := do
  let next ← r.buf.stallMessage P addr r.now
  return r.take next true

end Run

inductive Reachable : Run → Prop
  | start : Reachable .start
  | areNSlotsAvailable (r : Run) (n : ℕ) : Reachable r → Reachable (r.areNSlotsAvailable P n)
  | enqueue (r r' : Run) (message : Message) (delta : ℕ) : Reachable r → r.enqueue P message delta = .ok r' → Reachable r'
  | dequeue (r r' : Run) : Reachable r → r.dequeue = .ok r' → Reachable r'
  | stallMessage (r r' : Run) (addr : ℕ) : Reachable r → r.stallMessage P addr = .ok r' → Reachable r'
  | reanalyzeMessages (r : Run) (b : MessageBuffer) (addr : ℕ) : Reachable r →
      r.buf.reanalyzeMessages addr r.now = .ok b → Reachable {r with buf := b}
  | reanalyzeAllMessages (r : Run) (b : MessageBuffer) : Reachable r → r.buf.reanalyzeAllMessages r.now = .ok b →
      Reachable {r with buf := b}
  | tick (r : Run) (t : ℕ) : Reachable r → r.now<t → Reachable {r with now := t, slots := 0}

def Before (l r : Message) : Prop :=
  l.lastEnqueueTime<r.lastEnqueueTime ∨ l.lastEnqueueTime=r.lastEnqueueTime ∧ l.msgCounter<r.msgCounter

theorem notGreater_iff (l r : Message) : NotGreater l r ↔
    l.lastEnqueueTime<r.lastEnqueueTime ∨ l.lastEnqueueTime=r.lastEnqueueTime ∧ l.msgCounter≤r.msgCounter := by
  unfold NotGreater Message.greater
  split
  next => omega
  next => omega

theorem NotGreater.before {l r : Message} (h : NotGreater l r) (hne : l.msgCounter≠r.msgCounter) : Before l r := by
  rw [notGreater_iff] at h
  unfold Before
  omega

instance : Std.Total NotGreater := ⟨fun l r => by
  rw [notGreater_iff,notGreater_iff]
  omega⟩

instance : IsTrans Message NotGreater := ⟨fun l m r h h' => by
  rw [notGreater_iff] at h h' ⊢
  omega⟩

def tag (m : Message) : ℕ × ℕ × ℕ := (m.id,m.lastEnqueueTime,m.msgCounter)

def tags (ms : List Message) : Multiset (ℕ × ℕ × ℕ) := ↑(ms.map tag)

theorem tags_append (xs ys : List Message) : tags (xs++ys)=tags xs+tags ys := by
  rw [tags,map_append,← Multiset.coe_add,tags,tags]

theorem tags_cons (m : Message) (ms : List Message) : tags (m::ms)=tag m ::ₘ tags ms := rfl

theorem tags_nil : tags []=0 := rfl

theorem tags_perm {xs ys : List Message} (h : xs.Perm ys) : tags xs=tags ys := Multiset.coe_eq_coe.mpr (h.map tag)

theorem pushHeap_tags (m : Message) (heap : List Message) : tags (pushHeap m heap)=tag m ::ₘ tags heap :=
  tags_perm (perm_orderedInsert _ m heap)

theorem pushHeap_length (m : Message) (heap : List Message) : (pushHeap m heap).length=heap.length+1 :=
  orderedInsert_length _ heap m

variable {heap : List Message}

theorem pushHeap_sorted (h : heap.Pairwise NotGreater) (m : Message) :
    (pushHeap m heap).Pairwise NotGreater := h.orderedInsert m heap

def stalledIn (map : List (ℕ × List Message)) : List Message := map.flatMap Prod.snd

def stalled (b : MessageBuffer) : List Message := stalledIn b.stallMsgMap

def stalledAt (addr : ℕ) (map : List (ℕ × List Message)) : List Message :=
  map.flatMap fun entry => if entry.1=addr then entry.2 else []

def stalledOn (b : MessageBuffer) (addr : ℕ) : List Message := stalledAt addr b.stallMsgMap

def Keyed (map : List (ℕ × List Message)) : Prop := map.Pairwise fun x y => x.1<y.1

variable {entry : ℕ × List Message} {map : List (ℕ × List Message)} {addr : ℕ}

theorem stalledAt_cons : stalledAt addr (entry::map)=(if entry.1=addr then entry.2 else [])++stalledAt addr map :=
  flatMap_cons

theorem stalledAt_of_lt (h : ∀ x∈map,addr<x.1) : stalledAt addr map=[] :=
  flatMap_eq_nil_iff.mpr fun x hx => if_neg (h x hx).ne'

theorem stallPush_keyed (h : Keyed map) (m : Message) : Keyed (stallPush addr m map) ∧
    ∀ k,(∀ x∈map,k<x.1) → k<addr → ∀ x∈stallPush addr m map,k<x.1 := by
  induction map with
  | nil => exact ⟨pairwise_singleton ..,fun k _ hk x hx => by rwa [mem_singleton.mp hx]⟩
  | cons entry rest ih =>
    obtain ⟨hentry,hrest⟩:=pairwise_cons.mp h
    obtain ⟨hkeyed,hbelow⟩:=ih hrest
    unfold stallPush
    split
    next hlt =>
      exact ⟨pairwise_cons.mpr ⟨forall_mem_cons.mpr ⟨hlt,fun x hx => hlt.trans (hentry x hx)⟩,h⟩,
        fun k hk hka => forall_mem_cons.mpr ⟨hka,hk⟩⟩
    next hge =>
      split
      next => exact ⟨pairwise_cons.mpr ⟨hentry,hrest⟩,fun k hk _ => forall_mem_cons.mpr (forall_mem_cons.mp hk)⟩
      next hne =>
        refine ⟨pairwise_cons.mpr ⟨hbelow entry.1 hentry (by omega),hkeyed⟩,fun k hk hka => ?_⟩
        obtain ⟨hke,hkr⟩:=forall_mem_cons.mp hk
        exact forall_mem_cons.mpr ⟨hke,hbelow k hkr hka⟩

theorem stalledAt_stallPush (h : Keyed map) (x : ℕ) (m : Message) :
    stalledAt x (stallPush addr m map)=stalledAt x map++if x=addr then [m] else [] := by
  induction map with
  | nil =>
    rw [stallPush,stalledAt_cons]
    simp [stalledAt,eq_comm]
  | cons entry rest ih =>
    obtain ⟨hentry,hrest⟩:=pairwise_cons.mp h
    unfold stallPush
    split
    next hlt =>
      rw [stalledAt_cons]
      by_cases hx : addr=x
      · subst hx
        rw [if_pos rfl,stalledAt_of_lt (forall_mem_cons.mpr ⟨hlt,fun y hy => hlt.trans (hentry y hy)⟩)]
        exact append_nil _
      · rw [if_neg hx,if_neg (Ne.symm hx),nil_append,append_nil]
    next hge =>
      split
      next heq =>
        rw [stalledAt_cons,stalledAt_cons]
        by_cases hx : entry.1=x
        · subst hx
          rw [if_pos rfl,if_pos rfl,if_pos heq.symm,stalledAt_of_lt hentry,append_nil,append_nil]
        · rw [if_neg hx,if_neg hx,if_neg (by omega),append_nil]
      next => rw [stalledAt_cons,stalledAt_cons,ih hrest,append_assoc]

theorem stalledAt_eraseP (h : Keyed map) (addr : ℕ) :
    stalledAt addr map=((map.find? (·.1 == addr)).map Prod.snd).toList.flatten ∧
      ∀ x,stalledAt x (map.eraseP (·.1 == addr))=if x=addr then [] else stalledAt x map := by
  induction map with
  | nil => exact ⟨rfl,fun x => (ite_self _).symm⟩
  | cons entry rest ih =>
    obtain ⟨hentry,hrest⟩:=pairwise_cons.mp h
    obtain ⟨hfind,herase⟩:=ih hrest
    cases haddr : entry.1 == addr with
    | true =>
      have heq:=beq_iff_eq.mp haddr
      simp only [find?_cons,eraseP_cons,haddr,cond_true,Option.map_some,Option.toList_some,flatten_singleton]
      refine ⟨?_,fun x => ?_⟩
      · rw [stalledAt_cons,if_pos heq,stalledAt_of_lt (heq ▸ hentry),append_nil]
      · split
        next hx => exact stalledAt_of_lt (by rwa [hx,← heq])
        next hx => rw [stalledAt_cons,if_neg (by omega),nil_append]
    | false =>
      have hne:=beq_eq_false_iff_ne.mp haddr
      simp only [find?_cons,eraseP_cons,haddr,cond_false]
      refine ⟨?_,fun x => ?_⟩
      · rw [stalledAt_cons,if_neg hne,nil_append,hfind]
      · rw [stalledAt_cons,stalledAt_cons,herase x]
        by_cases hx : x=addr
        · rw [if_pos hx,if_pos hx,if_neg (hx ▸ hne),append_nil]
        · rw [if_neg hx,if_neg hx]

theorem stallPush_perm (addr : ℕ) (m : Message) (map : List (ℕ × List Message)) :
    (stalledIn (stallPush addr m map)).Perm (m::stalledIn map) := by
  induction map with
  | nil => exact .refl _
  | cons entry rest ih =>
    unfold stallPush
    split
    next => exact .refl _
    next =>
      split
      next =>
        show (entry.2++[m]++stalledIn rest).Perm (m::(entry.2++stalledIn rest))
        rw [append_assoc,singleton_append]
        exact perm_middle
      next =>
        show (entry.2++stalledIn (stallPush addr m rest)).Perm (m::(entry.2++stalledIn rest))
        exact (ih.append_left _).trans perm_middle

theorem stalledIn_eraseP (addr : ℕ) (map : List (ℕ × List Message)) :
    (((map.find? (·.1 == addr)).map Prod.snd).toList.flatten++stalledIn (map.eraseP (·.1 == addr))).Perm (stalledIn map) := by
  induction map with
  | nil => exact .refl _
  | cons entry rest ih =>
    cases haddr : entry.1 == addr with
    | true =>
      simp only [find?_cons,eraseP_cons,haddr,cond_true,Option.map_some,Option.toList_some,flatten_singleton]
      exact .refl _
    | false =>
      simp only [find?_cons,eraseP_cons,haddr,cond_false]
      show (_++(entry.2++stalledIn (rest.eraseP _))).Perm (entry.2++stalledIn rest)
      rw [← append_assoc]
      exact ((perm_append_comm.append_right _).trans (by rw [append_assoc])).trans (ih.append_left _)

variable {P : Params} {b b' : MessageBuffer} {t : ℕ}

theorem reanalyzeList_post {lt : List Message} (heap : List Message) (hready : ∀ m∈lt,m.lastEnqueueTime≤t)
    (hsorted : heap.Pairwise NotGreater) :
    Post (reanalyzeList heap lt t) (fun heap' => heap'.Pairwise NotGreater ∧ heap'.Perm (heap++lt)) fun _ => False := by
  induction lt generalizing heap with
  | nil =>
    rw [append_nil]
    exact ⟨hsorted,.refl _⟩
  | cons m lt ih =>
    rw [reanalyzeList,foldlM_cons]
    simp only [post_bind,post_check,post_pure]
    refine ⟨fun _ => ?_,fun hno => hno (hready m mem_cons_self)⟩
    refine (ih (pushHeap m heap) (fun x hx => hready x (mem_cons_of_mem _ hx)) (pushHeap_sorted hsorted m)).imp
      fun heap' hh => ⟨hh.1,hh.2.trans ?_⟩
    exact ((perm_orderedInsert NotGreater m heap).append_right lt).trans perm_middle.symm

def total (b : MessageBuffer) : ℕ := b.prioHeap.length+b.stalled.length

structure Sizes (P : Params) (b : MessageBuffer) (now slots : ℕ) (covered : Bool) : Prop where
  pop : b.timeLastTimePop≤now
  enq : b.timeLastTimeEnqueue≤now
  stallMapSize : b.stallMapSize=b.stalled.length
  visible : b.timeLastTimePop=now → b.total≤b.sizeAtCycleStart+b.stalledAtCycleStart +
    if b.timeLastTimeEnqueue<now then 0 else b.msgsThisCycle
  room : covered=true → 0<P.maxSize → b.total+slots≤P.maxSize

variable {now slots n : ℕ} {covered : Bool}

theorem Sizes.available (h : Sizes P b now slots covered) (hmax : 0<P.maxSize)
    (havail : b.areNSlotsAvailable P n now=true) : b.total+n≤P.maxSize := by
  have hsize:=h.stallMapSize
  have htotal : b.total=b.prioHeap.length+b.stalled.length := rfl
  have hpop:=h.pop
  rw [areNSlotsAvailable,if_neg (by omega),decide_eq_true_eq] at havail
  split at havail
  next hquiet =>
    dsimp only at havail
    omega
  next hpopped =>
    have hvisible:=h.visible (by omega)
    split at havail
    next henq =>
      rw [if_pos henq] at hvisible
      omega
    next henq =>
      rw [if_neg henq] at hvisible
      dsimp only at havail
      omega

theorem Sizes.check (h : Sizes P b now slots covered) (n : ℕ) (havail : b.areNSlotsAvailable P n now=true) :
    Sizes P b now (max slots n) covered := by
  refine ⟨h.pop,h.enq,h.stallMapSize,h.visible,fun hcovered hmax => ?_⟩
  have hroom:=h.room hcovered hmax
  have havailable:=h.available hmax havail
  omega

theorem Sizes.tick (h : Sizes P b now slots covered) (ht : now<t) : Sizes P b t 0 covered := by
  have hpop:=h.pop
  have henq:=h.enq
  refine ⟨by omega,by omega,h.stallMapSize,fun hsame => by omega,fun hcovered hmax => ?_⟩
  have hroom:=h.room hcovered hmax
  omega

theorem Sizes.enqueue (h : Sizes P b now slots covered) (m : Message) (last : ℕ) :
    Sizes P {b.countMsg now with lastArrivalTime := last, prioHeap := pushHeap m b.prioHeap} now (slots-1)
      (covered&&decide (0<slots)) := by
  have htotal : ({b.countMsg now with lastArrivalTime := last, prioHeap := pushHeap m b.prioHeap} : MessageBuffer).total =
      b.total+1 := by
    have hlength:=pushHeap_length m b.prioHeap
    unfold total countMsg
    split
    next =>
      show (pushHeap m b.prioHeap).length+b.stalled.length=_
      omega
    next =>
      show (pushHeap m b.prioHeap).length+b.stalled.length=_
      omega
  refine ⟨?_,?_,?_,fun hpop => ?_,fun hcovered hmax => ?_⟩
  · unfold countMsg
    split <;> exact h.pop
  · have henq:=h.enq
    unfold countMsg
    split
    next => exact Nat.le_refl now
    next => exact henq
  · unfold countMsg
    split <;> exact h.stallMapSize
  · rw [htotal]
    have hpop' : b.timeLastTimePop=now := by
      unfold countMsg at hpop
      split at hpop <;> exact hpop
    have hvisible:=h.visible hpop'
    unfold countMsg
    split
    next hfirst =>
      rw [if_pos hfirst] at hvisible
      rw [if_neg (Nat.lt_irrefl now)]
      show b.total+1≤b.sizeAtCycleStart+b.stalledAtCycleStart+1
      omega
    next hmore =>
      rw [if_neg hmore] at hvisible
      show b.total+1≤b.sizeAtCycleStart+b.stalledAtCycleStart+(b.msgsThisCycle+1)
      omega
  · rw [htotal]
    rw [Bool.and_eq_true,decide_eq_true_eq] at hcovered
    have hroom:=h.room hcovered.1 hmax
    have hslot:=hcovered.2
    omega

variable {map : List (ℕ × List Message)} {size : ℤ}

theorem Sizes.pop_some (h : Sizes P b now slots covered)
    (hsize : size=(stalledIn map).length) (hless : heap.length+(stalledIn map).length≤b.total) :
    Sizes P {b.markPop now with prioHeap := heap, stallMsgMap := map, stallMapSize := size} now slots covered := by
  have htotal : ({b.markPop now with prioHeap := heap, stallMsgMap := map, stallMapSize := size} : MessageBuffer).total ≤
      b.total := hless
  have hb : b.total=b.prioHeap.length+b.stalled.length := rfl
  have hstall:=h.stallMapSize
  refine ⟨?_,?_,hsize,fun _ => ?_,fun hcovered hmax => ?_⟩
  · have hpop:=h.pop
    unfold markPop
    split
    next => exact Nat.le_refl now
    next => exact hpop
  · unfold markPop
    split <;> exact h.enq
  · refine Nat.le_trans htotal ?_
    unfold markPop
    split
    next hfirst =>
      show b.total≤b.prioHeap.length+b.stallMapSize.toNat+if b.timeLastTimeEnqueue<now then 0 else b.msgsThisCycle
      omega
    next hagain =>
      have hpop:=h.pop
      exact h.visible (by omega)
  · have hroom:=h.room hcovered hmax
    omega

theorem Sizes.move (h : Sizes P b now slots covered)
    (hsize : size=(stalledIn map).length) (hsame : heap.length+(stalledIn map).length=b.total) :
    Sizes P {b with prioHeap := heap, stallMsgMap := map, stallMapSize := size} now slots covered := by
  have htotal : ({b with prioHeap := heap, stallMsgMap := map, stallMapSize := size} : MessageBuffer).total=b.total := hsame
  refine ⟨h.pop,h.enq,hsize,fun hpop => ?_,fun hcovered hmax => ?_⟩
  · rw [htotal]
    exact h.visible hpop
  · rw [htotal]
    exact h.room hcovered hmax

structure Held (b : MessageBuffer) (now : ℕ) (enqueued : List Message) (taken : List Taken) : Prop where
  kept : tags enqueued=tags ((taken.filter (! ·.stalled)).map Taken.msg)+tags b.prioHeap+tags b.stalled
  sorted : b.prioHeap.Pairwise NotGreater
  counters : enqueued.Pairwise fun l m => l.msgCounter < m.msgCounter
  bound : ∀ m∈enqueued,m.msgCounter≤b.msgCounter
  ready : ∀ m∈b.stalled,m.lastEnqueueTime≤now
  taken : ∀ d∈taken,d.msg.lastEnqueueTime≤d.tick ∧ ∀ m∈d.behind,Before d.msg m

variable {enqueued : List Message} {taken : List Taken} {m : Message}

theorem Held.nodup (h : Held b now enqueued taken) : (b.prioHeap.map (·.msgCounter)).Nodup := by
  have hall : (enqueued.map (·.msgCounter)).Nodup := by
    rw [Nodup,pairwise_map]
    exact h.counters.imp fun hlt => Nat.ne_of_lt hlt
  have hcount : ∀ ms : List Message,(tags ms).map (·.2.2) = ↑(ms.map (·.msgCounter)) := fun ms => by
    rw [tags,Multiset.map_coe,map_map]
    rfl
  have hle : tags b.prioHeap≤tags enqueued := by
    rw [h.kept]
    exact (Multiset.le_add_left _ _).trans (Multiset.le_add_right _ _)
  have hnodup:=Multiset.nodup_of_le (Multiset.map_le_map hle) (by rw [hcount]; exact Multiset.coe_nodup.mpr hall)
  rw [hcount] at hnodup
  exact Multiset.coe_nodup.mp hnodup

theorem Held.front (h : Held b now enqueued taken) {rest : List Message} (hheap : b.prioHeap=m::rest) :
    ∀ x∈rest,Before m x := by
  intro x hx
  have hsorted:=h.sorted
  have hnodup:=h.nodup
  rw [hheap] at hsorted hnodup
  rw [map_cons,nodup_cons] at hnodup
  refine ((pairwise_cons.mp hsorted).1 x hx).before fun heq => hnodup.1 ?_
  rw [heq]
  exact mem_map_of_mem hx

theorem Held.enqueue (h : Held b now enqueued taken) (last : ℕ) {m x : Message} (htag : tag x=tag m)
    (hm : m.msgCounter=b.msgCounter+1) :
    Held {b.countMsg now with lastArrivalTime := last, prioHeap := pushHeap m b.prioHeap} now (enqueued++[x]) taken := by
  have hcounter : (b.countMsg now).msgCounter=b.msgCounter+1 := by
    unfold countMsg
    split <;> rfl
  have hstalled : (b.countMsg now).stalled=b.stalled := by
    unfold countMsg
    split <;> rfl
  have hx : x.msgCounter=b.msgCounter+1 := by
    simp only [tag,Prod.mk.injEq] at htag
    rw [htag.2.2,hm]
  refine ⟨?_,pushHeap_sorted h.sorted m,?_,fun y hy => ?_,?_,h.taken⟩
  · show tags (enqueued++[x])=_+tags (pushHeap m b.prioHeap)+tags (b.countMsg now).stalled
    rw [tags_append,h.kept,pushHeap_tags,hstalled,tags_cons,tags_nil,← Multiset.singleton_add (tag m) (tags b.prioHeap),
      Multiset.cons_zero,htag]
    abel
  · refine pairwise_append.mpr ⟨h.counters,pairwise_singleton _ _,fun y hy z hz => ?_⟩
    rw [mem_singleton.mp hz,hx]
    exact Nat.lt_succ_of_le (h.bound y hy)
  · show y.msgCounter≤(b.countMsg now).msgCounter
    rw [hcounter]
    cases mem_append.mp hy with
    | inl hin => exact Nat.le_succ_of_le (h.bound y hin)
    | inr hin => rw [mem_singleton.mp hin,hx]
  · show ∀ x∈(b.countMsg now).stalled,x.lastEnqueueTime≤now
    rw [hstalled]
    exact h.ready

theorem Held.take (h : Held b now enqueued taken) {rest : List Message} {x : Message}
    (stalled : Bool) (hheap : b.prioHeap=m::rest) (hx : tag x=tag m) (hready : m.lastEnqueueTime≤now)
    (hmap : (stalledIn map).Perm ((if stalled then [x] else [])++b.stalled)) :
    Held {b.markPop now with prioHeap := rest, stallMsgMap := map, stallMapSize := size} now enqueued
      (taken++[⟨x,now,rest,stalled⟩]) := by
  simp only [tag,Prod.mk.injEq] at hx
  obtain ⟨hid,htime,hcounter⟩:=hx
  have hcount : (b.markPop now).msgCounter=b.msgCounter := by
    unfold markPop
    split <;> rfl
  have hsorted:=h.sorted
  rw [hheap] at hsorted
  refine ⟨?_,(pairwise_cons.mp hsorted).2,h.counters,fun y hy => ?_,fun y hy => ?_,fun d hd => ?_⟩
  · have htag : tag x=tag m := by rw [tag,tag,hid,htime,hcounter]
    show tags enqueued=_+tags rest+tags (stalledIn map)
    rw [h.kept,hheap,tags_perm hmap,tags_append,filter_append,map_append,tags_append,tags_cons,
      ← Multiset.singleton_add (tag m) (tags rest)]
    cases stalled with
    | false =>
      show _=_+(tag x ::ₘ 0)+tags rest+(0+tags b.stalled)
      rw [htag,Multiset.cons_zero]
      abel
    | true =>
      show _=_+0+tags rest+((tag x ::ₘ 0)+tags b.stalled)
      rw [htag,Multiset.cons_zero]
      abel
  · show y.msgCounter≤(b.markPop now).msgCounter
    rw [hcount]
    exact h.bound y hy
  · cases mem_append.mp (hmap.mem_iff.mp hy) with
    | inr hin => exact h.ready y hin
    | inl hin =>
      cases stalled with
      | false => cases hin
      | true =>
        rw [mem_singleton.mp hin,htime]
        exact hready
  · cases mem_append.mp hd with
    | inl hin => exact h.taken d hin
    | inr hin =>
      rw [mem_singleton.mp hin]
      refine ⟨htime ▸ hready,fun y hy => ?_⟩
      have hbefore:=h.front hheap y hy
      unfold Before at hbefore ⊢
      show x.lastEnqueueTime<_ ∨ x.lastEnqueueTime=_ ∧ x.msgCounter<_
      rw [htime,hcounter]
      exact hbefore

theorem Held.move (h : Held b now enqueued taken)
    (hsorted : heap.Pairwise NotGreater) (hsame : (heap++stalledIn map).Perm (b.prioHeap++b.stalled))
    (hmap : ∀ m∈stalledIn map,m∈b.stalled) :
    Held {b with prioHeap := heap, stallMsgMap := map, stallMapSize := size} now enqueued taken := by
  refine ⟨?_,hsorted,h.counters,h.bound,fun y hy => h.ready y (hmap y hy),h.taken⟩
  show tags enqueued=_+tags heap+tags (stalledIn map)
  rw [h.kept,add_assoc,add_assoc,← tags_append b.prioHeap,← tags_append heap,tags_perm hsame]

structure Inv (P : Params) (r : Run) : Prop where
  keyed : Keyed r.buf.stallMsgMap
  sizes : Sizes P r.buf r.now r.slots r.covered
  held : Held r.buf r.now r.enqueued r.taken

variable {r : Run}

theorem enqueue_post (h : Inv P r) (message : Message) (delta : ℕ) :
    Post (r.enqueue P message delta) (Inv P) fun e => e = .delta ∧ delta=0 ∨ e = .fifo ∧ P.strictFifo=true ∨
      e = .lastEnqueueTime ∧ r.now < message.lastEnqueueTime := by
  have hcounter : (r.buf.countMsg r.now).msgCounter=r.buf.msgCounter+1 := by
    unfold countMsg
    split <;> rfl
  have hheap : (r.buf.countMsg r.now).prioHeap=r.buf.prioHeap := by
    unfold countMsg
    split <;> rfl
  simp only [Run.enqueue,MessageBuffer.enqueue,Message.updateDelayedTicks,post_bind,post_check,post_pure]
  refine ⟨fun hdelta => ⟨fun _ => ⟨fun _ => ⟨fun _ => ⟨fun _ => ?_,fun hno => ?_⟩,fun hno => ?_⟩,fun hno => ?_⟩,fun hno => ?_⟩,
    fun hno => .inl ⟨trivial,by omega⟩⟩
  · rw [hheap]
    refine ⟨?_,h.sizes.enqueue _ _,h.held.enqueue _ rfl hcounter⟩
    show Keyed (r.buf.countMsg r.now).stallMsgMap
    unfold countMsg
    split <;> exact h.keyed
  · exact .inr (.inr ⟨trivial,by omega⟩)
  · exact .inr (.inr ⟨trivial,by omega⟩)
  · refine .inr (.inl ⟨trivial,?_⟩)
    by_contra hfree
    exact hno fun hstrict => absurd hstrict hfree
  · exact absurd (Nat.lt_add_of_pos_right hdelta) hno

theorem dequeue_spec (r : Run) :
    Post (r.buf.dequeue r.now) (fun next => ∃ m rest,r.buf.prioHeap=m::rest ∧ m.lastEnqueueTime≤r.now ∧
      tag next.1=tag m ∧ next.2={r.buf.markPop r.now with prioHeap := rest}) fun _ => ¬r.buf.isReady r.now := by
  unfold dequeue
  split
  next hheap =>
    intro hready
    obtain ⟨m,hm,_⟩:=hready
    rw [hheap] at hm
    cases hm
  next m rest hheap =>
    simp only [Message.updateDelayedTicks,post_bind,post_check,post_pure]
    refine ⟨fun hready => ⟨fun htime => ⟨m,rest,hheap,htime,rfl,rfl⟩,fun hno => ?_⟩,fun hno => hno⟩
    obtain ⟨x,hx,htime⟩:=hready
    rw [hheap] at hx
    cases hx
    exact absurd htime hno

theorem markPop_stalled (b : MessageBuffer) (t : ℕ) :
    (b.markPop t).stallMsgMap=b.stallMsgMap ∧ (b.markPop t).stallMapSize=b.stallMapSize := by
  unfold markPop
  split <;> exact ⟨rfl,rfl⟩

theorem dequeue_post (h : Inv P r) : Post r.dequeue (Inv P) fun _ => ¬r.buf.isReady r.now := by
  rw [Run.dequeue,post_bind]
  refine (dequeue_spec r).imp fun next hnext => ?_
  obtain ⟨m,rest,hheap,htime,htag,hbuf⟩:=hnext
  obtain ⟨hmark,hcount⟩:=markPop_stalled r.buf r.now
  have hshape : next.2={r.buf.markPop r.now with
      prioHeap := rest, stallMsgMap := r.buf.stallMsgMap, stallMapSize := r.buf.stallMapSize} := by
    rw [hbuf,← hmark,← hcount]
  rw [post_pure,Run.take,hshape]
  refine ⟨h.keyed,h.sizes.pop_some h.sizes.stallMapSize ?_,h.held.take false hheap htag htime (.refl _)⟩
  show rest.length+r.buf.stalled.length≤r.buf.prioHeap.length+r.buf.stalled.length
  rw [hheap,length_cons]
  omega

theorem stallMessage_post (h : Inv P r) (addr : ℕ) : Post (r.stallMessage P addr)
    (fun r' => Inv P r' ∧ ∃ m m',r.buf.prioHeap=m::r'.buf.prioHeap ∧ tag m'=tag m ∧
      ∀ x,r'.buf.stalledOn x=r.buf.stalledOn x++if x=addr then [m'] else [])
    fun _ => ¬(r.buf.isReady r.now ∧ addr%2^P.blockSizeBits=0) := by
  simp only [Run.stallMessage,MessageBuffer.stallMessage,post_bind,post_check,post_pure]
  refine ⟨fun _ => ⟨fun _ => ?_,fun hno hall => hno hall.2⟩,fun hno hall => hno hall.1⟩
  refine (dequeue_spec r).mono (fun next hnext => ?_) fun _ hno hall => hno hall.1
  obtain ⟨m,rest,hheap,htime,htag,hbuf⟩:=hnext
  obtain ⟨hmark,hcount⟩:=markPop_stalled r.buf r.now
  have hmap:=stallPush_perm addr next.1 r.buf.stallMsgMap
  have hlength:=hmap.length_eq
  rw [length_cons] at hlength
  have hsize:=h.sizes.stallMapSize
  have hsame : r.buf.stalled=stalledIn r.buf.stallMsgMap := rfl
  rw [hbuf,Run.take,hmark,hcount]
  refine ⟨⟨(stallPush_keyed h.keyed next.1).1,h.sizes.pop_some ?_ ?_,h.held.take true hheap htag htime hmap⟩,
    m,next.1,hheap,htag,fun x => stalledAt_stallPush h.keyed x next.1⟩
  · rw [hsize,hlength,hsame]
    rfl
  · show rest.length+_≤r.buf.prioHeap.length+r.buf.stalled.length
    rw [hheap,length_cons,hlength,hsame]
    omega

theorem reanalyzeEntry_post {lt : List Message} {map map' : List (ℕ × List Message)}
    (h : Inv P {r with buf := {b with stallMsgMap := map} }) (hmap : (lt++stalledIn map').Perm (stalledIn map))
    (hsub : map'.Sublist map) : Post (b.reanalyzeEntry lt r.now)
      (fun b' => Inv P {r with buf := {b' with stallMsgMap := map'} } ∧ b'.prioHeap.Perm (b.prioHeap++lt)) fun _ => False := by
  have hlength:=hmap.length_eq
  rw [length_append] at hlength
  have hsize : b.stallMapSize=(stalledIn map).length := h.sizes.stallMapSize
  simp only [reanalyzeEntry,post_bind,post_check,post_pure]
  refine ⟨fun _ => ?_,fun hno => hno (by omega)⟩
  refine (reanalyzeList_post b.prioHeap (fun m hm => h.held.ready m (hmap.subset (mem_append_left _ hm)))
    h.held.sorted).imp fun heap hheap => ?_
  obtain ⟨hsorted,hperm⟩:=hheap
  have hall : (heap++stalledIn map').Perm (b.prioHeap++stalledIn map) :=
    (hperm.append_right _).trans ((append_assoc .. ▸ hmap.append_left _))
  have htotal:=hall.length_eq
  rw [length_append,length_append] at htotal
  refine ⟨⟨h.keyed.sublist hsub,h.sizes.move ?_ htotal,
    h.held.move hsorted hall fun m hm => hmap.subset (mem_append_right _ hm)⟩,hperm⟩
  omega

theorem reanalyzeMessages_post (h : Inv P r) (addr : ℕ) : Post (r.buf.reanalyzeMessages addr r.now)
    (fun b => Inv P {r with buf := b} ∧ b.prioHeap.Perm (r.buf.prioHeap++r.buf.stalledOn addr) ∧
      ∀ x,b.stalledOn x=if x=addr then [] else r.buf.stalledOn x) fun _ => ¬r.buf.hasStalledMsg addr=true := by
  obtain ⟨hfound,herased⟩:=stalledAt_eraseP h.keyed addr
  simp only [reanalyzeMessages,post_bind,post_check,post_pure]
  refine ⟨fun _ => ?_,fun hno => hno⟩
  exact (reanalyzeEntry_post h (stalledIn_eraseP addr r.buf.stallMsgMap) eraseP_sublist).mono
    (fun _ hb => ⟨hb.1,by rw [stalledOn,hfound]; exact hb.2,herased⟩) fun _ hf => hf.elim

theorem reanalyzeAll_post (map : List (ℕ × List Message)) (h : Inv P {r with buf := {b with stallMsgMap := map} }) :
    Post (map.foldlM (fun b entry => b.reanalyzeEntry entry.2 r.now) b)
      (fun b' => Inv P {r with buf := {b' with stallMsgMap := []} } ∧ b'.prioHeap.Perm (b.prioHeap++stalledIn map))
      fun _ => False := by
  induction map generalizing b with
  | nil => exact ⟨h,by rw [show stalledIn []=[] from rfl,append_nil]⟩
  | cons entry rest ih =>
    rw [foldlM_cons]
    refine (reanalyzeEntry_post h (.refl _) (sublist_cons_self ..)).bind fun b' hb => ?_
    refine (ih hb.1).imp fun b'' hall => ⟨hall.1,hall.2.trans ?_⟩
    rw [show stalledIn (entry::rest)=entry.2++stalledIn rest from rfl,← append_assoc]
    exact hb.2.append_right _

theorem reanalyzeAllMessages_post (h : Inv P r) : Post (r.buf.reanalyzeAllMessages r.now)
    (fun b => Inv P {r with buf := b} ∧ b.prioHeap.Perm (r.buf.prioHeap++r.buf.stalled) ∧ b.stallMsgMap=[])
    fun _ => False := by
  rw [reanalyzeAllMessages,post_bind]
  exact (reanalyzeAll_post r.buf.stallMsgMap h).imp fun _ hb => ⟨hb.1,hb.2,rfl⟩

theorem reachable_inv (h : Reachable P r) : Inv P r := by
  induction h with
  | start =>
    refine ⟨.nil,⟨Nat.le_refl 0,Nat.le_refl 0,rfl,fun _ => Nat.le_refl 0,fun _ _ => Nat.zero_le _⟩,
      ⟨rfl,.nil,.nil,fun m hm => absurd hm not_mem_nil,fun m hm => absurd hm not_mem_nil,
        fun d hd => absurd hd not_mem_nil⟩⟩
  | areNSlotsAvailable r n _ ih =>
    unfold Run.areNSlotsAvailable
    split
    next havail => exact ⟨ih.keyed,ih.sizes.check n havail,ih.held⟩
    next => exact ih
  | enqueue r r' message delta _ hcall ih => exact (enqueue_post ih message delta).of_ok hcall
  | dequeue r r' _ hcall ih => exact (dequeue_post ih).of_ok hcall
  | stallMessage r r' addr _ hcall ih => exact ((stallMessage_post ih addr).of_ok hcall).1
  | reanalyzeMessages r b addr _ hcall ih => exact ((reanalyzeMessages_post ih addr).of_ok hcall).1
  | reanalyzeAllMessages r b _ hcall ih => exact ((reanalyzeAllMessages_post ih).of_ok hcall).1
  | tick r t _ ht ih =>
    refine ⟨ih.keyed,ih.sizes.tick ht,?_⟩
    have hheld:=ih.held
    exact ⟨hheld.kept,hheld.sorted,hheld.counters,hheld.bound,fun m hm => Nat.le_trans (hheld.ready m hm) (Nat.le_of_lt ht),
      hheld.taken⟩

theorem Inv.before (h : Inv P r) : r.buf.prioHeap.Pairwise Before := by
  have hnodup:=h.held.nodup
  rw [List.Nodup,List.pairwise_map] at hnodup
  exact (h.held.sorted.and hnodup).imp fun hle => hle.1.before hle.2

def pair : Params := ⟨2,false,false,6⟩

end MessageBuffer
end AquaGem5.Ruby
