import AquaGem5.Lib.Checked

/-!
# The least recently granted queue policy (qos/q_policy.cc, qos/q_policy.hh)

A packet of a queue is the id of its requestor.
-/

namespace AquaGem5.Controller
open Checked List

namespace LrgQueuePolicy

inductive Fault where
  | panic
  | undefined
  deriving DecidableEq

end LrgQueuePolicy

/-- The list of the policy, and the requestors that the controller has registered. -/
structure LrgQueuePolicy where
  toServe : List ℕ
  requestors : List ℕ

namespace LrgQueuePolicy

def addRequestor (s : LrgQueuePolicy) (id : ℕ) : LrgQueuePolicy :=
  if id∈s.requestors then s else {s with requestors := s.requestors++[id]}

def enqueuePacket (s : LrgQueuePolicy) (requestor_id : ℕ) : LrgQueuePolicy :=
  if requestor_id∈s.requestors then s else {s with toServe := s.toServe++[requestor_id]}

/-- The loop over the queue: a packet of the first requestor, or the packets that are tracked. -/
def track (s : LrgQueuePolicy) : List ℕ → ℕ → List (ℕ × ℕ) → Except Fault ((ℕ × LrgQueuePolicy) ⊕ List (ℕ × ℕ))
  | [],_,tracked => .ok (.inr tracked)
  | requestor_id::rest,pkt_it,tracked => do
    check (requestor_id∉s.requestors) .panic
    check (s.toServe=[]) .panic
    match s.toServe with
    | [] => .error .undefined
    | front::others =>
      if front=requestor_id then return .inl (pkt_it,{s with toServe := others++[requestor_id]})
      else track s rest (pkt_it+1) <|
        if (List.lookup requestor_id tracked).isSome then tracked else tracked++[(requestor_id,pkt_it)]

def selectPacket (s : LrgQueuePolicy) (q : List ℕ) : Except Fault (Option ℕ × LrgQueuePolicy) := do
  match ← s.track q 0 [] with
  | .inl (pkt_it,s) => return (some pkt_it,s)
  | .inr tracked => return (s.toServe.findSome? fun requestor_id => List.lookup requestor_id tracked,s)

def grantedAt (served : List ℕ) (id : ℕ) : ℕ :=
  if id∈served then served.length-served.reverse.idxOf id else 0

def Precedes (announced served : List ℕ) (id other : ℕ) : Prop :=
  grantedAt served id<grantedAt served other ∨
    (grantedAt served id=grantedAt served other ∧ announced.idxOf id≤announced.idxOf other)

/-- The first packet of the least recently granted requestor is selected, and the requestor is the last one to serve. -/
def Serves (announced served : List ℕ) (s : LrgQueuePolicy) (q : List ℕ) : Prop :=
  ∃ id∈q,(∀ other∈q,Precedes announced served id other) ∧ ∃ s',s.selectPacket q = .ok (some (q.idxOf id),s') ∧
    s'.toServe=s.toServe.erase id++[id]

/-- The policy after the packets of `announced` were enqueued and those of `served` selected. -/
inductive Run : List ℕ → List ℕ → LrgQueuePolicy → Prop
  | init : Run [] [] ⟨[],[]⟩
  | enqueuePacket (announced served : List ℕ) (s : LrgQueuePolicy) (id : ℕ) : Run announced served s →
      Run (announced++[id]) served (s.enqueuePacket id)
  | addRequestor (announced served : List ℕ) (s : LrgQueuePolicy) (id : ℕ) : Run announced served s →
      Run announced served (s.addRequestor id)
  | selectPacket (announced served q : List ℕ) (s s' : LrgQueuePolicy) (k id : ℕ) : Run announced served s →
      (∀ id∈q,id∈announced) → s.selectPacket q = .ok (some k,s') → q[k]?=some id → Run announced (served++[id]) s'

variable {announced served q : List ℕ} {s : LrgQueuePolicy}

theorem selectPacket_panics (hq : q≠[]) (hall : ∀ id∈q,id∈s.requestors ∨ s.toServe≠[]) :
    s.selectPacket q = .error .panic := by
  cases q with
  | nil => exact absurd rfl hq
  | cons id rest =>
    rw [selectPacket,track]
    by_cases hknown : id∈s.requestors
    · rw [check,if_neg (not_not.mpr hknown)]
      rfl
    · have hserve:=(hall id (mem_cons_self ..)).resolve_left hknown
      rw [check,if_pos hknown,check,if_neg hserve]
      rfl

theorem run_announced (h : Run announced served s) : ∀ id∈announced,id∈s.requestors ∨ s.toServe≠[] := by
  induction h with
  | init => exact fun id hid => absurd hid not_mem_nil
  | enqueuePacket announced served s id _ ih =>
    intro other hother
    rw [LrgQueuePolicy.enqueuePacket]
    split
    next hknown =>
      rcases mem_append.mp hother with hin | hin
      · exact ih other hin
      · exact .inl (mem_singleton.mp hin ▸ hknown)
    next => exact .inr (append_ne_nil_of_right_ne_nil _ (cons_ne_nil _ _))
  | addRequestor announced served s id _ ih =>
    intro other hother
    rw [LrgQueuePolicy.addRequestor]
    split
    next => exact ih other hother
    next => exact (ih other hother).imp_left (mem_append_left _)
  | selectPacket announced served q s s' k id _ hall hcall hk ih =>
    have hne : q≠[] := fun hnil => by rw [hnil] at hk; cases hk
    rw [selectPacket_panics hne fun id hid => ih id (hall id hid)] at hcall
    cases hcall

/-- A packet whose requestor was announced is never selected. -/
theorem not_serves (h : Run announced served s) (hq : q≠[]) (hall : ∀ id∈q,id∈announced) :
    s.selectPacket q = .error .panic ∧ ¬Serves announced served s q := by
  have hpanic:=selectPacket_panics hq fun id hid => run_announced h id (hall id hid)
  refine ⟨hpanic,?_⟩
  rintro ⟨id,_,_,s',hcall,_⟩
  rw [hpanic] at hcall
  cases hcall

theorem run_one : Run [4] [] ⟨[4],[4]⟩ := .addRequestor [4] [] ⟨[4],[]⟩ 4 (.enqueuePacket [] [] ⟨[],[]⟩ 4 .init)

theorem not_serves_one : selectPacket ⟨[4],[4]⟩ [4] = .error .panic ∧ ¬Serves [4] [] ⟨[4],[4]⟩ [4] :=
  not_serves run_one (List.cons_ne_nil _ _) fun _ hid => hid

theorem panics_one : ∃ s,Run [4] [] s ∧ s.selectPacket [4] = .error .panic := ⟨_,run_one,rfl⟩

end LrgQueuePolicy

end AquaGem5.Controller
