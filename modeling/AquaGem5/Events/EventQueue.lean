import AquaGem5.Lib.Checked
import AquaGem5.Lib.Links
import Mathlib.Data.Prod.Lex
import Mathlib.Data.List.Nodup

/-!
# Event queues (eventq.cc, eventq.hh)

The fields of the events are functions of the event. A loop that follows pointers takes fuel. The
flags and counters that only serve the deletion of events are left out.
-/

namespace AquaGem5.Events
open Checked

namespace EventQueue

inductive Fault where
  /-- `assert(when >= getCurTick())`. -/
  | past
  /-- `assert(!event->scheduled())`, or its negation. -/
  | scheduled
  /-- `panic("event not found!")`. -/
  | notFound
  /-- `serviceOne` on an empty queue. -/
  | null
  | fuel
  deriving DecidableEq

end EventQueue

structure EventQueue (E : Type) where
  head : Option E
  curTick : ℕ
  nextBin : E → Option E
  nextInBin : E → Option E
  when_ : E → ℕ
  priority : E → ℤ
  scheduled : E → Bool
  squashed : E → Bool

namespace EventQueue

variable {E : Type} [DecidableEq E]

def lt (q : EventQueue E) (l r : E) : Prop :=
  q.when_ l<q.when_ r ∨ (q.when_ l=q.when_ r ∧ q.priority l<q.priority r)

def le (q : EventQueue E) (l r : E) : Prop :=
  q.when_ l<q.when_ r ∨ (q.when_ l=q.when_ r ∧ q.priority l≤q.priority r)

def same (q : EventQueue E) (l r : E) : Prop := q.when_ l=q.when_ r ∧ q.priority l=q.priority r

instance (q : EventQueue E) (l r : E) : Decidable (q.lt l r) := inferInstanceAs (Decidable (_ ∨ _))

instance (q : EventQueue E) (l r : E) : Decidable (q.le l r) := inferInstanceAs (Decidable (_ ∨ _))

instance (q : EventQueue E) (l r : E) : Decidable (q.same l r) := inferInstanceAs (Decidable (_ ∧ _))

/-- `Event::insertBefore`; the event is the top of the bin it returns. -/
def insertBefore (q : EventQueue E) (event : E) : Option E → EventQueue E
  | none => {q with
      nextBin := Function.update q.nextBin event none
      nextInBin := Function.update q.nextInBin event none}
  | some curr =>
    if q.lt event curr then
      {q with
        nextBin := Function.update q.nextBin event (some curr)
        nextInBin := Function.update q.nextInBin event none}
    else
      {q with
        nextBin := Function.update q.nextBin event (q.nextBin curr)
        nextInBin := Function.update q.nextInBin event (some curr)}

/-- The loop of `insert` and `remove` along the bins. -/
def walk (q : EventQueue E) (event : E) : ℕ → E → Option E → Except Fault (E × Option E)
  | 0,_,_ => .error .fuel
  | _+1,prev,none => .ok (prev,none)
  | fuel+1,prev,some curr =>
    if q.lt curr event then q.walk event fuel curr (q.nextBin curr) else .ok (prev,some curr)

def insert (fuel : ℕ) (q : EventQueue E) (event : E) : Except Fault (EventQueue E) :=
  match q.head with
  | none => .ok {q.insertBefore event none with head := some event}
  | some head =>
    if q.le event head then .ok {q.insertBefore event (some head) with head := some event}
    else do
      let (prev,curr) ← q.walk event fuel head (q.nextBin head)
      let q := q.insertBefore event curr
      return {q with nextBin := Function.update q.nextBin prev (some event)}

def findInBin (q : EventQueue E) (event : E) : ℕ → E → Option E → Except Fault E
  | 0,_,_ => .error .fuel
  | _+1,_,none => .error .notFound
  | fuel+1,curr,some next =>
    if event=next then .ok curr else q.findInBin event fuel next (q.nextInBin next)

def removeItem (fuel : ℕ) (q : EventQueue E) (event top : E) : Except Fault (Option E × EventQueue E) :=
  if event=top then
    match q.nextInBin top with
    | none => .ok (q.nextBin top,q)
    | some next => .ok (some next,{q with nextBin := Function.update q.nextBin next (q.nextBin top)})
  else do
    let curr ← q.findInBin event fuel top (q.nextInBin top)
    return (some top,{q with nextInBin := Function.update q.nextInBin curr (q.nextInBin event)})

def remove (fuel : ℕ) (q : EventQueue E) (event : E) : Except Fault (EventQueue E) :=
  match q.head with
  | none => .error .notFound
  | some head =>
    if q.same head event then do
      let (top,q) ← q.removeItem fuel event head
      return {q with head := top}
    else do
      let (prev,curr) ← q.walk event fuel head (q.nextBin head)
      match curr with
      | none => .error .notFound
      | some curr =>
        if ¬q.same curr event then .error .notFound
        else do
          let (top,q) ← q.removeItem fuel event curr
          return {q with nextBin := Function.update q.nextBin prev top}

def setWhen (q : EventQueue E) (event : E) (when_ : ℕ) : EventQueue E :=
  {q with when_ := Function.update q.when_ event when_}

def setScheduled (q : EventQueue E) (event : E) (flag : Bool) : EventQueue E :=
  {q with scheduled := Function.update q.scheduled event flag}

def clearSquashed (q : EventQueue E) (event : E) : EventQueue E :=
  {q with squashed := Function.update q.squashed event false}

def schedule (fuel : ℕ) (q : EventQueue E) (event : E) (when_ : ℕ) : Except Fault (EventQueue E) := do
  check (q.curTick≤when_) .past
  check (q.scheduled event=false) .scheduled
  let q ← (q.setWhen event when_).insert fuel event
  return q.setScheduled event true

def deschedule (fuel : ℕ) (q : EventQueue E) (event : E) : Except Fault (EventQueue E) := do
  check (q.scheduled event=true) .scheduled
  let q ← q.remove fuel event
  return (q.clearSquashed event).setScheduled event false

def reschedule (fuel : ℕ) (q : EventQueue E) (event : E) (when_ : ℕ) (always : Bool) : Except Fault (EventQueue E) := do
  check (q.curTick≤when_) .past
  check (always=true ∨ q.scheduled event=true) .scheduled
  let q ← (if q.scheduled event then q.remove fuel event else pure q)
  let q ← (q.setWhen event when_).insert fuel event
  return (q.clearSquashed event).setScheduled event true

def popHead (q : EventQueue E) (event : E) : EventQueue E :=
  match q.nextInBin event with
  | some next => {q with nextBin := Function.update q.nextBin next (q.nextBin event), head := some next}
  | none => {q with head := q.nextBin event}

/-- `serviceOne` up to `process`, with the event it takes from the queue. -/
def serviceOne (q : EventQueue E) : Except Fault (E × EventQueue E) :=
  match q.head with
  | none => .error .null
  | some event =>
    let q := (q.setScheduled event false).popHead event
    if q.squashed event then .ok (event,q.clearSquashed event) else .ok (event,{q with curTick := q.when_ event})

/-- A call that respects the asserts, with fuel for its loops. `pending` are the scheduled events, the latest
first. What an event does when it is processed are calls of their own. -/
inductive Step (q : EventQueue E) (pending : List E) : EventQueue E → List E → Prop
  | schedule (q' : EventQueue E) (fuel : ℕ) (event : E) (when_ : ℕ) : pending.length<fuel →
      q.schedule fuel event when_ = .ok q' → Step q pending q' (event::pending)
  | deschedule (q' : EventQueue E) (fuel : ℕ) (event : E) : pending.length<fuel →
      q.deschedule fuel event = .ok q' → Step q pending q' (pending.erase event)
  | reschedule (q' : EventQueue E) (fuel : ℕ) (event : E) (when_ : ℕ) (always : Bool) : pending.length<fuel →
      q.reschedule fuel event when_ always = .ok q' → Step q pending q' (event::pending.erase event)
  | squash (event : E) : Step q pending {q with squashed := Function.update q.squashed event true} pending
  | serviceOne (q' : EventQueue E) (event : E) : q.serviceOne = .ok (event,q') → Step q pending q' (pending.erase event)

inductive Reachable : EventQueue E → List E → Prop
  | start (q : EventQueue E) : q.head=none → (∀ e,q.scheduled e=false) → Reachable q []
  | step {q q' : EventQueue E} {pending pending' : List E} : Reachable q pending → Step q pending q' pending' →
      Reachable q' pending'

end EventQueue
/-!
## The bins of an event queue

An event queue holds its events in bins of one time and priority, as stacks. `pending` is the list of
the scheduled events, the latest first, and a bin is the part of it with one key.
-/

open List

namespace EventQueue

variable {E : Type}

def key (q : EventQueue E) (e : E) : ℕ ×ₗ ℤ := toLex (q.when_ e,q.priority e)

variable {q q' : EventQueue E} {pending : List E} {e l r : E}

theorem lt_iff : q.lt l r ↔ q.key l<q.key r := by
  rw [key,key,Prod.Lex.toLex_lt_toLex]
  exact Iff.rfl

theorem le_iff : q.le l r ↔ q.key l≤q.key r := by
  rw [key,key,Prod.Lex.toLex_le_toLex]
  exact Iff.rfl

theorem same_iff : q.same l r ↔ q.key l=q.key r := by
  rw [key,key,toLex_inj,Prod.mk.injEq,same]

structure Bin (E : Type) where
  top : E
  rest : List E

def Bin.events (b : Bin E) : List E := b.top::b.rest

/-- The bins sort the pending events, and each one has its events in the order of `pending`. -/
structure Files (q : EventQueue E) (pending : List E) (bins : List (Bin E)) : Prop where
  increasing : bins.Pairwise fun b b' => q.key b.top<q.key b'.top
  lifo : ∀ b∈bins,b.events=pending.filter fun e => q.key e=q.key b.top
  all : ∀ e∈pending,∃ b∈bins,q.key e=q.key b.top
  nodup : pending.Nodup

variable {bins before rest : List (Bin E)} {b c : Bin E}

theorem Files.mem (h : Files q pending bins) (hb : b∈bins) (he : e∈b.events) : e∈pending ∧ q.key e=q.key b.top := by
  rw [h.lifo b hb,mem_filter,decide_eq_true_eq] at he
  exact he

theorem Bin.top_mem (b : Bin E) : b.top∈b.events := List.mem_cons_self

theorem Files.congr (h : Files q pending bins) (hkey : ∀ e∈pending,q'.key e=q.key e) : Files q' pending bins := by
  have htop : ∀ b∈bins,q'.key b.top=q.key b.top := fun b hb => hkey _ (h.mem hb b.top_mem).1
  refine ⟨h.increasing.imp_of_mem fun hb hb' hlt => ?_,fun b hb => ?_,fun e he => ?_,h.nodup⟩
  · rw [htop _ hb,htop _ hb']
    exact hlt
  · rw [h.lifo b hb]
    refine filter_congr fun e he => ?_
    rw [hkey e he,htop b hb]
  · obtain ⟨b,hb,hsame⟩:=h.all e he
    exact ⟨b,hb,by rw [hkey e he,htop b hb,hsame]⟩

theorem Files.new (h : Files q pending (before++rest)) (he : e∉pending) (hbefore : ∀ b∈before,q.key b.top<q.key e)
    (hrest : ∀ b∈rest,q.key e<q.key b.top) : Files q (e::pending) (before++⟨e,[]⟩::rest) := by
  have hother : ∀ b∈before++rest,q.key e≠q.key b.top := fun b hb => by
    cases mem_append.mp hb with
    | inl hb => exact (hbefore b hb).ne'
    | inr hb => exact (hrest b hb).ne
  obtain ⟨hincb,hincr,hcross⟩:=pairwise_append.mp h.increasing
  refine ⟨pairwise_append.mpr ⟨hincb,pairwise_cons.mpr ⟨hrest,hincr⟩,fun x hx y hy => ?_⟩,fun b hb => ?_,fun x hx => ?_,
    nodup_cons.mpr ⟨he,h.nodup⟩⟩
  · cases mem_cons.mp hy with
    | inl hye => exact hye ▸ hbefore x hx
    | inr hy => exact hcross x hx y hy
  · have hcase : b=⟨e,[]⟩ ∨ b∈before++rest := by
      simp only [mem_append,mem_cons] at hb ⊢
      tauto
    cases hcase with
    | inl hbe =>
      rw [hbe,filter_cons_of_pos (by simp)]
      have hnone : pending.filter (fun x => q.key x=q.key e)=[] := filter_eq_nil_iff.mpr fun x hx hsame => by
        obtain ⟨b',hb',hxb⟩:=h.all x hx
        exact hother b' hb' ((of_decide_eq_true hsame).symm.trans hxb)
      rw [hnone]
      rfl
    | inr hold =>
      rw [filter_cons_of_neg (by simpa using hother b hold)]
      exact h.lifo b hold
  · cases mem_cons.mp hx with
    | inl hxe => exact ⟨⟨e,[]⟩,by simp,by rw [hxe]⟩
    | inr hx =>
      obtain ⟨b,hb,hsame⟩:=h.all x hx
      refine ⟨b,?_,hsame⟩
      simp only [mem_append,mem_cons] at hb ⊢
      tauto

theorem Files.key_ne (h : Files q pending (before++b::rest)) (hc : c∈before++rest) : q.key c.top≠q.key b.top := by
  obtain ⟨_,hcons,hcross⟩:=pairwise_append.mp h.increasing
  cases mem_append.mp hc with
  | inl hin => exact (hcross c hin b mem_cons_self).ne
  | inr hin => exact ((pairwise_cons.mp hcons).1 c hin).ne'

theorem Files.push (h : Files q pending (before++b::rest)) (he : e∉pending) (hkey : q.key b.top=q.key e) :
    Files q (e::pending) (before++⟨e,b.events⟩::rest) := by
  obtain ⟨hincb,hincr,hcross⟩:=pairwise_append.mp h.increasing
  refine ⟨pairwise_append.mpr ⟨hincb,pairwise_cons.mpr ⟨fun y hy => ?_,hincr.of_cons⟩,fun x hx y hy => ?_⟩,
    fun c hc => ?_,fun x hx => ?_,nodup_cons.mpr ⟨he,h.nodup⟩⟩
  · show q.key e<q.key y.top
    rw [← hkey]
    exact (pairwise_cons.mp hincr).1 y hy
  · cases mem_cons.mp hy with
    | inl hye =>
      rw [hye]
      show q.key x.top<q.key e
      rw [← hkey]
      exact hcross x hx b mem_cons_self
    | inr hy => exact hcross x hx y (mem_cons_of_mem _ hy)
  · have hcase : c=⟨e,b.events⟩ ∨ c∈before++rest := by
      simp only [mem_append,mem_cons] at hc ⊢
      tauto
    cases hcase with
    | inl hce =>
      rw [hce,filter_cons_of_pos (by simp)]
      show e::b.events=_
      rw [h.lifo b (by simp),hkey]
    | inr hold =>
      have hne:=h.key_ne hold
      rw [hkey] at hne
      rw [filter_cons_of_neg (by simpa using hne.symm)]
      refine h.lifo c ?_
      simp only [mem_append,mem_cons] at hold ⊢
      tauto
  · cases mem_cons.mp hx with
    | inl hxe => exact ⟨⟨e,b.events⟩,by simp,by rw [hxe]⟩
    | inr hx =>
      obtain ⟨c,hc,hsame⟩:=h.all x hx
      have hcase : c=b ∨ c∈before++rest := by
        simp only [mem_append,mem_cons] at hc ⊢
        tauto
      cases hcase with
      | inl hcb => exact ⟨⟨e,b.events⟩,by simp,by rw [hsame,hcb,hkey]⟩
      | inr hold =>
        refine ⟨c,?_,hsame⟩
        simp only [mem_append,mem_cons] at hold ⊢
        tauto

def binOf : List E → List (Bin E)
  | [] => []
  | e::es => [⟨e,es⟩]

theorem mem_binOf {es : List E} (h : b∈binOf es) : b.events=es := by
  cases es with
  | nil => cases h
  | cons e es =>
    rw [mem_singleton.mp h]
    rfl

theorem exists_binOf {es : List E} (he : e∈es) : ∃ b,b∈binOf es ∧ b.events=es := by
  cases es with
  | nil => cases he
  | cons x es => exact ⟨⟨x,es⟩,mem_singleton.mpr rfl,rfl⟩

variable [DecidableEq E]

theorem Files.erase (h : Files q pending (before++b::rest)) (he : e∈b.events) :
    Files q (pending.erase e) (before++(binOf (b.events.erase e)++rest)) := by
  obtain ⟨hpending,hkey⟩:=h.mem (by simp) he
  have hevents : b.events.erase e=(pending.erase e).filter fun x => q.key x=q.key b.top := by
    have hnodup : b.events.Nodup := by
      rw [h.lifo b (by simp)]
      exact h.nodup.filter _
    rw [hnodup.erase_eq_filter,h.nodup.erase_eq_filter,h.lifo b (by simp),filter_comm]
  have hsame : ∀ c∈binOf (b.events.erase e),q.key c.top=q.key b.top := fun c hc => by
    have hin : c.top∈b.events.erase e := (mem_binOf hc) ▸ c.top_mem
    exact (h.mem (by simp) (mem_of_mem_erase hin)).2
  obtain ⟨hincb,hincr,hcross⟩:=pairwise_append.mp h.increasing
  refine ⟨pairwise_append.mpr ⟨hincb,pairwise_append.mpr ⟨?_,hincr.of_cons,fun x hx y hy => ?_⟩,fun x hx y hy => ?_⟩,
    fun c hc => ?_,fun x hx => ?_,h.nodup.erase e⟩
  · cases b.events.erase e with
    | nil => exact .nil
    | cons x xs => exact pairwise_singleton _ _
  · rw [hsame x hx]
    exact (pairwise_cons.mp hincr).1 y hy
  · cases mem_append.mp hy with
    | inl hy =>
      rw [hsame y hy]
      exact hcross x hx b mem_cons_self
    | inr hy => exact hcross x hx y (mem_cons_of_mem _ hy)
  · have hcase : c∈binOf (b.events.erase e) ∨ c∈before++rest := by
      simp only [mem_append] at hc ⊢
      tauto
    cases hcase with
    | inl hc =>
      rw [mem_binOf hc,hsame c hc,hevents]
    | inr hold =>
      have hne:=h.key_ne hold
      rw [h.nodup.erase_eq_filter,filter_filter,h.lifo c (by simp only [mem_append,mem_cons] at hold ⊢; tauto)]
      refine filter_congr fun x _ => ?_
      by_cases hx : q.key x=q.key c.top
      · have hxe : x≠e := fun heq => hne (by rw [← hx,heq,hkey])
        simp [hx,hxe]
      · simp [hx]
  · have hin:=mem_of_mem_erase hx
    obtain ⟨c,hc,hxc⟩:=h.all x hin
    have hcase : c=b ∨ c∈before++rest := by
      simp only [mem_append,mem_cons] at hc ⊢
      tauto
    cases hcase with
    | inl hcb =>
      have hxb : x∈b.events.erase e := by
        rw [hevents,mem_filter]
        exact ⟨hx,decide_eq_true (hcb ▸ hxc)⟩
      obtain ⟨c',hc',_⟩:=exists_binOf hxb
      exact ⟨c',by simp [hc'],by rw [hsame c' hc',hxc,hcb]⟩
    | inr hold =>
      refine ⟨c,?_,hxc⟩
      simp only [mem_append] at hold ⊢
      tauto

end EventQueue
/-! ## The two-level list refines an ordered schedule -/

open Segment Function

namespace EventQueue

variable {E : Type}

/-- The pointers of the tops lead from bin to bin, and those in a bin from event to event. Nothing is said
of `nextBin` of an event that is not a top. -/
structure Shape (q : EventQueue E) (p : Option E) (bins : List (Bin E)) : Prop where
  tops : Seg q.nextBin p (bins.map Bin.top) none
  inBins : ∀ b∈bins,Seg q.nextInBin (some b.top) b.events none

variable {q q' : EventQueue E} {pending : List E} {e x : E} {bins before rest rest' : List (Bin E)}
  {b c : Bin E} {p r : Option E}

def Repointed (q q' : EventQueue E) : Prop :=
  ∃ head nextBin nextInBin,q'={q with head := head, nextBin := nextBin, nextInBin := nextInBin}

theorem Repointed.trans {q'' : EventQueue E} (h : Repointed q q') (h' : Repointed q' q'') : Repointed q q'' := by
  obtain ⟨_,_,_,rfl⟩:=h
  obtain ⟨head,nextBin,nextInBin,rfl⟩:=h'
  exact ⟨head,nextBin,nextInBin,rfl⟩

theorem Repointed.key (h : Repointed q q') (e : E) : q'.key e=q.key e := by
  obtain ⟨_,_,_,rfl⟩:=h
  rfl

theorem Shape.congr (h : Shape q p bins)
    (hsame : ∀ b∈bins,∀ x∈b.events,q'.nextBin x=q.nextBin x ∧ q'.nextInBin x=q.nextInBin x) : Shape q' p bins := by
  refine ⟨h.tops.congr fun x hx => ?_,fun b hb => (h.inBins b hb).congr fun x hx => (hsame b hb x hx).2⟩
  obtain ⟨b,hb,rfl⟩:=mem_map.mp hx
  exact (hsame b hb _ b.top_mem).1

theorem walk_post (fuel : ℕ) (b : Bin E) (bins : List (Bin E)) (p : Option E) (h : Seg q.nextBin p (bins.map Bin.top) none)
    (hp : p=q.nextBin b.top) (hb : q.key b.top<q.key e) (hf : bins.length<fuel) :
    Post (q.walk e fuel b.top p) (fun res => ∃ before c rest,b::bins=before++c::rest ∧ res=(c.top,(rest.map Bin.top).head?) ∧
      (∀ x∈before++[c],q.key x.top<q.key e) ∧ ∀ x∈rest.head?,q.key e≤q.key x.top) fun _ => False := by
  induction bins generalizing fuel b p with
  | nil =>
    obtain ⟨fuel,rfl⟩ : ∃ n,fuel=n+1 := Nat.exists_eq_succ_of_ne_zero (Nat.ne_of_gt hf)
    have hnone : p=none := h
    rw [hnone,walk]
    refine ⟨[],b,[],rfl,rfl,fun x hx => ?_,fun x hx => (by cases hx)⟩
    rw [mem_singleton.mp hx]
    exact hb
  | cons b' bins ih =>
    rw [length_cons] at hf
    obtain ⟨fuel,rfl⟩ : ∃ n,fuel=n+1 := Nat.exists_eq_succ_of_ne_zero (by omega)
    obtain ⟨hsome,htail⟩:=h
    rw [hsome,walk]
    split
    next hlt =>
      refine (ih fuel b' (q.nextBin b'.top) htail rfl (lt_iff.mp hlt) (by omega)).imp fun res hres => ?_
      obtain ⟨before,c,rest,heq,hres,hless,hmore⟩:=hres
      refine ⟨b::before,c,rest,by rw [heq,cons_append],hres,fun x hx => ?_,hmore⟩
      cases mem_cons.mp hx with
      | inl hxb => exact hxb ▸ hb
      | inr hx => exact hless x hx
    next hnot =>
      refine ⟨[],b,b'::bins,rfl,rfl,fun x hx => ?_,fun x hx => ?_⟩
      · rw [mem_singleton.mp hx]
        exact hb
      · cases hx
        rw [lt_iff] at hnot
        exact not_lt.mp hnot

variable [DecidableEq E]

theorem Shape.link (h : Shape q p (before++c::rest)) (hrest : Shape q' r rest')
    (hsame : ∀ b∈before++[c],∀ x∈b.events,q'.nextBin x=q.nextBin x ∧ q'.nextInBin x=q.nextInBin x)
    (hbefore : c.top∉before.map Bin.top) (hafter : c.top∉rest'.map Bin.top) :
    Shape {q' with nextBin := Function.update q'.nextBin c.top r} p (before++c::rest') := by
  have htops:=h.tops
  rw [map_append,map_cons] at htops
  have hlead : Seg q'.nextBin p (before.map Bin.top) (some c.top) := (seg_cut.mp htops).1.congr fun x hx => by
    obtain ⟨b,hb,rfl⟩:=mem_map.mp hx
    exact (hsame b (mem_append_left _ hb) _ b.top_mem).1
  refine ⟨?_,fun b hb => ?_⟩
  · rw [map_append,map_cons]
    exact hlead.link hbefore hafter hrest.tops
  · have hcase : b∈before++[c] ∨ b∈rest' := by
      simp only [mem_append,mem_cons,not_mem_nil] at hb ⊢
      tauto
    cases hcase with
    | inl hold =>
      refine (h.inBins b ?_).congr fun x hx => (hsame b hold x hx).2
      simp only [mem_append,mem_cons,not_mem_nil] at hold ⊢
      tauto
    | inr hnew => exact hrest.inBins b hnew

theorem insertBefore_repointed (q : EventQueue E) (e : E) (p : Option E) : Repointed q (q.insertBefore e p) := by
  cases p with
  | none => exact ⟨_,_,_,rfl⟩
  | some curr =>
    simp only [insertBefore]
    split
    next => exact ⟨_,_,_,rfl⟩
    next => exact ⟨_,_,_,rfl⟩

theorem insertBefore_head (q : EventQueue E) (e : E) (p : Option E) : (q.insertBefore e p).head=q.head := by
  cases p with
  | none => rfl
  | some curr =>
    simp only [insertBefore]
    split
    next => rfl
    next => rfl

theorem insertBefore_frame (hx : x≠e) (p : Option E) :
    (q.insertBefore e p).nextBin x=q.nextBin x ∧ (q.insertBefore e p).nextInBin x=q.nextInBin x := by
  cases p with
  | none => exact ⟨update_of_ne hx ..,update_of_ne hx ..⟩
  | some curr =>
    simp only [insertBefore]
    split
    next => exact ⟨update_of_ne hx ..,update_of_ne hx ..⟩
    next => exact ⟨update_of_ne hx ..,update_of_ne hx ..⟩

def place (q : EventQueue E) (e : E) : List (Bin E) → List (Bin E)
  | [] => [⟨e,[]⟩]
  | b::bins => if q.lt e b.top then ⟨e,[]⟩::b::bins else ⟨e,b.events⟩::bins

theorem Shape.insertBefore (h : Shape q p rest) (he : ∀ b∈rest,e∉b.events) :
    Shape (q.insertBefore e p) (some e) (place q e rest) := by
  have hold : Shape (q.insertBefore e p) p rest := h.congr fun b hb x hx =>
    insertBefore_frame (ne_of_mem_of_not_mem hx (he b hb)) p
  cases rest with
  | nil =>
    have hp : p=none := h.tops
    rw [hp]
    refine ⟨⟨rfl,update_self ..⟩,fun b hb => ?_⟩
    rw [mem_singleton.mp hb]
    exact ⟨rfl,update_self ..⟩
  | cons b rest =>
    have hp : p=some b.top := h.tops.1
    have hnext:=hold.tops.2
    have hbin:=hold.inBins b mem_cons_self
    rw [hp] at hold hnext hbin ⊢
    rw [place]
    split
    next hlt =>
      have hins : q.insertBefore e (some b.top)={q with
          nextBin := update q.nextBin e (some b.top), nextInBin := update q.nextInBin e none} := if_pos hlt
      refine ⟨⟨rfl,?_⟩,fun c hc => ?_⟩
      · rw [hins]
        show Seg _ (update q.nextBin e (some b.top) e) _ _
        rw [update_self]
        rw [hins] at hold
        exact hold.tops
      · cases mem_cons.mp hc with
        | inl hce =>
          rw [hce,hins]
          exact ⟨rfl,update_self ..⟩
        | inr hc => exact hold.inBins c hc
    next hnot =>
      have hins : q.insertBefore e (some b.top)={q with
          nextBin := update q.nextBin e (q.nextBin b.top)
          nextInBin := update q.nextInBin e (some b.top)} := if_neg hnot
      have hbe : b.top≠e := ne_of_mem_of_not_mem b.top_mem (he b mem_cons_self)
      have hself : (q.insertBefore e (some b.top)).nextBin e=q.nextBin b.top := by
        rw [hins]
        exact update_self ..
      refine ⟨⟨rfl,?_⟩,fun c hc => ?_⟩
      · rw [hself,← (insertBefore_frame hbe (some b.top)).1]
        exact hnext
      · cases mem_cons.mp hc with
        | inl hce =>
          rw [hce]
          refine ⟨rfl,?_⟩
          have hself : (q.insertBefore e (some b.top)).nextInBin e=some b.top := by
            rw [hins]
            exact update_self ..
          rw [hself]
          exact hbin
        | inr hc => exact hold.inBins c (mem_cons_of_mem _ hc)

omit [DecidableEq E] in
theorem Files.place (before rest : List (Bin E)) (h : Files q pending (before++rest)) (he : e∉pending) (hbefore : ∀ b∈before,q.key b.top<q.key e)
    (hrest : ∀ b∈rest.head?,q.key e≤q.key b.top) : Files q (e::pending) (before++place q e rest) := by
  cases rest with
  | nil => exact h.new he hbefore fun b hb => absurd hb not_mem_nil
  | cons b rest =>
    rw [EventQueue.place]
    obtain ⟨_,hincr,_⟩:=pairwise_append.mp h.increasing
    split
    next hlt =>
      rw [lt_iff] at hlt
      refine h.new he hbefore fun c hc => ?_
      cases mem_cons.mp hc with
      | inl hcb => exact hcb ▸ hlt
      | inr hc => exact hlt.trans ((pairwise_cons.mp hincr).1 c hc)
    next hnot =>
      rw [lt_iff,not_lt] at hnot
      exact h.push he (le_antisymm hnot (hrest b rfl))

omit [DecidableEq E] in
theorem Files.top_not_mem (h : Files q pending (before++c::rest)) :
    c.top∉before.map Bin.top ∧ c.top∉rest.map Bin.top := by
  have hother : ∀ b∈before++rest,b.top≠c.top := fun b hb heq => h.key_ne hb (congrArg q.key heq)
  constructor
  · intro hin
    obtain ⟨b,hb,heq⟩:=mem_map.mp hin
    exact hother b (mem_append_left _ hb) heq
  · intro hin
    obtain ⟨b,hb,heq⟩:=mem_map.mp hin
    exact hother b (mem_append_right _ hb) heq

omit [DecidableEq E] in
theorem Shape.behind (h : Shape q p (before++c::rest)) : Shape q (rest.map Bin.top).head? rest := by
  have htops:=h.tops
  rw [map_append,map_cons] at htops
  have hrest:=(seg_cut.mp htops).2
  refine ⟨hrest.head? ▸ hrest,fun b hb => h.inBins b ?_⟩
  exact mem_append_right _ (mem_cons_of_mem _ hb)

theorem insert_post {fuel : ℕ} (hs : Shape q q.head bins) (hf : Files q pending bins) (he : e∉pending) (hfuel : bins.length<fuel) :
    Post (q.insert fuel e) (fun q' => Repointed q q' ∧ ∃ bins',Shape q' q'.head bins' ∧ Files q (e::pending) bins')
      fun _ => False := by
  have hfree : ∀ b∈bins,e∉b.events := fun b hb hin => he (hf.mem hb hin).1
  have hfront : ∀ q1 : EventQueue E,q1=q.insertBefore e q.head → Shape q1 (some e) (EventQueue.place q e bins) := fun q1 hq => by
    rw [hq]
    exact hs.insertBefore hfree
  have hpointers : ∀ p : Option E,∀ head nextBin,Repointed q {q.insertBefore e p with head := head, nextBin := nextBin} :=
    fun p head nextBin => (insertBefore_repointed q e p).trans ⟨_,_,_,rfl⟩
  cases bins with
  | nil =>
    have hhead : q.head=none := hs.tops
    rw [EventQueue.insert,hhead]
    have hshape:=hfront _ rfl
    rw [hhead] at hshape
    exact ⟨hpointers none _ _,_,⟨hshape.tops,hshape.inBins⟩,Files.place [] _ hf he (fun b hb => absurd hb not_mem_nil)
      fun b hb => (by cases hb)⟩
  | cons b bins =>
    have hhead : q.head=some b.top := hs.tops.1
    rw [EventQueue.insert,hhead]
    dsimp only
    split
    next hle =>
      rw [le_iff] at hle
      have hshape:=hfront _ rfl
      rw [hhead] at hshape
      refine ⟨hpointers _ _ _,_,⟨hshape.tops,hshape.inBins⟩,Files.place [] _ hf he (fun b hb => absurd hb not_mem_nil)
        fun c hc => ?_⟩
      cases hc
      exact hle
    next hnot =>
      rw [le_iff,not_le] at hnot
      rw [length_cons] at hfuel
      refine (walk_post fuel b bins (q.nextBin b.top) hs.tops.2 rfl hnot (by omega)).bind fun res hres => ?_
      obtain ⟨before,c,rest,heq,rfl,hless,hmore⟩:=hres
      rw [heq] at hs hf hfree
      have hbehind:=hs.behind.insertBefore fun x hx => hfree x (mem_append_right _ (mem_cons_of_mem _ hx))
      have hfiles : Files q (e::pending) (before++c::EventQueue.place q e rest) := by
        have hsplit : before++c::rest=(before++[c])++rest := by rw [append_assoc,singleton_append]
        have hplaced:=Files.place (before++[c]) rest (hsplit ▸ hf) he hless hmore
        rw [append_assoc,singleton_append] at hplaced
        exact hplaced
      have htops:=hfiles.top_not_mem
      have hlinked:=hs.link hbehind (fun x hx y hy => insertBefore_frame (ne_of_mem_of_not_mem hy (hfree x ?_)) _) htops.1 htops.2
      · have hsamehead:=insertBefore_head q e (rest.map Bin.top).head?
        refine ⟨hpointers _ _ _,_,⟨?_,hlinked.inBins⟩,hfiles⟩
        show Seg _ (q.insertBefore e _).head _ none
        rw [hsamehead]
        exact hlinked.tops
      · simp only [mem_append,mem_cons,not_mem_nil] at hx ⊢
        tauto

end EventQueue
end AquaGem5.Events
