import AquaGem5.Ruby.MSI.Requests

/-!
# Eviction notices arriving at the directory

A notice is acknowledged in every mode of the directory, whatever happened to its sender in the meantime.
-/

namespace AquaGem5.Ruby.MSI
open Checked Succession List Finset

variable {C V : Type} [DecidableEq C] [DecidableEq V] [Inhabited V]

def Directory.Refuses (x : Directory C) (m : RequestMsg C V) : Prop :=
  m.type = .PutS ∧ x.sharers.card=1 ∧ (m.requestor∉x.sharers ∨ x.dirState = .SS_m)

namespace Phase

def Evicts : Phase C V → Prop
  | ownerPut => True
  | sharerPut _ _ => True
  | invalidPut _ _ => True
  | _ => False

def acknowledged : Phase C V → Phase C V
  | ownerPut => ownerAcked
  | sharerPut v _ => sharerAcked v
  | invalidPut v _ => invalidAcked v
  | _ => idle

end Phase

namespace Protocol

def without (g : Protocol C V) (c : C) : Finset C :=
  if g.mode.fetches.isNone then g.sharers.erase c else g.sharers

def evict (g : Protocol C V) (c : C) : Protocol C V :=
  {g.enter c (g.phase c).acknowledged with sharers := g.without c}

omit [DecidableEq V] [Inhabited V] in
theorem without_subset (g : Protocol C V) (c : C) : g.without c ⊆ g.sharers := by
  unfold without
  split
  · exact erase_subset c g.sharers
  · exact subset_rfl

omit [DecidableEq V] [Inhabited V] in
theorem mem_without (g : Protocol C V) {c x : C} (hx : x≠c) : x∈g.without c ↔ x∈g.sharers := by
  unfold without
  split
  · simp [hx]
  · rfl

variable {g : Protocol C V} {c : C}

omit [DecidableEq V] [Inhabited V] in
theorem Inv.evict (h : g.Inv) (hp : (g.phase c).Evicts)
    (hf : g.phase c = .ownerPut → successor g.writers c≠none ∨ g.Closing c) : (g.evict c).Inv := by
  have hself : (g.evict c).phase c=(g.phase c).acknowledged := enter_phase_self g c _
  have hother : ∀ x, x≠c → (g.evict c).phase x=g.phase x := fun x => enter_phase_of_ne g _
  have hsharer : ¬((g.evict c).place c).sharer := by
    rintro ⟨hs,hn⟩
    have hn' : g.mode.fetches=none := hn
    have hs' : c∈g.without c := hs
    simp [without,hn'] at hs'
  constructor
  · exact h.nodup
  · intro x
    have hplace:=h.places x
    rcases eq_or_ne x c with rfl | hx
    · rw [hself]
      cases hq : g.phase x with
      | ownerPut =>
        rw [hq] at hplace
        exact ⟨hplace.1,hplace.2.1,hplace.2.2.1,hplace.2.2.2.1,hsharer,hf hq⟩
      | sharerPut v dirty | invalidPut v dirty =>
        rw [hq] at hplace
        exact ⟨hplace.1,hsharer,hplace.2.2⟩
      | _ =>
        rw [hq] at hp
        exact absurd hp not_false
    · have heq : (g.evict c).place x=g.place x := by
        have hs : x∈(g.evict c).sharers ↔ x∈g.sharers := mem_without g hx
        simp only [place,hs]
        rfl
      rw [hother x hx,heq]
      exact hplace
  · intro x hx
    have hfirst:=h.first x hx
    have hpending : (g.evict c).pending=g.pending := rfl
    have hsharers : (g.evict c).sharers=g.without c := rfl
    rcases eq_or_ne x c with rfl | hne
    · rw [hself]
      cases hq : g.phase x <;> rw [hq] at hp hfirst <;>
        first | exact hfirst | exact absurd hp not_false
    · rw [hother x hne]
      cases hq : g.phase x with
      | storeFetching copy early =>
        have hplace:=h.places x
        rw [hq] at hplace hfirst
        have hfetching : g.mode.fetches=some x := hplace.2.1
        have hkeep : g.without c=g.sharers := by simp [without,hfetching]
        rw [hsharers,hkeep]
        exact hfirst
      | _ =>
        rw [hq] at hfirst
        exact hfirst
  · exact h.nobody
  · exact h.acks
  · have hfits:=h.mode
    show ModeFits (g.evict c) g.mode
    cases hm : g.mode with
    | invalid | retiring source answered =>
      rw [hm] at hfits
      exact ⟨hfits.1,subset_empty.mp (hfits.2.1 ▸ without_subset g c),hfits.2.2⟩
    | owned =>
      rw [hm] at hfits
      exact ⟨hfits.1,subset_empty.mp (hfits.2 ▸ without_subset g c)⟩
    | downgrading r =>
      rw [hm] at hfits
      exact ⟨hfits.1,fun x hx => hfits.2 x (without_subset g c hx)⟩
    | _ =>
      rw [hm] at hfits
      exact hfits

variable {m : RequestMsg C V} {event : Directory.Event}

omit [DecidableEq V] in
theorem evict_turn (h : g.Inv) (hm : m.requestor=c)
    (he : event = .PutSNotLast ∨ event = .PutMNonOwner ∨ event = .PutSLast ∧
      (g.system.dir.dirState = .S_D ∨ g.system.dir.dirState = .M_m)) :
    Directory.doTransition ⟨none,none,some m⟩ event g.system.dir =
      .ok ⟨⟨g.mode.dirState,g.without c,g.owner⟩,[({c},putAck)],[],[],true,false,false⟩ := by
  subst hm
  have hfits:=h.mode
  show Directory.doTransition _ event (⟨g.mode.dirState,g.sharers,g.owner⟩ : Directory C)=_
  have hstate : g.system.dir.dirState=g.mode.dirState := rfl
  rw [hstate] at he
  unfold without
  cases hq : g.mode with
  | invalid =>
    have howner : g.owner = ∅ := owner_none hq rfl
    rw [hq] at hfits he
    rw [hfits.2.1,howner]
    rcases he with rfl | rfl | ⟨-,he | he⟩ <;> first | rfl | cases he
  | owned =>
    rw [hq] at hfits he
    obtain ⟨l,hl⟩ : ∃ l, g.writers.getLast?=some l := ⟨_,getLast?_eq_some_getLast hfits.1⟩
    have howner : g.owner={l} := owner_last hq rfl hl
    rw [hfits.2,howner]
    rcases he with rfl | rfl | ⟨-,he | he⟩ <;> first | rfl | cases he
  | retiring source answered =>
    rw [hq] at hfits he
    rw [hfits.2.1]
    rcases he with rfl | rfl | ⟨-,he | he⟩ <;> first | rfl | cases he
  | _ =>
    rw [hq] at he
    rcases he with rfl | rfl | ⟨rfl,he | he⟩ <;> first | rfl | cases he

omit [DecidableEq C] [DecidableEq V] in
theorem evicts_of_request (hm : m∈(g.phase c).request c g.block) (ht : m.type = .PutS ∨ m.type = .PutM) :
    (g.phase c).Evicts ∧ (g.phase c).request c g.block={m} ∧ m.requestor=c := by
  cases hp : g.phase c with
  | ownerPut =>
    rw [hp] at hm
    obtain rfl:=Multiset.mem_singleton.mp hm
    exact ⟨trivial,rfl,rfl⟩
  | sharerPut v dirty | invalidPut v dirty =>
    rw [hp] at hm
    obtain rfl:=Multiset.mem_singleton.mp hm
    cases dirty <;> exact ⟨trivial,rfl,rfl⟩
  | loadAsked | storeAsked copy =>
    rw [hp] at hm
    obtain rfl:=Multiset.mem_singleton.mp hm
    simp at ht
  | _ =>
    rw [hp] at hm
    exact absurd hm (Multiset.notMem_zero m)

omit [DecidableEq V] in
theorem evict_forwards {g g' : Protocol C V} (hp : (g.phase c).Evicts)
    (hself : (g'.phase c).acked=true) (hother : ∀ x, x≠c → g'.phase x=g.phase x)
    (hw : g'.writers=g.writers) (hi : g'.invalidated=g.invalidated)
    (hd : g'.mode.downgrade=g.mode.downgrade) (x : C) :
    g'.forwards x=g.forwards x++System.forwardedTo x [({c},putAck)] := by
  rw [forwardedTo_singleton]
  unfold forwards
  rw [hw,hi,hd]
  rcases eq_or_ne x c with rfl | hx
  · have hacked : (g.phase x).acked=false := by
      cases hq : g.phase x <;> rw [hq] at hp <;> first | rfl | exact absurd hp not_false
    simp [hself,hacked]
  · simp [hother x hx,hx]

def Acknowledges (g : Protocol C V) (c : C)
    (result : Except Fault (System C V × List (Callback C V))) : Prop :=
  ∃ g' : Protocol C V, result = .ok (g'.system,[]) ∧ g'.Inv ∧ g'.block=g.block ∧
    g'.system.requestToDir c=0 ∧ g'.forwards c=g.forwards c++[putAck]

theorem Taken.acknowledges (g' : Protocol C V) {t : Directory.Turn C V} (h : Taken g g' c m t) (hg : g'.Inv)
    (he : g.system.dir.requestIn m = .ok event)
    (ht : Directory.doTransition ⟨none,none,some m⟩ event g.system.dir = .ok t)
    (hsent : t.forwards=[({c},putAck)]) : g.Acknowledges c (g.system.step (.request c m)) := by
  rw [request_result g.system he ht,h.system]
  have hempty : g'.system.requestToDir c=0 := by
    show (g'.phase c).request c g'.block=0
    rw [h.block]
    exact h.request.2
  refine ⟨g',rfl,hg,h.block,hempty,?_⟩
  rw [h.forwards,hsent,forwardedTo_singleton,if_pos (Finset.mem_singleton_self c)]

omit [DecidableEq V] in
theorem evict_taken (hp : (g.phase c).Evicts) (hm : (g.phase c).request c g.block={m}) : Taken g (g.evict c) c m
      ⟨⟨g.mode.dirState,g.without c,g.owner⟩,[({c},putAck)],[],[],true,false,false⟩ := by
  have hself : (g.evict c).phase c=(g.phase c).acknowledged := enter_phase_self g c _
  have hother : ∀ x, x≠c → (g.evict c).phase x=g.phase x := fun x => enter_phase_of_ne g _
  have hkeep : ((g.phase c).acknowledged).cache g.block=(g.phase c).cache g.block ∧
      ((g.phase c).acknowledged).request c g.block=0 ∧
      ((g.phase c).acknowledged).data g.block=(g.phase c).data g.block ∧
      ((g.phase c).acknowledged).acked=true := by
    cases hq : g.phase c <;> rw [hq] at hp <;>
      first | exact ⟨rfl,rfl,rfl,rfl⟩ | exact absurd hp not_false
  obtain ⟨hcache,hrequest,hdata,hacked⟩:=hkeep
  constructor
  · exact hother
  · rw [hself,hcache]
  · rw [hself]
    exact ⟨hm,hrequest⟩
  · rw [hself,hdata]
  · rfl
  · rfl
  · exact fun x => rfl
  · rfl
  · exact evict_forwards hp (by rw [hself,hacked]) hother rfl rfl rfl
  · rfl
  · rfl
  · exact (add_zero _).symm
  · rfl
  · rfl

theorem last_sharer_step (h : g.Inv)
    (hp : (g.phase c).Evicts) (hm : (g.phase c).request c g.block={m}) (hc : m.requestor=c)
    (hq : g.mode = .shared) (hs : g.sharers={c}) (he : g.system.dir.requestIn m = .ok .PutSLast) :
    g.Acknowledges c (g.system.step (.request c m)) := by
  have hfits:=h.mode
  rw [hq] at hfits
  obtain ⟨hw,hmemory⟩:=hfits
  have howner : g.owner = ∅ := owner_none hq rfl
  have hwithout : g.without c = ∅ := by simp [without,hq,hs,Mode.fetches]
  have hturn : Directory.doTransition ⟨none,none,some m⟩ .PutSLast g.system.dir =
      .ok ⟨⟨.I,∅,∅⟩,[({c},putAck)],[],[],true,false,false⟩ := by
    subst hc
    have herase : ({m.requestor} : Finset C).erase m.requestor = ∅ := by simp
    have hstate : Directory.setState (⟨.S,∅,∅⟩ : Directory C) .I = .ok ⟨.I,∅,∅⟩ := rfl
    show Directory.doTransition _ _ (⟨g.mode.dirState,g.sharers,g.owner⟩ : Directory C)=_
    rw [hq,hs,howner]
    simp only [Mode.dirState,Directory.doTransition,Directory.transition,Directory.runActions,
      Directory.Action.run,Directory.Turn.start,Directory.Turn.forward,L1Cache.orFault,bind,
      Except.bind,pure,Except.pure,herase,hstate,nil_append]
    rfl
  have hevict : (g.evict c).Inv := by
    refine h.evict hp fun hown => ?_
    have hplace:=h.places c
    rw [hown] at hplace
    have hqueued : c∈g.writers := mem_of_head? hplace.1
    simp [hw] at hqueued
  have hinv : ((g.evict c).remode .invalid g.memory).Inv :=
    hevict.remode (by show _=g.mode.downgrade; rw [hq]; rfl)
      (by show _=g.mode.reader; rw [hq]; rfl) (by show _=g.mode.fetches; rw [hq]; rfl)
      ⟨hw,hwithout,hmemory⟩
  have htaken:=evict_taken hp hm
  refine Taken.acknowledges ((g.evict c).remode .invalid g.memory) ?_ hinv he hturn rfl
  constructor
  · exact htaken.others
  · exact htaken.cache
  · exact htaken.request
  · exact htaken.data
  · rfl
  · rfl
  · exact htaken.acks
  · show _=(⟨.I,g.without c,∅⟩ : Directory C)
    rw [hwithout]
  · have hacked : ((g.evict c).phase c).acked=true := by
      rw [show (g.evict c).phase c=(g.phase c).acknowledged from enter_phase_self g c _]
      cases hr : g.phase c <;> rw [hr] at hp <;> first | rfl | exact absurd hp not_false
    exact evict_forwards hp hacked (fun x => enter_phase_of_ne g _) rfl rfl
      (by rw [hq]; rfl)
  · rfl
  · rw [hq]
    rfl
  · rw [hq]
    rfl
  · rw [hq]
    rfl
  · rfl

def retire (g : Protocol C V) (c : C) : Protocol C V :=
  {g.enter c (.ownerGone g.block) with mode := .retiring c false, writers := []}

theorem retire_step (h : g.Inv) (hp : g.phase c = .ownerPut) (hq : g.mode = .owned) (hl : g.writers.getLast?=some c) :
    g.Acknowledges c (g.system.step (.request c ⟨.PutM,c,g.block⟩)) := by
  have hfits:=h.mode
  rw [hq] at hfits
  obtain ⟨-,hsharers⟩:=hfits
  obtain ⟨hi,hacks⟩:=h.settled (c := c) (by rw [hp]; trivial)
  have hplace:=h.places c
  rw [hp] at hplace
  have hw : g.writers=[c] := by
    obtain ⟨l,hw⟩:=head?_eq_some_iff.mp hplace.1
    have hnodup:=h.nodup
    rw [hw] at hnodup hl ⊢
    rw [eq_singleton_of_getLast hnodup hl]
  have howner : g.owner={c} := owner_last hq rfl hl
  have hself : (g.retire c).phase c = .ownerGone g.block := enter_phase_self g c _
  have hother : ∀ x, x≠c → (g.retire c).phase x=g.phase x := fun x => enter_phase_of_ne g _
  have he : g.system.dir.requestIn (⟨.PutM,c,g.block⟩ : RequestMsg C V) = .ok .PutMOwner := by
    show (if c∈g.owner then _ else _)=_
    rw [howner,if_pos (Finset.mem_singleton_self c)]
  have hturn : Directory.doTransition ⟨none,none,some (⟨.PutM,c,g.block⟩ : RequestMsg C V)⟩
      .PutMOwner g.system.dir = .ok ⟨⟨.MI_m,∅,∅⟩,[({c},putAck)],[],
        [⟨.MEMORY_WB,.L1Cache c,g.block⟩],true,false,false⟩ := by
    show Directory.doTransition _ _ (⟨g.mode.dirState,g.sharers,g.owner⟩ : Directory C)=_
    rw [hq,hsharers]
    rfl
  have hinv : (g.retire c).Inv := by
    constructor
    · exact nodup_nil
    · intro x
      have hnone : x∉(g.retire c).sharers := by
        show x∉g.sharers
        simp [hsharers]
      rcases eq_or_ne x c with rfl | hx
      · rw [hself]
        exact ⟨not_mem_nil,fun hs => hnone hs.1,hplace.2.2.1,fun h => (by cases h)⟩
      · have hcx : c≠x := hx.symm
        have heq : (g.retire c).place x=g.place x := by
          simp [place,retire,Protocol.enter,Closing,hw,hq,Mode.fetches,Mode.reader,Mode.downgrade,
            hx,hcx]
        rw [hother x hx,heq]
        exact h.places x
    · exact fun _ h => (by cases h)
    · exact fun _ => ⟨hi,hacks⟩
    · exact h.acks
    · exact ⟨rfl,hsharers,fun h => (by cases h)⟩
  refine Taken.acknowledges (g.retire c) ?_ hinv he hturn rfl
  constructor
  · exact hother
  · rw [hself,hp]
    rfl
  · rw [hself,hp]
    exact ⟨rfl,rfl⟩
  · rw [hself,hp]
    rfl
  · rfl
  · rfl
  · intro x
    show (if _ then g.acks else 0)=_
    rw [hacks,ite_self,ite_self]
  · show _=(⟨.MI_m,g.sharers,∅⟩ : Directory C)
    rw [hsharers]
  · intro x
    rw [forwardedTo_singleton,forwards_of_not_queued (g := g.retire c) not_mem_nil]
    have hfree : x∉(g.retire c).invalidated := by
      show x∉g.invalidated
      simp [hi]
    have hfree' : x∉g.invalidated := hfree
    rw [if_neg hfree]
    rcases eq_or_ne x c with rfl | hx
    · rw [hself,if_pos (Finset.mem_singleton_self x)]
      simp [forwards,hi,hw,hq,hp,Mode.downgrade,Phase.acked]
    · have hqueued : x∉g.writers := by simpa [hw] using hx
      rw [hother x hx,forwards_of_not_queued hqueued,if_neg hfree',
        if_neg (notMem_singleton.mpr hx),append_nil]
  · rfl
  · rw [hq]
    rfl
  · rw [hq]
    rfl
  · rw [hq]
    rfl
  · rfl

theorem evict_step (h : g.Inv) (hp : (g.phase c).Evicts) (hm : (g.phase c).request c g.block={m}) (hc : m.requestor=c)
    (he : g.system.dir.requestIn m = .ok event)
    (hevent : event = .PutSNotLast ∨ event = .PutMNonOwner ∨ event = .PutSLast ∧
      (g.system.dir.dirState = .S_D ∨ g.system.dir.dirState = .M_m))
    (hf : g.phase c = .ownerPut → successor g.writers c≠none ∨ g.Closing c) :
    g.Acknowledges c (g.system.step (.request c m)) :=
  (evict_taken hp hm).acknowledges (g.evict c) (h.evict hp hf) he (evict_turn h hc hevent) rfl

theorem putS_step (h : g.Inv) (hm : m∈(g.phase c).request c g.block) (ht : m.type = .PutS)
    (hok : ¬g.system.dir.Refuses m) : g.Acknowledges c (g.system.step (.request c m)) := by
  obtain ⟨hp,hreq,hc⟩:=evicts_of_request hm (.inl ht)
  have hf : g.phase c = .ownerPut → successor g.writers c≠none ∨ g.Closing c := by
    intro hown
    rw [hown] at hm
    obtain rfl:=Multiset.mem_singleton.mp hm
    cases ht
  have hfits:=h.mode
  have hin : g.system.dir.requestIn m=if g.sharers.card=1 then
      if m.requestor∈g.sharers then .ok .PutSLast else .error .assertion
      else .ok .PutSNotLast := by
    simp only [Directory.requestIn,ht]
    rfl
  by_cases hcard : g.sharers.card=1
  · have hmem : m.requestor∈g.sharers := by
      by_contra hn
      exact hok ⟨ht,hcard,.inl hn⟩
    rw [if_pos hcard,if_pos hmem] at hin
    have hs : g.sharers={c} := by
      obtain ⟨x,hx⟩:=card_eq_one.mp hcard
      rw [hx,hc,Finset.mem_singleton] at hmem
      rw [hx,hmem]
    have hnonempty : g.sharers ≠ ∅ := by simp [hs]
    cases hq : g.mode with
    | shared => exact last_sharer_step h hp hreq hc hq hs hin
    | reading r answered =>
      have hphase:=h.reader_phase (r := r) (by rw [hq]; rfl)
      have hplace:=h.places r
      rw [hphase] at hplace
      have hr : r∈g.sharers := hplace.2.1.1
      rw [hs,Finset.mem_singleton] at hr
      rw [← hr,hphase] at hp
      exact absurd hp not_false
    | sharing source answered =>
      exact absurd ⟨ht,hcard,.inr (by show g.mode.dirState=_; rw [hq]; rfl)⟩ hok
    | fetching w answered =>
      exact evict_step h hp hreq hc hin
        (.inr (.inr ⟨rfl,.inr (by show g.mode.dirState=_; rw [hq]; rfl)⟩)) hf
    | downgrading r | returning source =>
      exact evict_step h hp hreq hc hin
        (.inr (.inr ⟨rfl,.inl (by show g.mode.dirState=_; rw [hq]; rfl)⟩)) hf
    | invalid | retiring source answered =>
      rw [hq] at hfits
      exact absurd hfits.2.1 hnonempty
    | owned =>
      rw [hq] at hfits
      exact absurd hfits.2 hnonempty
  · rw [if_neg hcard] at hin
    exact evict_step h hp hreq hc hin (.inl rfl) hf

theorem putM_step (h : g.Inv) (hm : m∈(g.phase c).request c g.block) (ht : m.type = .PutM) :
    g.Acknowledges c (g.system.step (.request c m)) := by
  obtain ⟨hp,hreq,hc⟩:=evicts_of_request hm (.inr ht)
  have hplace:=h.places c
  have hin : g.system.dir.requestIn m =
      if m.requestor∈g.owner then .ok .PutMOwner else .ok .PutMNonOwner := by
    simp only [Directory.requestIn,ht]
    rfl
  by_cases howner : m.requestor∈g.owner
  · -- only the last of the queue is an owner, and only one phase of it evicts
    rw [hc] at howner
    have hlast : g.writers.getLast?=some c := by
      unfold owner at howner
      split at howner
      · simpa using howner
      · exact absurd howner (notMem_empty c)
    have hqueued : c∈g.writers := mem_of_getLast? hlast
    have hown : g.phase c = .ownerPut := by
      cases hq : g.phase c with
      | ownerPut => rfl
      | sharerPut v dirty | invalidPut v dirty =>
        rw [hq] at hplace
        exact absurd hqueued hplace.1
      | _ =>
        rw [hq] at hp
        exact absurd hp not_false
    have hmode : g.mode = .owned := by
      rcases (h.mode_of_owner (.inl (by rw [hown]; rfl))).2 with hq | ⟨r,hq⟩
      · exact hq
      · unfold owner at howner
        rw [hq] at howner
        exact absurd howner (notMem_empty c)
    rw [hown] at hm
    obtain rfl:=Multiset.mem_singleton.mp hm
    exact retire_step h hown hmode hlast
  · rw [if_neg howner] at hin
    refine evict_step h hp hreq hc hin (.inr (.inl rfl)) fun hown => ?_
    rw [hown] at hplace
    have hqueued : c∈g.writers := mem_of_head? hplace.1
    by_cases hlast : g.writers.getLast?=some c
    · rcases (h.mode_of_owner (.inl (by rw [hown]; rfl))).2 with hq | ⟨r,hq⟩
      · exact absurd (by simp [owner,hq,Mode.owns,hlast,hc]) howner
      · exact .inr ⟨hlast,by rw [hq]; exact Option.some_ne_none r⟩
    · exact .inl (successor_ne_none hqueued hlast)

end Protocol

theorem System.refuse_step (s : System C V) (c : C) {m : RequestMsg C V} (hr : s.dir.Refuses m) :
    ∃ fault, s.step (.request c m) = .error fault := by
  obtain ⟨ht,hcard,hr⟩:=hr
  have hin : s.dir.requestIn m =
      if m.requestor∈s.dir.sharers then .ok .PutSLast else .error .assertion := by
    simp only [Directory.requestIn,ht]
    exact if_pos hcard
  by_cases hmem : m.requestor∈s.dir.sharers
  · rw [if_pos hmem] at hin
    have hstate : s.dir.dirState = .SS_m := hr.resolve_left (not_not.mpr hmem)
    refine ⟨.invalidTransition,?_⟩
    simp only [System.step,hin,Directory.doTransition,hstate,Directory.transition,bind,Except.bind]
  · rw [if_neg hmem] at hin
    refine ⟨.assertion,?_⟩
    simp only [System.step,hin,bind,Except.bind]

end AquaGem5.Ruby.MSI
