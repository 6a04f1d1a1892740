import AquaGem5.Ruby.MSI.Forwards

/-! # Handing the block over -/

namespace AquaGem5.Ruby.MSI
open Checked Succession Function List

variable {C V : Type} [DecidableEq C] [DecidableEq V] [Inhabited V]

namespace Protocol

omit [DecidableEq C] [DecidableEq V] [Inhabited V] in
theorem role_of_holds {p : Phase C V} (hp : p.Holds) : p.role = .owner ∨ p.role = .retired := by
  cases p <;> first | exact .inl rfl | exact .inr rfl | exact absurd hp not_false

variable {g : Protocol C V} {c : C}

omit [DecidableEq V] [Inhabited V] in
theorem Inv.settled (h : g.Inv) (hp : (g.phase c).Holds) : g.invalidated = ∅ ∧ g.acks=0 := by
  have hpending : g.pending=0 := by
    have hfirst:=h.first c (h.mode_of_owner (role_of_holds hp)).1
    cases hq : g.phase c <;> rw [hq] at hp hfirst <;>
      first | exact hfirst | exact absurd hp not_false
  unfold pending at hpending
  exact ⟨Finset.card_eq_zero.mp (by omega),Multiset.card_eq_zero.mp (by omega)⟩

def pass (g : Protocol C V) (c b : C) (v : V) : Protocol C V :=
  {(g.enter c ((g.phase c).passed g.block)).enter b (.storePassed v c) with
    writers := g.writers.tail}

section

omit [DecidableEq V] [Inhabited V]

theorem pass_phase_successor (g : Protocol C V) (c b : C) (v : V) :
    (g.pass c b v).phase b = .storePassed v c := enter_phase_self _ b _

theorem pass_phase_self (g : Protocol C V) {c b : C} (v : V) (hbc : b≠c) :
    (g.pass c b v).phase c=(g.phase c).passed g.block := by
  simp [pass,hbc.symm]

theorem pass_phase_of_ne (g : Protocol C V) {c b x : C} (v : V) (hxc : x≠c) (hxb : x≠b) :
    (g.pass c b v).phase x=g.phase x := by
  simp [pass,hxc,hxb]

theorem Inv.successor_phase (h : g.Inv) {c b : C} {l : List C}
    (hw : g.writers=c::b::l) (hp : (g.phase c).Holds) : ∃ v, g.phase b = .storeQueued (.stale v) := by
  have hplace:=h.places b
  have hnodup:=h.nodup
  rw [hw] at hnodup
  have hbc : b≠c := by
    rintro rfl
    simp at hnodup
  have hqueued : b∈g.writers := by simp [hw]
  have hhead : g.writers.head?≠some b := by simpa [hw] using hbc.symm
  have hi : b∉g.invalidated := by simp [(h.settled hp).1]
  cases hq : g.phase b with
  | storeQueued copy =>
    cases copy with
    | current =>
      rw [hq] at hplace
      exact absurd (hplace.2.2.1.mpr rfl) hi
    | stale v => exact ⟨v,rfl⟩
  | storeAsked copy =>
    rw [hq] at hplace
    cases copy with
    | current | stale v => exact absurd hqueued hplace.1
  | _ =>
    rw [hq] at hplace
    first
    | exact absurd hqueued hplace.1
    | exact absurd hplace.1 hhead

theorem Inv.not_reading (h : g.Inv) (hp : (g.phase c).Holds) : g.mode.reader≠some c := by
  have hplace:=h.places c
  rcases role_of_holds hp with hr | hr <;> rw [hr] at hplace
  · exact hplace.2.2.2.1
  · exact hplace.2.2.2.1

theorem Inv.not_sharer (h : g.Inv) (hp : (g.phase c).Holds) (hlast : g.writers.getLast?≠some c) : c∉g.sharers := by
  have hmode:=h.mode
  have hreading:=h.not_reading hp
  intro hc
  rcases (h.mode_of_owner (role_of_holds hp)).2 with hm | ⟨r,hm⟩ <;> rw [hm] at hmode
  · simp [hmode.2] at hc
  · rcases hmode.2 c hc with rfl | he
    · exact hreading (by rw [hm]; rfl)
    · exact hlast he

theorem pass_writers (h : g.Inv) {c b : C} {l : List C} (v : V) (hw : g.writers=c::b::l) : b≠c ∧ c∉b::l ∧
    (g.pass c b v).writers=b::l ∧ (b::l).getLast?=g.writers.getLast? ∧ g.writers.getLast?≠some c := by
  have hnodup:=h.nodup
  have hlast : (b::l).getLast?=g.writers.getLast? := by rw [hw,getLast?_cons_cons]
  rw [hw] at hnodup
  have hcl : c∉b::l := (nodup_cons.mp hnodup).1
  refine ⟨fun he => hcl (he ▸ mem_cons_self ..),hcl,by simp [Protocol.pass,hw],hlast,?_⟩
  rw [← hlast]
  exact fun e => hcl (mem_of_getLast? e)

theorem Inv.pass (h : g.Inv) {c b : C} {l : List C} {v : V} (hw : g.writers=c::b::l) (hp : (g.phase c).Holds)
    (hb : g.phase b = .storeQueued (.stale v)) : (g.pass c b v).Inv := by
  obtain ⟨hbc,hcl,hw',hlast,hnotlast⟩:=pass_writers h v hw
  have hphaseb:=pass_phase_successor g c b v
  have hphasec:=pass_phase_self g v hbc
  have hother : ∀ x, x≠c → x≠b → (g.pass c b v).phase x=g.phase x :=
    fun x => pass_phase_of_ne g v
  obtain ⟨hi,hacks⟩:=h.settled hp
  have hbfits : (Role.waiting false).Fits (g.place b) := by
    have := h.places b
    rwa [hb] at this
  obtain ⟨-,hmode⟩:=h.mode_of_owner (role_of_holds hp)
  have hfetch : g.mode.fetches=none := by
    rcases hmode with hm | ⟨r,hm⟩ <;> simp [hm,Mode.fetches]
  have hclosing : ∀ x, (g.pass c b v).Closing x ↔ g.Closing x := by
    intro x
    unfold Closing
    rw [hw',hlast]
    rfl
  constructor
  · rw [hw']
    exact (nodup_cons.mp (hw ▸ h.nodup)).2
  · intro x
    rcases eq_or_ne x b with rfl | hxb
    · rw [hphaseb]
      obtain ⟨-,-,-,hreading,hsharer⟩:=hbfits
      refine ⟨?_,?_,?_,hreading,fun hx => hsharer ((hclosing x).mp hx)⟩
      · simp [place,hw']
      · show g.mode.fetches≠some x
        simp [hfetch]
      · show x∉g.invalidated
        simp [hi]
    · rcases eq_or_ne x c with rfl | hxc
      · have hrole : ((g.phase x).passed g.block).role = .absent := by
          cases g.phase x <;> rfl
        rw [hphasec,hrole]
        refine ⟨?_,fun hs => h.not_sharer hp hnotlast hs.1,?_,h.not_reading hp⟩
        · show x∉(g.pass x b v).writers
          rwa [hw']
        · show x∉g.invalidated
          simp [hi]
      · rw [hother x hxc hxb]
        have hplace : (g.pass c b v).place x=g.place x := by
          have hcx : c≠x := hxc.symm
          have hbx : b≠x := hxb.symm
          simp only [place,hclosing,hw',hw,mem_cons,hxc,hxb,head?_cons,Option.some.injEq,
            hcx,hbx,false_or,successor_cons_of_ne hxc]
          rfl
        rw [hplace]
        exact h.places x
  · intro x hx
    rw [hw'] at hx
    obtain rfl : b=x := Option.some.inj hx
    rw [hphaseb]
    show g.pending=0
    simp [pending,hi,hacks]
  · intro hnil
    rw [hw'] at hnil
    cases hnil
  · exact h.acks
  · have hfits:=h.mode
    rcases hmode with hm | ⟨r,hm⟩
    · rw [hm] at hfits
      show ModeFits (g.pass c b v) g.mode
      rw [hm]
      exact ⟨by simp [hw'],hfits.2⟩
    · rw [hm] at hfits
      show ModeFits (g.pass c b v) g.mode
      rw [hm]
      refine ⟨by simp [hw'],fun y hy => ?_⟩
      rw [hw',hlast]
      exact hfits.2 y hy

end

omit [DecidableEq C] [DecidableEq V] in
theorem passed_keeps {p : Phase C V} (hp : p.Holds) (block : V) (c : C) :
    (p.passed block).request c block=p.request c block ∧ p.data block=0 ∧ (p.passed block).acked=p.acked := by
  cases p <;> first | exact ⟨rfl,rfl,rfl⟩ | exact absurd hp not_false

omit [DecidableEq V] [Inhabited V] in
/-- What two caches show after they enter their next phases. -/
theorem update_phase {α : Type} {phase phase' : C → Phase C V} {c b : C} (f : C → Phase C V → α) {y : α}
    (hy : y=f c (phase' c)) (hb : f b (phase b)=f b (phase' b)) (hother : ∀ x,x≠c → x≠b → phase' x=phase x) :
    update (fun x => f x (phase x)) c y=fun x => f x (phase' x) := by
  funext x
  rcases eq_or_ne x c with rfl | hxc
  · rw [update_self,hy]
  · rw [update_of_ne hxc]
    rcases eq_or_ne x b with rfl | hxb
    · exact hb
    · rw [hother x hxc hxb]

omit [DecidableEq V] in
theorem pass_system (h : g.Inv) {c b : C} {l : List C} {v : V}
    (hw : g.writers=c::b::l) (hp : (g.phase c).Holds) (hb : g.phase b = .storeQueued (.stale v)) :
    ({g.system.afterCache c ⟨((g.phase c).passed g.block).cache g.block,[],
        [(.L1Cache b,⟨.Data,.L1Cache c,g.block,0⟩)],[],false,true,false⟩ with
      forwardFromDir := update g.system.forwardFromDir c (g.forwards c).tail} :
      System C V)=(g.pass c b v).system := by
  obtain ⟨hbc,hcl,hw',hlast,hnotlast⟩:=pass_writers h v hw
  have hphaseb:=pass_phase_successor g c b v
  have hphasec:=pass_phase_self g v hbc
  have hother : ∀ x, x≠c → x≠b → (g.pass c b v).phase x=g.phase x :=
    fun x => pass_phase_of_ne g v
  obtain ⟨hi,hacks⟩:=h.settled hp
  obtain ⟨hrequest,hdata,hacked⟩:=passed_keeps hp g.block c
  apply System.ext
  · exact update_phase (fun _ q => q.cache g.block) (by rw [hphasec]) (by rw [hphaseb,hb]; rfl) hother
  · show _=(⟨_,_,if _ then (g.pass c b v).writers.getLast?.toFinset else ∅⟩ : Directory C)
    rw [hw',hlast]
    rfl
  · exact update_phase (fun x q => q.request x g.block) (by rw [hphasec,hrequest]; exact add_zero _)
      (by rw [hphaseb,hb]; rfl) hother
  · funext x
    show update g.forwards c _ x=(g.pass c b v).forwards x
    rcases eq_or_ne x c with rfl | hxc
    · have hqueue : x∉(g.pass x b v).writers := by rwa [hw']
      have hfree : x∉(g.pass x b v).invalidated := by
        show x∉g.invalidated
        simp [hi]
      have hbefore : g.forwards x =
          forwarded .GetM b::if (g.phase x).acked then [putAck] else [] := by
        unfold forwards
        rw [if_neg hnotlast,hw,successor_head]
        simp [hi]
      rw [update_self,forwards_of_not_queued hqueue,hphasec,hacked,if_neg hfree,hbefore]
      rfl
    · have hackedx : ((g.pass c b v).phase x).acked=(g.phase x).acked := by
        rcases eq_or_ne x b with rfl | hxb
        · rw [hphaseb,hb]
          rfl
        · rw [hother x hxc hxb]
      have hfree : x∉(g.pass c b v).invalidated := by
        show x∉g.invalidated
        simp [hi]
      have hfree' : x∉g.invalidated := hfree
      rw [update_of_ne hxc]
      unfold forwards
      rw [hackedx,hw',hlast,hw,successor_cons_of_ne hxc,if_neg hfree,if_neg hfree']
      rfl
  · funext x
    show (g.phase x).data g.block+(if g.writers.head?=some x then g.acks else 0) +
        System.sentTo (.L1Cache x) [(.L1Cache b,⟨.Data,.L1Cache c,g.block,0⟩)] =
      ((g.pass c b v).phase x).data g.block +
        if (g.pass c b v).writers.head?=some x then g.acks else 0
    rw [hacks,ite_self,ite_self,add_zero,add_zero,sentTo_cons,sentTo_nil,add_zero]
    rcases eq_or_ne x b with rfl | hxb
    · rw [hphaseb,hb,if_pos rfl]
      rfl
    · rw [if_neg (fun e => hxb (MachineID.L1Cache.inj e).symm),add_zero]
      rcases eq_or_ne x c with rfl | hxc
      · rw [hphasec,hdata]
        cases g.phase x <;> rfl
      · rw [hother x hxc hxb]
  · show g.system.responseToDir+System.sentTo .Directory [(.L1Cache b,_)]=_
    rw [sentTo_directory,sentTo_nil,add_zero]
    rfl
  · rfl
  · rfl
  · rfl

def downgrade (g : Protocol C V) (c r : C) : Protocol C V :=
  {(g.enter c ((g.phase c).downgraded g.block)).enter r (.loadAnswered (.L1Cache c)) with
    mode := .returning c
    writers := []}

section

omit [DecidableEq V] [Inhabited V]

theorem downgrade_phase_reader (g : Protocol C V) (c r : C) :
    (g.downgrade c r).phase r = .loadAnswered (.L1Cache c) := enter_phase_self _ r _

theorem downgrade_phase_self (g : Protocol C V) {c r : C} (hrc : r≠c) :
    (g.downgrade c r).phase c=(g.phase c).downgraded g.block := by
  simp [downgrade,hrc.symm]

theorem downgrade_phase_of_ne (g : Protocol C V) {c r x : C} (hxc : x≠c) (hxr : x≠r) :
    (g.downgrade c r).phase x=g.phase x := by
  simp [downgrade,hxc,hxr]

theorem Inv.reader_phase (h : g.Inv) {r : C} (hr : g.mode.reader=some r) : g.phase r = .loadPending := by
  have hplace:=h.places r
  cases hq : g.phase r with
  | loadPending => rfl
  | storeAsked copy =>
    rw [hq] at hplace
    cases copy with
    | current => exact absurd hr hplace.2.2
    | stale v => exact absurd hr hplace.2.2.2
  | storeQueued copy =>
    rw [hq] at hplace
    cases copy with
    | current | stale v => exact absurd hr hplace.2.2.2.1
  | _ =>
    rw [hq] at hplace
    first
    | exact absurd hr hplace.2.2.2
    | exact absurd hr hplace.2.2
    | exact absurd hr hplace.2.2.2.1

theorem Inv.downgrade (h : g.Inv) {c r : C} (hw : g.writers=[c])
    (hm : g.mode = .downgrading r) (hp : (g.phase c).Holds) : (g.downgrade c r).Inv := by
  have hreader : g.mode.reader=some r := by rw [hm]; rfl
  have hphase:=h.reader_phase hreader
  have hrc : r≠c := by
    rintro rfl
    exact h.not_reading hp hreader
  obtain ⟨hi,hacks⟩:=h.settled hp
  have hfetch : g.mode.fetches=none := by rw [hm]; rfl
  have hsharer : ∀ x, ((g.downgrade c r).place x).sharer ↔ (g.place x).sharer :=
    fun x => ⟨fun hs => ⟨hs.1,hfetch⟩,fun hs => ⟨hs.1,rfl⟩⟩
  have hfree : ∀ x, ¬((g.downgrade c r).place x).invalidated := by
    intro x
    show x∉g.invalidated
    simp [hi]
  have hqueued : ∀ x, ¬((g.downgrade c r).place x).queued := fun x => not_mem_nil
  have hreading : ∀ x, ¬((g.downgrade c r).place x).reading := fun x => nofun
  constructor
  · exact nodup_nil
  · intro x
    have hplace:=h.places x
    rcases eq_or_ne x r with rfl | hxr
    · rw [downgrade_phase_reader]
      rw [hphase] at hplace
      exact ⟨hqueued x,iff_of_true ((hsharer x).mpr hplace.2.1) (hfree x),hreading x⟩
    · rcases eq_or_ne x c with rfl | hxc
      · have hclosing : g.Closing x := ⟨by simp [hw],by simp [hm,Mode.downgrade]⟩
        rw [downgrade_phase_self g hrc]
        cases hq : g.phase x with
        | modified | ownerPut =>
          rw [hq] at hplace
          exact ⟨hqueued x,iff_of_true ((hsharer x).mpr (hplace.2.2.2.2 hclosing)) (hfree x),
            hreading x⟩
        | ownerAcked =>
          rw [hq] at hplace
          exact ⟨hqueued x,fun hs => hplace.2.2.2.2.1 ((hsharer x).mp hs),hreading x⟩
        | _ =>
          rw [hq] at hp
          exact absurd hp not_false
      · have heq : (g.downgrade c r).place x=g.place x := by
          have hcx : c≠x := hxc.symm
          have hrx : r≠x := hxr.symm
          simp [place,Protocol.downgrade,Protocol.enter,hm,hw,Mode.fetches,Mode.reader,Closing,hxc,hcx,
            hrx]
        rw [downgrade_phase_of_ne g hxc hxr,heq]
        exact hplace
  · intro x hx
    cases hx
  · intro _
    exact ⟨hi,hacks⟩
  · exact h.acks
  · rfl

end

omit [DecidableEq C] [DecidableEq V] in
theorem downgraded_keeps {p : Phase C V} (hp : p.Holds) (block : V) (c : C) :
    (p.downgraded block).request c block=p.request c block ∧ p.data block=0 ∧
      (p.downgraded block).data block=0 ∧ (p.downgraded block).acked=p.acked := by
  cases p <;> first | exact ⟨rfl,rfl,rfl,rfl⟩ | exact absurd hp not_false

omit [DecidableEq V] in
theorem downgrade_system (h : g.Inv) {c r : C} (hw : g.writers=[c])
    (hm : g.mode = .downgrading r) (hp : (g.phase c).Holds) :
    ({g.system.afterCache c ⟨((g.phase c).downgraded g.block).cache g.block,[],
        [(.L1Cache r,⟨.Data,.L1Cache c,g.block,0⟩),(.Directory,⟨.Data,.L1Cache c,g.block,0⟩)],[],
        false,true,false⟩ with
      forwardFromDir := update g.system.forwardFromDir c (g.forwards c).tail} :
      System C V)=(g.downgrade c r).system := by
  have hreader : g.mode.reader=some r := by rw [hm]; rfl
  have hphase:=h.reader_phase hreader
  have hrc : r≠c := by
    rintro rfl
    exact h.not_reading hp hreader
  obtain ⟨hi,hacks⟩:=h.settled hp
  obtain ⟨hrequest,hdata,hdata',hacked⟩:=downgraded_keeps hp g.block c
  have hphaser:=downgrade_phase_reader g c r
  have hphasec:=downgrade_phase_self g hrc
  have hother : ∀ x, x≠c → x≠r → (g.downgrade c r).phase x=g.phase x :=
    fun x => downgrade_phase_of_ne g
  apply System.ext
  · exact update_phase (fun _ q => q.cache g.block) (by rw [hphasec]) (by rw [hphaser,hphase]; rfl) hother
  · show (⟨g.mode.dirState,g.sharers,if g.mode.owns then _ else ∅⟩ : Directory C)=_
    rw [hm]
    rfl
  · exact update_phase (fun x q => q.request x g.block) (by rw [hphasec,hrequest]; exact add_zero _)
      (by rw [hphaser,hphase]; rfl) hother
  · funext x
    have hfree : x∉(g.downgrade c r).invalidated := by
      show x∉g.invalidated
      simp [hi]
    have hfree' : x∉g.invalidated := hfree
    show update g.forwards c _ x=(g.downgrade c r).forwards x
    rw [forwards_of_not_queued (g := g.downgrade c r) not_mem_nil,if_neg hfree]
    rcases eq_or_ne x c with rfl | hxc
    · have hbefore : g.forwards x =
          forwarded .GetS r::if (g.phase x).acked then [putAck] else [] := by
        simp [forwards,hi,hw,hm,Mode.downgrade]
      rw [update_self,hbefore,hphasec,hacked]
      rfl
    · have hqueued : x∉g.writers := by simpa [hw] using hxc
      rw [update_of_ne hxc,forwards_of_not_queued hqueued,if_neg hfree']
      rcases eq_or_ne x r with rfl | hxr
      · rw [hphaser,hphase]
        rfl
      · rw [hother x hxc hxr]
  · funext x
    show (g.phase x).data g.block+(if g.writers.head?=some x then g.acks else 0) +
        System.sentTo (.L1Cache x) [(.L1Cache r,_),(.Directory,_)] =
      ((g.downgrade c r).phase x).data g.block+0
    rw [hacks,ite_self,add_zero,add_zero,sentTo_cons,sentTo_cache,sentTo_nil,add_zero]
    rcases eq_or_ne x r with rfl | hxr
    · rw [hphaser,hphase,if_pos rfl]
      rfl
    · rw [if_neg (fun e => hxr (MachineID.L1Cache.inj e).symm),add_zero]
      rcases eq_or_ne x c with rfl | hxc
      · rw [hphasec,hdata,hdata']
      · rw [hother x hxc hxr]
  · show g.mode.responseToDir g.block+System.sentTo .Directory [(.L1Cache r,_),(.Directory,_)]=_
    rw [sentTo_directory,sentTo_cons,sentTo_nil,if_pos rfl,hm]
    rfl
  · show g.mode.requestToMemory g.block=_
    rw [hm]
    rfl
  · show g.mode.responseFromMemory g.block=_
    rw [hm]
    rfl
  · rfl

theorem hold_step (h : g.Inv) (hp : (g.phase c).Holds) (hf : successor g.writers c≠none ∨ g.Closing c) :
    g.Yields (g.system.step (.forward c)) := by
  obtain ⟨hhead,-⟩:=h.mode_of_owner (role_of_holds hp)
  have hi : c∉g.invalidated := h.head_not_invalidated hhead
  obtain ⟨l,hw⟩:=head?_eq_some_iff.mp hhead
  cases l with
  | nil =>
    have hclosing : g.Closing c := hf.resolve_left (by simp [hw])
    obtain ⟨r,hm⟩ : ∃ r, g.mode = .downgrading r := by
      have hdown:=hclosing.2
      cases hm : g.mode with
      | downgrading r => exact ⟨r,rfl⟩
      | _ =>
        rw [hm] at hdown
        exact absurd rfl hdown
    have hq : g.forwards c=forwarded .GetS r::if (g.phase c).acked then [putAck] else [] := by
      simp [forwards,hi,hw,hm,Mode.downgrade]
    have hsystem:=downgrade_system h hw hm hp
    rw [forward_result g.system hq rfl (Phase.downgrade_turn hp g.block c r)]
    exact ⟨g.downgrade c r,[],congrArg (fun s => Except.ok (s,[])) hsystem,h.downgrade hw hm hp,.silent _⟩
  | cons b l =>
    have hlast : g.writers.getLast?≠some c := by
      have hnodup:=h.nodup
      rw [hw] at hnodup ⊢
      rw [getLast?_cons_cons]
      exact fun e => (nodup_cons.mp hnodup).1 (mem_of_getLast? e)
    obtain ⟨v,hb⟩:=h.successor_phase hw hp
    have hq : g.forwards c=forwarded .GetM b::if (g.phase c).acked then [putAck] else [] := by
      unfold forwards
      rw [if_neg hlast,hw,successor_head]
      simp [hi]
    have hsystem:=pass_system h hw hp hb
    rw [forward_result g.system hq rfl (Phase.pass_turn hp g.block c b)]
    exact ⟨g.pass c b v,[],congrArg (fun s => Except.ok (s,[])) hsystem,h.pass hw hp hb,.silent _⟩

theorem clear_step (h : g.Inv) (hp : (g.phase c).Invalidates)
    (hi : c∈g.invalidated) : g.Yields (g.system.step (.forward c)) := by
  obtain ⟨w,rest,hw,hq⟩:=h.forwards_of_invalidated hi
  obtain ⟨v,hturn⟩:=Phase.clear_turn hp g.block c w
  have hsystem:=clear_system (v := v) hw hi hp rfl
  rw [forward_result g.system hq rfl hturn]
  exact ⟨g.clear c v,[],congrArg (fun s => Except.ok (s,[])) hsystem,h.clear hi hp v,.silent _⟩

theorem ack_step (h : g.Inv) (hc : c∉g.writers) (hi : c∉g.invalidated) (ha : (g.phase c).acked)
    (hfits : Role.absent.Fits (g.place c)) : g.Yields (g.system.step (.forward c)) := by
  have hq : g.forwards c=[putAck] := by
    rw [forwards_of_not_queued hc,if_neg hi,if_pos ha]
    rfl
  have hkeep : L1Cache.doTransition c ⟨none,some putAck,false,id⟩ .PutAck
      ((g.phase c).cache g.block) = .ok ⟨L1Cache.empty,[],[],[],false,true,false⟩ ∧
      (g.phase c).data g.block=0 ∧ (g.phase c).request c g.block=0 := by
    cases hp : g.phase c <;> rw [hp] at ha <;> first | exact ⟨rfl,rfl,rfl⟩ | cases ha
  obtain ⟨hturn,hdata,hrequest⟩:=hkeep
  rw [forward_result g.system hq rfl hturn]
  refine ⟨g.enter c .idle,[],congrArg (fun s => Except.ok (s,[])) (ack_system hc hi hdata hrequest),
    h.enter_fits hfits fun hhead => ?_,.silent _⟩
  exact absurd (mem_of_head? hhead) hc

theorem wait_step (h : g.Inv) (hi : c∉g.invalidated) (hf : successor g.writers c≠none ∨ g.Closing c)
    (hp : ∀ (type : CoherenceRequestType) (x : C), type = .GetM ∨ type = .GetS →
      ∃ event, L1Cache.forwardIn (forwarded (V := V) type x) = .ok event ∧
        L1Cache.doTransition c ⟨none,some (forwarded type x),false,id⟩ event
          ((g.phase c).cache g.block) = .ok (L1Cache.Turn.start ((g.phase c).cache g.block))) :
    g.Yields (g.system.step (.forward c)) := by
  obtain ⟨type,x,rest,htype,hq⟩:=forwards_of_forwarded hi hf
  obtain ⟨event,he,hturn⟩:=hp type x htype
  exact forward_stall h hq he hturn

theorem forward_step (h : g.Inv) (hne : g.forwards c≠[]) : g.Yields (g.system.step (.forward c)) := by
  have hplace:=h.places c
  -- outside the queue there is nothing but an invalidation and an acknowledgement
  have hinv (hc : c∉g.writers) (ha : (g.phase c).acked=false) : c∈g.invalidated := by
    by_contra hi
    rw [forwards_of_not_queued hc,if_neg hi,ha] at hne
    exact hne rfl
  have hrequest (hi : c∉g.invalidated) (ha : (g.phase c).acked=false) :=
    forwarded_of_forwards hi ha hne
  cases hp : g.phase c with
  | loadAnswered source =>
    rw [hp] at hplace
    obtain ⟨w,rest,-,hq⟩:=h.forwards_of_invalidated (hinv hplace.1 (by rw [hp]; rfl))
    exact forward_stall h hq rfl (by rw [hp]; rfl)
  | storeAsked copy =>
    rw [hp] at hplace
    cases copy with
    | current => exact clear_step h (by rw [hp]; trivial) (hinv hplace.1 (by rw [hp]; rfl))
    | stale v => exact absurd (hinv hplace.1 (by rw [hp]; rfl)) hplace.2.2.1
  | storeQueued copy =>
    rw [hp] at hplace
    cases copy with
    | current => exact clear_step h (by rw [hp]; trivial) (hplace.2.2.1.mpr rfl)
    | stale v =>
      have hi : c∉g.invalidated := fun e => nomatch hplace.2.2.1.mp e
      refine wait_step h hi (hrequest hi (by rw [hp]; rfl)) fun type x htype => ?_
      rw [hp]
      rcases htype with rfl | rfl <;> exact ⟨_,rfl,rfl⟩
  | storeFetching copy early | storeGranted copy acks early =>
    rw [hp] at hplace
    have hi:=hplace.2.2.1
    refine wait_step h hi (hrequest hi (by rw [hp]; rfl)) fun type x htype => ?_
    rw [hp]
    rcases htype with rfl | rfl <;> cases copy <;> exact ⟨_,rfl,rfl⟩
  | storePassed v source =>
    rw [hp] at hplace
    have hi:=hplace.2.2.1
    refine wait_step h hi (hrequest hi (by rw [hp]; rfl)) fun type x htype => ?_
    rw [hp]
    rcases htype with rfl | rfl <;> exact ⟨_,rfl,rfl⟩
  | storeCollecting copied left =>
    rw [hp] at hplace
    have hi:=hplace.2.2.1
    refine wait_step h hi (hrequest hi (by rw [hp]; rfl)) fun type x htype => ?_
    rw [hp]
    rcases htype with rfl | rfl <;> cases copied <;> exact ⟨_,rfl,rfl⟩
  | shared | sharerPut v dirty =>
    rw [hp] at hplace
    exact clear_step h (by rw [hp]; trivial) (hinv hplace.1 (by rw [hp]; rfl))
  | modified | ownerPut =>
    rw [hp] at hplace
    exact hold_step h (by rw [hp]; trivial) (hrequest hplace.2.2.1 (by rw [hp]; rfl))
  | ownerAcked =>
    rw [hp] at hplace
    exact hold_step h (by rw [hp]; trivial) hplace.2.2.2.2.2
  | ownerGone v | invalidAcked v =>
    rw [hp] at hplace
    exact ack_step h hplace.1 hplace.2.2.1 (by rw [hp]; rfl) hplace
  | sharerAcked v =>
    rw [hp] at hplace
    by_cases hi : c∈g.invalidated
    · exact clear_step h (by rw [hp]; trivial) hi
    · exact ack_step h hplace.1 hi (by rw [hp]; rfl) ⟨hplace.1,hplace.2.1,hi,hplace.2.2⟩
  | _ =>
    rw [hp] at hplace
    exact absurd (hinv hplace.1 (by rw [hp]; rfl)) hplace.2.2.1

end Protocol

end AquaGem5.Ruby.MSI
