import AquaGem5.Ports.SnoopFilter

/-!
# What the snoop filter keeps

Each call changes the item of one line at most, and an item that has become empty is gone.
-/

namespace AquaGem5.Ports
open Checked List Option

namespace SnoopFilter

variable {f f' g : SnoopFilter} {c : Config} {line l : Addr} {new : SnoopItem} {cpkt : Packet} {port p p' : Port}
  {ports : List Port} {log : List Call} {call : Call} {i : ℕ} {willRetry : Bool}

def item (f : SnoopFilter) (line : Addr) : SnoopItem := (f.cachedLocations.lookup line).getD ⟨0,0⟩

def NoEmpty (f : SnoopFilter) : Prop := ∀ line item,f.cachedLocations.lookup line=some item → item.isNull=false

structure Wrote (f f' : SnoopFilter) (line : Addr) (new : SnoopItem) : Prop where
  noEmpty : NoEmpty f'
  item : ∀ l,f'.item l=if l=line then new else f.item l

theorem isNull_empty : (⟨0,0⟩ : SnoopItem).isNull=true := by
  simp [SnoopItem.isNull]

theorem NoEmpty.lookup (h : NoEmpty f) (l : Addr) :
    f.cachedLocations.lookup l=if (f.item l).isNull then none else some (f.item l) := by
  unfold item
  cases hl : f.cachedLocations.lookup l with
  | none =>
    rw [getD_none,isNull_empty]
    rfl
  | some item =>
    rw [getD_some,h l item hl]
    rfl

theorem Wrote.same (h : NoEmpty f) (hw : Wrote f f' line (f.item line)) : f'.cachedLocations=f.cachedLocations := by
  refine Finmap.ext_lookup fun l => ?_
  rw [hw.noEmpty.lookup,h.lookup,hw.item]
  split
  next hl => rw [hl]
  next => rfl

theorem item_insert (hg : g.cachedLocations=f.cachedLocations.insert line new) (l : Addr) :
    g.item l=if l=line then new else f.item l := by
  unfold item
  rw [hg]
  split
  next hl => rw [hl,Finmap.lookup_insert,getD_some]
  next hl => rw [Finmap.lookup_insert_of_ne _ hl]

theorem Wrote.refl (h : NoEmpty f) (line : Addr) : Wrote f f line (f.item line) := by
  refine ⟨h,fun l => ?_⟩
  split
  next hl => rw [hl]
  next => rfl

theorem Wrote.insert (h : NoEmpty f) (hg : g.cachedLocations=f.cachedLocations.insert line new) (hnew : new.isNull=false) :
    Wrote f g line new := by
  refine ⟨fun l item hl => ?_,item_insert hg⟩
  rw [hg] at hl
  by_cases hline : l=line
  · rw [hline,Finmap.lookup_insert] at hl
    cases hl
    exact hnew
  · rw [Finmap.lookup_insert_of_ne _ hline] at hl
    exact h l item hl

theorem eraseIfNullEntry_post (h : NoEmpty f) (hg : g.cachedLocations=f.cachedLocations.insert line new) :
    Post (g.eraseIfNullEntry line) (fun f' => Wrote f f' line new) fun _ => False := by
  have hlookup : g.cachedLocations.lookup line=some new := hg ▸ Finmap.lookup_insert _
  rw [eraseIfNullEntry,hlookup]
  dsimp only
  split
  next hnull =>
    have hgone : ∀ l,(g.cachedLocations.erase line).lookup l=if l=line then none else f.cachedLocations.lookup l := fun l => by
      split
      next hl => rw [hl,Finmap.lookup_erase]
      next hl => rw [Finmap.lookup_erase_ne hl,hg,Finmap.lookup_insert_of_ne _ hl]
    refine ⟨fun l item hl => ?_,fun l => ?_⟩
    · dsimp only at hl
      rw [hgone] at hl
      split at hl
      next => cases hl
      next => exact h l item hl
    · show ((g.cachedLocations.erase line).lookup l).getD ⟨0,0⟩=_
      rw [hgone]
      split
      next =>
        rw [SnoopItem.isNull,decide_eq_true_eq] at hnull
        obtain ⟨hrequested,hholder⟩:=BitVec.or_eq_zero_iff.mp hnull
        cases new
        dsimp only at hrequested hholder
        rw [hrequested,hholder]
        rfl
      next => rfl
  next hsome => exact Wrote.insert h hg (by simpa using hsome)

def marks (cpkt : Packet) (port : Port) : Bool := allocate cpkt port&&cpkt.needsResponse && !cpkt.cacheResponding

theorem emplaced (f : SnoopFilter) (line : Addr) :
    (if (f.cachedLocations.lookup line).isSome then f else f.store line (f.item line))=f.store line (f.item line) := by
  split
  next hit =>
    obtain ⟨item,hitem⟩:=isSome_iff_exists.mp hit
    have hsame : f.cachedLocations.insert line (f.item line)=f.cachedLocations := Finmap.ext_lookup fun l => by
      by_cases hl : l=line
      · rw [hl,Finmap.lookup_insert,SnoopFilter.item,hitem,getD_some]
      · rw [Finmap.lookup_insert_of_ne _ hl]
    rw [store,hsame]
  next => rfl

theorem requestItem_post (cpkt : Packet) (port : Port) (item : SnoopItem) :
    Post (requestItem c cpkt port item) (fun new => new.requested =
      if cpkt.needsResponse && !cpkt.cacheResponding then item.requested ||| c.portToMask port else item.requested) := by
  unfold requestItem
  cases cpkt.needsResponse with
  | true =>
    cases cpkt.cacheResponding with
    | true | false => simp [-bind_pure_comp]
  | false =>
    cases cpkt.isBlockCached with
    | true | false => simp [-bind_pure_comp]

theorem lookupRequest_post (hline : c.lineAddr cpkt.addr cpkt.secure=line) :
    Post (f.lookupRequest c cpkt port) (fun res =>
      (res.2={f with it := none} ∧ marks cpkt port=false) ∨
      ∃ new,res.2={f with cachedLocations := (f.store line new).cachedLocations, it := some line, retryItem := f.item line} ∧
        new.requested=if marks cpkt port then (f.item line).requested ||| c.portToMask port else (f.item line).requested) := by
  dsimp only [lookupRequest]
  rw [hline]
  cases halloc : allocate cpkt port with
  | false =>
    have hmarks : marks cpkt port=false := by rw [marks,halloc]; rfl
    rw [hmarks]
    split
    next => exact .inl ⟨rfl,rfl⟩
    next =>
      refine .inr ⟨f.item line,?_,rfl⟩
      rw [← emplaced]
      rfl
  | true =>
    have hmarks : marks cpkt port=(cpkt.needsResponse && !cpkt.cacheResponding) := by rw [marks,halloc]; rfl
    rw [hmarks,if_neg (by simp),if_neg (by simp)]
    refine (requestItem_post cpkt port (f.item line)).bind fun new hnew => .inr ⟨new,?_,hnew⟩
    show SnoopFilter.mk ((SnoopFilter.cachedLocations _).insert line new) _ _=_
    have hlocations:=congrArg cachedLocations (emplaced f line)
    unfold item at hlocations
    rw [hlocations]
    simp only [store,Finmap.insert_insert]
    rfl

theorem finishRequest_post (h : NoEmpty f) (hline : c.lineAddr cpkt.addr cpkt.secure=line) :
    Post (finishRequest c {f with cachedLocations := (f.store line new).cachedLocations, it := some line, retryItem := f.item line}
      willRetry cpkt.addr cpkt.secure) (fun f' => Wrote f f' line (if willRetry then f.item line else new)) fun _ => False := by
  have hfound : ((f.store line new).cachedLocations.lookup line).isSome=true := by
    rw [store,Finmap.lookup_insert]
    rfl
  dsimp only [finishRequest]
  simp only [post_bind,post_check,hline]
  refine ⟨fun _ => ⟨fun _ => ?_,fun hno => hno hfound⟩,fun hno => hno trivial⟩
  cases willRetry with
  | true => exact eraseIfNullEntry_post h (Finmap.insert_insert _)
  | false => exact eraseIfNullEntry_post h rfl

theorem restores (h : NoEmpty f) (snooped : List Port × ℕ) (haccepts : f.lookupRequest c cpkt port = .ok (snooped,f')) :
    Post (f'.finishRequest c true cpkt.addr cpkt.secure) (fun f'' => f''.cachedLocations=f.cachedLocations) fun _ => False := by
  have hpost:=(lookupRequest_post rfl).of_ok haccepts
  dsimp only at hpost
  cases hpost with
  | inl hmiss =>
    rw [hmiss.1]
    exact rfl
  | inr hmark =>
    obtain ⟨new,rfl,_⟩:=hmark
    exact (finishRequest_post h rfl).imp fun f'' hw => Wrote.same h hw

def Call.sent (c : Config) : Call → SnoopMask
  | .request cpkt port willRetry => if marks cpkt port && !willRetry then c.portToMask port else 0
  | _ => 0

def Call.answered (c : Config) : Call → SnoopMask
  | .snoopResponse cpkt _ reqPort => if cpkt.req.uncacheable then 0 else c.portToMask reqPort
  | .response cpkt port => if cpkt.req.uncacheable then 0 else c.portToMask port
  | _ => 0

def Updates (c : Config) (f : SnoopFilter) (call : Call) (f' : SnoopFilter) : Prop :=
  ∃ new,Wrote f f' (call.line c) new ∧
    new.requested=((f.item (call.line c)).requested ||| call.sent c) &&& ~~~call.answered c

theorem mask_kept (x : SnoopMask) : x &&& ~~~0=x := by
  show x &&& ~~~0#256=x
  rw [BitVec.not_zero,BitVec.and_allOnes]

theorem mask_none (x : SnoopMask) : (x ||| 0) &&& ~~~0=x := by
  rw [mask_kept]
  exact BitVec.or_zero

theorem Updates.refl (h : NoEmpty f) (hnone : ((f.item (call.line c)).requested ||| call.sent c) &&& ~~~call.answered c =
    (f.item (call.line c)).requested) : Updates c f call f := ⟨_,Wrote.refl h _,hnone.symm⟩

theorem request_updates (h : NoEmpty f) : Post ((Call.request cpkt port willRetry).run c f)
    (Updates c f (.request cpkt port willRetry)) := by
  refine (lookupRequest_post rfl).bind fun res hres => ?_
  cases hres with
  | inl hmiss =>
    obtain ⟨hf,hmarks⟩:=hmiss
    dsimp only
    rw [hf]
    refine ⟨f.item _,⟨h,(Wrote.refl h _).item⟩,?_⟩
    simp only [Call.sent,hmarks]
    exact (mask_none _).symm
  | inr hmark =>
    obtain ⟨new,hf,hrequested⟩:=hmark
    dsimp only
    rw [hf]
    refine (finishRequest_post h rfl).mono (fun f' hw => ⟨if willRetry then f.item _ else new,hw,?_⟩) fun _ => False.elim
    simp only [Call.sent,Call.answered]
    cases willRetry with
    | true =>
      rw [Bool.not_true,Bool.and_false]
      exact (mask_none _).symm
    | false =>
      rw [Bool.not_false,Bool.and_true]
      show new.requested=_
      rw [hrequested]
      cases marks cpkt port with
      | true => exact (mask_kept _).symm
      | false => exact (mask_none _).symm

theorem dropHolder_updates (h : NoEmpty f) (call : Call) (hl : f.cachedLocations.lookup (call.line c)=some sfItem)
    (hsent : call.sent c=0) (hanswered : call.answered c=0) :
    Post ((f.store (call.line c) {sfItem with holder := 0}).eraseIfNullEntry (call.line c)) (Updates c f call) := by
  refine (eraseIfNullEntry_post h rfl).mono (fun f' hw => ⟨{sfItem with holder := 0},hw,?_⟩) fun _ => False.elim
  rw [item,hl,getD_some,hsent,hanswered]
  exact (mask_none _).symm

theorem portToMask_of_not_snooping (h : port.isSnooping=false) : c.portToMask port=0 := by
  simp [Config.portToMask,h]

theorem skip_updates (h : NoEmpty f) (hskip : cpkt.req.uncacheable=true ∨ port.isSnooping=false) (hsent : call.sent c=0)
    (hanswered : call.answered c=if cpkt.req.uncacheable then 0 else c.portToMask port) : Updates c f call f := by
  refine Updates.refl h ?_
  rw [hsent,hanswered]
  cases hskip with
  | inl huncacheable =>
    rw [huncacheable]
    exact mask_none _
  | inr hport =>
    rw [portToMask_of_not_snooping hport,ite_self]
    exact mask_none _

theorem snoop_updates (h : NoEmpty f) : Post ((Call.snoop cpkt).run c f) (Updates c f (.snoop cpkt)) := by
  have hsame : Updates c f (.snoop cpkt) f := Updates.refl h (mask_none _)
  dsimp only [Call.run,lookupSnoop]
  simp only [post_bind,partly_check,post_pure]
  intro _
  cases hl : f.cachedLocations.lookup (c.lineAddr cpkt.addr cpkt.secure) with
  | none =>
      simp only [post_bind,partly_check,post_pure]
      exact fun _ => hsame
  | some sfItem =>
    have hitem : f.item (c.lineAddr cpkt.addr cpkt.secure)=sfItem := by rw [item,hl,getD_some]
    simp only [post_bind,partly_check]
    intro _
    split
    next =>
      simp only [post_bind,post_pure]
      exact dropHolder_updates h (.snoop cpkt) hl rfl rfl
    next => exact hsame

theorem snoopForward_updates (h : NoEmpty f) :
    Post ((Call.snoopForward cpkt).run c f) (Updates c f (.snoopForward cpkt)) := by
  have hsame : Updates c f (.snoopForward cpkt) f := Updates.refl h (mask_none _)
  dsimp only [Call.run,updateSnoopForward]
  simp only [post_bind,partly_check]
  intro _ _
  cases hl : f.cachedLocations.lookup (c.lineAddr cpkt.addr cpkt.secure) with
  | none => exact hsame
  | some sfItem =>
    have hitem : f.item (c.lineAddr cpkt.addr cpkt.secure)=sfItem := by rw [item,hl,getD_some]
    dsimp only
    split
    next =>
      exact dropHolder_updates h (.snoopForward cpkt) hl rfl rfl
    next => exact hsame

theorem mask_answered (x m : SnoopMask) : (x ||| 0) &&& ~~~m=x &&& ~~~m := by
  simp

theorem isNull_eq_false (hsome : new.requested ||| new.holder≠0) : new.isNull=false := by
  simpa [SnoopItem.isNull] using hsome

theorem snoopResponse_updates (h : NoEmpty f) :
    Post ((Call.snoopResponse cpkt p port).run c f) (Updates c f (.snoopResponse cpkt p port)) := by
  dsimp only [Call.run,updateSnoopResponse]
  simp only [post_bind,partly_check]
  intro _ _
  split
  next hskip => exact skip_updates h hskip rfl rfl
  next hskip =>
    rw [not_or,Bool.not_eq_true] at hskip
    simp only [post_bind,partly_check,post_pure]
    intro _ _ _ hsome
    refine ⟨⟨_,_⟩,Wrote.insert h rfl (isNull_eq_false hsome),?_⟩
    simp only [Call.sent,Call.answered,hskip.1]
    exact (mask_answered _ _).symm

theorem response_updates (h : NoEmpty f) :
    Post ((Call.response cpkt port).run c f) (Updates c f (.response cpkt port)) := by
  dsimp only [Call.run,updateResponse]
  simp only [post_bind,partly_check]
  intro _
  split
  next hskip => exact skip_updates h hskip rfl rfl
  next hskip =>
    rw [not_or,Bool.not_eq_true] at hskip
    cases hl : f.cachedLocations.lookup (c.lineAddr cpkt.addr cpkt.secure) with
    | none =>
      refine Updates.refl h ?_
      rw [Call.line,item,hl]
      simp [Call.sent]
    | some sfItem =>
      have hitem : f.item (c.lineAddr cpkt.addr cpkt.secure)=sfItem := by rw [item,hl,getD_some]
      simp only [post_bind,partly_check]
      intro _
      have hrequested : ((f.item (Call.line c (.response cpkt port))).requested ||| Call.sent c (.response cpkt port)) &&&
          ~~~Call.answered c (.response cpkt port)=sfItem.requested &&& ~~~c.portToMask port := by
        rw [Call.line,hitem]
        simp only [Call.sent,Call.answered,hskip.1]
        exact mask_answered _ _
      split
      next =>
        refine (eraseIfNullEntry_post h rfl).mono (fun f' hw => ⟨_,hw,?_⟩) fun _ => False.elim
        rw [hrequested]
        split
        next => rfl
        next => rfl
      next =>
        simp only [post_bind,partly_check,post_pure]
        refine fun hsome => ⟨_,Wrote.insert h rfl (isNull_eq_false ?_),?_⟩
        · rw [BitVec.or_comm]
          exact hsome
        · exact hrequested.symm

theorem run_updates (h : NoEmpty f) (call : Call) : Post (call.run c f) (Updates c f call) := by
  cases call with
  | request cpkt port willRetry => exact request_updates h
  | snoop cpkt => exact snoop_updates h
  | snoopResponse cpkt rspPort reqPort => exact snoopResponse_updates h
  | snoopForward cpkt => exact snoopForward_updates h
  | response cpkt port => exact response_updates h

structure Attached (c : Config) (n : ℕ) (ports : List Port) : Prop where
  bit : ∀ p∈ports,p.isSnooping=true → ∃ i<n,c.localResponsePortIds p.id=some i
  inj : ∀ p∈ports,∀ p'∈ports,p.isSnooping=true → p'.isSnooping=true →
    c.localResponsePortIds p.id=c.localResponsePortIds p'.id → p=p'

theorem Attached.add {n : ℕ} (h : Attached c n ports) (hp : p.id∉ports.map Port.id) :
    Attached (track (c,n) p).1 (track (c,n) p).2 (ports++[p]) := by
  have hother : ∀ x∈ports,x.id≠p.id := fun x hx heq => hp (mem_map.mpr ⟨x,hx,heq⟩)
  unfold SnoopFilter.track
  split
  next hsnoop =>
    have hnew : Function.update c.localResponsePortIds p.id (some n) p.id=some n := Function.update_self ..
    have hold : ∀ x∈ports,Function.update c.localResponsePortIds p.id (some n) x.id=c.localResponsePortIds x.id :=
      fun x hx => Function.update_of_ne (hother x hx) ..
    have hapart : ∀ x∈ports,x.isSnooping=true → c.localResponsePortIds x.id≠some n := fun x hx hxs heq => by
      obtain ⟨i,hi,hxi⟩:=h.bit x hx hxs
      rw [hxi] at heq
      exact hi.ne (Option.some.inj heq)
    constructor
    · intro x hx hxs
      cases mem_append.mp hx with
      | inl hx =>
        obtain ⟨i,hi,hxi⟩:=h.bit x hx hxs
        exact ⟨i,hi.trans (Nat.lt_succ_self n),(hold x hx).trans hxi⟩
      | inr hx =>
        rw [mem_singleton.mp hx]
        exact ⟨n,Nat.lt_succ_self n,hnew⟩
    · intro x hx y hy hxs hys heq
      dsimp only at heq
      cases mem_append.mp hx with
      | inl hx =>
        cases mem_append.mp hy with
        | inl hy =>
          rw [hold x hx,hold y hy] at heq
          exact h.inj x hx y hy hxs hys heq
        | inr hy =>
          rw [mem_singleton.mp hy,hnew,hold x hx] at heq
          exact absurd heq (hapart x hx hxs)
      | inr hx =>
        cases mem_append.mp hy with
        | inl hy =>
          rw [mem_singleton.mp hx,hnew,hold y hy] at heq
          exact absurd heq.symm (hapart y hy hys)
        | inr hy => rw [mem_singleton.mp hx,mem_singleton.mp hy]
  next hsnoop =>
    have hcase : ∀ x∈ports++[p],x.isSnooping=true → x∈ports := fun x hx hxs => by
      cases mem_append.mp hx with
      | inl hx => exact hx
      | inr hx =>
        rw [mem_singleton.mp hx] at hxs
        exact absurd hxs hsnoop
    exact ⟨fun x hx hxs => h.bit x (hcase x hx hxs) hxs,
      fun x hx y hy hxs hys => h.inj x (hcase x hx hxs) y (hcase y hy hys) hxs hys⟩

theorem Attached.loop (rest ports : List Port) (c : Config) (n : ℕ) (h : Attached c n ports)
    (hids : ((ports++rest).map Port.id).Nodup) :
    Attached (rest.foldl track (c,n)).1 (rest.foldl track (c,n)).2 (ports++rest) := by
  induction rest generalizing ports c n with
  | nil =>
    rw [append_nil]
    exact h
  | cons p rest ih =>
    have hsplit : ports++p::rest=(ports++[p])++rest := by rw [append_assoc,singleton_append]
    have hp : p.id∉ports.map Port.id := fun hin => by
      rw [map_append,map_cons] at hids
      exact (nodup_append.mp hids).2.2 _ hin _ mem_cons_self rfl
    rw [hsplit] at hids ⊢
    exact ih (ports++[p]) (track (c,n) p).1 (track (c,n) p).2 (h.add hp) hids

theorem setCPUSidePorts_post (linesize : BitVec 32) (lookupLatency maxEntryCount : ℕ) (hids : (ports.map Port.id).Nodup) :
    Post (setCPUSidePorts linesize lookupLatency maxEntryCount ports) (fun c => Attached c 256 ports) := by
  have hstart : Attached ⟨linesize,lookupLatency,maxEntryCount,[],fun _ => none⟩ 0 [] :=
    ⟨fun p hp => absurd hp not_mem_nil,fun p hp => absurd hp not_mem_nil⟩
  have hattached:=hstart.loop ports [] _ _ hids
  dsimp only [setCPUSidePorts]
  simp only [post_bind,partly_check,post_pure]
  refine fun hfits => ⟨fun p hp hsnoop => ?_,hattached.inj⟩
  obtain ⟨i,hi,hpi⟩:=hattached.bit p hp hsnoop
  exact ⟨i,hi.trans_le hfits,hpi⟩

/-- A request that is not retried, allocates, needs a response and is not answered by a cache. -/
def Call.Sends (p : Port) : Call → Prop
  | .request cpkt port willRetry => willRetry=false ∧ allocate cpkt port=true ∧ cpkt.needsResponse=true ∧
      cpkt.cacheResponding=false ∧ port=p
  | _ => False

/-- A response to the port. An uncacheable one does not belong to an allocating request. -/
def Call.Answers (p : Port) : Call → Prop
  | .snoopResponse cpkt _ reqPort => cpkt.req.uncacheable=false ∧ reqPort=p
  | .response cpkt port => cpkt.req.uncacheable=false ∧ port=p
  | _ => False

def Outstanding (c : Config) (log : List Call) (line : Addr) (p : Port) : Prop :=
  ∃ newer call older,log=newer++call::older ∧ call.line c=line ∧ call.Sends p ∧
    ∀ e∈newer,e.line c=line → ¬e.Answers p

theorem outstanding_cons : Outstanding c (call::log) line p ↔
    (call.line c=line ∧ call.Sends p) ∨ (Outstanding c log line p ∧ ¬(call.line c=line ∧ call.Answers p)) := by
  constructor
  · rintro ⟨newer,call',older,heq,hline,hsends,hnone⟩
    cases newer with
    | nil =>
      obtain ⟨rfl,rfl⟩:=List.cons.inj heq
      exact .inl ⟨hline,hsends⟩
    | cons e newer =>
      obtain ⟨rfl,rfl⟩:=List.cons.inj heq
      exact .inr ⟨⟨newer,call',older,rfl,hline,hsends,fun e he => hnone e (mem_cons_of_mem _ he)⟩,
        fun hboth => hnone call mem_cons_self hboth.1 hboth.2⟩
  · intro h
    cases h with
    | inl hsent => exact ⟨[],call,log,rfl,hsent.1,hsent.2,fun e he => absurd he not_mem_nil⟩
    | inr hold =>
      obtain ⟨⟨newer,call',older,rfl,hline,hsends,hnone⟩,hnot⟩:=hold
      refine ⟨call::newer,call',older,rfl,hline,hsends,fun e he heline hanswers => ?_⟩
      cases mem_cons.mp he with
      | inl hec =>
        rw [hec] at heline hanswers
        exact hnot ⟨heline,hanswers⟩
      | inr he => exact hnone e he heline hanswers

theorem portToMask_bit (h : Attached c 256 ports) (hport : port∈ports) (hp : p∈ports) (hsnoop : p.isSnooping=true)
    (hi : c.localResponsePortIds p.id=some i) : (c.portToMask port).getLsbD i=true ↔ port=p := by
  constructor
  · intro hbit
    cases hs : port.isSnooping with
    | false =>
      rw [portToMask_of_not_snooping hs] at hbit
      simp at hbit
    | true =>
      obtain ⟨j,hj,hlocal⟩:=h.bit port hport hs
      rw [Config.portToMask,if_pos hs,hlocal] at hbit
      dsimp only at hbit
      rw [BitVec.getLsbD_twoPow,Bool.and_eq_true,decide_eq_true_eq,decide_eq_true_eq] at hbit
      exact h.inj port hport p hp hs hsnoop (by rw [hlocal,hi,hbit.2])
  · intro heq
    obtain ⟨j,hj,hlocal⟩:=h.bit p hp hsnoop
    rw [hi] at hlocal
    cases hlocal
    rw [heq,Config.portToMask,if_pos hsnoop,hi]
    dsimp only
    rw [BitVec.getLsbD_twoPow,decide_eq_true hj,decide_eq_true rfl]
    rfl

theorem sent_bit (h : Attached c 256 ports) (hfrom : call.From ports) (hp : p∈ports) (hsnoop : p.isSnooping=true)
    (hi : c.localResponsePortIds p.id=some i) : (call.sent c).getLsbD i=true ↔ call.Sends p := by
  cases call with
  | request cpkt port willRetry =>
    have hbit:=portToMask_bit h hfrom hp hsnoop hi
    simp only [Call.sent,Call.Sends]
    split
    next hmarks =>
      simp only [marks,Bool.and_eq_true,Bool.not_eq_true'] at hmarks
      rw [hbit]
      tauto
    next hmarks =>
      simp only [marks,Bool.and_eq_true,Bool.not_eq_true'] at hmarks
      simp only [BitVec.ofNat_eq_ofNat,BitVec.getLsbD_zero]
      tauto
  | snoop cpkt | snoopResponse cpkt rspPort reqPort | snoopForward cpkt | response cpkt port =>
    simp [Call.sent,Call.Sends]

theorem answered_bit (h : Attached c 256 ports) (hfrom : call.From ports) (hp : p∈ports) (hsnoop : p.isSnooping=true)
    (hi : c.localResponsePortIds p.id=some i) : (call.answered c).getLsbD i=true ↔ call.Answers p := by
  cases call with
  | request cpkt port willRetry | snoop cpkt | snoopForward cpkt => simp [Call.answered,Call.Answers]
  | snoopResponse cpkt rspPort reqPort =>
    have hbit:=portToMask_bit h hfrom.2 hp hsnoop hi
    cases hcacheable : cpkt.req.uncacheable with
    | true => simp [Call.answered,Call.Answers,hcacheable]
    | false => simp [Call.answered,Call.Answers,hcacheable,hbit]
  | response cpkt port =>
    have hbit:=portToMask_bit h hfrom hp hsnoop hi
    cases hcacheable : cpkt.req.uncacheable with
    | true => simp [Call.answered,Call.Answers,hcacheable]
    | false => simp [Call.answered,Call.Answers,hcacheable,hbit]

theorem sends_not_answers (hsends : call.Sends p) : ¬call.Answers p := by
  cases call with
  | request cpkt port willRetry | snoop cpkt | snoopForward cpkt => exact id
  | snoopResponse cpkt rspPort reqPort | response cpkt port => exact hsends.elim

theorem updates_bit (h : Attached c 256 ports) (hfrom : call.From ports) (hp : p∈ports) (hsnoop : p.isSnooping=true)
    (hi : c.localResponsePortIds p.id=some i) (hupdates : Updates c f call f') :
    (f'.item line).requested.getLsbD i=true ↔ (call.line c=line ∧ call.Sends p) ∨
      ((f.item line).requested.getLsbD i=true ∧ ¬(call.line c=line ∧ call.Answers p)) := by
  obtain ⟨new,hw,hnew⟩:=hupdates
  rw [hw.item]
  split
  next hline =>
    obtain ⟨j,hj,hlocal⟩:=h.bit p hp hsnoop
    rw [hi] at hlocal
    cases hlocal
    have hsent:=sent_bit h hfrom hp hsnoop hi
    have hanswered:=answered_bit h hfrom hp hsnoop hi
    have hexclusive : call.Sends p → ¬call.Answers p := sends_not_answers
    rw [hnew,BitVec.getLsbD_and,BitVec.getLsbD_or,BitVec.getLsbD_not,decide_eq_true hj,Bool.true_and,Bool.and_eq_true,
      Bool.or_eq_true,hsent,Bool.not_eq_true',← Bool.not_eq_true,hanswered,← hline]
    tauto
  next hline =>
    have hother : call.line c≠line := fun heq => hline heq.symm
    tauto

theorem Reachable.exact (h : Reachable c ports f log) (hattached : Attached c 256 ports) : NoEmpty f ∧
    ∀ line p i,p∈ports → p.isSnooping=true → c.localResponsePortIds p.id=some i →
      ((f.item line).requested.getLsbD i=true ↔ Outstanding c log line p) := by
  induction h with
  | start =>
    have hnone : ∀ line : Addr,(∅ : Finmap fun _ : Addr => SnoopItem).lookup line=none := fun line => Finmap.lookup_empty line
    refine ⟨fun line item hitem => ?_,fun line p i _ _ _ => ⟨fun hbit => ?_,fun hout => ?_⟩⟩
    · rw [hnone] at hitem
      cases hitem
    · rw [item,hnone] at hbit
      simp at hbit
    · obtain ⟨newer,call,older,heq,_⟩:=hout
      cases newer with
      | nil | cons e newer => cases heq
  | call f f' log call _ hfrom hrun ih =>
    have hupdates:=(run_updates ih.1 call).of_ok hrun
    obtain ⟨_,hw,_⟩:=id hupdates
    refine ⟨hw.noEmpty,fun line p i hp hsnoop hi => ?_⟩
    rw [updates_bit hattached hfrom hp hsnoop hi hupdates,outstanding_cons,ih.2 line p i hp hsnoop hi]

/-- A request that is retried leaves the map as it was. In every run of calls that do not stop at a panic no item is empty,
and the requested bits are those of the outstanding requests. -/
theorem bookkeeping {linesize : BitVec 32} {lookupLatency maxEntryCount : ℕ}
    (hsetup : setCPUSidePorts linesize lookupLatency maxEntryCount ports = .ok c) (hids : (ports.map Port.id).Nodup) :
    (∀ f cpkt port snooped f',NoEmpty f → f.lookupRequest c cpkt port = .ok (snooped,f') →
      Post (f'.finishRequest c true cpkt.addr cpkt.secure) (fun f'' => f''.cachedLocations=f.cachedLocations) fun _ => False) ∧
    ∀ f log,Reachable c ports f log → NoEmpty f ∧
      ∀ line p i,p∈ports → p.isSnooping=true → c.localResponsePortIds p.id=some i →
        ((f.item line).requested.getLsbD i=true ↔ Outstanding c log line p) := by
  have hattached:=(setCPUSidePorts_post linesize lookupLatency maxEntryCount hids).of_ok hsetup
  exact ⟨fun f cpkt port snooped f' h haccepts => restores h snooped haccepts,fun f log h => h.exact hattached⟩

def twoPorts : Config :=
  { linesize := 64, lookupLatency := 1, maxEntryCount := 16, cpuSidePorts := [⟨0,true⟩,⟨1,true⟩],
    localResponsePortIds := Function.update (Function.update (fun _ => none) 0 (some 0)) 1 (some 1)}

def readReq : Packet := ⟨⟨false,false⟩,64,false,true,true,false,true,false,false,false,false,false,false,false⟩

theorem bookkeeping_readReq : ∃ f,
    Reachable twoPorts [⟨0,true⟩,⟨1,true⟩] f [.request readReq ⟨1,true⟩ true,.request readReq ⟨0,true⟩ false] ∧
    NoEmpty f ∧ ((f.item 64).requested.getLsbD 0=true ↔
      Outstanding twoPorts [.request readReq ⟨1,true⟩ true,.request readReq ⟨0,true⟩ false] 64 ⟨0,true⟩) := by
  have hsetup : setCPUSidePorts 64 1 16 [⟨0,true⟩,⟨1,true⟩] = .ok twoPorts := rfl
  have hsent : Reachable twoPorts [⟨0,true⟩,⟨1,true⟩] _ [.request readReq ⟨0,true⟩ false] :=
    .call _ _ _ _ .start (by simp [Call.From]) rfl
  have hretried : Reachable twoPorts [⟨0,true⟩,⟨1,true⟩] _ [.request readReq ⟨1,true⟩ true,.request readReq ⟨0,true⟩ false] :=
    .call _ _ _ _ hsent (by simp [Call.From]) rfl
  obtain ⟨hnoEmpty,hbits⟩:=(bookkeeping hsetup (by decide)).2 _ _ hretried
  exact ⟨_,hretried,hnoEmpty,hbits 64 ⟨0,true⟩ 0 (by simp) rfl rfl⟩

end SnoopFilter
end AquaGem5.Ports
