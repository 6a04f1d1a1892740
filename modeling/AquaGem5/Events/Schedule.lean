import AquaGem5.Events.EventQueue
import Mathlib.Data.List.Perm.Subperm

/-!
# Removal from the two-level list
-/

namespace AquaGem5.Events
open Checked Segment List

namespace EventQueue

variable {E : Type} [DecidableEq E] {q q' : EventQueue E} {pending : List E} {e x : E} {xs : List E}
  {bins rest : List (Bin E)} {b : Bin E} {p : Option E}

omit [DecidableEq E] in
theorem Shape.pop_single (h : Shape q (some e) (⟨e,[]⟩::rest)) : q.nextInBin e=none ∧ Shape q (q.nextBin e) rest := by
  obtain ⟨_,hlast⟩:=h.inBins _ mem_cons_self
  exact ⟨hlast,h.tops.2,fun b hb => h.inBins b (mem_cons_of_mem _ hb)⟩

theorem Shape.pop (h : Shape q (some e) (⟨e,x::xs⟩::rest)) (hx : ∀ b∈rest,x∉b.events) :
    q.nextInBin e=some x ∧ Shape {q with nextBin := Function.update q.nextBin x (q.nextBin e)} (some x) (⟨x,xs⟩::rest) := by
  obtain ⟨_,hnext,hbelow⟩:=h.inBins _ mem_cons_self
  have hfree : x∉rest.map Bin.top := fun hin => by
    obtain ⟨b,hb,heq⟩:=mem_map.mp hin
    exact hx b hb (heq ▸ b.top_mem)
  refine ⟨hnext,⟨rfl,?_⟩,fun b hb => ?_⟩
  · show Seg _ (Function.update q.nextBin x (q.nextBin e) x) _ _
    rw [Function.update_self]
    exact h.tops.2.update hfree
  · cases mem_cons.mp hb with
    | inl hbx =>
      rw [hbx]
      exact ⟨rfl,hbelow⟩
    | inr hb => exact h.inBins b (mem_cons_of_mem _ hb)

theorem findInBin_post (fuel : ℕ) (x : E) (xs : List E) (p : Option E) (h : Seg q.nextInBin p xs none) (he : e∈xs)
    (hfuel : xs.length≤fuel) :
    Post (q.findInBin e fuel x p) (fun curr => ∃ init after,x::xs=init++curr::e::after) fun _ => False := by
  induction xs generalizing fuel x p with
  | nil => cases he
  | cons y ys ih =>
    rw [length_cons] at hfuel
    obtain ⟨fuel,rfl⟩ : ∃ n,fuel=n+1 := Nat.exists_eq_succ_of_ne_zero (by omega)
    obtain ⟨hp,htail⟩:=h
    rw [hp,findInBin]
    split
    next hey => exact ⟨[],ys,by rw [hey,nil_append]⟩
    next hne =>
      have hin : e∈ys := (mem_cons.mp he).resolve_left hne
      refine (ih fuel y (q.nextInBin y) htail hin (by omega)).imp fun curr hcurr => ?_
      obtain ⟨init,after,heq⟩:=hcurr
      exact ⟨x::init,after,by rw [heq,cons_append]⟩

theorem removeItem_post {fuel : ℕ} (h : Shape q (some b.top) (b::rest)) (he : e∈b.events) (hnodup : b.events.Nodup)
    (hother : ∀ c∈rest,∀ x∈b.events,x∉c.events) (hfuel : b.events.length≤fuel) :
    Post (q.removeItem fuel e b.top) (fun res => Repointed q res.2 ∧ res.2.head=q.head ∧
      Shape res.2 res.1 (binOf (b.events.erase e)++rest) ∧
      ∀ x∉b.events,res.2.nextBin x=q.nextBin x ∧ res.2.nextInBin x=q.nextInBin x) fun _ => False := by
  obtain ⟨top,below⟩:=b
  rw [removeItem]
  split
  next htop =>
    have herase : (Bin.mk top below).events.erase e=below := by
      rw [htop]
      exact erase_cons_head ..
    rw [herase]
    cases below with
    | nil =>
      obtain ⟨hnone,hshape⟩:=h.pop_single
      dsimp only
      rw [hnone]
      exact ⟨⟨_,_,_,rfl⟩,rfl,hshape,fun _ _ => ⟨rfl,rfl⟩⟩
    | cons x xs =>
      have hx : x∈(Bin.mk top (x::xs)).events := mem_cons_of_mem _ mem_cons_self
      obtain ⟨hsome,hshape⟩:=h.pop fun c hc => hother c hc x hx
      dsimp only
      rw [hsome]
      exact ⟨⟨_,_,_,rfl⟩,rfl,hshape,fun y hy => ⟨Function.update_of_ne (ne_of_mem_of_not_mem hx hy).symm ..,rfl⟩⟩
  next hne =>
    have hin : e∈below := (mem_cons.mp he).resolve_left hne
    have hbin:=h.inBins _ mem_cons_self
    have hlen : below.length≤fuel := (Nat.le_succ _).trans hfuel
    refine (findInBin_post fuel top below _ hbin.2 hin hlen).bind fun curr hcurr => ?_
    obtain ⟨init,after,heq⟩:=hcurr
    have hevents : (Bin.mk top below).events=init++curr::e::after := heq
    have herase : (Bin.mk top below).events.erase e=init++curr::after := by
      rw [hevents] at hnodup ⊢
      obtain ⟨_,hcons,hdisjoint⟩:=nodup_append.mp hnodup
      have hcurr : curr≠e := fun hce => (nodup_cons.mp hcons).1 (hce ▸ mem_cons_self)
      have hinit : e∉init := fun hi => hdisjoint _ hi e (mem_cons_of_mem _ mem_cons_self) rfl
      rw [erase_append_right _ hinit,erase_cons_tail (by simpa using hcurr),erase_cons_head]
    have hsame : (Bin.mk top below).events.erase e=top::below.erase e := erase_cons_tail (by simpa using Ne.symm hne)
    have hcurr : curr∈(Bin.mk top below).events := by
      rw [hevents]
      simp
    have hskip : Seg (Function.update q.nextInBin curr (q.nextInBin e)) (some top) (top::below.erase e) none := by
      rw [← hsame,herase]
      rw [hevents] at hbin hnodup
      exact hbin.skip hnodup
    refine ⟨⟨_,_,_,rfl⟩,rfl,?_,fun y hy => ⟨rfl,Function.update_of_ne (ne_of_mem_of_not_mem hcurr hy).symm ..⟩⟩
    rw [hsame]
    refine ⟨h.tops,fun c hc => ?_⟩
    cases mem_cons.mp hc with
    | inl hcb =>
      rw [hcb]
      exact hskip
    | inr hc => exact (h.inBins c (mem_cons_of_mem _ hc)).update (hother c hc curr hcurr)

section

omit [DecidableEq E]

theorem Files.first {before : List (Bin E)} (hf : Files q pending (before++rest)) (he : e∈pending)
    (hless : ∀ b∈before,q.key b.top<q.key e) (hmore : ∀ b∈rest.head?,q.key e≤q.key b.top) :
    ∃ b bins,rest=b::bins ∧ q.key b.top=q.key e ∧ e∈b.events := by
  obtain ⟨c,hc,hkey⟩:=hf.all e he
  have hin : c∈rest := (mem_append.mp hc).resolve_left fun hin => absurd hkey (hless c hin).ne'
  cases rest with
  | nil => cases hin
  | cons b bins =>
    have hlead:=hmore b rfl
    have hsame : q.key b.top=q.key e := by
      cases mem_cons.mp hin with
      | inl hcb => rw [hkey,hcb]
      | inr hin =>
        obtain ⟨_,hincr,_⟩:=pairwise_append.mp hf.increasing
        have hlt:=(pairwise_cons.mp hincr).1 c hin
        rw [← hkey] at hlt
        exact absurd hlt (not_lt.mpr hlead)
    refine ⟨b,bins,rfl,hsame,?_⟩
    rw [hf.lifo b (by simp),mem_filter]
    exact ⟨he,decide_eq_true hsame.symm⟩

theorem Files.disjoint {before : List (Bin E)} (hf : Files q pending (before++b::rest)) :
    ∀ c∈before++rest,∀ x∈b.events,x∉c.events := fun c hc x hx hin => by
  have hmem : c∈before++b::rest := by
    simp only [mem_append,mem_cons] at hc ⊢
    tauto
  have hne:=hf.key_ne hc
  rw [← (hf.mem hmem hin).2,(hf.mem (by simp) hx).2] at hne
  exact hne rfl

theorem Files.bin (hf : Files q pending bins) (hb : b∈bins) : b.events.Nodup ∧ b.events.length≤pending.length := by
  rw [hf.lifo b hb]
  exact ⟨hf.nodup.filter _,length_filter_le ..⟩

end

theorem remove_post {fuel : ℕ} (hs : Shape q q.head bins) (hf : Files q pending bins) (he : e∈pending)
    (hbins : bins.length<fuel) (hfuel : pending.length≤fuel) :
    Post (q.remove fuel e) (fun q' => Repointed q q' ∧ ∃ bins',Shape q' q'.head bins' ∧ Files q (pending.erase e) bins')
      fun _ => False := by
  cases bins with
  | nil =>
    obtain ⟨b,hb,_⟩:=hf.all e he
    cases hb
  | cons b bins =>
    have hhead : q.head=some b.top := hs.tops.1
    rw [EventQueue.remove,hhead]
    dsimp only
    split
    next hsame =>
      rw [same_iff] at hsame
      have hf' : Files q pending ([]++b::bins) := hf
      obtain ⟨_,_,heq,_,hin⟩:=hf'.first he (fun c hc => absurd hc not_mem_nil) fun c hc => by
        cases hc
        exact hsame.ge
      obtain ⟨rfl,rfl⟩:=List.cons.inj heq
      obtain ⟨hnodup,hlen⟩:=hf.bin mem_cons_self
      refine (removeItem_post (hhead ▸ hs) hin hnodup hf'.disjoint (hlen.trans hfuel)).bind fun res hres => ?_
      obtain ⟨hpointers,_,hshape,_⟩:=hres
      exact ⟨hpointers.trans ⟨_,_,_,rfl⟩,_,⟨hshape.tops,hshape.inBins⟩,hf'.erase hin⟩
    next hnot =>
      rw [same_iff] at hnot
      rw [length_cons] at hbins
      have hbefore : q.key b.top<q.key e := by
        obtain ⟨c,hc,hkey⟩:=hf.all e he
        cases mem_cons.mp hc with
        | inl hcb => exact absurd (hcb ▸ hkey).symm hnot
        | inr hc => exact hkey ▸ (pairwise_cons.mp hf.increasing).1 c hc
      refine (walk_post fuel b bins (q.nextBin b.top) hs.tops.2 rfl hbefore (by omega)).bind fun res hres => ?_
      obtain ⟨before,c,rest,heq,rfl,hless,hmore⟩:=hres
      rw [heq] at hs hf
      have hsplit : before++c::rest=(before++[c])++rest := by rw [append_assoc,singleton_append]
      obtain ⟨d,rest,rfl,hsame,hin⟩:=(hsplit ▸ hf).first he hless hmore
      obtain ⟨hnodup,hlen⟩:=hf.bin (show d∈before++c::d::rest by simp)
      have hdisjoint:=(hsplit ▸ hf).disjoint
      show Post (if ¬q.same d.top e then _ else _) _ _
      rw [if_neg (by rw [not_not,same_iff]; exact hsame)]
      refine (removeItem_post hs.behind hin hnodup (fun x hx => hdisjoint x (mem_append_right _ hx)) (hlen.trans hfuel)).bind
        fun res hres => ?_
      obtain ⟨hpointers,hsamehead,hshape,hframe⟩:=hres
      have hfiles : Files q (pending.erase e) (before++c::(binOf (d.events.erase e)++rest)) := by
        have herased:=(hsplit ▸ hf).erase hin
        rw [append_assoc,singleton_append] at herased
        exact herased
      have htops:=hfiles.top_not_mem
      have hlinked:=hs.link hshape (fun x hx y hy => hframe y fun hyd => hdisjoint x (mem_append_left _ hx) y hyd hy)
        htops.1 htops.2
      refine ⟨hpointers.trans ⟨_,_,_,rfl⟩,_,⟨?_,hlinked.inBins⟩,hfiles⟩
      show Seg _ res.2.head _ none
      rw [hsamehead]
      exact hlinked.tops

end EventQueue
/-!
## Runs of an event queue
-/

open Function

namespace EventQueue

variable {E : Type} {q q' : EventQueue E} {pending pending' : List E} {e : E} {bins : List (Bin E)} {fuel when_ : ℕ}

def Listed (q : EventQueue E) (pending : List E) : Prop := ∃ bins,Shape q q.head bins ∧ Files q pending bins

theorem Files.length_le (h : Files q pending bins) : bins.length≤pending.length := by
  have hnodup : (bins.map Bin.top).Nodup := by
    rw [Nodup,pairwise_map]
    exact h.increasing.imp fun hlt heq => hlt.ne (congrArg q.key heq)
  have hsub : bins.map Bin.top ⊆ pending := fun x hx => by
    obtain ⟨b,hb,rfl⟩:=mem_map.mp hx
    exact (h.mem hb b.top_mem).1
  have hlen:=(subperm_of_subset hnodup hsub).length_le
  rw [length_map] at hlen
  exact hlen

theorem Files.perm (h : Files q pending bins) : (bins.flatMap Bin.events).Perm pending := by
  refine (perm_ext_iff_of_nodup ?_ h.nodup).mpr fun e => ⟨fun he => ?_,fun he => ?_⟩
  · rw [nodup_flatMap]
    refine ⟨fun b hb => (h.bin hb).1,h.increasing.imp_of_mem fun {b c} hb hc hlt => ?_⟩
    intro x hx hxc
    rw [← (h.mem hb hx).2,← (h.mem hc hxc).2] at hlt
    exact lt_irrefl _ hlt
  · obtain ⟨b,hb,hin⟩:=mem_flatMap.mp he
    exact (h.mem hb hin).1
  · obtain ⟨b,hb,hkey⟩:=h.all e he
    refine mem_flatMap.mpr ⟨b,hb,?_⟩
    rw [h.lifo b hb,mem_filter]
    exact ⟨he,decide_eq_true hkey⟩

theorem Files.repointed (h : Files q pending bins) (hq : Repointed q q') : Files q' pending bins := h.congr fun e _ => hq.key e

theorem Repointed.fields (h : Repointed q q') :
    q'.curTick=q.curTick ∧ q'.scheduled=q.scheduled ∧ q'.when_=q.when_ := by
  obtain ⟨_,_,_,rfl⟩:=h
  exact ⟨rfl,rfl,rfl⟩

variable [DecidableEq E]

theorem Listed.insert (h : Listed q pending) (he : e∉pending) (hfuel : pending.length<fuel) (when_ : ℕ) :
    Post ((q.setWhen e when_).insert fuel e) (fun q' => Repointed (q.setWhen e when_) q' ∧ Listed q' (e::pending))
      fun _ => False := by
  obtain ⟨bins,hshape,hfiles⟩:=h
  have hset : Files (q.setWhen e when_) pending bins := hfiles.congr fun x hx => by
    have hne : x≠e := ne_of_mem_of_not_mem hx he
    simp only [key,setWhen,update_of_ne hne]
  refine (insert_post (q := q.setWhen e when_) ⟨hshape.tops,hshape.inBins⟩ hset he (hfiles.length_le.trans_lt hfuel)).imp fun q' hq' => ?_
  obtain ⟨hpointers,bins',hshape',hfiles'⟩:=hq'
  exact ⟨hpointers,bins',hshape',hfiles'.repointed hpointers⟩

theorem Listed.remove (h : Listed q pending) (he : e∈pending) (hfuel : pending.length<fuel) :
    Post (q.remove fuel e) (fun q' => Repointed q q' ∧ Listed q' (pending.erase e)) fun _ => False := by
  obtain ⟨bins,hshape,hfiles⟩:=h
  refine (remove_post hshape hfiles he (hfiles.length_le.trans_lt hfuel) hfuel.le).imp fun q' hq' => ?_
  obtain ⟨hpointers,bins',hshape',hfiles'⟩:=hq'
  exact ⟨hpointers,bins',hshape',hfiles'.repointed hpointers⟩

structure Sound (q : EventQueue E) (pending : List E) : Prop where
  listed : Listed q pending
  flags : ∀ e,e∈pending ↔ q.scheduled e=true
  future : ∀ e∈pending,q.curTick≤q.when_ e

omit [DecidableEq E] in
theorem Sound.nodup (h : Sound q pending) : pending.Nodup := by
  obtain ⟨_,_,hfiles⟩:=h.listed
  exact hfiles.nodup

theorem Sound.insert (hlisted : Listed q pending) (he : e∉pending) (hfuel : pending.length<fuel) (hwhen : q.curTick≤when_)
    (hflags : ∀ x,x≠e → (x∈pending ↔ q.scheduled x=true)) (hfuture : ∀ x∈pending,q.curTick≤q.when_ x) :
    Post ((q.setWhen e when_).insert fuel e) (fun q' => Sound (q'.setScheduled e true) (e::pending) ∧ q'.curTick=q.curTick)
      fun _ => False := by
  refine (hlisted.insert he hfuel when_).imp fun q' hq' => ?_
  obtain ⟨hpointers,bins,hshape,hfiles⟩:=hq'
  obtain ⟨htick,hsched,hwhens⟩:=hpointers.fields
  refine ⟨⟨⟨bins,⟨hshape.tops,hshape.inBins⟩,hfiles.congr fun _ _ => rfl⟩,fun x => ?_,fun x hx => ?_⟩,htick⟩
  · show _ ↔ update q'.scheduled e true x=true
    rw [hsched]
    by_cases hxe : x=e
    · simp [hxe]
    · rw [update_of_ne hxe,mem_cons,or_iff_right hxe]
      exact hflags x hxe
  · show q'.curTick≤q'.when_ x
    rw [htick,hwhens]
    show q.curTick≤update q.when_ e when_ x
    by_cases hxe : x=e
    · rw [hxe,update_self]
      exact hwhen
    · rw [update_of_ne hxe]
      exact hfuture x ((mem_cons.mp hx).resolve_left hxe)

theorem Sound.schedule (h : Sound q pending) (hfuel : pending.length<fuel) (e : E) (when_ : ℕ) :
    Post (q.schedule fuel e when_) (fun q' => Sound q' (e::pending) ∧ q'.curTick=q.curTick)
      fun _ => ¬(q.curTick≤when_ ∧ q.scheduled e=false) := by
  rw [EventQueue.schedule]
  simp only [post_bind,post_check,post_pure]
  refine ⟨fun hwhen => ⟨fun he => ?_,fun hno hboth => hno hboth.2⟩,fun hno hboth => hno hboth.1⟩
  have hnot : e∉pending := fun hin => by
    rw [h.flags,he] at hin
    cases hin
  exact (Sound.insert h.listed hnot hfuel hwhen (fun x _ => h.flags x) h.future).mono (fun _ => id) fun _ => False.elim

theorem Sound.remove (h : Sound q pending) (he : q.scheduled e=true) (hfuel : pending.length<fuel) :
    Post (q.remove fuel e) (fun q' => Repointed q q' ∧ Listed q' (pending.erase e)) fun _ => False :=
  h.listed.remove ((h.flags e).mpr he) hfuel

theorem Sound.deschedule (h : Sound q pending) (hfuel : pending.length<fuel) (e : E) :
    Post (q.deschedule fuel e) (fun q' => Sound q' (pending.erase e) ∧ q'.curTick=q.curTick) fun _ => ¬q.scheduled e=true := by
  rw [EventQueue.deschedule]
  simp only [post_bind,post_check,post_pure]
  refine ⟨fun he => (h.remove he hfuel).mono (fun q' hq' => ?_) fun _ => False.elim,fun hno => hno⟩
  obtain ⟨hpointers,bins,hshape,hfiles⟩:=hq'
  obtain ⟨htick,hsched,hwhens⟩:=hpointers.fields
  refine ⟨⟨⟨bins,⟨hshape.tops,hshape.inBins⟩,hfiles.congr fun _ _ => rfl⟩,fun x => ?_,fun x hx => ?_⟩,htick⟩
  · show _ ↔ update q'.scheduled e false x=true
    rw [hsched,h.nodup.mem_erase_iff,h.flags]
    by_cases hxe : x=e
    · simp [hxe]
    · simp [hxe]
  · show q'.curTick≤q'.when_ x
    rw [htick,hwhens]
    exact h.future x (mem_of_mem_erase hx)

theorem Sound.reschedule (h : Sound q pending) (hfuel : pending.length<fuel) (e : E) (when_ : ℕ) (always : Bool) :
    Post (q.reschedule fuel e when_ always) (fun q' => Sound q' (e::pending.erase e) ∧ q'.curTick=q.curTick)
      fun _ => ¬(q.curTick≤when_ ∧ (always=true ∨ q.scheduled e=true)) := by
  have hlen : (pending.erase e).length<fuel := (length_erase_le).trans_lt hfuel
  have hgone : e∉pending.erase e := h.nodup.not_mem_erase
  have hflags : ∀ x,x≠e → (x∈pending.erase e ↔ q.scheduled x=true) := fun x hx => by
    rw [mem_erase_of_ne hx]
    exact h.flags x
  have hremoved : Post (if q.scheduled e then q.remove fuel e else pure q)
      (fun q' => Repointed q q' ∧ Listed q' (pending.erase e)) fun _ => False := by
    split
    next hsched => exact h.remove hsched hfuel
    next hsched =>
      have hnot : e∉pending := fun hin => hsched ((h.flags e).mp hin)
      rw [erase_of_not_mem hnot]
      exact ⟨⟨_,_,_,rfl⟩,h.listed⟩
  rw [EventQueue.reschedule]
  simp only [post_bind,post_check,post_pure]
  refine ⟨fun hwhen => ⟨fun _ => ?_,fun hno hboth => hno hboth.2⟩,fun hno hboth => hno hboth.1⟩
  refine hremoved.mono (fun q1 hq1 => ?_) fun _ => False.elim
  obtain ⟨hpointers,hlisted⟩:=hq1
  obtain ⟨htick,hsched,hwhens⟩:=hpointers.fields
  have hfuture : ∀ x∈pending.erase e,q1.curTick≤q1.when_ x := fun x hx => by
    rw [htick,hwhens]
    exact h.future x (mem_of_mem_erase hx)
  refine (Sound.insert hlisted hgone hlen (htick ▸ hwhen) (hsched ▸ hflags) hfuture).mono (fun q' hq' => ?_) fun _ => False.elim
  obtain ⟨⟨⟨bins,hshape,hfiles⟩,hflags',hfuture'⟩,htick'⟩:=hq'
  exact ⟨⟨⟨bins,⟨hshape.tops,hshape.inBins⟩,hfiles.congr fun _ _ => rfl⟩,hflags',hfuture'⟩,htick'.trans htick⟩

theorem Listed.pop (h : Listed q pending) (hne : pending≠[]) : ∃ b rest,q.head=some b.top ∧ Files q pending (b::rest) ∧
    Repointed q (q.popHead b.top) ∧ Listed (q.popHead b.top) (pending.erase b.top) := by
  obtain ⟨bins,hshape,hfiles⟩:=h
  cases bins with
  | nil =>
    obtain ⟨e,he⟩:=exists_mem_of_ne_nil _ hne
    obtain ⟨b,hb,_⟩:=hfiles.all e he
    cases hb
  | cons b rest =>
    have hhead : q.head=some b.top := hshape.tops.1
    rw [hhead] at hshape
    have hfiles' : Files q pending ([]++b::rest) := hfiles
    have hdisjoint:=hfiles'.disjoint
    have hleft:=hfiles'.erase b.top_mem
    refine ⟨b,rest,hhead,hfiles,?_⟩
    obtain ⟨top,below⟩:=b
    have herase : (Bin.mk top below).events.erase top=below := erase_cons_head ..
    rw [herase] at hleft
    cases below with
    | nil =>
      obtain ⟨hnone,hrest⟩:=hshape.pop_single
      simp only [popHead,hnone]
      exact ⟨⟨_,_,_,rfl⟩,_,⟨hrest.tops,hrest.inBins⟩,hleft.congr fun _ _ => rfl⟩
    | cons x xs =>
      have hx : x∈(Bin.mk top (x::xs)).events := mem_cons_of_mem _ mem_cons_self
      obtain ⟨hsome,hrest⟩:=hshape.pop fun c hc => hdisjoint c hc x hx
      simp only [popHead,hsome]
      exact ⟨⟨_,_,_,rfl⟩,_,⟨hrest.tops,hrest.inBins⟩,hleft.congr fun _ _ => rfl⟩

section

omit [DecidableEq E]

theorem Listed.empty (h : Listed q pending) (hnone : pending=[]) : q.head=none := by
  obtain ⟨bins,hshape,hfiles⟩:=h
  cases bins with
  | nil => exact hshape.tops
  | cons b rest =>
    have hmem:=(hfiles.mem mem_cons_self b.top_mem).1
    rw [hnone] at hmem
    cases hmem

theorem Files.least {b : Bin E} {rest : List (Bin E)} (h : Files q pending (b::rest)) :
    b.top∈pending ∧ (∀ x∈pending,q.key b.top≤q.key x) ∧ (pending.filter fun x => q.same x b.top).head?=some b.top := by
  refine ⟨(h.mem mem_cons_self b.top_mem).1,fun x hx => ?_,?_⟩
  · obtain ⟨c,hc,hkey⟩:=h.all x hx
    rw [hkey]
    cases mem_cons.mp hc with
    | inl hcb => rw [hcb]
    | inr hc => exact ((pairwise_cons.mp h.increasing).1 c hc).le
  · simp only [same_iff]
    rw [← h.lifo b mem_cons_self]
    rfl

end

theorem Sound.serviceOne (h : Sound q pending) :
    Post q.serviceOne (fun res => Sound res.2 (pending.erase res.1) ∧ q.curTick≤res.2.curTick ∧ res.1∈pending ∧
      (∀ x∈pending,¬q.lt x res.1) ∧ (pending.filter fun x => q.same x res.1).head?=some res.1) fun _ => pending=[] := by
  by_cases hne : pending=[]
  · rw [EventQueue.serviceOne,h.listed.empty hne]
    exact hne
  obtain ⟨b,rest,hhead,hfiles,hpointers,hlisted⟩:=h.listed.pop hne
  obtain ⟨hmem,hleast,hlatest⟩:=hfiles.least
  have hpop : (q.setScheduled b.top false).popHead b.top=(q.popHead b.top).setScheduled b.top false := by
    simp only [popHead,setScheduled]
    cases q.nextInBin b.top with
    | none | some next => rfl
  obtain ⟨htick,hsched,hwhens⟩:=hpointers.fields
  obtain ⟨bins,hshape,hleft⟩:=hlisted
  have hflags : ∀ x,x∈pending.erase b.top ↔ update (q.popHead b.top).scheduled b.top false x=true := fun x => by
    rw [hsched,h.nodup.mem_erase_iff,h.flags]
    by_cases hx : x=b.top
    · simp [hx]
    · simp [hx]
  have hfirst : ∀ x∈pending,¬q.lt x b.top := fun x hx => by
    rw [lt_iff,not_lt]
    exact hleast x hx
  rw [EventQueue.serviceOne,hhead]
  dsimp only
  rw [hpop]
  split
  next =>
    refine ⟨⟨⟨bins,⟨hshape.tops,hshape.inBins⟩,hleft.congr fun _ _ => rfl⟩,hflags,fun x hx => ?_⟩,htick.ge,hmem,hfirst,hlatest⟩
    show (q.popHead b.top).curTick≤(q.popHead b.top).when_ x
    rw [htick,hwhens]
    exact h.future x (mem_of_mem_erase hx)
  next =>
    have hnow : (q.popHead b.top).when_ b.top=q.when_ b.top := congrFun hwhens _
    refine ⟨⟨⟨bins,⟨hshape.tops,hshape.inBins⟩,hleft.congr fun _ _ => rfl⟩,hflags,fun x hx => ?_⟩,?_,hmem,hfirst,hlatest⟩
    · show (q.popHead b.top).when_ b.top≤(q.popHead b.top).when_ x
      rw [hwhens]
      have hnot:=hfirst x (mem_of_mem_erase hx)
      exact not_lt.mp fun hlt => hnot (.inl hlt)
    · show q.curTick≤(q.popHead b.top).when_ b.top
      rw [hnow]
      exact h.future _ hmem

theorem Sound.step (h : Sound q pending) (hstep : Step q pending q' pending') : Sound q' pending' ∧ q.curTick≤q'.curTick := by
  cases hstep with
  | schedule _ fuel event when_ hfuel hrun =>
    obtain ⟨hsound,htick⟩:=(h.schedule hfuel event when_).of_ok hrun
    exact ⟨hsound,htick.ge⟩
  | deschedule _ fuel event hfuel hrun =>
    obtain ⟨hsound,htick⟩:=(h.deschedule hfuel event).of_ok hrun
    exact ⟨hsound,htick.ge⟩
  | reschedule _ fuel event when_ always hfuel hrun =>
    obtain ⟨hsound,htick⟩:=(h.reschedule hfuel event when_ always).of_ok hrun
    exact ⟨hsound,htick.ge⟩
  | squash event =>
    obtain ⟨⟨bins,hshape,hfiles⟩,hflags,hfuture⟩:=h
    exact ⟨⟨⟨bins,⟨hshape.tops,hshape.inBins⟩,hfiles.congr fun _ _ => rfl⟩,hflags,hfuture⟩,le_rfl⟩
  | serviceOne _ event hrun =>
    obtain ⟨hsound,htick,_⟩:=h.serviceOne.of_ok hrun
    exact ⟨hsound,htick⟩

theorem Reachable.sound (h : Reachable q pending) : Sound q pending := by
  induction h with
  | start q hhead hflags =>
    refine ⟨⟨[],⟨hhead,fun b hb => absurd hb not_mem_nil⟩,⟨.nil,fun b hb => absurd hb not_mem_nil,
      fun e he => absurd he not_mem_nil,.nil⟩⟩,fun e => ?_,fun e he => absurd he not_mem_nil⟩
    rw [hflags e]
    simp
  | step _ hstep ih => exact (ih.step hstep).1

/-- In every run the two-level list has the scheduled events in bins of increasing time and priority, each once and in
the order of a stack. The calls stop at their asserts only, a scheduled event is found when it is removed, an
event of the least time and priority is serviced, the latest of them, and the time does not run back. -/
theorem ordered_schedule (h : Reachable q pending) :
    (∃ bins,Shape q q.head bins ∧ Files q pending bins ∧ (bins.flatMap Bin.events).Perm pending) ∧
    (∀ e,e∈pending ↔ q.scheduled e=true) ∧
    (∀ fuel,pending.length<fuel →
      (∀ e when_,Post (q.schedule fuel e when_) (fun _ => True) fun _ => ¬(q.curTick≤when_ ∧ q.scheduled e=false)) ∧
      (∀ e,Post (q.deschedule fuel e) (fun _ => True) fun _ => ¬q.scheduled e=true) ∧
      (∀ e when_ always,Post (q.reschedule fuel e when_ always) (fun _ => True)
        fun _ => ¬(q.curTick≤when_ ∧ (always=true ∨ q.scheduled e=true))) ∧
      (∀ e,q.scheduled e=true → Post (q.remove fuel e) (fun _ => True) fun _ => False)) ∧
    Post q.serviceOne (fun res => res.1∈pending ∧ (∀ x∈pending,¬q.lt x res.1) ∧
      (pending.filter fun x => q.same x res.1).head?=some res.1) (fun _ => pending=[]) ∧
    (∀ q' pending',Step q pending q' pending' → q.curTick≤q'.curTick) := by
  have hsound:=h.sound
  obtain ⟨bins,hshape,hfiles⟩:=hsound.listed
  refine ⟨⟨bins,hshape,hfiles,hfiles.perm⟩,hsound.flags,fun fuel hfuel => ⟨fun e when_ => ?_,fun e => ?_,fun e when_ always => ?_,
    fun e he => ?_⟩,?_,fun q' pending' hstep => (hsound.step hstep).2⟩
  · exact (hsound.schedule hfuel e when_).imp fun _ _ => trivial
  · exact (hsound.deschedule hfuel e).imp fun _ _ => trivial
  · exact (hsound.reschedule hfuel e when_ always).imp fun _ _ => trivial
  · exact (hsound.remove he hfuel).imp fun _ _ => trivial
  · exact hsound.serviceOne.imp fun _ hres => hres.2.2

def idle : EventQueue ℕ :=
  { head := none, curTick := 0, nextBin := fun _ => none, nextInBin := fun _ => none, when_ := fun _ => 0,
    priority := fun _ => 0, scheduled := fun _ => false, squashed := fun _ => false}

theorem ordered_schedule_two : ∃ q : EventQueue ℕ,q.head=some 8 ∧
    ∃ bins,Shape q q.head bins ∧ Files q [8,7] bins ∧ (bins.flatMap Bin.events).Perm [8,7] := by
  have hstart : Reachable idle [] := .start idle rfl fun _ => rfl
  have hfirst : Reachable _ [7] := hstart.step (.schedule _ 1 7 5 (by decide) rfl)
  have hsecond : Reachable _ [8,7] := hfirst.step (.schedule _ 2 8 5 (by decide) rfl)
  exact ⟨_,rfl,(ordered_schedule hsecond).1⟩

end EventQueue
end AquaGem5.Events
