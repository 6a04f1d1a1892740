import AquaGem5.Sim.MemState

/-!
# What unmapping and remapping do to the areas

An area that meets the region is cut into pieces outside of it, and in a remapping a piece that is moved. The lists
are compared up to the order of their areas.
-/

namespace AquaGem5.Sim
open List
open Address (Addr AddrRange)

namespace VMA

def Apart (v w : VMA) : Prop := ∀ a, v.Has a → ¬w.Has a

theorem Apart.symm {v w : VMA} (h : Apart v w) : Apart w v := fun a hw hv => h a hv hw

end VMA

structure Areas (page : Addr) (l : List VMA) : Prop where
  formed : ∀ v∈l, VMA.Formed page v
  apart : l.Pairwise VMA.Apart

def Maps (l : List VMA) (a : ℕ) (x : String × Option (ℕ × ℕ)) : Prop := ∃ v∈l, v.Has a ∧ v.view a=x

structure Cut (page : Addr) (v : VMA) (R : ℕ → Prop) (ws : List VMA) : Prop where
  areas : Areas page ws
  sub : ∀ w∈ws, ∀ a, w.Has a → v.Has a ∧ w.view a=v.view a ∧ ¬R a
  cover : ∀ a, v.Has a → ¬R a → ∃ w∈ws, w.Has a

variable {page : Addr} {v w : VMA} {l l' ws : List VMA} {R : ℕ → Prop} {a lo hi : ℕ} {x : String × Option (ℕ × ℕ)}

theorem Areas.perm (h : Areas page l) (hp : l.Perm l') : Areas page l' :=
  ⟨fun v hv => h.formed v (hp.mem_iff.mpr hv),(hp.pairwise_iff fun hvw => hvw.symm).mp h.apart⟩

theorem areas_append : Areas page (l++l') ↔ Areas page l ∧ Areas page l' ∧ ∀ v∈l, ∀ w∈l', v.Apart w := by
  constructor
  · intro h
    obtain ⟨h1,h2,h3⟩:=pairwise_append.mp h.apart
    exact ⟨⟨fun v hv => h.formed v (mem_append_left _ hv),h1⟩,
      ⟨fun v hv => h.formed v (mem_append_right _ hv),h2⟩,h3⟩
  · intro ⟨h1,h2,h3⟩
    refine ⟨fun v hv => ?_,pairwise_append.mpr ⟨h1.apart,h2.apart,h3⟩⟩
    rcases mem_append.mp hv with hv | hv
    · exact h1.formed v hv
    · exact h2.formed v hv

theorem areas_singleton (hv : VMA.Formed page v) : Areas page [v] :=
  ⟨fun w hw => by rw [mem_singleton.mp hw]; exact hv,pairwise_singleton ..⟩

theorem areas_nil : Areas page [] := ⟨fun _ hv => (List.not_mem_nil hv).elim,.nil⟩

theorem maps_append : Maps (l++l') a x ↔ Maps l a x ∨ Maps l' a x := by
  constructor
  · intro ⟨v,hv,h⟩
    rcases mem_append.mp hv with hv | hv
    · exact .inl ⟨v,hv,h⟩
    · exact .inr ⟨v,hv,h⟩
  · intro h
    rcases h with ⟨v,hv,h⟩ | ⟨v,hv,h⟩
    · exact ⟨v,mem_append_left _ hv,h⟩
    · exact ⟨v,mem_append_right _ hv,h⟩

theorem maps_perm (hp : l.Perm l') : Maps l a x ↔ Maps l' a x := by
  simp only [Maps,hp.mem_iff]

theorem Cut.areas_append (hc : Cut page v R ws) (h : Areas page ([v]++l)) : Areas page (ws++l) := by
  obtain ⟨_,hl,hvl⟩:=Sim.areas_append.mp h
  exact Sim.areas_append.mpr ⟨hc.areas,hl,fun w hw u hu a ha => hvl v (mem_singleton_self v) u hu a (hc.sub w hw a ha).1⟩

theorem Cut.maps (hc : Cut page v R ws) (ha : ¬R a) : Maps ws a x ↔ Maps [v] a x := by
  constructor
  · intro ⟨w,hw,hwa,hx⟩
    obtain ⟨hva,hview,_⟩:=hc.sub w hw a hwa
    exact ⟨v,mem_singleton_self v,hva,hview.symm.trans hx⟩
  · intro ⟨u,hu,hva,hx⟩
    rw [mem_singleton.mp hu] at hva hx
    obtain ⟨w,hw,hwa⟩:=hc.cover a hva ha
    exact ⟨w,hw,hwa,(hc.sub w hw a hwa).2.1.trans hx⟩

def Between (lo hi a : ℕ) : Prop := lo≤a ∧ a<hi

theorem part_sub {b e : ℕ} (hp : VMA.Part v w b e) (hb : v.start.toNat≤b) (he : e≤v.stop.toNat) (ha : w.Has a) :
    v.Has a ∧ w.view a=v.view a ∧ b≤a ∧ a<e := by
  have h1:=hp.start
  have h2:=hp.stop
  obtain ⟨h3,h4⟩:=ha
  exact ⟨⟨by omega,by omega⟩,hp.view a (by omega) (by omega),by omega,by omega⟩

theorem cut_keep (hv : VMA.Formed page v) (h : ∀ a, v.Has a → ¬R a) : Cut page v R [v] :=
  ⟨areas_singleton hv,fun w hw a ha => by
    rw [mem_singleton.mp hw] at ha ⊢
    exact ⟨ha,rfl,h a ha⟩,fun a ha _ => ⟨v,mem_singleton_self v,ha⟩⟩

theorem cut_drop (h : ∀ a, v.Has a → R a) : Cut page v R [] :=
  ⟨areas_nil,fun _ hw => (not_mem_nil hw).elim,fun a ha hn => (hn (h a ha)).elim⟩

theorem cut_right (hw : VMA.Formed page w) (hp : VMA.Part v w v.start.toNat lo) (hlo : lo≤v.stop.toNat)
    (hhi : v.stop.toNat≤hi) : Cut page v (Between lo hi) [w] := by
  refine ⟨areas_singleton hw,fun u hu a ha => ?_,fun a ha hn => ⟨w,mem_singleton_self w,?_⟩⟩
  · rw [mem_singleton.mp hu] at ha ⊢
    obtain ⟨h1,h2,_,h4⟩:=part_sub hp le_rfl hlo ha
    exact ⟨h1,h2,fun hr => absurd hr.1 (Nat.not_le_of_lt h4)⟩
  · have h1:=hp.start
    have h2:=hp.stop
    obtain ⟨h3,h4⟩:=ha
    rw [Between] at hn
    exact ⟨by omega,by omega⟩

theorem cut_left (hw : VMA.Formed page w) (hp : VMA.Part v w hi v.stop.toNat) (hlo : lo≤v.start.toNat)
    (hhi : v.start.toNat≤hi) : Cut page v (Between lo hi) [w] := by
  refine ⟨areas_singleton hw,fun u hu a ha => ?_,fun a ha hn => ⟨w,mem_singleton_self w,?_⟩⟩
  · rw [mem_singleton.mp hu] at ha ⊢
    obtain ⟨h1,h2,h3,_⟩:=part_sub hp hhi le_rfl ha
    exact ⟨h1,h2,fun hr => absurd hr.2 (Nat.not_lt_of_le h3)⟩
  · have h1:=hp.start
    have h2:=hp.stop
    obtain ⟨h3,h4⟩:=ha
    rw [Between] at hn
    exact ⟨by omega,by omega⟩

theorem cut_both {u : VMA} (hw : VMA.Formed page w) (hu : VMA.Formed page u) (hp : VMA.Part v w v.start.toNat lo)
    (hq : VMA.Part v u hi v.stop.toNat) (hlo : v.start.toNat≤lo) (hle : lo≤hi) (hhi : hi≤v.stop.toNat) :
    Cut page v (Between lo hi) [w,u] := by
  have h1:=hp.stop
  have h2:=hq.start
  have hapart : w.Apart u := fun a ha hb => by
    have h3:=ha.2
    have h4:=hb.1
    omega
  refine ⟨areas_append.mpr ⟨areas_singleton hw,areas_singleton hu,fun y hy z hz => ?_⟩,fun y hy a ha => ?_,fun a ha hn => ?_⟩
  · rw [mem_singleton.mp hy,mem_singleton.mp hz]
    exact hapart
  · rcases mem_cons.mp hy with rfl | hy
    · obtain ⟨h3,h4,_,h5⟩:=part_sub hp le_rfl (by omega) ha
      exact ⟨h3,h4,fun hr => absurd hr.1 (Nat.not_le_of_lt h5)⟩
    · rw [mem_singleton.mp hy] at ha ⊢
      obtain ⟨h3,h4,h5,_⟩:=part_sub hq (by omega) le_rfl ha
      exact ⟨h3,h4,fun hr => absurd hr.2 (Nat.not_lt_of_le h5)⟩
  · have h3:=hp.start
    have h4:=hq.stop
    obtain ⟨h5,h6⟩:=ha
    rw [Between] at hn
    by_cases hb : a<lo
    · exact ⟨w,mem_cons_self ..,by omega,by omega⟩
    · exact ⟨u,mem_cons_of_mem _ (mem_singleton_self u),by omega,by omega⟩

structure Unmapping (page : Addr) (lo hi : ℕ) (orig passed rest : List VMA) : Prop where
  areas : Areas page (passed++rest)
  clear : ∀ v∈passed, ∀ a, v.Has a → ¬Between lo hi a
  maps : ∀ a x, ¬Between lo hi a → (Maps (passed++rest) a x ↔ Maps orig a x)

variable {orig passed rest passed' rest' : List VMA}

theorem Unmapping.cut (h : Unmapping page lo hi orig passed (v::rest)) (hc : Cut page v (Between lo hi) ws)
    (hp : (passed'++rest').Perm (ws++(passed++rest))) (hclear : ∀ u∈passed', u∈ws ∨ u∈passed) :
    Unmapping page lo hi orig passed' rest' := by
  have hmove : (passed++v::rest).Perm ([v]++(passed++rest)) := perm_middle
  refine ⟨(hc.areas_append (h.areas.perm hmove)).perm hp.symm,fun u hu a ha => ?_,fun a x ha => ?_⟩
  · rcases hclear u hu with hu | hu
    · exact (hc.sub u hu a ha).2.2
    · exact h.clear u hu a ha
  · rw [maps_perm hp,maps_append,hc.maps ha,← maps_append,← maps_perm hmove]
    exact h.maps a x ha

theorem Unmapping.done (h : Unmapping page lo hi orig passed rest) (hclear : ∀ v∈rest, ∀ a, v.Has a → ¬Between lo hi a) :
    Areas page (passed++rest) ∧ ∀ a x, Maps (passed++rest) a x ↔ Maps orig a x ∧ ¬Between lo hi a := by
  refine ⟨h.areas,fun a x => ?_⟩
  by_cases ha : Between lo hi a
  · refine iff_of_false (fun ⟨v,hv,hva,_⟩ => ?_) fun hn => hn.2 ha
    rcases mem_append.mp hv with hv | hv
    · exact h.clear v hv a hva ha
    · exact hclear v hv a hva ha
  · rw [h.maps a x ha,and_iff_left ha]

theorem others_clear (h : Areas page (passed++v::rest)) (hv : ∀ a, Between lo hi a → v.Has a) :
    ∀ u∈passed++rest, ∀ a, u.Has a → ¬Between lo hi a := by
  intro u hu a ha hr
  have hmove : (passed++v::rest).Perm ([v]++(passed++rest)) := perm_middle
  exact (areas_append.mp (h.perm hmove)).2.2 v (mem_singleton_self v) u hu a (hv a hr) ha

section Loops

variable {startAddr endAddr : Addr}

theorem trim_ok (hv : VMA.Formed page v) (hs : startAddr%page=0) (he : endAddr%page=0)
    (hsuper : ¬(v.start<startAddr ∧ endAddr<v.stop)) (hsub : ¬(startAddr≤v.start ∧ v.stop≤endAddr))
    (hmeet : v.start<endAddr ∧ startAddr<v.stop) :
    ∃ w, MemState.trim startAddr endAddr v = .ok w ∧ Cut page v (Between startAddr.toNat endAddr.toNat) [w] := by
  rw [MemState.trim]
  simp only [BitVec.lt_def,BitVec.le_def] at hsuper hsub hmeet
  by_cases hb : v.start<startAddr
  · obtain ⟨w,hw,hform,hpart⟩:=hv.sliceRegionRight hs hb
    rw [BitVec.lt_def] at hb
    exact ⟨w,by rw [if_pos (BitVec.lt_def.mpr hb),hw],cut_right hform hpart (by omega) (by omega)⟩
  · have hb':=BitVec.le_def.mp (BitVec.not_lt.mp hb)
    obtain ⟨w,hw,hform,hpart⟩:=hv.sliceRegionLeft he (BitVec.le_def.mpr (by omega)) (BitVec.lt_def.mpr (by omega))
    exact ⟨w,by rw [if_neg hb,hw],cut_left hform hpart hb' (by omega)⟩

theorem split_ok (hv : VMA.Formed page v) (hs : startAddr%page=0) (he : endAddr%page=0)
    (hlt : startAddr<endAddr) (hsuper : v.start<startAddr ∧ endAddr<v.stop) :
    ∃ right left, v.sliceRegionRight startAddr = .ok right ∧ v.sliceRegionLeft endAddr = .ok left ∧
      Cut page v (Between startAddr.toNat endAddr.toNat) [right,left] := by
  have h1:=BitVec.lt_def.mp hsuper.1
  have h2:=BitVec.lt_def.mp hsuper.2
  have h3:=BitVec.lt_def.mp hlt
  obtain ⟨right,hr,hrf,hrp⟩:=hv.sliceRegionRight hs hsuper.1
  obtain ⟨left,hl,hlf,hlp⟩:=hv.sliceRegionLeft he (BitVec.le_def.mpr (by omega)) hsuper.2
  exact ⟨right,left,hr,hl,cut_both hrf hlf hrp hlp (by omega) (by omega) (by omega)⟩

theorem keep_ok (hv : VMA.Formed page v) (hmeet : ¬(v.start<endAddr ∧ startAddr<v.stop)) :
    Cut page v (Between startAddr.toNat endAddr.toNat) [v] := by
  refine cut_keep hv fun a ha hr => hmeet ⟨BitVec.lt_def.mpr ?_,BitVec.lt_def.mpr ?_⟩
  · exact Nat.lt_of_le_of_lt ha.1 hr.2
  · exact Nat.lt_of_le_of_lt hr.1 ha.2

theorem unmapLoop_ok (hs : startAddr%page=0) (he : endAddr%page=0) (hlt : startAddr<endAddr) (fuel : ℕ)
    (hf : rest.length<fuel) (h : Unmapping page startAddr.toNat endAddr.toNat orig passed rest) :
    ∃ l, MemState.unmapLoop startAddr endAddr fuel passed rest = .ok l ∧ Areas page l ∧
      ∀ a x, Maps l a x ↔ Maps orig a x ∧ ¬Between startAddr.toNat endAddr.toNat a := by
  induction fuel generalizing passed rest with
  | zero => omega
  | succ fuel ih =>
    cases rest with
    | nil =>
      refine ⟨passed,by rw [MemState.unmapLoop],?_⟩
      have hdone:=h.done fun v hv => (not_mem_nil hv).elim
      rwa [append_nil] at hdone
    | cons v rest =>
      rw [length_cons] at hf
      have hv : VMA.Formed page v := h.areas.formed v (mem_append_right _ (mem_cons_self ..))
      have hsnoc : ∀ w : VMA, (passed++[w]++rest).Perm ([w]++(passed++rest)) := fun w => by
        rw [append_assoc]
        exact perm_middle
      rw [MemState.unmapLoop]
      by_cases hsuper : v.isStrictSuperset ⟨startAddr,endAddr,[],0⟩=true
      · rw [if_pos hsuper]
        rw [VMA.isStrictSuperset_iff] at hsuper
        obtain ⟨right,left,hr,hl,hcut⟩:=split_ok hv hs he hlt hsuper
        refine ⟨passed++left::(rest++[right]),by rw [hr,hl]; rfl,?_⟩
        have hperm : (passed++left::(rest++[right])).Perm ([right,left]++(passed++rest)) := by
          refine perm_middle.trans ?_
          rw [← append_assoc]
          exact (perm_append_singleton right (passed++rest)).cons left |>.trans (Perm.swap ..)
        have hnext : Unmapping page startAddr.toNat endAddr.toNat orig [] (passed++left::(rest++[right])) :=
          h.cut hcut hperm fun u hu => (not_mem_nil hu).elim
        refine hnext.done fun u hu a ha => ?_
        have hu:=hperm.mem_iff.mp hu
        rcases mem_append.mp hu with hu | hu
        · exact (hcut.sub u hu a ha).2.2
        · have h1:=BitVec.lt_def.mp hsuper.1
          have h2:=BitVec.lt_def.mp hsuper.2
          exact others_clear h.areas (fun b hb => ⟨h1.le.trans hb.1,hb.2.trans h2⟩) u hu a ha
      · rw [if_neg hsuper]
        rw [VMA.isStrictSuperset_iff] at hsuper
        by_cases hsub : v.isSubset ⟨startAddr,endAddr,[],0⟩=true
        · rw [if_pos hsub]
          rw [VMA.isSubset_iff hv,BitVec.le_def,BitVec.le_def] at hsub
          have hcut : Cut page v (Between startAddr.toNat endAddr.toNat) [] :=
            cut_drop fun a ha => ⟨hsub.1.trans ha.1,Nat.lt_of_lt_of_le ha.2 hsub.2⟩
          exact ih (by omega) (h.cut hcut (.refl _) fun u hu => .inr hu)
        · rw [if_neg hsub]
          rw [VMA.isSubset_iff hv] at hsub
          by_cases hmeet : v.intersects ⟨startAddr,endAddr,[],0⟩=true
          · rw [if_pos hmeet]
            rw [VMA.intersects_iff hv] at hmeet
            obtain ⟨w,hw,hcut⟩:=trim_ok hv hs he hsuper hsub hmeet
            obtain ⟨l,hl,hres⟩:=ih (by omega) (h.cut hcut (hsnoc w) fun u hu => (mem_append.mp hu).symm)
            exact ⟨l,by rw [hw]; exact hl,hres⟩
          · rw [if_neg hmeet]
            rw [VMA.intersects_iff hv] at hmeet
            exact ih (by omega) (h.cut (keep_ok hv hmeet) (hsnoc v) fun u hu => (mem_append.mp hu).symm)

/-- The elements that have been passed are clear of the region, and those to be visited of its new place; an
address of the region is mapped in an area to be visited, or at its new place in one that has been passed. -/
structure Remapping (page : Addr) (lo new len : ℕ) (orig passed rest : List VMA) : Prop where
  areas : Areas page (passed++rest)
  clear : ∀ v∈passed, ∀ a, v.Has a → ¬Between lo (lo+len) a
  fresh : ∀ v∈rest, ∀ a, v.Has a → ¬Between new (new+len) a
  origins : ∀ v∈passed, ∀ u∈rest, ∀ d<len, v.Has (new+d) → ¬u.Has (lo+d)
  outside : ∀ a x, ¬Between lo (lo+len) a → ¬Between new (new+len) a → (Maps (passed++rest) a x ↔ Maps orig a x)
  moved : ∀ d<len, ∀ x, Maps orig (lo+d) x ↔ Maps rest (lo+d) x ∨ Maps passed (new+d) x

structure Carried (page : Addr) (lo new len : ℕ) (v : VMA) (ws : List VMA) : Prop where
  areas : Areas page ws
  inside : ∀ w∈ws, ∀ a, w.Has a → Between new (new+len) a
  maps : ∀ d<len, ∀ x, Maps ws (new+d) x ↔ Maps [v] (lo+d) x

variable {new len : ℕ} {ms cs : List VMA}

theorem maps_singleton : Maps [v] a x ↔ v.Has a ∧ v.view a=x := by
  constructor
  · intro ⟨u,hu,h⟩
    rw [mem_singleton.mp hu] at h
    exact h
  · intro h
    exact ⟨v,mem_singleton_self v,h⟩

theorem maps_cons : Maps (v::l) a x ↔ Maps [v] a x ∨ Maps l a x := maps_append (l := [v])

theorem Carried.has (hm : Carried page lo new len v ms) {d : ℕ} (hd : d<len) (hw : w∈ms) (h : w.Has (new+d)) :
    v.Has (lo+d) :=
  (maps_singleton.mp ((hm.maps d hd _).mp ⟨w,hw,h,rfl⟩)).1

theorem Remapping.carry (h : Remapping page lo new len orig passed (v::rest))
    (hapart : ∀ a, Between lo (lo+len) a → ¬Between new (new+len) a)
    (hc : Cut page v (Between lo (lo+len)) cs) (hm : Carried page lo new len v ms) :
    Remapping page lo new len orig (passed++ms) (rest++cs) := by
  have hvmem : v∈v::rest := mem_cons_self ..
  obtain ⟨hpassed,hvrest,hcross⟩:=areas_append.mp h.areas
  obtain ⟨_,hrest,hvu⟩:=(areas_append (l := [v])).mp hvrest
  have hvu:=hvu v (mem_singleton_self v)
  have hoff : ∀ a, Between new (new+len) a → ∃ d<len, a=new+d := fun a ha =>
    ⟨a-new,by have := ha.1; have := ha.2; omega,by have := ha.1; omega⟩
  have hvfresh:=h.fresh v hvmem
  refine ⟨?_,?_,?_,?_,?_,?_⟩
  · refine areas_append.mpr ⟨areas_append.mpr ⟨hpassed,hm.areas,fun p hp y hy a ha hb => ?_⟩,
      areas_append.mpr ⟨hrest,hc.areas,fun u hu c hcm a ha hb => hvu u hu a (hc.sub c hcm a hb).1 ha⟩,
      fun p hp u hu a ha hb => ?_⟩
    · obtain ⟨d,hd,rfl⟩:=hoff a (hm.inside y hy a hb)
      exact h.origins p hp v hvmem d hd ha (hm.has hd hy hb)
    · rcases mem_append.mp hp with hp | hp <;> rcases mem_append.mp hu with hu | hu
      · exact hcross p hp u (mem_cons_of_mem _ hu) a ha hb
      · exact hcross p hp v hvmem a ha (hc.sub u hu a hb).1
      · exact h.fresh u (mem_cons_of_mem _ hu) a hb (hm.inside p hp a ha)
      · exact hvfresh a (hc.sub u hu a hb).1 (hm.inside p hp a ha)
  · intro p hp a ha
    rcases mem_append.mp hp with hp | hp
    · exact h.clear p hp a ha
    · exact fun hr => hapart a hr (hm.inside p hp a ha)
  · intro u hu a ha
    rcases mem_append.mp hu with hu | hu
    · exact h.fresh u (mem_cons_of_mem _ hu) a ha
    · exact hvfresh a (hc.sub u hu a ha).1
  · intro p hp u hu d hd ha hb
    rcases mem_append.mp hp with hp | hp <;> rcases mem_append.mp hu with hu | hu
    · exact h.origins p hp u (mem_cons_of_mem _ hu) d hd ha hb
    · exact h.origins p hp v hvmem d hd ha (hc.sub u hu _ hb).1
    · exact hvu u hu _ (hm.has hd hp ha) hb
    · exact (hc.sub u hu _ hb).2.2 ⟨by omega,by omega⟩
  · intro a x ha hn
    have hms : ¬Maps ms a x := fun ⟨y,hy,hya,_⟩ => hn (hm.inside y hy a hya)
    have hold:=h.outside a x ha hn
    rw [maps_append,maps_cons,← hc.maps ha] at hold
    rw [← hold,maps_append,maps_append,maps_append,or_iff_left hms]
    tauto
  · intro d hd x
    have hcs : ¬Maps cs (lo+d) x := fun ⟨c,hcm,hca,_⟩ => (hc.sub c hcm _ hca).2.2 ⟨by omega,by omega⟩
    rw [h.moved d hd,maps_cons,maps_append,maps_append,or_iff_left hcs,hm.maps d hd]
    tauto

theorem Remapping.keep (h : Remapping page lo new len orig passed (v::rest))
    (hv : ∀ a, v.Has a → ¬Between lo (lo+len) a) : Remapping page lo new len orig (passed++[v]) rest := by
  have hvmem : v∈v::rest := mem_cons_self ..
  have hlist : passed++[v]++rest=passed++v::rest := by rw [append_assoc,singleton_append]
  have hvfresh : ∀ d<len, ¬v.Has (new+d) := fun d hd ha => h.fresh v hvmem _ ha ⟨by omega,by omega⟩
  refine ⟨hlist ▸ h.areas,fun p hp => ?_,fun u hu => h.fresh u (mem_cons_of_mem _ hu),
    fun p hp u hu d hd ha => ?_,fun a x ha hn => hlist ▸ h.outside a x ha hn,fun d hd x => ?_⟩
  · rcases mem_append.mp hp with hp | hp
    · exact h.clear p hp
    · rw [mem_singleton.mp hp]
      exact hv
  · rcases mem_append.mp hp with hp | hp
    · exact h.origins p hp u (mem_cons_of_mem _ hu) d hd ha
    · rw [mem_singleton.mp hp] at ha
      exact (hvfresh d hd ha).elim
  · have h1 : ¬Maps [v] (lo+d) x := fun hx => hv _ (maps_singleton.mp hx).1 ⟨by omega,by omega⟩
    have h2 : ¬Maps [v] (new+d) x := fun hx => hvfresh d hd (maps_singleton.mp hx).1
    rw [h.moved d hd,maps_cons,maps_append,or_iff_right h1,or_iff_left h2]

theorem Remapping.done (h : Remapping page lo new len orig passed rest)
    (hclear : ∀ v∈rest, ∀ a, v.Has a → ¬Between lo (lo+len) a) :
    Areas page (passed++rest) ∧ (∀ a, Between lo (lo+len) a → ∀ x, ¬Maps (passed++rest) a x) ∧
      (∀ d<len, ∀ x, Maps (passed++rest) (new+d) x ↔ Maps orig (lo+d) x) ∧
      ∀ a x, ¬Between lo (lo+len) a → ¬Between new (new+len) a → (Maps (passed++rest) a x ↔ Maps orig a x) := by
  refine ⟨h.areas,fun a ha x ⟨v,hv,hva,_⟩ => ?_,fun d hd x => ?_,h.outside⟩
  · rcases mem_append.mp hv with hv | hv
    · exact h.clear v hv a hva ha
    · exact hclear v hv a hva ha
  · have h1 : ¬Maps rest (new+d) x := fun ⟨v,hv,hva,_⟩ => h.fresh v hv _ hva ⟨by omega,by omega⟩
    have h2 : ¬Maps rest (lo+d) x := fun ⟨v,hv,hva,_⟩ => hclear v hv _ hva ⟨by omega,by omega⟩
    rw [maps_append,or_iff_left h1,h.moved d hd,or_iff_right h2]

theorem part_self (v : VMA) : VMA.Part v v v.start.toNat v.stop.toNat := ⟨rfl,rfl,fun _ _ _ => rfl⟩

theorem part_trans {u : VMA} {b e b' e' : ℕ} (h : VMA.Part v u b e) (h' : VMA.Part u w b' e') (hb : b≤b') (he : e'≤e) :
    VMA.Part v w b' e' :=
  ⟨h'.start,h'.stop,fun a ha hae => (h'.view a ha hae).trans (h.view a (hb.trans ha) (Nat.lt_of_lt_of_le hae he))⟩

theorem carried_one {u : VMA} {b e : ℕ} (hw : VMA.Formed page w) (hp : VMA.Part v u b e)
    (hm : VMA.Moved u w (new+(b-lo))) (hb : lo≤b) (hbe : b≤e) (he : e≤lo+len)
    (hin : ∀ d<len, v.Has (lo+d) ↔ b≤lo+d ∧ lo+d<e) : Carried page lo new len v [w] := by
  have h1:=hm.start
  have h2:=hm.stop
  rw [hp.start,hp.stop] at h2
  refine ⟨areas_singleton hw,fun y hy a ha => ?_,fun d hd x => ?_⟩
  · rw [mem_singleton.mp hy] at ha
    obtain ⟨h3,h4⟩:=ha
    exact ⟨by omega,by omega⟩
  · rw [maps_singleton,maps_singleton,hin d hd]
    have hhas : w.Has (new+d) ↔ b≤lo+d ∧ lo+d<e := by
      rw [VMA.Has,h1,h2]
      omega
    rw [hhas]
    refine and_congr_right fun ⟨h3,h4⟩ => ?_
    have hmove:=hm.view (lo+d-b) (by rw [hp.start,hp.stop]; omega)
    rw [hp.start,show new+(b-lo)+(lo+d-b)=new+d by omega,show b+(lo+d-b)=lo+d by omega] at hmove
    rw [hmove,hp.view (lo+d) h3 h4]

variable {newStartAddr : Addr}

theorem remap_ok {u : VMA} {b e : ℕ} {target : Addr} (hu : VMA.Formed page u) (hp : VMA.Part v u b e) (hb : lo≤b)
    (hbe : b≤e) (he : e≤lo+len) (hnew : new%page.toNat=0) (hlo : lo%page.toNat=0)
    (hfit : new+len<2^64) (ht : target.toNat=new+(b-lo)) (hin : ∀ d<len, v.Has (lo+d) ↔ b≤lo+d ∧ lo+d<e) :
    ∃ w, u.remap target = .ok w ∧ Carried page lo new len v [w] := by
  have hbp : b%page.toNat=0 := by
    have hs:=congrArg BitVec.toNat hu.startAligned
    rw [BitVec.toNat_umod,hp.start] at hs
    exact hs
  have hn : target.toNat%page.toNat=0 := by
    rw [ht]
    exact Nat.mod_eq_zero_of_dvd (Nat.dvd_add (Nat.dvd_of_mod_eq_zero hnew)
      (Nat.dvd_sub (Nat.dvd_of_mod_eq_zero hbp) (Nat.dvd_of_mod_eq_zero hlo)))
  obtain ⟨w,hw,hform,hmoved⟩:=hu.remap hn (by rw [ht,hp.start,hp.stop]; omega)
  rw [ht] at hmoved
  exact ⟨w,hw,carried_one hform hp hmoved hb hbe he hin⟩

theorem toNat_mod {y : Addr} (h : y%page=0) : y.toNat%page.toNat=0 := by
  have hn:=congrArg BitVec.toNat h
  rw [BitVec.toNat_umod] at hn
  exact hn

theorem clone_intersects (hw : VMA.Formed page w) (hlt : startAddr<endAddr)
    (h : ∀ a, w.Has a → ¬Between startAddr.toNat endAddr.toNat a) : w.intersects ⟨startAddr,endAddr,[],0⟩=false := by
  rw [← Bool.not_eq_true,VMA.intersects_iff hw,BitVec.lt_def,BitVec.lt_def]
  rw [BitVec.lt_def] at hlt
  have hwlt:=BitVec.lt_def.mp hw.lt
  intro ⟨h1,h2⟩
  exact h (max w.start.toNat startAddr.toNat) ⟨by omega,by omega⟩ ⟨by omega,by omega⟩

structure Target (page startAddr endAddr newStartAddr : Addr) (len : ℕ) : Prop where
  pos : 0<len
  stop : endAddr.toNat=startAddr.toNat+len
  fits : newStartAddr.toNat+len<2^64
  startAligned : startAddr%page=0
  endAligned : endAddr%page=0
  newAligned : newStartAddr%page=0
  apart : ∀ a, Between startAddr.toNat (startAddr.toNat+len) a → ¬Between newStartAddr.toNat (newStartAddr.toNat+len) a

theorem remapSplit_ok (ht : Target page startAddr endAddr newStartAddr len) (hv : VMA.Formed page v)
    (hsuper : v.start<startAddr ∧ endAddr<v.stop) :
    ∃ right left v1 v2 v3, v.sliceRegionRight startAddr = .ok right ∧ v.sliceRegionLeft endAddr = .ok left ∧
      v.sliceRegionLeft startAddr = .ok v1 ∧ v1.sliceRegionRight endAddr = .ok v2 ∧ v2.remap newStartAddr = .ok v3 ∧
      Cut page v (Between startAddr.toNat (startAddr.toNat+len)) [right,left] ∧
      Carried page startAddr.toNat newStartAddr.toNat len v [v3] := by
  have hpos:=ht.pos
  have hstop:=ht.stop
  have hlt : startAddr<endAddr := BitVec.lt_def.mpr (by omega)
  have h1:=BitVec.lt_def.mp hsuper.1
  have h2:=BitVec.lt_def.mp hsuper.2
  obtain ⟨right,left,hr,hl,hcut⟩:=split_ok hv ht.startAligned ht.endAligned hlt hsuper
  obtain ⟨v1,hv1,hf1,hp1⟩:=hv.sliceRegionLeft ht.startAligned (BitVec.le_of_lt hsuper.1) (BitVec.lt_def.mpr (by omega))
  have hs1:=hp1.start
  obtain ⟨v2,hv2,hf2,hp2⟩:=hf1.sliceRegionRight ht.endAligned (BitVec.lt_def.mpr (by omega))
  rw [hs1] at hp2
  have hp : VMA.Part v v2 startAddr.toNat endAddr.toNat := part_trans hp1 hp2 le_rfl (by omega)
  have hin : ∀ d<len, v.Has (startAddr.toNat+d) ↔ startAddr.toNat ≤ startAddr.toNat+d ∧
      startAddr.toNat+d<endAddr.toNat := by
    intro d hd
    rw [VMA.Has]
    omega
  have hself : newStartAddr.toNat=newStartAddr.toNat+(startAddr.toNat-startAddr.toNat) := by omega
  obtain ⟨v3,hv3,hcar⟩:=remap_ok hf2 hp le_rfl (by omega) (by omega) (toNat_mod ht.newAligned)
    (toNat_mod ht.startAligned) ht.fits hself hin
  rw [hstop] at hcut
  exact ⟨right,left,v1,v2,v3,hr,hl,hv1,hv2,hv3,hcut,hcar⟩

theorem remapWhole_ok (ht : Target page startAddr endAddr newStartAddr len) (hv : VMA.Formed page v)
    (hsub : startAddr≤v.start ∧ v.stop≤endAddr) : ∃ w, v.remap (v.start-startAddr+newStartAddr) = .ok w ∧
      Cut page v (Between startAddr.toNat (startAddr.toNat+len)) [] ∧
      Carried page startAddr.toNat newStartAddr.toNat len v [w] := by
  have hstop:=ht.stop
  have hfits:=ht.fits
  have hlt:=BitVec.lt_def.mp hv.lt
  have h1:=BitVec.le_def.mp hsub.1
  have h2:=BitVec.le_def.mp hsub.2
  have htarget : (v.start-startAddr+newStartAddr).toNat=newStartAddr.toNat+(v.start.toNat-startAddr.toNat) := by
    rw [BitVec.toNat_add,BitVec.toNat_sub_of_le hsub.1]
    omega
  have hin : ∀ d<len, v.Has (startAddr.toNat+d) ↔ v.start.toNat ≤ startAddr.toNat+d ∧
      startAddr.toNat+d<v.stop.toNat := fun d _ => Iff.rfl
  obtain ⟨w,hw,hcar⟩:=remap_ok hv (part_self v) h1 hlt.le (by omega) (toNat_mod ht.newAligned)
    (toNat_mod ht.startAligned) hfits htarget hin
  exact ⟨w,hw,cut_drop fun a ha => ⟨h1.trans ha.1,by have := ha.2; omega⟩,hcar⟩

theorem remapRight_ok (ht : Target page startAddr endAddr newStartAddr len) (hv : VMA.Formed page v)
    (hb : v.start<startAddr) (hmeet : startAddr<v.stop) (hend : v.stop≤endAddr) :
    ∃ clone v1 v2, v.sliceRegionRight startAddr = .ok clone ∧ v.sliceRegionLeft startAddr = .ok v1 ∧
      v1.remap newStartAddr = .ok v2 ∧ Cut page v (Between startAddr.toNat (startAddr.toNat+len)) [clone] ∧
      Carried page startAddr.toNat newStartAddr.toNat len v [v2] := by
  have hstop:=ht.stop
  have h1:=BitVec.lt_def.mp hb
  have h2:=BitVec.lt_def.mp hmeet
  have h3:=BitVec.le_def.mp hend
  obtain ⟨clone,hc,hcf,hcp⟩:=hv.sliceRegionRight ht.startAligned hb
  obtain ⟨v1,hv1,hf1,hp1⟩:=hv.sliceRegionLeft ht.startAligned (BitVec.le_of_lt hb) hmeet
  have hin : ∀ d<len, v.Has (startAddr.toNat+d) ↔ startAddr.toNat ≤ startAddr.toNat+d ∧
      startAddr.toNat+d<v.stop.toNat := by
    intro d _
    rw [VMA.Has]
    omega
  have hself : newStartAddr.toNat=newStartAddr.toNat+(startAddr.toNat-startAddr.toNat) := by omega
  obtain ⟨v2,hv2,hcar⟩:=remap_ok hf1 hp1 le_rfl (by omega) (by omega) (toNat_mod ht.newAligned)
    (toNat_mod ht.startAligned) ht.fits hself hin
  exact ⟨clone,v1,v2,hc,hv1,hv2,cut_right hcf hcp (by omega) (by omega),hcar⟩

theorem remapLeft_ok (ht : Target page startAddr endAddr newStartAddr len) (hv : VMA.Formed page v)
    (hb : startAddr≤v.start) (hmeet : v.start<endAddr) (hend : endAddr<v.stop) :
    ∃ clone v1 v2, v.sliceRegionLeft endAddr = .ok clone ∧ v.sliceRegionRight endAddr = .ok v1 ∧
      v1.remap (newStartAddr+v1.start-startAddr) = .ok v2 ∧
      Cut page v (Between startAddr.toNat (startAddr.toNat+len)) [clone] ∧
      Carried page startAddr.toNat newStartAddr.toNat len v [v2] := by
  have hstop:=ht.stop
  have hfits:=ht.fits
  have h1:=BitVec.le_def.mp hb
  have h2:=BitVec.lt_def.mp hmeet
  have h3:=BitVec.lt_def.mp hend
  obtain ⟨clone,hc,hcf,hcp⟩:=hv.sliceRegionLeft ht.endAligned (BitVec.le_of_lt hmeet) hend
  obtain ⟨v1,hv1,hf1,hp1⟩:=hv.sliceRegionRight ht.endAligned hmeet
  have hs1:=hp1.start
  have htarget : (newStartAddr+v1.start-startAddr).toNat=newStartAddr.toNat+(v.start.toNat-startAddr.toNat) := by
    rw [BitVec.toNat_sub,BitVec.toNat_add,hs1]
    omega
  have hin : ∀ d<len, v.Has (startAddr.toNat+d) ↔ v.start.toNat ≤ startAddr.toNat+d ∧
      startAddr.toNat+d<endAddr.toNat := by
    intro d _
    rw [VMA.Has]
    omega
  obtain ⟨v2,hv2,hcar⟩:=remap_ok hf1 hp1 h1 h2.le (by omega) (toNat_mod ht.newAligned)
    (toNat_mod ht.startAligned) hfits htarget hin
  exact ⟨clone,v1,v2,hc,hv1,hv2,by rw [← hstop]; exact cut_left hcf hcp h1 h2.le,hcar⟩

theorem remapLoop_ok (ht : Target page startAddr endAddr newStartAddr len) (fuel : ℕ)
    (hf : rest.length+rest.countP (·.intersects ⟨startAddr,endAddr,[],0⟩)<fuel)
    (h : Remapping page startAddr.toNat newStartAddr.toNat len orig passed rest) :
    ∃ done left, MemState.remapLoop startAddr endAddr newStartAddr fuel passed rest = .ok (done++left) ∧
      Remapping page startAddr.toNat newStartAddr.toNat len orig done left ∧
      ∀ v∈left, ∀ a, v.Has a → ¬Between startAddr.toNat (startAddr.toNat+len) a := by
  have hpos:=ht.pos
  have hstop:=ht.stop
  have hlt : startAddr<endAddr := BitVec.lt_def.mpr (by omega)
  induction fuel generalizing passed rest with
  | zero => omega
  | succ fuel ih =>
    cases rest with
    | nil =>
      exact ⟨passed,[],by rw [MemState.remapLoop,append_nil],h,fun v hv => (not_mem_nil hv).elim⟩
    | cons v rest =>
      rw [length_cons,countP_cons] at hf
      have hv : VMA.Formed page v := h.areas.formed v (mem_append_right _ (mem_cons_self ..))
      -- a clone is visited once more, and then kept
      have hagain : ∀ clone w : VMA, v.intersects ⟨startAddr,endAddr,[],0⟩=true →
          Cut page v (Between startAddr.toNat (startAddr.toNat+len)) [clone] →
          Carried page startAddr.toNat newStartAddr.toNat len v [w] →
          ∃ done left, MemState.remapLoop startAddr endAddr newStartAddr fuel (passed++[w]) (rest++[clone]) =
              .ok (done++left) ∧ Remapping page startAddr.toNat newStartAddr.toNat len orig done left ∧
            ∀ v∈left, ∀ a, v.Has a → ¬Between startAddr.toNat (startAddr.toNat+len) a := by
        intro clone w hi hcut hcar
        have hclone:=mem_singleton_self clone
        have hno:=clone_intersects (hcut.areas.formed clone hclone) hlt fun a ha => by
          rw [hstop]
          exact (hcut.sub clone hclone a ha).2.2
        refine ih ?_ (h.carry ht.apart hcut hcar)
        rw [length_append,countP_append,countP_singleton,hno]
        rw [hi] at hf
        simp only [length_singleton,if_true,Bool.false_eq_true,if_false] at hf ⊢
        omega
      rw [MemState.remapLoop]
      by_cases hsuper : v.isStrictSuperset ⟨startAddr,endAddr,[],0⟩=true
      · rw [if_pos hsuper]
        rw [VMA.isStrictSuperset_iff] at hsuper
        obtain ⟨right,left,v1,v2,v3,hr,hl,hv1,hv2,hv3,hcut,hcar⟩:=remapSplit_ok ht hv hsuper
        have h1:=BitVec.lt_def.mp hsuper.1
        have h2:=BitVec.lt_def.mp hsuper.2
        refine ⟨passed++[v3],rest++[right,left],?_,h.carry ht.apart hcut hcar,fun u hu a ha => ?_⟩
        · rw [hr,hl,append_assoc]
          show (v.sliceRegionLeft startAddr >>= _)=_
          rw [hv1]
          show (v1.sliceRegionRight endAddr >>= _)=_
          rw [hv2]
          show (v2.remap newStartAddr >>= _)=_
          rw [hv3]
          rfl
        · rcases mem_append.mp hu with hu | hu
          · refine others_clear h.areas (fun b hb => ⟨h1.le.trans hb.1,?_⟩) u (mem_append_right _ hu) a ha
            exact Nat.lt_trans hb.2 (hstop ▸ h2)
          · exact (hcut.sub u hu a ha).2.2
      · rw [if_neg hsuper]
        rw [VMA.isStrictSuperset_iff] at hsuper
        by_cases hsub : v.isSubset ⟨startAddr,endAddr,[],0⟩=true
        · rw [if_pos hsub]
          rw [VMA.isSubset_iff hv] at hsub
          obtain ⟨w,hw,hcut,hcar⟩:=remapWhole_ok ht hv hsub
          have hnext:=h.carry ht.apart hcut hcar
          rw [append_nil] at hnext
          rw [hw]
          exact ih (by omega) hnext
        · rw [if_neg hsub]
          rw [VMA.isSubset_iff hv] at hsub
          by_cases hmeet : v.intersects ⟨startAddr,endAddr,[],0⟩=true
          · rw [if_pos hmeet]
            have hm:=(VMA.intersects_iff hv _ _).mp hmeet
            simp only [BitVec.lt_def,BitVec.le_def] at hsuper hsub
            by_cases hb : v.start<startAddr
            · rw [if_pos hb]
              have hb':=BitVec.lt_def.mp hb
              obtain ⟨clone,v1,v2,hc,hv1,hv2,hcut,hcar⟩:=remapRight_ok ht hv hb hm.2 (BitVec.le_def.mpr (by omega))
              rw [hc,hv1]
              show ∃ done left, (v1.remap newStartAddr >>= _)=_ ∧ _
              rw [hv2]
              exact hagain clone v2 hmeet hcut hcar
            · rw [if_neg hb]
              have hb':=BitVec.not_lt.mp hb
              have hb'':=BitVec.le_def.mp hb'
              obtain ⟨clone,v1,v2,hc,hv1,hv2,hcut,hcar⟩:=remapLeft_ok ht hv hb' hm.1 (BitVec.lt_def.mpr (by omega))
              rw [hc,hv1]
              show ∃ done left, (v1.remap (newStartAddr+v1.start-startAddr) >>= _)=_ ∧ _
              rw [hv2]
              exact hagain clone v2 hmeet hcut hcar
          · rw [if_neg hmeet]
            rw [VMA.intersects_iff hv] at hmeet
            have hkeep:=keep_ok hv hmeet
            rw [hstop] at hkeep
            refine ih (by omega) (h.keep fun a ha => (hkeep.sub v (mem_singleton_self v) a ha).2.2)

end Loops

theorem pages_step {pageBytes length : Addr} {k : ℕ} (hp : 0<pageBytes.toNat) (h : length.toNat=(k+1)*pageBytes.toNat) :
    (length-pageBytes).toNat=k*pageBytes.toNat ∧ (0<length-pageBytes ↔ 0<k) := by
  have hle : pageBytes.toNat≤length.toNat := by
    rw [h]
    exact Nat.le_mul_of_pos_left _ (Nat.succ_pos k)
  have hsub : (length-pageBytes).toNat=k*pageBytes.toNat := by
    rw [BitVec.toNat_sub_of_le (BitVec.le_def.mpr hle),h,Nat.add_mul,Nat.one_mul,Nat.add_sub_cancel]
  refine ⟨hsub,?_⟩
  rw [BitVec.lt_def,hsub]
  exact ⟨fun hlt => Nat.pos_of_mul_pos_right hlt,fun hk => Nat.mul_pos hk hp⟩

theorem unmapPages_ok {pageBytes : Addr} (hp : 0<pageBytes.toNat) (fuel : ℕ) (startAddr : Addr) {length : Addr} {k : ℕ}
    (h : length.toNat=(k+1)*pageBytes.toNat) (hf : k<fuel) :
    ∃ pages, MemState.unmapPages pageBytes fuel startAddr length = .ok pages := by
  induction fuel generalizing startAddr length k with
  | zero => omega
  | succ fuel ih =>
    obtain ⟨hsub,hmore⟩:=pages_step hp h
    rw [MemState.unmapPages]
    rcases Nat.eq_zero_or_pos k with rfl | hk
    · rw [if_neg fun hlt => Nat.lt_irrefl 0 (hmore.mp hlt)]
      exact ⟨_,rfl⟩
    · obtain ⟨j,rfl⟩:=Nat.exists_eq_add_of_le' hk
      obtain ⟨pages,hpages⟩:=ih (startAddr+pageBytes) hsub (by omega)
      rw [if_pos (hmore.mpr hk),hpages]
      exact ⟨_,rfl⟩

theorem remapPages_ok {pageBytes : Addr} (hp : 0<pageBytes.toNat) (fuel : ℕ) (startAddr newStartAddr : Addr)
    {length : Addr} {k : ℕ} (h : length.toNat=(k+1)*pageBytes.toNat) (hf : k<fuel) :
    ∃ pages, MemState.remapPages pageBytes fuel startAddr newStartAddr length = .ok pages := by
  induction fuel generalizing startAddr newStartAddr length k with
  | zero => omega
  | succ fuel ih =>
    obtain ⟨hsub,hmore⟩:=pages_step hp h
    rw [MemState.remapPages]
    rcases Nat.eq_zero_or_pos k with rfl | hk
    · rw [if_neg fun hlt => Nat.lt_irrefl 0 (hmore.mp hlt)]
      exact ⟨_,rfl⟩
    · obtain ⟨j,rfl⟩:=Nat.exists_eq_add_of_le' hk
      obtain ⟨pages,hpages⟩:=ih (startAddr+pageBytes) (newStartAddr+pageBytes) hsub (by omega)
      rw [if_pos (hmore.mpr hk),hpages]
      exact ⟨_,rfl⟩

structure Region (page startAddr length : Addr) : Prop where
  startAligned : startAddr%page=0
  whole : length%page=0
  pos : 0<length
  fits : startAddr.toNat+length.toNat<2^64

section Operations

variable {m : MemState} {startAddr length : Addr}

theorem Region.stop (h : Region page startAddr length) : (startAddr+length).toNat=startAddr.toNat+length.toNat := by
  rw [BitVec.toNat_add,Nat.mod_eq_of_lt h.fits]

theorem Region.stopAligned (h : Region page startAddr length) : (startAddr+length)%page=0 := by
  refine BitVec.eq_of_toNat_eq ?_
  rw [BitVec.toNat_umod,h.stop]
  exact Nat.mod_eq_zero_of_dvd (Nat.dvd_add (Nat.dvd_of_mod_eq_zero (toNat_mod h.startAligned))
    (Nat.dvd_of_mod_eq_zero (toNat_mod h.whole)))

theorem Region.lt (h : Region page startAddr length) : startAddr<startAddr+length := by
  have hpos:=BitVec.lt_def.mp h.pos
  rw [BitVec.lt_def,h.stop]
  exact Nat.lt_add_of_pos_right hpos

theorem Region.pages (h : Region page startAddr length) : 0<page.toNat ∧ ∃ k, length.toNat=(k+1)*page.toNat := by
  have hpos : 0<length.toNat := BitVec.lt_def.mp h.pos
  obtain ⟨j,hj⟩:=Nat.dvd_of_mod_eq_zero (toNat_mod h.whole)
  have hj0 : 0<page.toNat*j := hj ▸ hpos
  obtain ⟨k,rfl⟩:=Nat.exists_eq_add_of_le' (Nat.pos_of_mul_pos_left hj0)
  exact ⟨Nat.pos_of_mul_pos_right hj0,k,hj.trans (Nat.mul_comm ..)⟩

/-- Unmapping takes the region away, and remapping to a free place moves it; the loops end, and no sanity check fires. -/
theorem regions_algebra (h : Areas m.pageBytes m.vmaList) (hr : Region m.pageBytes startAddr length) :
    (∃ n, ∀ fuel, n≤fuel → ∃ m' pages, m.unmapRegion fuel startAddr length = .ok (m',pages) ∧
      m'.pageBytes=m.pageBytes ∧ Areas m.pageBytes m'.vmaList ∧
      ∀ a x, Maps m'.vmaList a x ↔
        Maps m.vmaList a x ∧ ¬Between startAddr.toNat (startAddr.toNat+length.toNat) a) ∧
    ∀ newStartAddr, Region m.pageBytes newStartAddr length →
      (∀ a, Between startAddr.toNat (startAddr.toNat+length.toNat) a →
        ¬Between newStartAddr.toNat (newStartAddr.toNat+length.toNat) a) →
      (∀ v∈m.vmaList, ∀ a, v.Has a → ¬Between newStartAddr.toNat (newStartAddr.toNat+length.toNat) a) →
      ∃ n, ∀ fuel, n≤fuel → ∃ m' pages, m.remapRegion fuel startAddr newStartAddr length = .ok (m',pages) ∧
        m'.pageBytes=m.pageBytes ∧ Areas m.pageBytes m'.vmaList ∧
        (∀ a, Between startAddr.toNat (startAddr.toNat+length.toNat) a → ∀ x, ¬Maps m'.vmaList a x) ∧
        (∀ d<length.toNat, ∀ x, Maps m'.vmaList (newStartAddr.toNat+d) x ↔ Maps m.vmaList (startAddr.toNat+d) x) ∧
        ∀ a x, ¬Between startAddr.toNat (startAddr.toNat+length.toNat) a →
          ¬Between newStartAddr.toNat (newStartAddr.toNat+length.toNat) a → (Maps m'.vmaList a x ↔ Maps m.vmaList a x) := by
  obtain ⟨hp,k,hk⟩:=hr.pages
  refine ⟨?_,fun newStartAddr hn hapart hfree => ?_⟩
  · refine ⟨m.vmaList.length+k+1,fun fuel hf => ?_⟩
    have hstart : Unmapping m.pageBytes startAddr.toNat (startAddr+length).toNat m.vmaList [] m.vmaList :=
      ⟨h,fun v hv => (not_mem_nil hv).elim,fun _ _ _ => Iff.rfl⟩
    obtain ⟨l,hl,hareas,hmaps⟩:=unmapLoop_ok hr.startAligned hr.stopAligned hr.lt fuel (by omega) hstart
    obtain ⟨pages,hpages⟩:=unmapPages_ok hp fuel startAddr hk (by omega)
    rw [hr.stop] at hmaps
    refine ⟨{m with vmaList := l},pages,?_,rfl,hareas,hmaps⟩
    rw [MemState.unmapRegion,hl,hpages]
    rfl
  · refine ⟨2*m.vmaList.length+k+1,fun fuel hf => ?_⟩
    have hnil : ∀ a x, ¬Maps [] a x := fun a x ⟨v,hv,_⟩ => not_mem_nil hv
    have hstart : Remapping m.pageBytes startAddr.toNat newStartAddr.toNat length.toNat m.vmaList [] m.vmaList :=
      ⟨h,fun v hv => (not_mem_nil hv).elim,hfree,fun v hv => (not_mem_nil hv).elim,fun _ _ _ _ => Iff.rfl,
        fun d _ x => (or_iff_left (hnil _ _)).symm⟩
    have ht : Target m.pageBytes startAddr (startAddr+length) newStartAddr length.toNat :=
      ⟨BitVec.lt_def.mp hr.pos,hr.stop,hn.fits,hr.startAligned,hr.stopAligned,hn.startAligned,hapart⟩
    have hcount : m.vmaList.countP (·.intersects ⟨startAddr,startAddr+length,[],0⟩) ≤ m.vmaList.length :=
      countP_le_length
    obtain ⟨done,left,hl,hrem,hclear⟩:=remapLoop_ok ht fuel (by omega) hstart
    obtain ⟨pages,hpages⟩:=remapPages_ok hp fuel startAddr newStartAddr hk (by omega)
    refine ⟨{m with vmaList := done++left},pages,?_,rfl,hrem.done hclear⟩
    rw [MemState.remapRegion,hl,hpages]
    rfl

def mappedFile : MemState := ⟨0x1000,[⟨⟨0x1000,0x5000,[],0⟩,0x1000,some 0,0,0x1800,"file"⟩]⟩

theorem mappedFile_areas : Areas mappedFile.pageBytes mappedFile.vmaList := by
  refine areas_singleton ⟨rfl,rfl,?_,?_,?_⟩ <;> decide

theorem regions_algebra_mappedFile : (∃ n, ∀ fuel, n≤fuel → ∃ m' pages,
    mappedFile.unmapRegion fuel 0x2000 0x1000 = .ok (m',pages) ∧ ∀ x, ¬Maps m'.vmaList 0x2000 x) ∧
    ∃ n, ∀ fuel, n≤fuel → ∃ m' pages, mappedFile.remapRegion fuel 0x2000 0x10000 0x1000 = .ok (m',pages) ∧
      ∀ x, Maps m'.vmaList 0x10000 x ↔ Maps mappedFile.vmaList 0x2000 x := by
  have hr : Region mappedFile.pageBytes 0x2000 0x1000 := ⟨by decide,by decide,by decide,by decide⟩
  have hnew : Region mappedFile.pageBytes 0x10000 0x1000 := ⟨by decide,by decide,by decide,by decide⟩
  obtain ⟨⟨n,hn⟩,hremap⟩:=regions_algebra mappedFile_areas hr
  obtain ⟨k,hk⟩:=hremap 0x10000 hnew (fun a ha hb => absurd (ha.2.trans_le (show 0x3000≤0x10000 by decide))
    (Nat.not_lt_of_le hb.1)) fun v hv a ha hb => by
      rw [List.mem_singleton.mp hv] at ha
      exact absurd (ha.2.trans_le (show 0x5000≤0x10000 by decide)) (Nat.not_lt_of_le hb.1)
  refine ⟨⟨n,fun fuel hf => ?_⟩,k,fun fuel hf => ?_⟩
  · obtain ⟨m',pages,hrun,_,_,hmaps⟩:=hn fuel hf
    exact ⟨m',pages,hrun,fun x hx => ((hmaps 0x2000 x).mp hx).2 ⟨by decide,by decide⟩⟩
  · obtain ⟨m',pages,hrun,_,_,_,hmoved,_⟩:=hk fuel hf
    exact ⟨m',pages,hrun,fun x => hmoved 0 (by decide) x⟩

end Operations

end AquaGem5.Sim
