import AquaGem5.Cache.FalruHits
import AquaGem5.StackDist.Runs

/-!
# The self-check of the calculator (stack_dist_calc.cc)

The debug stack follows the calls that add an address, and none that removes one.
-/

namespace AquaGem5.StackDist
open List
open Address (Addr)
open Checked LruStack

namespace StackDistCalc

def InTree (s : StackDistCalc) (a : Addr) (i : ℕ) : Prop := s.aiMap a=some i ∧ (s.tree.layer 0 i).isSome

structure StackFollows (s : StackDistCalc) : Prop where
  mem : ∀ a,a∈s.stack ↔ ∃ i,s.InTree a i
  order : s.stack.Pairwise fun a b => ∀ i j,s.InTree a i → s.InTree b j → j < i

theorem run_append (u v : List Call) : ∀ s : StackDistCalc,s.run (u++v) =
    s.run u >>= fun r => (r.1.run v).map fun rest => (rest.1,r.2++rest.2) := by
  induction u with
  | nil =>
    intro s
    rw [nil_append,run]
    cases hv : s.run v with
    | error e => simp only [bind,Except.bind,Except.map,hv]
    | ok r => simp only [bind,Except.bind,Except.map,hv,nil_append]
  | cons c u ih =>
    intro s
    rw [cons_append,run,run]
    cases hc : s.call c with
    | error e => rfl
    | ok r =>
      simp only [bind,Except.bind,ih]
      cases hu : r.1.run u with
      | error e => rfl
      | ok r' =>
        cases hv : r'.1.run v with
        | error e => simp only [hv,Except.map]
        | ok r'' => simp only [hv,Except.map,cons_append]

end StackDistCalc

/-- With verification, all calls return, and leave the debug stack right. -/
def SelfChecked (cs : List Call) : Prop :=
  ∃ s results,(StackDistCalc.init true).run cs = .ok (s,results) ∧ s.StackFollows

section Runs

variable {t cs : List Call} {s : StackDistCalc} {xs : Naive} {es : List Entry} {mark : ℕ → Bool} {a : Addr} {i : ℕ}

theorem Matches.inTree_iff (h : Matches xs es mark s) : s.InTree a i ↔ (a,i)∈es := by
  rw [StackDistCalc.InTree,h.aiMap]
  refine ⟨And.left,fun hmem => ⟨hmem,?_⟩⟩
  obtain ⟨nd,hlayer,_⟩:=h.holds.leaf (mem_live.mpr ⟨a,hmem⟩)
  rw [hlayer]
  rfl

theorem Called.stackFollows_iff (h : Called t s) (hv : s.verifyStack=true) :
    s.StackFollows ↔ ∀ a,.update a true∈t → Present t a := by
  obtain ⟨es,mark,hmatches⟩:=h.matches_after
  have hpresent : ∀ a,(∃ i,s.InTree a i) ↔ Present t a := by
    intro a
    rw [← mem_after,hmatches.addrs,mem_map]
    constructor
    · rintro ⟨i,hi⟩
      exact ⟨(a,i),hmatches.inTree_iff.mp hi,rfl⟩
    · rintro ⟨e,he,rfl⟩
      exact ⟨e.2,hmatches.inTree_iff.mpr he⟩
  constructor
  · intro hfollows a ha
    have hmem : a∈s.stack := by
      rw [h.stack hv]
      exact mem_stack.mpr (mem_adds.mpr ha)
    exact (hpresent a).mp ((hfollows.mem a).mp hmem)
  · intro hall
    have hstack : s.stack=es.map Prod.fst := by
      rw [h.stack hv,← hmatches.addrs,after_eq_filter,eq_comm]
      apply filter_eq_self.mpr
      intro b hb
      exact decide_eq_true (hall b (mem_adds.mp (mem_stack.mp hb))).2
    exact {
      mem := fun a => by rw [hpresent,← mem_after,hmatches.addrs,hstack]
      order := by
        rw [hstack,pairwise_map]
        refine hmatches.holds.entries.sorted.imp_of_mem fun {e e'} he he' hlt i j hi hj => ?_
        have hei:=hmatches.holds.entries.unique (hmatches.inTree_iff.mp hi) he
        have hej:=hmatches.holds.entries.unique (hmatches.inTree_iff.mp hj) he'
        omega}

theorem exists_adding {n : ℕ} (h : n<(adds cs).length) : ∃ u a v,cs=u ++ .update a true::v ∧ (adds u).length=n := by
  induction cs generalizing n with
  | nil => exact absurd h (Nat.not_lt_zero n)
  | cons c cs ih =>
    have hcount : (adds (c::cs)).length=(adds [c]).length+(adds cs).length := by
      rw [← singleton_append,adds_append,length_append]
    have hnext : (adds [c]).length≤n → ∃ u a v,c::cs=u ++ .update a true::v ∧ (adds u).length=n := by
      intro hle
      obtain ⟨u,a,v,rfl,hu⟩:=ih (n := n-(adds [c]).length) (by omega)
      refine ⟨c::u,a,v,rfl,?_⟩
      rw [← singleton_append,adds_append,length_append]
      omega
    by_cases hfirst : (adds [c]).length≤n
    · exact hnext hfirst
    · cases c with
      | inspect a m => exact absurd (Nat.zero_le n) hfirst
      | update a addNewNode =>
        cases addNewNode with
        | false => exact absurd (Nat.zero_le n) hfirst
        | true =>
          have hone : (adds [.update a true]).length=1 := rfl
          have hzero : (adds []).length=0 := rfl
          exact ⟨[],a,cs,rfl,by omega⟩

theorem run_full (h : 2^31<(adds cs).length) : ∃ e,(StackDistCalc.init true).run cs = .error e := by
  obtain ⟨u,a,v,rfl,hu⟩:=exists_adding h
  rw [StackDistCalc.run_append]
  obtain ⟨hgood,hbad⟩:=(called_init true).run u (Nat.le_of_eq hu)
  by_cases hverifiable : (StackDistCalc.init true).verifyStack=true → Verifiable [] u
  · obtain ⟨s,hrun,hcalled,hverify⟩:=hgood hverifiable
    obtain ⟨es,mark,hmatches⟩:=hcalled.matches_after
    have hshift:=hmatches.add_shift (hcalled.index.trans hu) hverify a
    refine ⟨.shift,?_⟩
    simp only [bind,Except.bind,Except.map,hrun,StackDistCalc.run,hshift]
  · refine ⟨.panic,?_⟩
    rw [hbad hverifiable]
    rfl

theorem selfChecked_iff (cs : List Call) : SelfChecked cs ↔
    (adds cs).length≤2^31 ∧ Verifiable [] cs ∧ ∀ a,.update a true∈cs → Present cs a := by
  constructor
  · rintro ⟨s,results,hrun,hfollows⟩
    have hfew : (adds cs).length≤2^31 := by
      by_contra hmany
      obtain ⟨e,hfull⟩:=run_full (Nat.lt_of_not_le hmany)
      rw [hfull] at hrun
      cases hrun
    obtain ⟨hgood,hbad⟩:=(called_init true).run cs hfew
    by_cases hverifiable : (StackDistCalc.init true).verifyStack=true → Verifiable [] cs
    · obtain ⟨s',hrun',hcalled,hverify⟩:=hgood hverifiable
      rw [hrun] at hrun'
      cases hrun'
      exact ⟨hfew,hverifiable rfl,(hcalled.stackFollows_iff hverify).mp hfollows⟩
    · rw [hbad hverifiable] at hrun
      cases hrun
  · rintro ⟨hfew,hverifiable,hall⟩
    obtain ⟨s,hrun,hcalled,hverify⟩:=((called_init true).run cs hfew).1 fun _ => hverifiable
    exact ⟨s,_,hrun,(hcalled.stackFollows_iff hverify).mpr hall⟩

theorem mem_of_since {b : Addr} {c : Call} (h : c∈since b t) : c∈t :=
  mem_reverse.mp (( takeWhile_prefix _).subset h)

theorem not_removed (hkeeps : ∀ t a,t++[.update a false] <+: cs → ¬Present t a) {b : Addr} :
    t <+: cs → .update b true∈t → .update b false∉since b t := by
  induction t using reverseRecOn with
  | nil =>
    intro _ hb
    exact absurd hb not_mem_nil
  | append_singleton t c ih =>
    intro hpre hb
    by_cases hadd : c = .update b true
    · rw [since_snoc,if_pos hadd]
      exact not_mem_nil
    · have hmem : .update b true∈t := by
        rw [mem_append,mem_singleton] at hb
        exact hb.resolve_right fun heq => hadd heq.symm
      have hkept:=ih ((prefix_append t [c]).trans hpre) hmem
      have hremove : c ≠ .update b false := by
        rintro rfl
        exact hkeeps t b hpre ⟨hmem,hkept⟩
      rwa [mem_since_snoc hadd hremove]

theorem prefixes_iff (cs : List Call) : (∀ t,t <+: cs → SelfChecked t) ↔
    (adds cs).length≤2^31 ∧ ∀ t a,t++[.update a false] <+: cs → ¬Present t a := by
  constructor
  · intro hall
    refine ⟨((selfChecked_iff cs).mp (hall cs (prefix_refl cs))).1,fun t a hpre hpresent => ?_⟩
    obtain ⟨_,_,hthere⟩:=(selfChecked_iff _).mp (hall _ hpre)
    have hgone:=(hthere a (mem_append_left _ hpresent.1)).2
    rw [since_snoc,if_neg fun h => (by cases h)] at hgone
    exact hgone mem_cons_self
  · rintro ⟨hfew,hkeeps⟩ t hpre
    refine (selfChecked_iff t).mpr ⟨?_,fun u c hc _ hadd b hb => ?_,fun a ha => ⟨ha,not_removed hkeeps hpre ha⟩⟩
    · obtain ⟨v,rfl⟩:=hpre
      rw [adds_append,length_append] at hfew
      omega
    · rw [nil_append] at hadd hb ⊢
      have hmem : .update b true∈u := by
        rcases hb with rfl | hb
        · exact hadd
        · exact mem_of_since hb
      exact not_removed hkeeps (((prefix_append u [c]).trans hc).trans hpre) hmem

/-- For a sequence of calls, and for every state on the way. -/
theorem selfCheck_iff (cs : List Call) :
    (SelfChecked cs ↔ (adds cs).length≤2^31 ∧ (∀ t c,t++[c] <+: cs → c.verifies=true → Settled t c.addr) ∧
      ∀ a,.update a true∈cs → Present cs a) ∧
    ((∀ t,t <+: cs → SelfChecked t) ↔
      (adds cs).length≤2^31 ∧ ∀ t a,t++[.update a false] <+: cs → ¬Present t a) :=
  ⟨selfChecked_iff cs,prefixes_iff cs⟩

/-- An address is added and removed, and its distance is asked for. -/
theorem not_selfChecked_removed : ¬∀ cs,SelfChecked cs := by
  intro hall
  obtain ⟨s,results,hrun,_⟩:=hall [.update 0 true,.update 0 false,.inspect 0 false]
  have hpanic : (StackDistCalc.init true).run [.update 0 true,.update 0 false,.inspect 0 false] = .error .panic := rfl
  rw [hpanic] at hrun
  cases hrun

end Runs

/-! ## The hits of LRU caches of all sizes -/

theorem near_iff {n : ℕ} (hn : n≤Infinity) (xs : List Addr) (a : Addr) :
    StackDistCalc.stackDistance xs a<n ↔ a∈xs.take n := by
  unfold StackDistCalc.stackDistance
  split_ifs with ha
  · rw [mem_take_iff_idxOf_lt ha]
  · exact ⟨fun h => by omega,fun h => (ha (mem_of_mem_take h)).elim⟩

theorem Naive.hits {n : ℕ} (hpos : 0<n) (hn : n≤Infinity) (addrs : List Addr) : ∀ (t : List Addr) (xs : Naive),
    xs.map Prod.fst=stack t →
      (xs.run (addrs.map (.update · true))).countP (·.stackDist<n)=hitsFrom n (contents n t) addrs := by
  induction addrs with
  | nil => exact fun t xs h => rfl
  | cons a addrs ih =>
    intro t xs h
    have hstep : (xs.step (.update a true)).map Prod.fst=stack (t++[a]) := by
      rw [stack_snoc,touch,(stack_nodup t).erase_eq_filter a,← h,filter_map]
      rfl
    have hnear : (xs.result a).stackDist<n ↔ a∈contents n t := by
      rw [contents_eq hpos,← h]
      exact near_iff hn _ a
    have hrun : xs.run ((a::addrs).map (.update · true)) =
      xs.result a::(xs.step (.update a true)).run (addrs.map (.update · true)) := rfl
    rw [hrun,countP_cons,ih _ _ hstep,contents_snoc,hitsFrom,Nat.add_comm]
    simp only [hnear,decide_eq_true_iff]

theorem run_naive (verifyStack : Bool) (addrs : List Addr) (hfew : addrs.length≤2^31) : ∃ s,
    (StackDistCalc.init verifyStack).run (addrs.map (.update · true)) =
      .ok (s,Naive.run [] (addrs.map (.update · true))) := by
  have hnone (a : Addr) : .update a false∉addrs.map (Call.update · true) := by simp
  have hadds : adds (addrs.map (Call.update · true))=addrs := by
    simp [adds,filterMap_map]
  obtain ⟨s,hrun,-⟩:=((called_init verifyStack).run (addrs.map (.update · true)) (by simpa [hadds])).1
    fun _ t c hpre _ _ b _ hb => by
      obtain ⟨rest,hrest⟩:=hpre
      refine hnone b (hrest ▸ mem_append_left _ (mem_append_left _ ?_))
      exact mem_of_since hb
  exact ⟨s,hrun⟩

/-- One run of the calculator has the number of hits of every LRU cache. -/
theorem run_hits (verifyStack : Bool) (addrs : List Addr) (hfew : addrs.length≤2^31) : ∃ s results,
    (StackDistCalc.init verifyStack).run (addrs.map (.update · true)) = .ok (s,results) ∧
      ∀ n,0<n → n≤Infinity → results.countP (·.stackDist<n)=hits n addrs := by
  obtain ⟨s,hrun⟩:=run_naive verifyStack addrs hfew
  exact ⟨s,_,hrun,fun n hpos hn => Naive.hits hpos hn addrs [] [] rfl⟩

theorem run_hits_reuse : ∃ s results,
    (StackDistCalc.init true).run ([0,64,0].map (Call.update · true)) = .ok (s,results) ∧
      ∀ n,0<n → n≤Infinity → results.countP (·.stackDist<n)=hits n ([0,64,0] : List Addr) :=
  run_hits true [0,64,0] (by decide)

end AquaGem5.StackDist
