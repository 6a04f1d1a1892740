import AquaGem5.Memory.CheckerScan
import Mathlib.Tactic.NormNum

/-!
# Sequential histories

A read that overlaps no transaction is confirmed exactly when it returns the value of the latest completed one.
-/

namespace AquaGem5.Memory.MemChecker
open List

variable {later past : List Call} {t : ByteTracker} {w : Transaction} {r k0 k : ℕ} {d : UInt8}

section
variable {b b' f f' : Call} {s k1 k2 : ℕ} {v : UInt8} (hf : Formed TICK_FUTURE past) (hseq : Sequential past)

theorem Sequential.of_append (h : Sequential (later++past)) : Sequential past := fun l c p hl hc b hb hst =>
  h (later++l) c p (by rw [hl,List.append_assoc]) hc b hb hst

theorem Sequential.before (hf : Formed TICK_FUTURE past) (hseq : Sequential past) (hb : b∈past) (hb' : b'∈past)
    (hst : b.starts=true) (hst' : b'.starts=true) (hlt : b.tick<b'.tick) :
    ∃ f∈past, f.serial=b.serial ∧ f.starts=false ∧ f.tick<b'.tick := by
  obtain ⟨l1,l2,rfl⟩:=append_of_mem hb'
  have hmem:=hf.mem_past hb hlt
  obtain ⟨f,hfm,hser,hfst⟩:=hseq l1 b' l2 rfl hst' b hmem hst
  have hformed : Formed TICK_FUTURE (b'::l2) := hf.of_append
  exact ⟨f,mem_append_right _ (mem_cons_of_mem _ hfm),hser,hfst,hformed.1 f hfm⟩

theorem Sequential.end_lt (hf : Formed TICK_FUTURE past) (hseq : Sequential past) (hb : b∈past) (hb' : b'∈past)
    (hst : b.starts=true) (hst' : b'.starts=true) (hlt : b.tick<b'.tick) (hfm : f∈past)
    (hser : f.serial=b.serial) (hfst : f.starts=false) : f.tick<b'.tick := by
  obtain ⟨f',hfm',hser',hfst',hlt'⟩:=hseq.before hf hb hb' hst hst' hlt
  exact hf.unique hfm hfm' (hser.trans hser'.symm) (hfst.trans hfst'.symm) ▸ hlt'

theorem Sequential.not_open (hf : Formed TICK_FUTURE past) (hseq : Sequential past) (hb' : b'∈past) (hst' : b'.starts=true) :
    ¬Open past b'.tick := by
  rintro ⟨b,hb,hst,hlt,hopen⟩
  obtain ⟨f,hfm,hser,hfst,hlt'⟩:=hseq.before hf hb hb' hst hst' hlt
  exact Nat.lt_asymm hlt' (hopen f hfm hser hfst)

theorem Sequential.end_lt_open (hf : Formed TICK_FUTURE past) (hseq : Sequential past) (hs : .startRead r k0∈past)
    (hfin : ¬Finished past r) (hb : b∈past) (hst : b.starts=true) (hne : b.serial≠r) :
    ∃ f∈past, f.serial=b.serial ∧ f.starts=false ∧ f.tick<k0 := by
  rcases Nat.lt_trichotomy b.tick k0 with hlt | heq | hgt
  · exact hseq.before hf hb hs hst rfl hlt
  · have he:=hf.eq_of_tick hb hs heq
    exact (hne (congrArg Call.serial he)).elim
  · obtain ⟨f,hfm,hser,hfst,_⟩:=hseq.before hf hs hb rfl hst hgt
    exact (hfin ⟨f,hfm,hser,hfst⟩).elim

theorem written_eq (hf : Formed TICK_FUTURE past) (hs : .startWrite s k1 v∈past) : written s past=some v := by
  induction past with
  | nil => exact (not_mem_nil hs).elim
  | cons c past ih =>
    rcases mem_cons.mp hs with rfl | hmem
    · exact if_pos rfl
    · have hrest:=ih hf.2.2.2 hmem
      cases c with
      | startWrite s' k' d' =>
        have hlt : s<s' := hf.2.2.1 _ hmem
        rw [written,if_neg hlt.ne']
        exact hrest
      | startRead s' k' | completeRead s' k' d' | completeWrite s' k' | abortWrite s' k' => exact hrest

structure Newest (past : List Call) (k : ℕ) : Prop where
  read : ∀ s k' d, .completeRead s k' d∈past → k'≤k
  write : ∀ s k', .completeWrite s k'∈past → k'≤k

inductive Latest (past : List Call) : Option UInt8 → Prop
  | nothing : (∀ s k d, .completeRead s k d∉past) → (∀ s k, .completeWrite s k∉past) → Latest past none
  | read (s k : ℕ) (v : UInt8) : .completeRead s k v∈past → Newest past k → Latest past (some v)
  | write (s k1 k : ℕ) (v : UInt8) : .startWrite s k1 v∈past → .completeWrite s k∈past → Newest past k →
    Latest past (some v)

theorem Latest.cons {c : Call} {l : Option UInt8} (h : Latest past l) (hr : ∀ s k d, c ≠ .completeRead s k d)
    (hw : ∀ s k, c ≠ .completeWrite s k) : Latest (c::past) l := by
  have hnew : ∀ k, Newest past k → Newest (c::past) k := fun k hn =>
    ⟨fun s k' d hd => hn.read s k' d ((mem_cons.mp hd).resolve_left fun he => hr s k' d he.symm),
      fun s k' hd => hn.write s k' ((mem_cons.mp hd).resolve_left fun he => hw s k' he.symm)⟩
  cases h with
  | nothing hnr hnw =>
    exact .nothing (fun s k d hd => hnr s k d ((mem_cons.mp hd).resolve_left fun he => hr s k d he.symm))
      fun s k hd => hnw s k ((mem_cons.mp hd).resolve_left fun he => hw s k he.symm)
  | read s k v hd hn => exact .read s k v (mem_cons_of_mem _ hd) (hnew _ hn)
  | write s k1 k v hs hd hn => exact .write s k1 k v (mem_cons_of_mem _ hs) (mem_cons_of_mem _ hd) (hnew _ hn)

theorem latest_spec (hf : Formed TICK_FUTURE past) : Latest past (latest past) := by
  induction past with
  | nil => exact .nothing (fun _ _ _ => not_mem_nil) fun _ _ => not_mem_nil
  | cons c past ih =>
    obtain ⟨ht,_,hn,hpast⟩:=hf
    have hnew : Newest (c::past) c.tick := by
      refine ⟨fun s k' d hd => ?_,fun s k' hd => ?_⟩
      · rcases mem_cons.mp hd with rfl | hd
        · exact le_rfl
        · exact (ht _ hd).le
      · rcases mem_cons.mp hd with rfl | hd
        · exact le_rfl
        · exact (ht _ hd).le
    cases c with
    | startRead s k | startWrite s k d | abortWrite s k => exact (ih hpast).cons (fun _ _ _ => nofun) fun _ _ => nofun
    | completeRead s k d => exact .read s k d (mem_cons_self ..) hnew
    | completeWrite s k =>
      obtain ⟨⟨k1,d,hs⟩,_⟩:=hn
      rw [latest,written_eq hpast hs]
      exact .write s k1 k d (mem_cons_of_mem _ hs) (mem_cons_self ..) hnew

include hf hseq in
theorem Sequential.end_lt_of_end_le (hb : b∈past) (hb' : b'∈past) (hst : b.starts=true) (hst' : b'.starts=true)
    (hne : b.serial≠b'.serial) (hfm : f∈past) (hser : f.serial=b.serial) (hfst : f.starts=false)
    (hfm' : f'∈past) (hser' : f'.serial=b'.serial) (hfst' : f'.starts=false) (hlt : b'.tick<f'.tick)
    (hle : f'.tick≤f.tick) : f'.tick<b.tick := by
  rcases Nat.lt_trichotomy b.tick b'.tick with hbb | heq | hbb
  · have hend:=hseq.end_lt hf hb hb' hst hst' hbb hfm hser hfst
    omega
  · exact (hne (congrArg Call.serial (hf.eq_of_tick hb hb' heq))).elim
  · exact hseq.end_lt hf hb' hb hst' hst hbb hfm' hser' hfst'

section
variable (hs : .startRead r k0∈past) (hfin : ¬Finished past r)

include hf hseq hs hfin

theorem WriteOf.ended (hw : WriteOf past w) : .completeWrite w.serial w.complete∈past ∧ w.complete<k0 := by
  have hne : w.serial≠r := fun he => nomatch hf.unique hw.started hs he rfl
  obtain ⟨f,hfm,hser,hfst,hlt⟩:=hseq.end_lt_open hf hs hfin hw.started rfl hne
  have hfut : w.complete≠TICK_FUTURE := fun hfut => hw.not_finished hfut hf ⟨f,hfm,hser,hfst⟩
  have hdone:=hw.done (Nat.lt_of_le_of_ne (hw.lt hf).2 hfut)
  have he:=hf.unique hfm hdone hser hfst
  exact ⟨hdone,by rw [he] at hlt; exact hlt⟩

theorem Tracks.newest_observation (h : Tracks past t) :
    ∃ x, lastCompletedTransaction Transaction.complete t.readObservations k0 = .ok x ∧ x.complete≤k0 ∧
      (x=⟨0,TICK_INITIAL,TICK_INITIAL,0⟩ ∧ (∀ s k d, .completeRead s k d∉past) ∨
        (.startRead x.serial x.start∈past ∧ .completeRead x.serial x.complete x.data∈past) ∧
          ∀ s k d, .completeRead s k d∈past → k≤x.complete) := by
  obtain ⟨x,hx,hxle,hobs⟩:=h.last_observation hf hs hfin
  cases hl : t.readObservations with
  | nil => exact (h.observed hl).elim
  | cons y older =>
    have hnew : ∀ s k d, .completeRead s k d∈past → k≤y.complete := fun s k d hd => by
      obtain ⟨z,hz,hle⟩:=h.newest s k d hd
      rw [hl] at hz
      cases hz
      exact hle
    rw [hl] at hx
    rcases h.observations y (hl ▸ mem_cons_self ..) with rfl | ⟨hys,hyd⟩
    · have hnone : ∀ s k d, .completeRead s k d∉past := fun s k d hd => by
        obtain ⟨k',hlt,_⟩:=hf.read_started hd
        have hle : k≤0 := hnew s k d hd
        omega
      rcases hobs with rfl | ⟨_,hxd⟩
      · exact ⟨_,hx,hxle,.inl ⟨rfl,hnone⟩⟩
      · exact (hnone _ _ _ hxd).elim
    · have hne : y.serial≠r := fun he => hfin ⟨_,hyd,he,rfl⟩
      obtain ⟨f,hfm,hser,hfst,hlt⟩:=hseq.end_lt_open hf hs hfin hys rfl hne
      have he:=hf.unique hfm hyd hser hfst
      rw [he] at hlt
      have hylt : y.complete<k0 := hlt
      exact ⟨y,lastCompletedTransaction_head hylt,hylt.le,.inr ⟨⟨hys,hyd⟩,hnew⟩⟩

theorem Tracks.expected_of_nothing (h : Tracks past t) (ht : ∀ b∈past, b.tick<k)
    (hnr : ∀ s k d, .completeRead s k d∉past) (hnw : ∀ s k, .completeWrite s k∉past) (d : UInt8) :
    ∃ expected, t.inExpectedData k0 k d = .ok (true,expected) := by
  have hempty : ∀ c∈t.writeClusters, ∀ w∈c.writes, False := fun c hc w hw =>
    hnw _ _ (((h.clusters c hc).writes w hw).1.ended hf hseq hs hfin).1
  obtain ⟨x,hx,_,⟨rfl,_⟩ | ⟨⟨_,hxd⟩,_⟩⟩:=h.newest_observation hf hseq hs hfin
  · rw [inExpectedData_eq hx,scanClusters_all_skipped rfl fun c hc w hw => (hempty c hc w hw).elim,
      if_neg Bool.false_ne_true]
    refine confirm_unknown rfl rfl (fun _ => rfl) rfl (fun c hc => ?_) fun c hc => ?_
    · obtain ⟨b,hb,hle⟩:=(h.clusters c hc).start
      exact hle.trans_lt (ht b hb)
    · have hmem:=mem_of_mem_head? hc
      by_cases hcf : c.complete=TICK_FUTURE
      · rw [hcf]
        exact hf.tick_lt hs
      · obtain ⟨w,hw⟩:=(h.clusters c hmem).exists_write hcf
        exact (hempty c hmem w hw).elim
  · exact (hnr _ _ _ hxd).elim

theorem Tracks.expected_of_read (h : Tracks past t) (hd : .completeRead s k1 v∈past) (hnew : Newest past k1) (d : UInt8) :
    ∃ expected, t.inExpectedData k0 k d = .ok (decide (v=d),expected) := by
  obtain ⟨x,hx,hxle,⟨_,hnone⟩ | ⟨⟨hxs,hxd⟩,hle⟩⟩:=h.newest_observation hf hseq hs hfin
  · exact (hnone _ _ _ hd).elim
  have hxk : x.complete=k1 := le_antisymm (hnew.read _ _ _ hxd) (hle _ _ _ hd)
  have hxv : x.data=v := (Call.completeRead.inj (hf.eq_of_tick hxd hd hxk)).2.2
  have hxlt:=hf.read_lt hxs hxd
  have hskip : ∀ c∈t.writeClusters, ∀ w∈c.writes, w.complete<x.start := fun c hc w hw => by
    have hof:=((h.clusters c hc).writes w hw).1
    have hdone:=(hof.ended hf hseq hs hfin).1
    have hne : x.serial≠w.serial := fun he => nomatch hf.unique hxs hof.started he rfl
    have hle : w.complete≤x.complete := hxk ▸ hnew.write _ _ hdone
    exact Sequential.end_lt_of_end_le hf hseq hxs hof.started rfl rfl hne hxd rfl rfl hdone rfl rfl (hof.lt hf).1 hle
  have hne : (x.complete != TICK_INITIAL)=true := bne_iff_ne.mpr fun hzero => by
    rw [TICK_INITIAL] at hzero
    omega
  rw [inExpectedData_eq hx,scanClusters_all_skipped rfl hskip,if_neg Bool.false_ne_true,← hxv]
  exact confirm_valid t k d hne hxle

theorem Tracks.expected_of_write (h : Tracks past t) (hw0 : .startWrite s k1 v∈past) (hd : .completeWrite s k2∈past)
    (hnew : Newest past k2) (d : UInt8) : ∃ expected, t.inExpectedData k0 k d = .ok (decide (v=d),expected) := by
  obtain ⟨x,hx,hxle,hobs⟩:=h.newest_observation hf hseq hs hfin
  -- no write starts after the completion
  have hstart : ∀ c∈t.writeClusters, k2<c.start → ∀ w∈c.writes, False := fun c hc hlt w hw => by
    obtain ⟨hof,hle⟩:=(h.clusters c hc).writes w hw
    have hend:=hnew.write _ _ (hof.ended hf hseq hs hfin).1
    have hwlt:=(hof.lt hf).1
    omega
  rcases h.held s k1 v hw0 fun e he => nomatch hf.unique he hd rfl rfl with
    ⟨c,hc,w,hw,rfl⟩ | ⟨e,he,c,hc,hne,hlt,_⟩
  · have hof:=((h.clusters c hc).writes w hw).1
    obtain ⟨hdone,hend⟩:=hof.ended hf hseq hs hfin
    obtain ⟨rfl,rfl⟩:=(Call.startWrite.inj (hf.unique hof.started hw0 rfl rfl)).2
    obtain rfl:=(Call.completeWrite.inj (hf.unique hdone hd rfl rfl)).2
    obtain ⟨newer,older,hsplit⟩:=append_of_mem hc
    have hord:=h.ordered
    rw [hsplit] at hord
    have hnewer : ∀ c'∈newer, ∀ w'∈c'.writes, False := fun c' hc' => by
      obtain ⟨hlt,hne⟩:=(pairwise_append.mp hord).2.2 c' hc' c (mem_cons_self ..)
      have hle:=((h.clusters c hc).le_complete hf hne hw).1
      exact hstart c' (hsplit ▸ mem_append_left _ hc') (by omega)
    -- the writes of a cluster overlap
    have hsingle : c.writes=[w] := by
      obtain ⟨a,b,hab,ha,hb⟩:=(h.clusters c hc).split hw
      have honly : ∀ w'∈c.writes, w'.serial=w.serial := fun w' hw' => by
        have hof':=((h.clusters c hc).writes w' hw').1
        rcases Nat.lt_trichotomy w'.start w.start with hlt | heq | hlt
        · exact (hseq.not_open hf hof.started rfl ((h.clusters c hc).linked w' hw' w hw hlt)).elim
        · exact (Call.startWrite.inj (hf.eq_of_tick hof'.started hof.started heq)).1
        · exact (hseq.not_open hf hof'.started rfl ((h.clusters c hc).linked w hw w' hw' hlt)).elim
      have hanil : a=[] := eq_nil_iff_forall_not_mem.mpr fun w' hw' =>
        ha w' hw' (honly w' (hab ▸ mem_append_left _ hw'))
      have hbnil : b=[] := eq_nil_iff_forall_not_mem.mpr fun w' hw' =>
        hb w' hw' (honly w' (hab ▸ mem_append_right _ (mem_cons_of_mem _ hw')))
      rw [hab,hanil,hbnil,nil_append]
    -- the last observation is before the write
    have hbefore : x.start≤w.complete ∧ (x.complete≠TICK_INITIAL → x.complete<w.start) := by
      rcases hobs with ⟨rfl,_⟩ | ⟨⟨hxs,hxd⟩,_⟩
      · exact ⟨Nat.zero_le _,fun hne => (hne rfl).elim⟩
      · have hne : w.serial≠x.serial := fun he => nomatch hf.unique hof.started hxs he rfl
        have hxlt:=hf.read_lt hxs hxd
        have hxend:=hnew.read _ _ _ hxd
        have hlt:=Sequential.end_lt_of_end_le hf hseq hof.started hxs rfl rfl hne hdone rfl rfl hxd rfl rfl hxlt hxend
        exact ⟨by omega,fun _ => hlt⟩
    rw [inExpectedData_eq hx,hsplit]
    by_cases hdata : w.data=d
    · have hmatched : (scanClusters x k0 d (newer++c::older) ⟨false,true,x.complete != TICK_INITIAL,[]⟩).matched =
          true := scanClusters_matched rfl hw hbefore.1 hdata fun c' hc' w' hw' => (hnewer c' hc' w' hw').elim
      rw [if_pos hmatched,decide_eq_true hdata]
      exact ⟨_,rfl⟩
    · have hscan : scanClusters x k0 d (newer++c::older) ⟨false,true,x.complete != TICK_INITIAL,[]⟩ =
          ⟨false,false,false,[w.data]⟩ := by
        rw [scanClusters_skipped rfl fun c' hc' w' hw' => (hnewer c' hc' w' hw').elim]
        exact scanClusters_stop rfl rfl hsingle ⟨hbefore.1,hend.le⟩ hdata fun hv => hbefore.2 (bne_iff_ne.mp hv)
      rw [hscan,if_neg Bool.false_ne_true,decide_eq_false hdata]
      exact confirm_stopped rfl rfl (cons_ne_nil _ _)
  · obtain rfl:=(Call.completeWrite.inj (hf.unique he hd rfl rfl)).2
    obtain ⟨w,hw⟩:=(h.clusters c hc).exists_write hne
    exact (hstart c hc hlt w hw).elim

theorem Tracks.expected_of_sequential (h : Tracks past t) (ht : ∀ b∈past, b.tick<k) (d : UInt8) :
    ∃ result expected, t.inExpectedData k0 k d = .ok (result,expected) ∧
      (result=true ↔ ∀ v, latest past=some v → d=v) := by
  -- the value of the latest completed transaction decides
  have hvalue : ∀ v, decide (v=d)=true ↔ ∀ v', some v=some v' → d=v' := fun v =>
    ⟨fun heq v' hv' => (of_decide_eq_true heq).symm.trans (Option.some.inj hv'),
      fun hall => decide_eq_true (hall v rfl).symm⟩
  have hcases : ∀ l, Latest past l → ∃ result expected, t.inExpectedData k0 k d = .ok (result,expected) ∧
      (result=true ↔ ∀ v, l=some v → d=v) := fun l hl => by
    cases hl with
    | nothing hnr hnw =>
      obtain ⟨expected,hok⟩:=h.expected_of_nothing hf hseq hs hfin ht hnr hnw d
      exact ⟨true,expected,hok,iff_of_true rfl fun v hv => nomatch hv⟩
    | read s k1 v hd hnew =>
      obtain ⟨expected,hok⟩:=h.expected_of_read hf hseq hs hfin hd hnew d
      exact ⟨_,expected,hok,hvalue v⟩
    | write s k1 k2 v hw hd hnew =>
      obtain ⟨expected,hok⟩:=h.expected_of_write hf hseq hs hfin hw hd hnew d
      exact ⟨_,expected,hok,hvalue v⟩
  exact hcases (latest past) (latest_spec hf)

end

end

/-! ## No false alarms -/

open Register Placement
variable {calls : List Call} {o : Placement ℕ UInt8} {Q : List Call → UInt8 → Bool → Prop} {c : Call}

theorem Tracks.new : Tracks [] .new := by
  refine ⟨fun _ hc => (not_mem_nil hc).elim,.nil,fun _ _ _ hs => (not_mem_nil hs).elim,
    fun _ hr => (not_mem_nil hr).elim,fun _ _ hs => (not_mem_nil hs).elim,.nil,nofun,fun o ho => ?_,
    fun _ _ _ hd => (not_mem_nil hd).elim,fun _ _ _ hr => (not_mem_nil hr).elim⟩
  exact .inl (mem_singleton.mp ho)

theorem Formed.earlier (h : Formed (2^64) (later++c::past)) :
    Formed TICK_FUTURE past ∧ (∀ b∈past, b.tick<c.tick) ∧ c.tick≤TICK_FUTURE ∧ Next past c := by
  obtain ⟨ht,hk,hn,hpast⟩:=h.of_append
  have hle : c.tick≤TICK_FUTURE := by
    rw [TICK_FUTURE]
    omega
  exact ⟨hpast.lower fun b hb => (ht b hb).trans_le hle,ht,hle,hn⟩

def Scanned (past : List Call) (t : ByteTracker) (Q : List Call → UInt8 → Bool → Prop) (s k : ℕ) (d : UInt8) : Prop :=
  ∃ k0 result expected, .startRead s k0∈past ∧ t.inExpectedData k0 k d = .ok (result,expected) ∧ Q past d result

section
variable (hf : Formed (2^64) calls) (hscan : ∀ later s k d past t, calls=later ++ .completeRead s k d::past →
  Formed TICK_FUTURE past → Tracks past t → Scanned past t Q s k d)

include hf hscan

theorem run_snoc (hcalls : calls=later++c::past) (hrun : run past = .ok t) (ht : Tracks past t) :
    ∃ r, t.exec c = .ok r ∧ run (c::past) = .ok r.2 ∧ (c.tick<TICK_FUTURE → Tracks (c::past) r.2) ∧
      ∀ s k d, c = .completeRead s k d → Q past d r.1 := by
  obtain ⟨hpast,hlt,hle,hn⟩:=(hcalls ▸ hf).earlier
  have hans : ∃ result, ∀ s k d, c = .completeRead s k d → ∃ k0 expected, .startRead s k0∈past ∧
      t.inExpectedData k0 k d = .ok (result,expected) ∧ Q past d result := by
    cases c with
    | completeRead s k d =>
      obtain ⟨k0,result,expected,hs,hin,hq⟩:=hscan later s k d past t hcalls hpast ht
      refine ⟨result,fun s' k' d' he => ?_⟩
      cases he
      exact ⟨k0,expected,hs,hin,hq⟩
    | startRead s k | startWrite s k d | completeWrite s k | abortWrite s k => exact ⟨true,nofun⟩
  obtain ⟨result,hans⟩:=hans
  obtain ⟨r,hexec,hres⟩:=ht.exec_ok hpast hlt hle hn fun s k d he => by
    obtain ⟨k0,expected,hs,hin,_⟩:=hans s k d he
    exact ⟨k0,expected,hs,hin⟩
  refine ⟨r,hexec,?_,fun hk => ?_,fun s k d he => ?_⟩
  · rw [run,hrun]
    dsimp only [bind,Except.bind]
    rw [hexec]
  · refine ht.exec hpast hlt hk hn hexec fun s k d he => ?_
    obtain ⟨k0,expected,hs,hin,_⟩:=hans s k d he
    exact ⟨k0,result,expected,hs,hin⟩
  · obtain ⟨_,_,_,_,hq⟩:=hans s k d he
    rw [hres s k d he]
    exact hq

theorem run_tracks (later past : List Call) (hcalls : calls=later++past) (hpast : Formed TICK_FUTURE past) :
    ∃ t, run past = .ok t ∧ Tracks past t := by
  induction past generalizing later with
  | nil => exact ⟨_,rfl,.new⟩
  | cons c past ih =>
    obtain ⟨t,hrun,ht⟩:=ih (later++[c]) (by rw [hcalls,append_assoc]; rfl) hpast.2.2.2
    obtain ⟨r,_,hrun',ht',_⟩:=run_snoc hf hscan hcalls hrun ht
    exact ⟨r.2,hrun',ht' hpast.2.1⟩

theorem answers_of_scanned : Answers calls Q := by
  refine ⟨?_,fun later s k d past hcalls => ?_⟩
  · cases hc : calls with
    | nil => exact ⟨_,rfl⟩
    | cons c past =>
      have hcalls : calls=[]++c::past := hc
      obtain ⟨hpast,_⟩:=(hcalls ▸ hf).earlier
      obtain ⟨t,hrun,ht⟩:=run_tracks hf hscan [c] past hc hpast
      obtain ⟨r,_,hrun',_⟩:=run_snoc hf hscan hcalls hrun ht
      exact ⟨r.2,hrun'⟩
  · obtain ⟨hpast,_⟩:=(hcalls ▸ hf).earlier
    obtain ⟨t,hrun,ht⟩:=run_tracks hf hscan (later++[.completeRead s k d]) past
      (by rw [hcalls,append_assoc]; rfl) hpast
    obtain ⟨r,hexec,_,_,hq⟩:=run_snoc hf hscan hcalls hrun ht
    refine ⟨r.1,?_,hq s k d rfl⟩
    rw [answer,hrun]
    dsimp only [bind,Except.bind]
    rw [hexec]

end

theorem Linearized.scanned (hf : Formed (2^64) calls) (hl : Linearized calls o)
    (hcalls : calls=later ++ .completeRead r k d::past) (hpast : Formed TICK_FUTURE past) (ht : Tracks past t) :
    Scanned past t (fun _ _ result => result=true) r k d := by
  obtain ⟨_,hlt,_,⟨⟨k0,hs⟩,hfin⟩⟩:=(hcalls ▸ hf).earlier
  have hsub : ∀ b∈past, b∈calls := fun b hb => by
    rw [hcalls]
    exact mem_append_right _ (mem_cons_of_mem _ hb)
  have hdone : .completeRead r k d∈calls := by
    rw [hcalls]
    exact mem_append_right _ (mem_cons_self ..)
  obtain ⟨p,hp,hpk,hholds⟩:=hl.read r k0 k d (hsub _ hs) hdone
  rcases hholds with ⟨w,hlast,hd⟩ | ⟨hnone,hd⟩
  · -- the last write before the point has started before the read is complete
    obtain ⟨e,d',hw,hew⟩:=hl.started w hlast.effective
    have hek : (e : ℚ)<k := hew.trans (hlast.before.trans hpk)
    have hek' : e<k := by exact_mod_cast hek
    obtain rfl : d'=d := (hl.value w e d' hw).symm.trans hd
    have hwpast : .startWrite w e d'∈past := (hcalls ▸ hf).mem_past (hcalls ▸ hw) hek'
    obtain ⟨expected,hin⟩:=ht.expected_of_last hf hl hsub hpast hs hfin hlast ⟨e,hwpast⟩ hp k
    exact ⟨k0,true,expected,hs,hin,rfl⟩
  · obtain ⟨expected,hin⟩:=ht.expected_of_none hf hl hsub hpast hlt hs hfin hnone hp
    rw [hd] at hin
    exact ⟨k0,true,expected,hs,hin,rfl⟩

theorem Sequential.scanned (hf : Formed (2^64) calls) (hseq : Sequential calls)
    (hcalls : calls=later ++ .completeRead r k d::past) (hpast : Formed TICK_FUTURE past) (ht : Tracks past t) :
    Scanned past t (fun past d result => result=true ↔ ∀ v, latest past=some v → d=v) r k d := by
  obtain ⟨_,hlt,_,⟨⟨k0,hs⟩,hfin⟩⟩:=(hcalls ▸ hf).earlier
  have hseq' : Sequential past := by
    rw [hcalls,append_cons] at hseq
    exact hseq.of_append
  obtain ⟨result,expected,hin,hres⟩:=ht.expected_of_sequential hpast hseq' hs hfin hlt d
  exact ⟨k0,result,expected,hs,hin,hres⟩

/-- A read that a register can answer is confirmed, and when no transactions overlap only the latest value is. -/
theorem no_false_alarm (calls : List Call) (hf : Formed (2^64) calls) :
    ((∃ o, Linearized calls o) → Answers calls fun _ _ result => result=true) ∧
    (Sequential calls → Answers calls fun past d result => result=true ↔ ∀ v, latest past=some v → d=v) := by
  refine ⟨fun ⟨o,hl⟩ => ?_,fun hseq => ?_⟩
  · exact answers_of_scanned hf fun later s k d past t hcalls hpast ht => hl.scanned hf hcalls hpast ht
  · exact answers_of_scanned hf fun later s k d past t hcalls hpast ht => hseq.scanned hf hcalls hpast ht

theorem Sequential.cons (h : Sequential past) (hc : c.starts=true → ∀ b∈past, b.starts=true → Finished past b.serial) :
    Sequential (c::past) := fun later c' past' he hst b hb hbst => by
  cases later with
  | nil =>
    cases he
    exact hc hst b hb hbst
  | cons a later => exact h later c' past' (List.cons.inj he).2 hst b hb hbst

/-- A read of a write that it overlaps, and a read of another value after a write. -/
theorem read_confirmed_and_refused :
    answer [.startRead 1 2,.startWrite 0 1 7] (.completeRead 1 3 7) = .ok true ∧
    answer [.startRead 1 3,.completeWrite 0 2,.startWrite 0 1 7] (.completeRead 1 4 5) = .ok false := by
  constructor
  · have hf : Formed (2^64) [.completeWrite 0 4,.completeRead 1 3 7,.startRead 1 2,.startWrite 0 1 7] := by
      simp [Formed,Next,Finished,Call.tick,Call.serial,Call.starts]
    have hl : Linearized [.completeWrite 0 4,.completeRead 1 3 7,.startRead 1 2,.startWrite 0 1 7]
        ⟨fun s => s=0,fun _ => 3/2,fun _ => 7,0⟩ := by
      refine ⟨?_,?_,?_,?_,?_,?_⟩
      · rintro s rfl
        exact ⟨1,7,by simp,by norm_num⟩
      · intro s k hd
        simp only [List.mem_cons,Call.completeWrite.injEq,reduceCtorEq,List.not_mem_nil,or_false] at hd
        obtain ⟨rfl,rfl⟩:=hd
        exact ⟨rfl,by norm_num⟩
      · intro s k ha
        simp at ha
      · rintro _ _ rfl rfl _
        rfl
      · intro s k d hs
        simp only [List.mem_cons,Call.startWrite.injEq,reduceCtorEq,List.not_mem_nil,false_or,or_false] at hs
        exact hs.2.2.symm
      · intro s k k' d hs hd
        simp only [List.mem_cons,Call.startRead.injEq,reduceCtorEq,List.not_mem_nil,false_or,or_false] at hs
        simp only [List.mem_cons,Call.completeRead.injEq,reduceCtorEq,List.not_mem_nil,false_or,or_false] at hd
        obtain ⟨rfl,rfl⟩:=hs
        obtain ⟨_,rfl,rfl⟩:=hd
        refine ⟨5/2,by norm_num,by norm_num,.inl ⟨0,⟨rfl,?_,fun w' _ _ => le_rfl⟩,rfl⟩⟩
        norm_num
    obtain ⟨result,hans,rfl⟩:=((no_false_alarm _ hf).1 ⟨_,hl⟩).reads [.completeWrite 0 4] 1 3 7 _ rfl
    exact hans
  · have hf : Formed (2^64) [.completeRead 1 4 5,.startRead 1 3,.completeWrite 0 2,.startWrite 0 1 7] := by
      simp [Formed,Next,Finished,Call.tick,Call.serial,Call.starts]
    have hseq : Sequential [.completeRead 1 4 5,.startRead 1 3,.completeWrite 0 2,.startWrite 0 1 7] := by
      have hnil : Sequential [] := fun later c past he => by
        cases later <;> cases he
      refine (((hnil.cons ?_).cons ?_).cons ?_).cons ?_
      · intro _ b hb
        simp at hb
      · intro hc
        cases hc
      · intro _ b hb hst
        simp only [List.mem_cons,List.not_mem_nil,or_false] at hb
        rcases hb with rfl | rfl
        · cases hst
        · exact ⟨_,List.mem_cons_self ..,rfl,rfl⟩
      · intro hc
        cases hc
    obtain ⟨result,hans,hres⟩:=((no_false_alarm _ hf).2 hseq).reads [] 1 4 5 _ rfl
    have hfalse : result=false := Bool.eq_false_iff.mpr fun htrue => absurd (hres.mp htrue 7 rfl) (by decide)
    rw [hans,hfalse]

end AquaGem5.Memory.MemChecker
