import Mathlib.Data.List.Basic
import AquaGem5.Memory.MemChecker

/-!
# The tracker of a history

The clusters have the writes that may still be read, apart from those that were dropped because a newer cluster was
complete before each outstanding read.
-/

namespace AquaGem5.Memory.MemChecker
open List

variable {past : List Call} {t : ByteTracker} {c c' : WriteCluster} {w : Transaction} {s k e before : ℕ} {d : UInt8}

section
variable {α : Type} {complete : α → ℕ} {x : α} {l : List α}

theorem fromLastCompleted_cons (x y : α) (older : List α) : fromLastCompleted complete before (x::y::older) =
    if before≤complete x then x::fromLastCompleted complete before (y::older) else [x] := rfl

theorem fromLastCompleted_split (complete : α → ℕ) (before : ℕ) (l : List α) :
    ∃ dropped, l=fromLastCompleted complete before l++dropped ∧
      (dropped=[] ∨ ∃ front x, fromLastCompleted complete before l=front++[x] ∧ complete x<before) := by
  induction l with
  | nil => exact ⟨[],rfl,.inl rfl⟩
  | cons x older ih =>
    cases older with
    | nil => exact ⟨[],rfl,.inl rfl⟩
    | cons y older =>
      rw [fromLastCompleted_cons]
      split
      · obtain ⟨dropped,hsplit,hlast⟩:=ih
        refine ⟨dropped,congrArg (x::·) hsplit,?_⟩
        rcases hlast with hnil | ⟨front,z,hfront,hz⟩
        · exact .inl hnil
        · exact .inr ⟨x::front,z,congrArg (x::·) hfront,hz⟩
      · rename_i hlt
        exact ⟨y::older,rfl,.inr ⟨[],x,rfl,Nat.lt_of_not_le hlt⟩⟩

theorem fromLastCompleted_head (complete : α → ℕ) (before : ℕ) (l : List α) :
    (fromLastCompleted complete before l).head?=l.head? := by
  cases l with
  | nil => rfl
  | cons x older =>
    cases older with
    | nil => rfl
    | cons y older =>
      rw [fromLastCompleted_cons]
      split <;> rfl

theorem fromLastCompleted_isPrefix (complete : α → ℕ) (before : ℕ) (l : List α) :
    fromLastCompleted complete before l <+: l := by
  obtain ⟨dropped,hsplit,_⟩:=fromLastCompleted_split complete before l
  exact ⟨dropped,hsplit.symm⟩

theorem fromLastCompleted_ne_nil (before : ℕ) (h : l≠[]) : fromLastCompleted complete before l≠[] := by
  intro hnil
  have hhead:=fromLastCompleted_head complete before l
  rw [hnil] at hhead
  exact h (head?_eq_none_iff.mp hhead.symm)

theorem lastCompletedTransaction_ok (complete : α → ℕ) (before : ℕ) (h : l≠[]) : ∃ x, lastCompletedTransaction complete l before = .ok x ∧ x∈l ∧
    (complete x<before ∨ l.getLast?=some x) := by
  have hne : fromLastCompleted complete before l≠[] := fromLastCompleted_ne_nil before h
  obtain ⟨dropped,hsplit,hlast⟩:=fromLastCompleted_split complete before l
  obtain ⟨x,hx⟩ : ∃ x, (fromLastCompleted complete before l).getLast?=some x := ⟨_,getLast?_eq_some_getLast hne⟩
  have hmem:=mem_of_getLast? hx
  refine ⟨x,?_,(fromLastCompleted_isPrefix complete before l).subset hmem,?_⟩
  · rw [lastCompletedTransaction,hx]
  · rcases hlast with rfl | ⟨front,y,hfront,hy⟩
    · rw [append_nil] at hsplit
      exact .inr (hsplit ▸ hx)
    · rw [hfront,getLast?_concat] at hx
      cases hx
      exact .inl hy

theorem lastCompletedTransaction_head (h : complete x<before) :
    lastCompletedTransaction complete (x::l) before = .ok x := by
  cases l with
  | nil => rfl
  | cons y older =>
    rw [lastCompletedTransaction,fromLastCompleted_cons,if_neg (Nat.not_le.mpr h)]
    rfl

end

structure WriteOf (past : List Call) (w : Transaction) : Prop where
  started : .startWrite w.serial w.start w.data∈past
  kept : ∀ k, .abortWrite w.serial k∉past
  complete : w.complete=TICK_FUTURE ∧ (∀ k, .completeWrite w.serial k∉past) ∨
    .completeWrite w.serial w.complete∈past

def Open (past : List Call) (k : ℕ) : Prop :=
  ∃ b∈past, b.starts=true ∧ b.tick<k ∧ ∀ f∈past, f.serial=b.serial → f.starts=false → k<f.tick

structure ClusterOf (past : List Call) (c : WriteCluster) : Prop where
  start : ∃ b∈past, c.start≤b.tick
  writes : ∀ w∈c.writes, WriteOf past w ∧ c.start≤w.start
  nodup : (c.writes.map (·.serial)).Nodup
  count : c.numIncomplete=c.writes.countP (·.complete=TICK_FUTURE)
  max : ∀ w∈c.writes, w.complete≠TICK_FUTURE → w.complete≤c.completeMax
  bound : ∃ b∈past, c.completeMax≤b.tick
  closed : c.complete=TICK_FUTURE ∧ (c.numIncomplete=0 → c.writes=[]) ∨
    c.complete=c.completeMax ∧ c.numIncomplete=0 ∧ c.writes≠[]
  linked : ∀ w∈c.writes, ∀ w'∈c.writes, w.start<w'.start → Open past w'.start

def Held (t : ByteTracker) (s : ℕ) : Prop := ∃ c∈t.writeClusters, ∃ w∈c.writes, w.serial=s

def Dropped (past : List Call) (t : ByteTracker) (s : ℕ) : Prop :=
  ∃ e, .completeWrite s e∈past ∧ ∃ c∈t.writeClusters, c.complete≠TICK_FUTURE ∧ e<c.start ∧
    ∀ r∈t.outstandingReads, c.complete<r.start

def After (newer older : WriteCluster) : Prop := older.complete<newer.start ∧ older.complete≠TICK_FUTURE

structure Tracks (past : List Call) (t : ByteTracker) : Prop where
  clusters : ∀ c∈t.writeClusters, ClusterOf past c
  ordered : t.writeClusters.Pairwise After
  held : ∀ s k d, .startWrite s k d∈past → (∀ e, .abortWrite s e∉past) → Held t s ∨ Dropped past t s
  reads : ∀ r∈t.outstandingReads, .startRead r.serial r.start∈past ∧ ¬Finished past r.serial
  outstanding : ∀ s k, .startRead s k∈past → ¬Finished past s → ∃ r∈t.outstandingReads, r.serial=s
  sorted : t.outstandingReads.Pairwise fun r r' => r.serial<r'.serial ∧ r.start<r'.start
  observed : t.readObservations≠[]
  observations : ∀ o∈t.readObservations, o=⟨0,TICK_INITIAL,TICK_INITIAL,0⟩ ∨
    .startRead o.serial o.start∈past ∧ .completeRead o.serial o.complete o.data∈past
  newest : ∀ s k d, .completeRead s k d∈past → ∃ o, t.readObservations.head?=some o ∧ k≤o.complete
  oldest : ∀ o, t.readObservations.getLast?=some o → ∀ r∈t.outstandingReads, o.complete≤r.start

variable {call : Call}

theorem WriteOf.cons (h : WriteOf past w) (ha : ∀ k, call ≠ .abortWrite w.serial k)
    (hc : ∀ k, call ≠ .completeWrite w.serial k) : WriteOf (call::past) w := by
  refine ⟨mem_cons_of_mem _ h.started,fun k hk => ?_,?_⟩
  · rcases mem_cons.mp hk with he | hk
    · exact ha k he.symm
    · exact h.kept k hk
  · rcases h.complete with ⟨hfut,hno⟩ | hdone
    · refine .inl ⟨hfut,fun k hk => ?_⟩
      rcases mem_cons.mp hk with he | hk
      · exact hc k he.symm
      · exact hno k hk
    · exact .inr (mem_cons_of_mem _ hdone)

theorem Open.cons (h : Open past k) (hk : k<call.tick) : Open (call::past) k := by
  obtain ⟨b,hb,hst,hlt,hfin⟩:=h
  refine ⟨b,mem_cons_of_mem _ hb,hst,hlt,fun f hf hser hfst => ?_⟩
  rcases mem_cons.mp hf with rfl | hf
  · exact hk
  · exact hfin f hf hser hfst

theorem ClusterOf.cons (h : ClusterOf past c) (ht : ∀ b∈past, b.tick<call.tick)
    (ha : ∀ w∈c.writes, ∀ k, call ≠ .abortWrite w.serial k)
    (hc : ∀ w∈c.writes, ∀ k, call ≠ .completeWrite w.serial k) : ClusterOf (call::past) c := by
  obtain ⟨b,hb,hstart⟩:=h.start
  obtain ⟨b',hb',hbound⟩:=h.bound
  exact ⟨⟨b,mem_cons_of_mem _ hb,hstart⟩,
    fun w hw => ⟨(h.writes w hw).1.cons (ha w hw) (hc w hw),(h.writes w hw).2⟩,h.nodup,h.count,h.max,
    ⟨b',mem_cons_of_mem _ hb',hbound⟩,h.closed,
    fun w hw w' hw' hlt => (h.linked w hw w' hw' hlt).cons (ht _ (h.writes w' hw').1.started)⟩

theorem WriteOf.lt (hf : Formed TICK_FUTURE past) (h : WriteOf past w) : w.start<w.complete ∧ w.complete≤TICK_FUTURE := by
  rcases h.complete with ⟨hfut,_⟩ | hdone
  · have hlt:=hf.tick_lt h.started
    rw [Call.tick] at hlt
    omega
  · have hlt:=hf.tick_lt hdone
    obtain ⟨k,hk,d,hstart⟩:=hf.write_started hdone
    have he:=hf.unique hstart h.started rfl rfl
    cases he
    exact ⟨hk,hlt.le⟩

theorem WriteOf.done (h : WriteOf past w) (hlt : w.complete<TICK_FUTURE) :
    .completeWrite w.serial w.complete∈past := by
  rcases h.complete with ⟨hfut,_⟩ | hdone
  · omega
  · exact hdone

theorem WriteOf.not_finished (h : WriteOf past w) (hfut : w.complete=TICK_FUTURE) (hf : Formed TICK_FUTURE past) :
    ¬Finished past w.serial := by
  rintro ⟨b,hb,hser,hst⟩
  cases b with
  | startRead s k | startWrite s k d => cases hst
  | completeRead s k d =>
    obtain ⟨k0,_,hs⟩:=hf.read_started hb
    exact nomatch hf.unique hs h.started hser rfl
  | completeWrite s k =>
    obtain rfl : s=w.serial := hser
    rcases h.complete with ⟨_,hno⟩ | hdone
    · exact hno k hb
    · have hlt:=hf.tick_lt hdone
      rw [Call.tick] at hlt
      omega
  | abortWrite s k =>
    obtain rfl : s=w.serial := hser
    exact h.kept k hb

theorem ClusterOf.completeMax_lt (hf : Formed TICK_FUTURE past) (h : ClusterOf past c) : c.completeMax<TICK_FUTURE := by
  obtain ⟨b,hb,hle⟩:=h.bound
  exact hle.trans_lt (hf.tick_lt hb)

theorem ClusterOf.complete_eq (h : ClusterOf past c) (hw : w∈c.writes) (hfut : w.complete=TICK_FUTURE) :
    c.complete=TICK_FUTURE := by
  have hpos : 0<c.numIncomplete := by
    rw [h.count]
    exact countP_pos_iff.mpr ⟨w,hw,decide_eq_true hfut⟩
  rcases h.closed with ⟨hc,_⟩ | ⟨_,hzero,_⟩
  · exact hc
  · omega

theorem ClusterOf.le_complete (hf : Formed TICK_FUTURE past) (h : ClusterOf past c) (hc : c.complete≠TICK_FUTURE)
    (hw : w∈c.writes) : w.complete≤c.complete ∧ .completeWrite w.serial w.complete∈past := by
  have hne : w.complete≠TICK_FUTURE := fun hfut => hc (h.complete_eq hw hfut)
  have hle:=((h.writes w hw).1.lt hf).2
  refine ⟨?_,(h.writes w hw).1.done (Nat.lt_of_le_of_ne hle hne)⟩
  rcases h.closed with ⟨hfut,_⟩ | ⟨hmax,_⟩
  · exact (hc hfut).elim
  · rw [hmax]
    exact h.max w hw hne

theorem ClusterOf.exists_write (h : ClusterOf past c) (hc : c.complete≠TICK_FUTURE) : ∃ w, w∈c.writes := by
  rcases h.closed with ⟨hfut,_⟩ | ⟨_,_,hne⟩
  · exact (hc hfut).elim
  · exact exists_mem_of_ne_nil _ hne

theorem ClusterOf.complete_lt (h : ClusterOf past c) (hc : c.complete≠TICK_FUTURE) (hk : ∀ b∈past, b.tick<k) :
    c.complete<k := by
  obtain ⟨b,hb,hle⟩:=h.bound
  rcases h.closed with ⟨hfut,_⟩ | ⟨hmax,_⟩
  · exact (hc hfut).elim
  · rw [hmax]
    exact hle.trans_lt (hk b hb)

theorem Tracks.firstOutstanding_le (h : Tracks past t) (k : ℕ) : ∀ r∈t.outstandingReads, t.firstOutstanding k≤r.start := by
  intro r hr
  have hsorted:=h.sorted
  rw [ByteTracker.firstOutstanding]
  cases hl : t.outstandingReads with
  | nil =>
    rw [hl] at hr
    exact (not_mem_nil hr).elim
  | cons r0 reads =>
    rw [hl] at hr hsorted
    rcases mem_cons.mp hr with rfl | hr
    · exact le_rfl
    · exact ((pairwise_cons.mp hsorted).1 r hr).2.le

theorem Tracks.firstOutstanding_lt (hf : Formed TICK_FUTURE past) (h : Tracks past t) (hk : k<TICK_FUTURE) :
    t.firstOutstanding k<TICK_FUTURE := by
  rw [ByteTracker.firstOutstanding]
  cases hl : t.outstandingReads with
  | nil => exact hk
  | cons r reads => exact hf.tick_lt (h.reads r (by rw [hl]; exact mem_cons_self ..)).1

theorem Tracks.held_prune (hf : Formed TICK_FUTURE past) (h : Tracks past t) {clusters : List WriteCluster} (hb : before<TICK_FUTURE)
    (hle : ∀ r∈t.outstandingReads, before≤r.start)
    (hc : clusters=fromLastCompleted WriteCluster.complete before t.writeClusters)
    (hs : Held t s ∨ Dropped past t s) :
    (∃ c∈clusters, ∃ w∈c.writes, w.serial=s) ∨ ∃ e, .completeWrite s e∈past ∧ ∃ c∈clusters,
      c.complete≠TICK_FUTURE ∧ e<c.start ∧ ∀ r∈t.outstandingReads, c.complete<r.start := by
  obtain ⟨dropped,hsplit,hlast⟩:=fromLastCompleted_split WriteCluster.complete before t.writeClusters
  rw [← hc] at hsplit hlast
  rcases hlast with rfl | ⟨front,x,hfront,hx⟩
  · rw [append_nil] at hsplit
    rw [← hsplit]
    exact hs
  have hxmem : x∈clusters := by
    rw [hfront]
    exact mem_append_right _ (mem_singleton_self x)
  have hxreads : ∀ r∈t.outstandingReads, x.complete<r.start := fun r hr => hx.trans_le (hle r hr)
  have hxne : x.complete≠TICK_FUTURE := (hx.trans hb).ne
  -- a dropped cluster is complete before the one that is found has started
  have hdrop : ∀ c∈dropped, After x c := by
    have hord:=h.ordered
    rw [hsplit] at hord
    exact fun c hcd => (pairwise_append.mp hord).2.2 x hxmem c hcd
  have hmem : ∀ c∈t.writeClusters, c∈clusters ∨ c∈dropped := fun c hcm => by
    rw [hsplit] at hcm
    exact mem_append.mp hcm
  rcases hs with ⟨c,hct,w,hw,rfl⟩ | ⟨e,he,c,hct,hcne,hlt,hreads⟩
  · rcases hmem c hct with hcc | hcd
    · exact .inl ⟨c,hcc,w,hw,rfl⟩
    · obtain ⟨hcx,hcne⟩:=hdrop c hcd
      obtain ⟨hwle,hdone⟩:=(h.clusters c hct).le_complete hf hcne hw
      exact .inr ⟨w.complete,hdone,x,hxmem,hxne,hwle.trans_lt hcx,hxreads⟩
  · rcases hmem c hct with hcc | hcd
    · exact .inr ⟨e,he,c,hcc,hcne,hlt,hreads⟩
    · obtain ⟨hcx,_⟩:=hdrop c hcd
      obtain ⟨w,hw⟩:=(h.clusters c hct).exists_write hcne
      have hstart:=((h.clusters c hct).writes w hw).2
      have hwlt:=(((h.clusters c hct).writes w hw).1.lt hf).1
      have hwle:=((h.clusters c hct).le_complete hf hcne hw).1
      exact .inr ⟨e,he,x,hxmem,hxne,by omega,hxreads⟩

theorem pruneTransactions_eq (h : t.readObservations≠[]) (k : ℕ) : t.pruneTransactions k = .ok {t with
    readObservations := fromLastCompleted Transaction.complete (t.firstOutstanding k) t.readObservations
    writeClusters := fromLastCompleted WriteCluster.complete (t.firstOutstanding k) t.writeClusters} := by
  rw [ByteTracker.pruneTransactions,Checked.check,if_pos h]
  rfl

theorem Tracks.prune (hf : Formed TICK_FUTURE past) (h : Tracks past t) (hk : k<TICK_FUTURE) :
    ∃ t', t.pruneTransactions k = .ok t' ∧ Tracks past t' := by
  have hle:=h.firstOutstanding_le k
  have hlt:=h.firstOutstanding_lt hf hk
  have hobs:=fromLastCompleted_isPrefix Transaction.complete (t.firstOutstanding k) t.readObservations
  have hclu:=fromLastCompleted_isPrefix WriteCluster.complete (t.firstOutstanding k) t.writeClusters
  refine ⟨_,pruneTransactions_eq h.observed k,?_⟩
  refine ⟨fun c hc => h.clusters c (hclu.subset hc),h.ordered.sublist hclu.sublist,fun s k d hs ha => ?_,h.reads,
    h.outstanding,h.sorted,fromLastCompleted_ne_nil _ h.observed,fun o ho => h.observations o (hobs.subset ho),
    fun s k d hd => ?_,fun o ho r hr => ?_⟩
  · exact h.held_prune hf hlt hle rfl (h.held s k d hs ha)
  · dsimp only
    rw [fromLastCompleted_head]
    exact h.newest s k d hd
  · obtain ⟨dropped,hsplit,hlast⟩:=fromLastCompleted_split Transaction.complete (t.firstOutstanding k)
      t.readObservations
    rcases hlast with rfl | ⟨front,x,hfront,hx⟩
    · rw [append_nil] at hsplit
      exact h.oldest o (hsplit ▸ ho) r hr
    · dsimp only at ho
      rw [hfront,getLast?_concat] at ho
      cases ho
      exact (hx.trans_le (hle r hr)).le

theorem insertRead_last {r : Transaction} {reads : List Transaction} (h : ∀ r'∈reads, r'.serial<r.serial) :
    insertRead r reads=reads++[r] := by
  induction reads with
  | nil => rfl
  | cons r' reads ih =>
    have hlt:=h r' (mem_cons_self ..)
    rw [insertRead,if_neg (by omega),if_neg (by omega),ih fun a ha => h a (mem_cons_of_mem _ ha)]
    rfl

theorem not_finished_cons (hs : call.starts=true) (h : ¬Finished past s) : ¬Finished (call::past) s := by
  rintro ⟨b,hb,hser,hst⟩
  rcases mem_cons.mp hb with rfl | hb
  · exact Bool.false_ne_true (hst.symm.trans hs)
  · exact h ⟨b,hb,hser,hst⟩

theorem Tracks.startRead (h : Tracks past t) (ht : ∀ b∈past, b.tick<k) (hn : ∀ b∈past, b.serial<s) :
    Tracks (.startRead s k::past) (t.startRead s k) := by
  have hinsert : (t.startRead s k).outstandingReads=t.outstandingReads++[⟨s,k,TICK_FUTURE,0⟩] :=
    insertRead_last fun r hr => hn _ (h.reads r hr).1
  have hmem : ∀ r∈(t.startRead s k).outstandingReads, r∈t.outstandingReads ∨ r=⟨s,k,TICK_FUTURE,0⟩ := fun r hr => by
    rw [hinsert] at hr
    exact (mem_append.mp hr).imp id mem_singleton.mp
  refine ⟨fun c hc => (h.clusters c hc).cons ht (fun _ _ _ => nofun) (fun _ _ _ => nofun),h.ordered,fun s' k' d hs ha => ?_,
    fun r hr => ?_,fun s' k' hs hfin => ?_,?_,h.observed,fun o ho => ?_,fun s' k' d hd => ?_,fun o ho r hr => ?_⟩
  · rcases mem_cons.mp hs with he | hs
    · cases he
    · rcases h.held s' k' d hs fun e he => ha e (mem_cons_of_mem _ he) with hheld | ⟨e,he,c,hc,hcne,hlt,hreads⟩
      · exact .inl hheld
      · refine .inr ⟨e,mem_cons_of_mem _ he,c,hc,hcne,hlt,fun r hr => ?_⟩
        rcases hmem r hr with hr | rfl
        · exact hreads r hr
        · exact (h.clusters c hc).complete_lt hcne ht
  · rcases hmem r hr with hr | rfl
    · exact ⟨mem_cons_of_mem _ (h.reads r hr).1,not_finished_cons rfl (h.reads r hr).2⟩
    · refine ⟨mem_cons_self ..,not_finished_cons rfl ?_⟩
      rintro ⟨b,hb,hser,_⟩
      exact (Nat.ne_of_lt (hn b hb)) hser
  · rw [hinsert]
    rcases mem_cons.mp hs with he | hs
    · cases he
      exact ⟨_,mem_append_right _ (mem_singleton_self _),rfl⟩
    · obtain ⟨r,hr,hser⟩:=h.outstanding s' k' hs fun ⟨b,hb,hb'⟩ => hfin ⟨b,mem_cons_of_mem _ hb,hb'⟩
      exact ⟨r,mem_append_left _ hr,hser⟩
  · rw [hinsert]
    refine pairwise_append.mpr ⟨h.sorted,pairwise_singleton _ _,fun r hr r' hr' => ?_⟩
    rw [mem_singleton.mp hr']
    exact ⟨hn _ (h.reads r hr).1,ht _ (h.reads r hr).1⟩
  · exact (h.observations o ho).imp id fun hs => ⟨mem_cons_of_mem _ hs.1,mem_cons_of_mem _ hs.2⟩
  · rcases mem_cons.mp hd with he | hd
    · cases he
    · exact h.newest s' k' d hd
  · rcases hmem r hr with hr | rfl
    · exact h.oldest o ho r hr
    · rcases h.observations o (mem_of_getLast? ho) with rfl | ⟨_,hdone⟩
      · exact Nat.zero_le _
      · exact (ht _ hdone).le

theorem isComplete_iff : c.isComplete=true ↔ c.complete≠TICK_FUTURE := bne_iff_ne

theorem Tracks.getIncomplete (h : Tracks past t) : ∃ c older, t.getIncompleteWriteCluster=(c,older) ∧
    c.complete=TICK_FUTURE ∧ (t.writeClusters=c::older ∨ c = .new ∧ t.writeClusters=older) ∧
    ∀ c'∈older, c'.complete≠TICK_FUTURE := by
  have hord:=h.ordered
  rw [ByteTracker.getIncompleteWriteCluster]
  cases hl : t.writeClusters with
  | nil => exact ⟨_,_,rfl,rfl,.inr ⟨rfl,rfl⟩,fun c' hc' => (not_mem_nil hc').elim⟩
  | cons c older =>
    rw [hl] at hord
    have hold : ∀ c'∈older, c'.complete≠TICK_FUTURE := fun c' hc' => ((pairwise_cons.mp hord).1 c' hc').2
    dsimp only
    split
    · rename_i hc
      refine ⟨_,_,rfl,rfl,.inr ⟨rfl,rfl⟩,fun c' hc' => ?_⟩
      rcases mem_cons.mp hc' with rfl | hc'
      · exact isComplete_iff.mp hc
      · exact hold c' hc'
    · rename_i hc
      exact ⟨_,_,rfl,not_not.mp fun hne => hc (isComplete_iff.mpr hne),.inl rfl,hold⟩

theorem Tracks.getIncomplete_of_unfinished (h : Tracks past t) (hs : .startWrite s k d∈past) (hfin : ¬Finished past s) :
    ∃ c older w, t.getIncompleteWriteCluster=(c,older) ∧ t.writeClusters=c::older ∧ c.complete=TICK_FUTURE ∧
      ClusterOf past c ∧ w∈c.writes ∧ w.serial=s ∧ w.complete=TICK_FUTURE ∧ ∀ c'∈older, c'.complete≠TICK_FUTURE := by
  obtain ⟨c,older,hget,hc,hlist,hold⟩:=h.getIncomplete
  rcases h.held s k d hs fun e he => hfin ⟨_,he,rfl,rfl⟩ with ⟨c1,hc1,w,hw,rfl⟩ | ⟨e,he,_⟩
  · have hof:=h.clusters c1 hc1
    have hwf : w.complete=TICK_FUTURE := by
      rcases (hof.writes w hw).1.complete with ⟨hfut,_⟩ | hdone
      · exact hfut
      · exact (hfin ⟨_,hdone,rfl,rfl⟩).elim
    have hinc:=hof.complete_eq hw hwf
    rcases hlist with hlist | ⟨_,hlist⟩
    · rw [hlist] at hc1
      rcases mem_cons.mp hc1 with rfl | hc1
      · exact ⟨c1,older,w,hget,hlist,hc,hof,hw,rfl,hwf,hold⟩
      · exact (hold c1 hc1 hinc).elim
    · rw [hlist] at hc1
      exact (hold c1 hc1 hinc).elim
  · exact (hfin ⟨_,he,rfl,rfl⟩).elim

theorem Tracks.replace {older : List WriteCluster} (h : Tracks past t)
    (hlist : t.writeClusters=c::older ∨ c = .new ∧ t.writeClusters=older) (hinc : c.complete=TICK_FUTURE)
    (hc' : ClusterOf (call::past) c') (hold : ∀ c1∈older, ClusterOf (call::past) c1)
    (hafter : ∀ c1∈older, After c' c1) (hread : ∀ s' k', .startRead s' k'∈call::past →
      .startRead s' k'∈past ∧ (Finished (call::past) s' ↔ Finished past s'))
    (hdone : ∀ s' k' d', call ≠ .completeRead s' k' d')
    (hheld : ∀ s' k' d', .startWrite s' k' d'∈call::past → (∀ e, .abortWrite s' e∉call::past) →
      (∃ w∈c'.writes, w.serial=s') ∨ .startWrite s' k' d'∈past ∧ ∀ w∈c.writes, w.serial≠s') :
    Tracks (call::past) {t with writeClusters := c'::older} := by
  have hmem : ∀ c1∈t.writeClusters, c1=c ∨ c1∈older := fun c1 hc1 => by
    rcases hlist with hl | ⟨_,hl⟩
    · rw [hl] at hc1
      exact mem_cons.mp hc1
    · exact .inr (hl ▸ hc1)
  refine ⟨fun c1 hc1 => ?_,?_,fun s' k' d' hs ha => ?_,fun r hr => ?_,fun s' k' hs hfin => ?_,h.sorted,h.observed,
    fun o ho => ?_,fun s' k' d' hd => ?_,h.oldest⟩
  · rcases mem_cons.mp hc1 with rfl | hc1
    · exact hc'
    · exact hold c1 hc1
  · refine pairwise_cons.mpr ⟨hafter,?_⟩
    have hord:=h.ordered
    rcases hlist with hl | ⟨_,hl⟩
    · rw [hl] at hord
      exact (pairwise_cons.mp hord).2
    · rw [hl] at hord
      exact hord
  · rcases hheld s' k' d' hs ha with ⟨w,hw,hser⟩ | ⟨hs',hnot⟩
    · exact .inl ⟨c',mem_cons_self ..,w,hw,hser⟩
    · rcases h.held s' k' d' hs' fun e he => ha e (mem_cons_of_mem _ he) with
        ⟨c1,hc1,w,hw,hser⟩ | ⟨e,he,c1,hc1,hne,hlt,hreads⟩
      · rcases hmem c1 hc1 with rfl | hc1
        · exact (hnot w hw hser).elim
        · exact .inl ⟨c1,mem_cons_of_mem _ hc1,w,hw,hser⟩
      · rcases hmem c1 hc1 with rfl | hc1
        · exact (hne hinc).elim
        · exact .inr ⟨e,mem_cons_of_mem _ he,c1,mem_cons_of_mem _ hc1,hne,hlt,hreads⟩
  · obtain ⟨hs,hfin⟩:=h.reads r hr
    have hs':=mem_cons_of_mem call hs
    exact ⟨hs',fun hf => hfin ((hread _ _ hs').2.mp hf)⟩
  · obtain ⟨hs',hiff⟩:=hread s' k' hs
    exact h.outstanding s' k' hs' fun hf => hfin (hiff.mpr hf)
  · exact (h.observations o ho).imp id fun hs => ⟨mem_cons_of_mem _ hs.1,mem_cons_of_mem _ hs.2⟩
  · rcases mem_cons.mp hd with he | hd
    · exact (hdone s' k' d' he.symm).elim
    · exact h.newest s' k' d' hd

theorem finished_cons_iff (hf : Formed TICK_FUTURE past) {s' k' : ℕ} (hs : .startRead s' k'∈past)
    (hw : .startWrite call.serial k d∈past) : Finished (call::past) s' ↔ Finished past s' := by
  constructor
  · rintro ⟨b,hb,hser,hst⟩
    rcases mem_cons.mp hb with rfl | hb
    · have he:=hf.unique hs hw hser.symm rfl
      cases he
    · exact ⟨b,hb,hser,hst⟩
  · rintro ⟨b,hb,hb'⟩
    exact ⟨b,mem_cons_of_mem _ hb,hb'⟩

theorem WriteCluster.insert_new {w : Transaction} (h : ∀ w'∈c.writes, w'.serial≠w.serial) :
    c.insert w={c with writes := w::c.writes} := by
  rw [WriteCluster.insert,if_neg]
  rw [any_eq_true]
  rintro ⟨w',hw',he⟩
  exact h w' hw' (of_decide_eq_true he)

theorem startWrite_ok (hc : c.complete=TICK_FUTURE) (hs : c.start=TICK_FUTURE ∨ c.start≤k)
    (hw : ∀ w∈c.writes, w.serial≠s) : c.startWrite s k d = .ok {c with
      start := if c.start=TICK_FUTURE then k else c.start
      complete := TICK_FUTURE
      writes := ⟨s,k,TICK_FUTURE,d⟩::c.writes
      numIncomplete := c.numIncomplete+1} := by
  have hcomp : c.isComplete=false := Bool.eq_false_iff.mpr fun h => isComplete_iff.mp h hc
  have hreopen : c.complete≠TICK_FUTURE → k<c.complete := fun hne => (hne hc).elim
  have hfilled : (if c.start=TICK_FUTURE then {c with start := k} else c) =
      {c with start := if c.start=TICK_FUTURE then k else c.start} := by
    split <;> rfl
  have hstart : (if c.start=TICK_FUTURE then k else c.start)≤k := by
    split
    · exact le_rfl
    · exact hs.resolve_left ‹_›
  unfold WriteCluster.startWrite Checked.check
  rw [if_pos hcomp,hfilled]
  dsimp only [bind,Except.bind]
  rw [if_pos hstart]
  dsimp only
  rw [if_pos hreopen]
  exact congrArg Except.ok (WriteCluster.insert_new hw)

theorem ClusterOf.startWrite {started : ℕ} {l : List Transaction} {m n : ℕ} (ht : ∀ b∈past, b.tick<k) (hn : ∀ b∈past, b.serial<s)
    (hl : ∀ w∈l, WriteOf past w ∧ started≤w.start) (hle : started≤k)
    (hnodup : (l.map (·.serial)).Nodup) (hcount : n=l.countP (·.complete=TICK_FUTURE))
    (hmax : ∀ w∈l, w.complete≠TICK_FUTURE → w.complete ≤ m) (hm : m≤k)
    (hlinked : ∀ w∈l, ∀ w'∈l, w.start<w'.start → Open past w'.start) (hclosed : n=0 → l=[]) (hnext : Formed TICK_FUTURE past) :
    ClusterOf (.startWrite s k d::past) ⟨started,TICK_FUTURE,⟨s,k,TICK_FUTURE,d⟩::l,m,n+1⟩ := by
  have hfresh : ∀ w∈l, w.serial<s := fun w hw => hn _ (hl w hw).1.started
  refine ⟨⟨_,mem_cons_self ..,hle⟩,fun w hw => ?_,?_,?_,fun w hw hne => ?_,⟨_,mem_cons_self ..,hm⟩,
    .inl ⟨rfl,nofun⟩,fun w hw w' hw' hlt => ?_⟩
  · rcases mem_cons.mp hw with rfl | hw
    · refine ⟨⟨mem_cons_self ..,fun e he => ?_,.inl ⟨rfl,fun e he => ?_⟩⟩,hle⟩
      · rcases mem_cons.mp he with he | he
        · cases he
        · exact (Nat.ne_of_lt (hn _ he)) rfl
      · rcases mem_cons.mp he with he | he
        · cases he
        · exact (Nat.ne_of_lt (hn _ he)) rfl
    · exact ⟨(hl w hw).1.cons (fun _ => nofun) (fun _ => nofun),(hl w hw).2⟩
  · refine nodup_cons.mpr ⟨fun hmem => ?_,hnodup⟩
    obtain ⟨w,hw,he⟩:=mem_map.mp hmem
    exact (Nat.ne_of_lt (hfresh w hw)) he
  · dsimp only
    rw [countP_cons,hcount]
    rfl
  · rcases mem_cons.mp hw with rfl | hw
    · exact (hne rfl).elim
    · exact hmax w hw hne
  · rcases mem_cons.mp hw' with rfl | hw'
    · -- the cluster has an open write
      have hpos : 0<l.countP (·.complete=TICK_FUTURE) := by
        rcases mem_cons.mp hw with rfl | hw
        · exact (lt_irrefl _ hlt).elim
        · exact Nat.pos_of_ne_zero fun h0 => ne_nil_of_mem hw (hclosed (hcount.trans h0))
      obtain ⟨u,hu,hfut⟩:=countP_pos_iff.mp hpos
      have hof:=(hl u hu).1
      refine ⟨_,mem_cons_of_mem _ hof.started,rfl,ht _ hof.started,fun f hf hser hst => ?_⟩
      rcases mem_cons.mp hf with rfl | hf
      · cases hst
      · exact (hof.not_finished (of_decide_eq_true hfut) hnext ⟨f,hf,hser,hst⟩).elim
    · rcases mem_cons.mp hw with rfl | hw
      · exact absurd (ht _ (hl w' hw').1.started) (Nat.lt_asymm hlt)
      · exact (hlinked w hw w' hw' hlt).cons (ht _ (hl w' hw').1.started)

theorem Tracks.startWrite (hf : Formed TICK_FUTURE past) (h : Tracks past t) (ht : ∀ b∈past, b.tick<k) (hk : k≤TICK_FUTURE)
    (hn : ∀ b∈past, b.serial<s) : ∃ t', t.startWrite s k d = .ok t' ∧ Tracks (.startWrite s k d::past) t' := by
  obtain ⟨c,older,hget,hinc,hlist,hold⟩:=h.getIncomplete
  have hmemold : ∀ c1∈older, c1∈t.writeClusters := fun c1 hc1 => by
    rcases hlist with hl | ⟨_,hl⟩
    · rw [hl]
      exact mem_cons_of_mem _ hc1
    · rw [hl]
      exact hc1
  have hread : ∀ s' k', .startRead s' k'∈Call.startWrite s k d::past →
      .startRead s' k'∈past ∧ (Finished (.startWrite s k d::past) s' ↔ Finished past s') := fun s' k' hs => by
    rcases mem_cons.mp hs with he | hs
    · cases he
    · refine ⟨hs,fun ⟨b,hb,hser,hst⟩ => ?_,fun ⟨b,hb,hb'⟩ => ⟨b,mem_cons_of_mem _ hb,hb'⟩⟩
      rcases mem_cons.mp hb with rfl | hb
      · cases hst
      · exact ⟨b,hb,hser,hst⟩
  have holdnew : ∀ c1∈older, ClusterOf (.startWrite s k d::past) c1 := fun c1 hc1 =>
    (h.clusters c1 (hmemold c1 hc1)).cons ht (fun _ _ _ => nofun) (fun _ _ _ => nofun)
  have hheld : ∀ s' k' d', .startWrite s' k' d'∈Call.startWrite s k d::past → s'=s ∨
      .startWrite s' k' d'∈past := fun s' k' d' hs => by
    rcases mem_cons.mp hs with he | hs
    · cases he
      exact .inl rfl
    · exact .inr hs
  rcases hlist with hl | ⟨rfl,hl⟩
  · have hc:=h.clusters c (by rw [hl]; exact mem_cons_self ..)
    obtain ⟨b,hb,hstart⟩:=hc.start
    obtain ⟨b',hb',hmax⟩:=hc.bound
    have hbk:=ht b hb
    have hbk':=ht b' hb'
    have hstartne : c.start≠TICK_FUTURE := by omega
    have hok:=startWrite_ok (d := d) hinc (.inr (hstart.trans hbk.le)) (s := s) fun w hw =>
      Nat.ne_of_lt (hn _ (hc.writes w hw).1.started)
    rw [if_neg hstartne] at hok
    refine ⟨_,by rw [ByteTracker.startWrite,hget]; dsimp only; rw [hok]; rfl,?_⟩
    have hclosed : c.numIncomplete=0 → c.writes=[] := by
      rcases hc.closed with ⟨_,h0⟩ | ⟨hmax',_⟩
      · exact h0
      · have hlt:=hc.completeMax_lt hf
        omega
    have hc' : ClusterOf (.startWrite s k d::past) ⟨c.start,TICK_FUTURE,⟨s,k,TICK_FUTURE,d⟩::c.writes,c.completeMax,
        c.numIncomplete+1⟩ :=
      ClusterOf.startWrite ht hn hc.writes (by omega) hc.nodup hc.count hc.max (by omega) hc.linked hclosed hf
    refine h.replace (.inl hl) hinc hc' holdnew (fun c1 hc1 => ?_) hread (fun _ _ _ => nofun) fun s' k' d' hs ha => ?_
    · have hord:=h.ordered
      rw [hl] at hord
      exact (pairwise_cons.mp hord).1 c1 hc1
    · rcases hheld s' k' d' hs with rfl | hs
      · exact .inl ⟨_,mem_cons_self ..,rfl⟩
      · by_cases hw : ∃ w∈c.writes, w.serial=s'
        · obtain ⟨w,hw,he⟩:=hw
          exact .inl ⟨w,mem_cons_of_mem _ hw,he⟩
        · exact .inr ⟨hs,fun w hw' he => hw ⟨w,hw',he⟩⟩
  · have hok:=startWrite_ok (d := d) (c := .new) (k := k) (s := s) rfl (.inl rfl) fun w hw => (not_mem_nil hw).elim
    rw [if_pos (show WriteCluster.new.start=TICK_FUTURE from rfl)] at hok
    refine ⟨_,by rw [ByteTracker.startWrite,hget]; dsimp only; rw [hok]; rfl,?_⟩
    have hc' : ClusterOf (.startWrite s k d::past) ⟨k,TICK_FUTURE,[⟨s,k,TICK_FUTURE,d⟩],TICK_INITIAL,0+1⟩ :=
      ClusterOf.startWrite ht hn (fun w hw => (not_mem_nil hw).elim) le_rfl nodup_nil rfl
        (fun w hw => (not_mem_nil hw).elim) (Nat.zero_le _) (fun w hw => (not_mem_nil hw).elim) (fun _ => rfl) hf
    refine h.replace (c := .new) (.inr ⟨rfl,hl⟩) rfl hc' holdnew (fun c1 hc1 => ?_) hread (fun _ _ _ => nofun)
      fun s' k' d' hs ha => ?_
    · exact ⟨(h.clusters c1 (hmemold c1 hc1)).complete_lt (hold c1 hc1) ht,hold c1 hc1⟩
    · rcases hheld s' k' d' hs with rfl | hs
      · exact .inl ⟨_,mem_cons_self ..,rfl⟩
      · exact .inr ⟨hs,fun w hw' => (not_mem_nil hw').elim⟩

theorem ClusterOf.split (h : ClusterOf past c) (hw : w∈c.writes) : ∃ a b, c.writes=a++w::b ∧
    (∀ w'∈a, w'.serial≠w.serial) ∧ ∀ w'∈b, w'.serial≠w.serial := by
  obtain ⟨a,b,hab⟩:=append_of_mem hw
  have hnd:=h.nodup
  rw [hab,map_append,map_cons,nodup_append] at hnd
  obtain ⟨_,hb,hdis⟩:=hnd
  refine ⟨a,b,hab,fun w' hw' => hdis _ (mem_map_of_mem hw') _ (mem_cons_self ..),fun w' hw' he => ?_⟩
  exact (nodup_cons.mp hb).1 (he ▸ mem_map_of_mem hw')

theorem find_split {a b : List Transaction} (ha : ∀ w'∈a, w'.serial≠w.serial) :
    (a++w::b).find? (·.serial=w.serial)=some w := by
  rw [find?_append,find?_eq_none.mpr fun w' hw' he => ha w' hw' (of_decide_eq_true he),Option.none_or]
  exact find?_cons_of_pos (by simp)

theorem ClusterOf.completeWrite_eq (h : ClusterOf past c) (hw : w∈c.writes) (hfut : w.complete=TICK_FUTURE) (k : ℕ) :
    c.completeWrite w.serial k = .ok (if (c.setComplete w.serial k).numIncomplete=0 then
      {c.setComplete w.serial k with complete := (c.setComplete w.serial k).completeMax}
      else c.setComplete w.serial k) := by
  obtain ⟨a,b,hab,ha,_⟩:=h.split hw
  rw [WriteCluster.completeWrite,hab,find_split ha]
  dsimp only
  rw [Checked.check,if_pos hfut]
  rfl

theorem ClusterOf.completeWrite (h : ClusterOf past c) (hinc : c.complete=TICK_FUTURE) (hw : w∈c.writes)
    (hfut : w.complete=TICK_FUTURE) (ht : ∀ b∈past, b.tick<k) (hk : k<TICK_FUTURE) :
    ∃ c', c.completeWrite w.serial k = .ok c' ∧ ClusterOf (.completeWrite w.serial k::past) c' ∧ c'.start=c.start ∧
      ∀ w'∈c.writes, ∃ w''∈c'.writes, w''.serial=w'.serial := by
  obtain ⟨a,b,hab,ha,hb⟩:=h.split hw
  obtain ⟨b1,hb1,hstart⟩:=h.start
  obtain ⟨b2,hb2,hmax⟩:=h.bound
  have hbk:=ht b2 hb2
  have hmap : c.setComplete w.serial k={c with
      writes := a++{w with complete := k}::b
      completeMax := k
      numIncomplete := c.numIncomplete-1} := by
    have hid : ∀ l : List Transaction, (∀ w'∈l, w'.serial≠w.serial) →
        l.map (fun w' => if w'.serial=w.serial then {w' with complete := k} else w')=l := fun l hl =>
      (map_congr_left fun w' hw' => if_neg (hl w' hw')).trans (map_id _)
    rw [WriteCluster.setComplete,hab,map_append,map_cons,hid a ha,hid b hb,if_pos rfl,if_pos (by omega)]
  have hcount : c.numIncomplete-1=(a++{w with complete := k}::b).countP (·.complete=TICK_FUTURE) := by
    rw [h.count,hab,countP_append,countP_append,countP_cons_of_pos (by simpa using hfut),
      countP_cons_of_neg (by simpa using hk.ne)]
    omega
  have hwrites : ∀ w'∈a++{w with complete := k}::b,
      WriteOf (.completeWrite w.serial k::past) w' ∧ c.start≤w'.start := fun w' hw' => by
    have hother : w'∈c.writes → w'.serial≠w.serial →
        WriteOf (.completeWrite w.serial k::past) w' ∧ c.start≤w'.start := fun hmem hne =>
      ⟨(h.writes w' hmem).1.cons (fun _ => nofun) (fun _ he => hne (Call.completeWrite.inj he).1.symm),
        (h.writes w' hmem).2⟩
    rcases mem_append.mp hw' with hw' | hw'
    · exact hother (hab ▸ mem_append_left _ hw') (ha w' hw')
    · rcases mem_cons.mp hw' with rfl | hw'
      · obtain ⟨hwof,hle⟩:=h.writes w hw
        refine ⟨⟨mem_cons_of_mem _ hwof.started,fun e he => ?_,.inr (mem_cons_self ..)⟩,hle⟩
        rcases mem_cons.mp he with he | he
        · cases he
        · exact hwof.kept e he
      · exact hother (hab ▸ mem_append_right _ (mem_cons_of_mem _ hw')) (hb w' hw')
  have hnodup : ((a++{w with complete := k}::b).map (·.serial)).Nodup := by
    have hnd:=h.nodup
    rw [hab] at hnd
    rw [map_append,map_cons] at hnd ⊢
    exact hnd
  have hmaxk : ∀ w'∈a++{w with complete := k}::b, w'.complete≠TICK_FUTURE → w'.complete≤k := fun w' hw' hne => by
    rcases mem_append.mp hw' with hw' | hw'
    · exact (h.max w' (hab ▸ mem_append_left _ hw') hne).trans (hmax.trans hbk.le)
    · rcases mem_cons.mp hw' with rfl | hw'
      · exact le_rfl
      · exact (h.max w' (hab ▸ mem_append_right _ (mem_cons_of_mem _ hw')) hne).trans (hmax.trans hbk.le)
  have hkeep : ∀ w'∈c.writes, ∃ w''∈a++{w with complete := k}::b, w''.serial=w'.serial := fun w' hw' => by
    rw [hab] at hw'
    rcases mem_append.mp hw' with hw' | hw'
    · exact ⟨w',mem_append_left _ hw',rfl⟩
    · rcases mem_cons.mp hw' with rfl | hw'
      · exact ⟨_,mem_append_right _ (mem_cons_self ..),rfl⟩
      · exact ⟨w',mem_append_right _ (mem_cons_of_mem _ hw'),rfl⟩
  have hlinked : ∀ w1∈a++{w with complete := k}::b, ∀ w2∈a++{w with complete := k}::b,
      w1.start<w2.start → Open (.completeWrite w.serial k::past) w2.start := fun w1 hw1 w2 hw2 hlt => by
    have hstarts : ∀ w'∈a++{w with complete := k}::b, ∃ w''∈c.writes, w''.start=w'.start := fun w' hw' => by
      rw [hab]
      rcases mem_append.mp hw' with hw' | hw'
      · exact ⟨w',mem_append_left _ hw',rfl⟩
      · rcases mem_cons.mp hw' with rfl | hw'
        · exact ⟨w,mem_append_right _ (mem_cons_self ..),rfl⟩
        · exact ⟨w',mem_append_right _ (mem_cons_of_mem _ hw'),rfl⟩
    obtain ⟨v1,hv1,he1⟩:=hstarts w1 hw1
    obtain ⟨v2,hv2,he2⟩:=hstarts w2 hw2
    rw [← he1,← he2] at hlt
    rw [← he2]
    exact (h.linked v1 hv1 v2 hv2 hlt).cons (ht _ (h.writes v2 hv2).1.started)
  have hb1' : ∃ b∈Call.completeWrite w.serial k::past, c.start≤b.tick := ⟨b1,mem_cons_of_mem _ hb1,hstart⟩
  have hbound : ∃ b∈Call.completeWrite w.serial k::past, k≤b.tick := ⟨_,mem_cons_self ..,le_rfl⟩
  rw [h.completeWrite_eq hw hfut,hmap]
  by_cases hzero : c.numIncomplete-1=0
  · rw [if_pos hzero]
    exact ⟨_,rfl,⟨hb1',hwrites,hnodup,hcount,hmaxk,hbound,
      .inr ⟨rfl,hzero,append_ne_nil_of_right_ne_nil _ nofun⟩,hlinked⟩,rfl,hkeep⟩
  · rw [if_neg hzero]
    exact ⟨_,rfl,⟨hb1',hwrites,hnodup,hcount,hmaxk,hbound,.inl ⟨hinc,fun h0 => (hzero h0).elim⟩,hlinked⟩,rfl,hkeep⟩

theorem ClusterOf.abortWrite (h : ClusterOf past c) (hinc : c.complete=TICK_FUTURE) (hw : w∈c.writes)
    (hfut : w.complete=TICK_FUTURE) (ht : ∀ b∈past, b.tick<k) : ClusterOf (.abortWrite w.serial k::past) (c.abortWrite w.serial) ∧
      (c.abortWrite w.serial).start=c.start ∧
      ∀ w'∈c.writes, w'.serial≠w.serial → w'∈(c.abortWrite w.serial).writes := by
  obtain ⟨a,b,hab,ha,hb⟩:=h.split hw
  obtain ⟨b1,hb1,hstart⟩:=h.start
  obtain ⟨b2,hb2,hbd⟩:=h.bound
  have hfilter : c.erase w.serial={c with writes := a++b, numIncomplete := c.numIncomplete-1} := by
    have hid : ∀ l : List Transaction, (∀ w'∈l, w'.serial≠w.serial) → l.filter (·.serial≠w.serial)=l :=
      fun l hl => filter_eq_self.mpr fun w' hw' => decide_eq_true (hl w' hw')
    rw [WriteCluster.erase,hab,filter_append,hid a ha,filter_cons_of_neg (by simp),hid b hb]
  have hsub : ∀ w'∈a++b, w'∈c.writes ∧ w'.serial≠w.serial := fun w' hw' => by
    rw [hab]
    rcases mem_append.mp hw' with hw' | hw'
    · exact ⟨mem_append_left _ hw',ha w' hw'⟩
    · exact ⟨mem_append_right _ (mem_cons_of_mem _ hw'),hb w' hw'⟩
  have hcount : c.numIncomplete-1=(a++b).countP (·.complete=TICK_FUTURE) := by
    rw [h.count,hab,countP_append,countP_append,countP_cons_of_pos (by simpa using hfut)]
    omega
  have hwrites : ∀ w'∈a++b, WriteOf (.abortWrite w.serial k::past) w' ∧ c.start≤w'.start := fun w' hw' => by
    obtain ⟨hmem,hne⟩:=hsub w' hw'
    exact ⟨(h.writes w' hmem).1.cons (fun _ he => hne (Call.abortWrite.inj he).1.symm) (fun _ => nofun),
      (h.writes w' hmem).2⟩
  have hnodup : ((a++b).map (·.serial)).Nodup := by
    have hnd:=h.nodup
    rw [hab] at hnd
    exact hnd.sublist (((sublist_cons_self w b).append_left a).map _)
  have hmax : ∀ w'∈a++b, w'.complete≠TICK_FUTURE → w'.complete≤c.completeMax := fun w' hw' =>
    h.max w' (hsub w' hw').1
  have hkeep : ∀ w'∈c.writes, w'.serial≠w.serial → w'∈a++b := fun w' hw' hne => by
    rw [hab] at hw'
    rcases mem_append.mp hw' with hw' | hw'
    · exact mem_append_left _ hw'
    · rcases mem_cons.mp hw' with rfl | hw'
      · exact (hne rfl).elim
      · exact mem_append_right _ hw'
  have hlinked : ∀ w1∈a++b, ∀ w2∈a++b, w1.start<w2.start → Open (.abortWrite w.serial k::past) w2.start :=
    fun w1 hw1 w2 hw2 hlt => (h.linked w1 (hsub w1 hw1).1 w2 (hsub w2 hw2).1 hlt).cons
      (ht _ (h.writes w2 (hsub w2 hw2).1).1.started)
  have hb1' : ∃ b∈Call.abortWrite w.serial k::past, c.start≤b.tick := ⟨b1,mem_cons_of_mem _ hb1,hstart⟩
  have hbound : ∃ b∈Call.abortWrite w.serial k::past, c.completeMax≤b.tick := ⟨b2,mem_cons_of_mem _ hb2,hbd⟩
  have hany : c.writes.any (·.serial=w.serial)=true := any_eq_true.mpr ⟨w,hw,decide_eq_true rfl⟩
  rw [WriteCluster.abortWrite,if_pos hany,hfilter]
  by_cases hzero : c.numIncomplete-1=0 ∧ a++b≠[]
  · rw [if_pos hzero]
    exact ⟨⟨hb1',hwrites,hnodup,hcount,hmax,hbound,.inr ⟨rfl,hzero⟩,hlinked⟩,rfl,hkeep⟩
  · rw [if_neg hzero]
    exact ⟨⟨hb1',hwrites,hnodup,hcount,hmax,hbound,.inl ⟨hinc,fun h0 => by_contra fun hne => hzero ⟨h0,hne⟩⟩,hlinked⟩,rfl,
      hkeep⟩

theorem Tracks.endWrite (hf : Formed TICK_FUTURE past) (h : Tracks past t) {older : List WriteCluster}
    (ht : ∀ b∈past, b.tick<call.tick) (hs : .startWrite call.serial k d∈past) (hlist : t.writeClusters=c::older) (hinc : c.complete=TICK_FUTURE)
    (hcall : (∃ e, call = .completeWrite call.serial e) ∨ ∃ e, call = .abortWrite call.serial e)
    (hold : ∀ c1∈older, c1.complete≠TICK_FUTURE) (hfin : ¬Finished past call.serial)
    (hc' : ClusterOf (call::past) c') (hstart : c'.start=c.start)
    (hkeep : ∀ w'∈c.writes, (∀ e, .abortWrite w'.serial e∉call::past) → ∃ w''∈c'.writes, w''.serial=w'.serial) :
    Tracks (call::past) {t with writeClusters := c'::older} := by
  have hord:=h.ordered
  rw [hlist] at hord
  obtain ⟨hafter,_⟩:=pairwise_cons.mp hord
  -- the write is in no older cluster, since those are complete
  have hnot : ∀ c1∈older, ∀ w'∈c1.writes, w'.serial≠call.serial := fun c1 hc1 w' hw' he => by
    have hof:=h.clusters c1 (by rw [hlist]; exact mem_cons_of_mem _ hc1)
    obtain ⟨_,hdone⟩:=hof.le_complete hf (hold c1 hc1) hw'
    exact hfin ⟨_,hdone,he,rfl⟩
  refine h.replace (.inl hlist) hinc hc' (fun c1 hc1 => ?_) (fun c1 hc1 => ?_) (fun s' k' hs' => ?_) (fun s' k' d' he => ?_)
    fun s' k' d' hs' ha => ?_
  · refine (h.clusters c1 (by rw [hlist]; exact mem_cons_of_mem _ hc1)).cons ht (fun w' hw' e he => ?_)
      fun w' hw' e he => ?_
    · exact hnot c1 hc1 w' hw' (congrArg Call.serial he).symm
    · exact hnot c1 hc1 w' hw' (congrArg Call.serial he).symm
  · exact ⟨hstart ▸ (hafter c1 hc1).1,(hafter c1 hc1).2⟩
  · rcases mem_cons.mp hs' with he | hs'
    · rcases hcall with ⟨e,hc⟩ | ⟨e,hc⟩
      · exact nomatch he.trans hc
      · exact nomatch he.trans hc
    · exact ⟨hs',finished_cons_iff hf hs' hs⟩
  · rcases hcall with ⟨e,hc⟩ | ⟨e,hc⟩
    · exact nomatch hc.symm.trans he
    · exact nomatch hc.symm.trans he
  · rcases mem_cons.mp hs' with he | hs'
    · rcases hcall with ⟨e,hc⟩ | ⟨e,hc⟩
      · exact nomatch he.trans hc
      · exact nomatch he.trans hc
    · by_cases hin : ∃ w'∈c.writes, w'.serial=s'
      · obtain ⟨w',hw',rfl⟩:=hin
        exact .inl (hkeep w' hw' ha)
      · exact .inr ⟨hs',fun w' hw' he => hin ⟨w',hw',he⟩⟩

theorem Tracks.completeWrite (hf : Formed TICK_FUTURE past) (h : Tracks past t) (ht : ∀ b∈past, b.tick<k) (hk : k<TICK_FUTURE)
    (hn : Next past (.completeWrite s k)) :
    ∃ t', t.completeWrite s k k = .ok t' ∧ Tracks (.completeWrite s k::past) t' := by
  obtain ⟨⟨k0,d0,hs⟩,hfin⟩:=hn
  obtain ⟨c,older,w,hget,hlist,hinc,hc,hw,rfl,hfut,hold⟩:=h.getIncomplete_of_unfinished hs hfin
  obtain ⟨c',hrun,hc',hstart,hkeep⟩:=hc.completeWrite hinc hw hfut ht hk
  have htracks : Tracks (.completeWrite w.serial k::past) {t with writeClusters := c'::older} :=
    h.endWrite hf ht hs hlist hinc (.inl ⟨k,rfl⟩) hold hfin hc' hstart fun w' hw' _ => hkeep w' hw'
  have hf' : Formed TICK_FUTURE (.completeWrite w.serial k::past) := ⟨ht,hk,⟨⟨k0,d0,hs⟩,hfin⟩,hf⟩
  obtain ⟨t',hprune,ht'⟩:=htracks.prune hf' hk
  refine ⟨t',?_,ht'⟩
  rw [ByteTracker.completeWrite,hget]
  dsimp only
  rw [hrun]
  exact hprune

theorem Tracks.abortWrite (hf : Formed TICK_FUTURE past) (h : Tracks past t) (ht : ∀ b∈past, b.tick<k) (hn : Next past (.abortWrite s k)) :
    Tracks (.abortWrite s k::past) (t.abortWrite s) := by
  obtain ⟨⟨k0,d0,hs⟩,hfin⟩:=hn
  obtain ⟨c,older,w,hget,hlist,hinc,hc,hw,rfl,hfut,hold⟩:=h.getIncomplete_of_unfinished hs hfin
  obtain ⟨hc',hstart,hkeep⟩:=hc.abortWrite hinc hw hfut ht
  rw [ByteTracker.abortWrite,hget]
  refine h.endWrite hf ht hs hlist hinc (.inr ⟨k,rfl⟩) hold hfin hc' hstart fun w' hw' ha => ?_
  refine ⟨w',hkeep w' hw' fun he => ?_,rfl⟩
  exact ha k (he ▸ mem_cons_self ..)

theorem Tracks.observe (h : Tracks past t) (ht : ∀ b∈past, b.tick<k) {r : Transaction}
    (hr : r∈t.outstandingReads) (expected : List UInt8) :
    Tracks (.completeRead r.serial k d::past) {t with
      outstandingReads := t.outstandingReads.filter (·.serial≠r.serial)
      readObservations := ⟨r.serial,r.start,k,d⟩::t.readObservations
      lastExpectedData := expected} := by
  have hstarted:=(h.reads r hr).1
  have hne : t.readObservations≠[] := h.observed
  refine ⟨fun c hc => (h.clusters c hc).cons ht (fun _ _ _ => nofun) (fun _ _ _ => nofun),h.ordered,fun s' k' d' hs ha => ?_,
    fun r' hr' => ?_,fun s' k' hs hfin => ?_,h.sorted.sublist filter_sublist,nofun,fun o ho => ?_,
    fun s' k' d' hd => ?_,fun o ho r' hr' => ?_⟩
  · rcases mem_cons.mp hs with he | hs
    · cases he
    · rcases h.held s' k' d' hs fun e he => ha e (mem_cons_of_mem _ he) with hheld | ⟨e,he,c,hc,hcne,hlt,hreads⟩
      · exact .inl hheld
      · exact .inr ⟨e,mem_cons_of_mem _ he,c,hc,hcne,hlt,fun r' hr' => hreads r' (mem_of_mem_filter hr')⟩
  · obtain ⟨hmem,hser⟩:=mem_filter.mp hr'
    obtain ⟨hs,hfin⟩:=h.reads r' hmem
    refine ⟨mem_cons_of_mem _ hs,fun ⟨b,hb,hbs,hbst⟩ => ?_⟩
    rcases mem_cons.mp hb with rfl | hb
    · exact (of_decide_eq_true hser) hbs.symm
    · exact hfin ⟨b,hb,hbs,hbst⟩
  · rcases mem_cons.mp hs with he | hs
    · cases he
    · obtain ⟨r',hr',hser⟩:=h.outstanding s' k' hs fun ⟨b,hb,hb'⟩ => hfin ⟨b,mem_cons_of_mem _ hb,hb'⟩
      refine ⟨r',mem_filter.mpr ⟨hr',decide_eq_true fun he => hfin ?_⟩,hser⟩
      exact ⟨_,mem_cons_self ..,he.symm.trans hser,rfl⟩
  · rcases mem_cons.mp ho with rfl | ho
    · exact .inr ⟨mem_cons_of_mem _ hstarted,mem_cons_self ..⟩
    · exact (h.observations o ho).imp id fun hs => ⟨mem_cons_of_mem _ hs.1,mem_cons_of_mem _ hs.2⟩
  · refine ⟨_,rfl,?_⟩
    rcases mem_cons.mp hd with he | hd
    · cases he
      exact le_rfl
    · exact (ht _ hd).le
  · dsimp only at ho
    rw [getLast?_cons_of_ne_nil hne] at ho
    exact h.oldest o ho r' (mem_of_mem_filter hr')

section
variable {k0 : ℕ} {result : Bool} {expected : List UInt8} (hf : Formed TICK_FUTURE past) (h : Tracks past t)
  (hs : .startRead s k0∈past) (hfin : ¬Finished past s) (hin : t.inExpectedData k0 k d = .ok (result,expected))

include hf h hs hfin hin

theorem Tracks.completeRead_eq : ∃ r∈t.outstandingReads, r.serial=s ∧ t.completeRead s k d k =
    (({t with
      outstandingReads := t.outstandingReads.filter (·.serial≠s)
      readObservations := ⟨s,r.start,k,d⟩::t.readObservations
      lastExpectedData := expected}.pruneTransactions k).bind fun t' => .ok (result,t')) := by
  obtain ⟨r,hr,rfl⟩:=h.outstanding s k0 hs hfin
  have hstart : r.start=k0 := by
    have he:=hf.unique (h.reads r hr).1 hs rfl rfl
    exact (Call.startRead.inj he).2
  have hfind : t.outstandingReads.find? (·.serial=r.serial)=some r := by
    obtain ⟨a,b,hab⟩:=append_of_mem hr
    have hsorted:=h.sorted
    rw [hab] at hsorted ⊢
    exact find_split fun w' hw' => Nat.ne_of_lt
      ((pairwise_append.mp hsorted).2.2 w' hw' r (mem_cons_self ..)).1
  have hin' : {t with outstandingReads := t.outstandingReads.filter (·.serial≠r.serial)}.inExpectedData r.start k d =
      .ok (result,expected) := by
    rw [hstart]
    exact hin
  refine ⟨r,hr,rfl,?_⟩
  rw [ByteTracker.completeRead,hfind]
  dsimp only
  rw [hin']
  rfl

theorem Tracks.completeRead (ht : ∀ b∈past, b.tick<k) (hk : k<TICK_FUTURE) :
    ∃ t', t.completeRead s k d k = .ok (result,t') ∧ Tracks (.completeRead s k d::past) t' := by
  obtain ⟨r,hr,rfl,hrun⟩:=h.completeRead_eq hf hs hfin hin
  have hf' : Formed TICK_FUTURE (.completeRead r.serial k d::past) := ⟨ht,hk,⟨⟨k0,hs⟩,hfin⟩,hf⟩
  obtain ⟨t',hprune,ht'⟩:=(h.observe ht hr (d := d) expected).prune hf' hk
  refine ⟨t',?_,ht'⟩
  rw [hrun,hprune]
  rfl

end

theorem Tracks.exec_ok (hf : Formed TICK_FUTURE past) (h : Tracks past t) {result : Bool}
    (ht : ∀ b∈past, b.tick<call.tick) (hk : call.tick≤TICK_FUTURE) (hn : Next past call)
    (hin : ∀ s k d, call = .completeRead s k d → ∃ k0 expected, .startRead s k0∈past ∧
      t.inExpectedData k0 k d = .ok (result,expected)) :
    ∃ r, t.exec call = .ok r ∧ ∀ s k d, call = .completeRead s k d → r.1=result := by
  cases call with
  | startRead s k | abortWrite s k => exact ⟨_,rfl,nofun⟩
  | startWrite s k d =>
    obtain ⟨t',hrun,_⟩ : ∃ t', t.startWrite s k d = .ok t' ∧ Tracks (.startWrite s k d::past) t' :=
      h.startWrite hf ht hk hn
    exact ⟨(true,t'),by rw [ByteTracker.exec,hrun]; rfl,nofun⟩
  | completeWrite s k =>
    obtain ⟨⟨k0,d0,hs⟩,hfin⟩:=hn
    obtain ⟨c,older,w,hget,hlist,hinc,hc,hw,rfl,hfut,hold⟩:=h.getIncomplete_of_unfinished hs hfin
    obtain ⟨c',hrun⟩ : ∃ c', c.completeWrite w.serial k = .ok c' := ⟨_,hc.completeWrite_eq hw hfut k⟩
    obtain ⟨t',hprune⟩ : ∃ t', {t with writeClusters := c'::older}.pruneTransactions k = .ok t' :=
      ⟨_,pruneTransactions_eq (t := {t with writeClusters := c'::older}) h.observed k⟩
    refine ⟨(true,t'),?_,nofun⟩
    rw [ByteTracker.exec,ByteTracker.completeWrite,hget]
    dsimp only
    rw [hrun]
    dsimp only [bind,Except.bind]
    rw [hprune]
    rfl
  | completeRead s k d =>
    obtain ⟨k0,expected,hs,hin⟩:=hin s k d rfl
    obtain ⟨r,_,_,hrun⟩:=h.completeRead_eq hf hs hn.2 hin
    rw [ByteTracker.exec,hrun,pruneTransactions_eq (cons_ne_nil _ _)]
    exact ⟨_,rfl,fun _ _ _ _ => rfl⟩

theorem Tracks.exec (hf : Formed TICK_FUTURE past) (h : Tracks past t) {r : Bool × ByteTracker}
    (ht : ∀ b∈past, b.tick<call.tick) (hk : call.tick<TICK_FUTURE) (hn : Next past call) (hrun : t.exec call = .ok r)
    (hin : ∀ s k d, call = .completeRead s k d → ∃ k0 result expected, .startRead s k0∈past ∧
      t.inExpectedData k0 k d = .ok (result,expected)) : Tracks (call::past) r.2 := by
  cases call with
  | startRead s k =>
    cases hrun
    exact h.startRead ht hn
  | abortWrite s k =>
    cases hrun
    exact h.abortWrite hf ht hn
  | startWrite s k d =>
    obtain ⟨t',hok,ht'⟩ : ∃ t', t.startWrite s k d = .ok t' ∧ Tracks (.startWrite s k d::past) t' :=
      h.startWrite hf ht hk.le hn
    rw [ByteTracker.exec,hok] at hrun
    cases hrun
    exact ht'
  | completeWrite s k =>
    obtain ⟨t',hok,ht'⟩ : ∃ t', t.completeWrite s k k = .ok t' ∧ Tracks (.completeWrite s k::past) t' :=
      h.completeWrite hf ht hk hn
    rw [ByteTracker.exec,hok] at hrun
    cases hrun
    exact ht'
  | completeRead s k d =>
    obtain ⟨k0,result,expected,hs,hin⟩:=hin s k d rfl
    obtain ⟨t',hok,ht'⟩ : ∃ t', t.completeRead s k d k = .ok (result,t') ∧ Tracks (.completeRead s k d::past) t' :=
      h.completeRead hf hs hn.2 hin ht hk
    rw [ByteTracker.exec,hok] at hrun
    cases hrun
    exact ht'

end AquaGem5.Memory.MemChecker
