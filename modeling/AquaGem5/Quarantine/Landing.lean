import AquaGem5.Lib.Ring
import AquaGem5.Quarantine.Tracking

/-!
# Rows placed in a window stay in the region

After a reset the head slot is also `prevQRHeadID`. Positions are taken from there: the head is at the number of rows
placed since.
-/

namespace AquaGem5.Quarantine.RowQuarantine
open Checked AquaGem5.Circle Detector Mitigation Relocation

structure InWindow (rows n h k : ℕ) (f : ℕ ≃. ℕ) (t : IndirectionTables) : Prop where
  matched : Matched rows n t
  represents : t.Represents f
  base : 0<n → h<n
  prev : t.prevQRHeadID=h
  head : t.nextFreeQRID=(h+k)%n
  tail : 0<n → ∃ d<n, t.qrTailID=(h+d)%n ∧ (d=0 ∨ k≤d)

variable {rows n h k : ℕ} {f : ℕ ≃. ℕ} {t : IndirectionTables} {s s' : RowQuarantine}

theorem inWindow_reset (ht : Matched rows n t) (hf : t.Represents f) :
    InWindow rows n t.nextFreeQRID 0 f {t with prevQRHeadID := t.nextFreeQRID} := by
  refine ⟨ht.atReset,⟨hf.slots,hf.rows⟩,fun hn => (ht.pointers hn).1,rfl,?_,fun hn => ?_⟩
  · rcases Nat.eq_zero_or_pos n with rfl | hn
    · exact (Nat.mod_zero _).symm
    · exact (Nat.mod_eq_of_lt (ht.pointers hn).1).symm
  · obtain ⟨d,hd,heq⟩:=exists_position (ht.pointers hn).2.2 t.nextFreeQRID
    exact ⟨d,hd,heq,.inr (Nat.zero_le d)⟩

theorem InWindow.push (hw : InWindow rows n h k f t) (hk : k<n) {a : ℕ} (ha : a<t.rowToQRT.size)
    (hnext : t.nextFreeQRID<t.qrToRowT.size) : t.nextFreeQRID∉arc n h k ∧
    InWindow rows n h (k+1) (relocate f a t.nextFreeQRID) ((t.quarantined a).advanceHead n) := by
  obtain ⟨_,_,hprev,hhead,htail⟩:=advanceHead_tables (t.quarantined a) n
  obtain ⟨_,_,hnext',hprev',htail'⟩:=quarantined_keeps t a
  rw [hnext',hprev',htail',hw.prev,hw.head] at htail
  refine ⟨hw.head ▸ not_mem_arc hk (Nat.le_refl k),hw.matched.push ha hnext,?_,hw.base,?_,?_,?_⟩
  · exact advanceHead_represents (IndirectionTables.quarantined_represents hw.represents ha hnext) n
  · rw [hprev,hprev',hw.prev]
  · rw [hhead,hnext',hw.head,Nat.mod_add_mod,Nat.add_assoc]
  · intro hn
    obtain ⟨d,hd,heq,hle⟩:=hw.tail hn
    rw [htail]
    split
    · -- the head has reached the tail, and both move on
      rename_i hcond
      have hkd : k=d := position_inj hk hd (hcond.1.trans heq)
      obtain ⟨d',hd',heq',hsucc⟩:=position_succ (h := h) hd
      rw [heq]
      exact ⟨d',hd',heq',hsucc.imp_right fun hs => by omega⟩
    · rename_i hcond
      refine ⟨d,hd,heq,?_⟩
      by_cases hkd : k=d
      · have hbase : (h+k)%n=h := by
          by_contra hne
          exact hcond ⟨by rw [heq,hkd],hne⟩
        have hzero : k=0 := position_inj (h := h) hk (by omega)
          (by rw [hbase,Nat.add_zero,Nat.mod_eq_of_lt (hw.base hn)])
        exact .inl (hkd ▸ hzero)
      · omega

theorem InWindow.drain (hw : InWindow rows n h k f t) (hne : t.qrTailID≠t.prevQRHeadID)
    (hsize : t.qrTailID<t.qrToRowT.size) (hv : (t.qrToRowT.get t.qrTailID).valid=true) : t.qrTailID∉arc n h k ∧
    InWindow rows n h k (release f t.qrTailID) ((t.removed t.qrTailID).advanceTail n) := by
  have hn : 0<n := by
    rw [hw.matched.slotTable] at hsize
    omega
  obtain ⟨d,hd,heq,hle⟩:=hw.tail hn
  have hd0 : d≠0 := by
    rintro rfl
    rw [hw.prev,heq,Nat.add_zero,Nat.mod_eq_of_lt (hw.base hn)] at hne
    exact hne rfl
  have hrem:=IndirectionTables.removed_represents hw.represents hsize hv
  refine ⟨heq ▸ not_mem_arc hd (by omega),hw.matched.drain hsize hv,⟨hrem.slots,hrem.rows⟩,hw.base,
    hw.prev,hw.head,fun _ => ?_⟩
  obtain ⟨d',hd',heq',hsucc⟩:=position_succ (h := h) hd
  refine ⟨d',hd',?_,hsucc.imp_right fun hs => by omega⟩
  rw [← heq',← heq]
  rfl

def Action.isQuarantine : Action → Bool
  | .quarantineRow _ => true
  | _ => false

def Action.isMove : Action → Bool
  | .quarantineRow _ => true
  | .drainRow => true
  | _ => false

def performAll : RowQuarantine → List Action → Except Fault RowQuarantine
  | s,[] => pure s
  | s,a::as => do
    let s ← s.perform a
    s.performAll as

def Placing (rows n h k : ℕ) (f : ℕ ≃. ℕ) (s : RowQuarantine) : Prop :=
  s.numQREntries=n ∧ InWindow rows n h k f s.indirection

theorem Placing.looked (hs : s.Placing rows n h k f) (hl : Looked s s') : s'.Placing rows n h k f := by
  obtain ⟨f',c,d,st,_,_,_,rfl⟩:=hl
  exact hs

theorem quarantineRow_placing (hs : s.Placing rows n h k f) (hk : k<n) (rowID : ℕ) :
    Post (s.quarantineRow rowID) (fun s' => s.indirection.nextFreeQRID∉arc n h k ∧
      s'.Placing rows n h (k+1) (relocate f rowID s.indirection.nextFreeQRID)) := by
  refine (quarantineRow_frame hs.2.represents rowID).forget ?_
  rintro s' ⟨hrow,hnext,hu⟩
  obtain ⟨hnot,hw⟩:=hs.2.push hk hrow hnext
  rw [hs.1] at hu
  obtain ⟨f',c,d,st,_,_,_,rfl⟩:=hu
  exact ⟨hnot,hs.1,hw⟩

theorem drainRow_placing (hs : s.Placing rows n h k f) : Post s.drainRow (fun s' => s'.Placing rows n h k f ∨
      ∃ q∉arc n h k, s'.Placing rows n h k (release f q)) := by
  refine (drainRow_frame hs.2.represents).forget ?_
  rintro s' (⟨_,hlook⟩ | ⟨⟨hne,hsize,hv⟩,hu⟩)
  · exact .inl (hs.looked hlook)
  · obtain ⟨hnot,hw⟩:=hs.2.drain hne hsize hv
    rw [hs.1] at hu
    obtain ⟨f',c,d,st,_,_,_,rfl⟩:=hu
    exact .inr ⟨_,hnot,hs.1,hw⟩

theorem perform_placing (hs : s.Placing rows n h k f) {a : Action} (ha : a.isMove=true)
    (hk : a.isQuarantine=true → k<n) : Post (s.perform a) (fun s' => ∃ f',
      Move f (arc n h k) f' (arc n h (k+if a.isQuarantine=true then 1 else 0)) ∧
      s'.Placing rows n h (k+if a.isQuarantine=true then 1 else 0) f') := by
  cases a with
  | quarantineRow rowID =>
    refine (quarantineRow_placing hs (hk rfl) rowID).imp ?_
    rintro s' ⟨hnot,hs'⟩
    refine ⟨_,?_,hs'⟩
    have hmove:=Move.relocate f (arc n h k) rowID _ hnot
    rwa [hs.2.head,← arc_succ,← hs.2.head] at hmove
  | drainRow =>
    refine (drainRow_placing hs).imp ?_
    rintro s' (hs' | ⟨q,hq,hs'⟩)
    · exact ⟨f,.stay f _,hs'⟩
    · exact ⟨_,.release f _ q hq,hs'⟩
  | access currTick addr | startAccess currTick | detect currTick addr | addQCheckDelay rowID | reset => cases ha

theorem performAll_placing {as : List Action} (hs : s.Placing rows n h k f)
    (has : ∀ a∈as, a.isMove=true) (hk : k+as.countP Action.isQuarantine≤n)
    (hrun : s.performAll as = .ok s') : ∃ f', s'.Placing rows n h (k+as.countP Action.isQuarantine) f' ∧
      ∀ r, Settled f (arc n h k) r → Settled f' (arc n h (k+as.countP Action.isQuarantine)) r := by
  induction as generalizing s k f with
  | nil =>
    obtain rfl:=Except.ok.inj hrun
    exact ⟨f,hs,fun _ hr => hr⟩
  | cons a as ih =>
    obtain ⟨u,hu,hrest⟩:=bind_ok hrun
    rw [List.countP_cons] at hk ⊢
    obtain ⟨f1,hmove,hs1⟩:=(perform_placing hs (has a List.mem_cons_self)
      (fun hq => by rw [if_pos hq] at hk; omega)).of_ok hu
    obtain ⟨f2,hs2,hset⟩:=ih hs1 (fun b hb => has b (List.mem_cons_of_mem a hb)) (by omega) hrest
    have hcount : k+(as.countP Action.isQuarantine+if a.isQuarantine=true then 1 else 0) =
        k+(if a.isQuarantine=true then 1 else 0)+as.countP Action.isQuarantine := by omega
    rw [hcount]
    exact ⟨f2,hs2,fun r hr => hset r (move_settled hmove hr)⟩

theorem reset_placing (hs : s.Mapped rows n) :
    Post s.reset (fun s' => ∃ h f, s'.Placing rows n h 0 f) := by
  obtain ⟨f,hf⟩:=hs.2.2.inverse
  refine (reset_frame s).forget ?_
  rintro s' ⟨acc,st,rfl⟩
  exact ⟨_,f,hs.2.1,inWindow_reset hs.2.2 hf⟩

/-- A row that `quarantineRow` has put in a slot is still quarantined after any further moves
of the window, as long as it places at most `numQREntries` rows. -/
theorem quarantined_until_reset
    {numQREntries rowsPerBank threshold numBanks numRanks numChannels : ℕ} {draws : ℕ → ℕ}
    {memory s s0 s1 s2 s3 : RowQuarantine} {before after : List Action} {rowID : ℕ}
    (hs : Reachable (construct numQREntries rowsPerBank threshold numBanks numRanks numChannels
      draws memory) s) (hreset : s.reset = .ok s0)
    (hmoves : ∀ a∈before++after, a.isMove=true)
    (hcount : (before ++ .quarantineRow rowID::after).countP Action.isQuarantine≤numQREntries)
    (hbefore : s0.performAll before = .ok s1) (hquarantine : s1.quarantineRow rowID = .ok s2)
    (hplaced : (s2.indirection.rowToQRT.get rowID).valid=true)
    (hafter : s2.performAll after = .ok s3) :
    (s2.indirection.rowToQRT.get rowID).value=s1.indirection.nextFreeQRID ∧
      (s3.indirection.rowToQRT.get rowID).valid=true := by
  have hmapped:=reachable_of (construct_mapped ..) (fun u hu a => perform_mapped hu a) hs
  rw [List.countP_append,List.countP_cons] at hcount
  simp only [Action.isQuarantine,if_true] at hcount
  obtain ⟨h,f,hs0⟩:=(reset_placing hmapped).of_ok hreset
  obtain ⟨f1,hs1,_⟩:=performAll_placing hs0
    (fun a ha => hmoves a (List.mem_append_left after ha)) (by omega) hbefore
  obtain ⟨hnot,hs2⟩:=(quarantineRow_placing hs1 (by omega) rowID).of_ok hquarantine
  have hsize : rowID<s2.indirection.rowToQRT.size := by
    obtain ⟨hrow,_,hu⟩:=(quarantineRow_frame hs1.2.represents rowID).of_ok hquarantine
    rw [hs2.2.matched.rowTable]
    rwa [hs1.2.matched.rowTable] at hrow
  have hslot:=IndirectionTables.slotOf_eq_some.mpr ⟨hsize,hplaced,rfl⟩
  rw [hs2.2.represents.slots] at hslot
  have hsettled : Settled (relocate f1 rowID s1.indirection.nextFreeQRID)
      (arc numQREntries h (0+before.countP Action.isQuarantine+1)) rowID := by
    rw [arc_succ,← hs1.2.head]
    exact relocate_settled (by rw [hslot]; rfl)
  obtain ⟨f3,hs3,hstay⟩:=performAll_placing hs2
    (fun a ha => hmoves a (List.mem_append_right before ha)) (by omega) hafter
  obtain ⟨q,_,hq⟩:=hstay rowID hsettled
  rw [← hs3.2.represents.slots,IndirectionTables.slotOf_eq_some] at hq
  refine ⟨?_,hq.2.1⟩
  rw [relocate_apply,if_pos rfl] at hslot
  split at hslot
  · cases hslot
  · exact (Option.some.inj hslot).symm

theorem quarantined_until_reset_of_full :
    ∃ s s0 s1 s2 s3, Reachable (construct 2 4 1 1 1 1 id {zeroed with rowsPerBtvBit := 2}) s ∧
      s.reset = .ok s0 ∧ s0.performAll [.drainRow] = .ok s1 ∧ s1.quarantineRow 2 = .ok s2 ∧
      s2.performAll [.drainRow,.quarantineRow 1,.drainRow] = .ok s3 ∧
      (s2.indirection.rowToQRT.get 2).value=s1.indirection.nextFreeQRID ∧
      (s3.indirection.rowToQRT.get 2).valid=true := by
  have hrun : Post (do
      let s ← (construct 2 4 1 1 1 1 id {zeroed with rowsPerBtvBit := 2}).quarantineRow 3
      let s ← s.quarantineRow 1
      let s ← s.reset
      let s ← s.performAll [.drainRow]
      let s ← s.quarantineRow 2
      let t ← s.performAll [.drainRow,.quarantineRow 1,.drainRow]
      pure (s,t)) (fun r => (r.1.indirection.rowToQRT.get 2).valid=true) fun _ => False := by
    decide +kernel
  obtain ⟨⟨s2,s3⟩,hs,hplaced⟩:=hrun.returns
  obtain ⟨v,h1,hs⟩:=bind_ok hs
  obtain ⟨s,h2,hs⟩:=bind_ok hs
  obtain ⟨s0,hreset,hs⟩:=bind_ok hs
  obtain ⟨s1,hbefore,hs⟩:=bind_ok hs
  obtain ⟨_,hquarantine,hs⟩:=bind_ok hs
  obtain ⟨_,hafter,hs⟩:=bind_ok hs
  cases hs
  have hreach:=Reachable.step _ _ (.quarantineRow 1) (.step _ _ (.quarantineRow 3) .start h1) h2
  exact ⟨s,s0,s1,s2,s3,hreach,hreset,hbefore,hquarantine,hafter,
    quarantined_until_reset hreach hreset (by decide) (by decide) hbefore hquarantine hplaced hafter⟩

/-!
## How often a location is accessed

An access lands on the slot of its row, or on the row's home. Every access is a step of the abstract period: it ages
the slacks, and may release a slot or relocate the row to a slot that is new in the window.
-/

open Exposure Windows List
variable {T : ℕ} {w : List Event} {m u : RowQuarantine} {currTick : UInt64} {addr : ℕ}

def moves (w : List Event) : ℕ := w.countP Event.mitigate

theorem moves_push (w : List Event) (e : Event) : moves (push Event.reset w e) =
    moves (if e.reset=true then [] else w)+if e.mitigate=true then 1 else 0 := by
  have hsnoc : ∀ w : List Event, moves (w++[e])=moves w+if e.mitigate=true then 1 else 0 := by
    intro w
    unfold moves
    rw [countP_append,countP_singleton]
  unfold push
  split
  · exact hsnoc []
  · exact hsnoc w

theorem physical_eq (hf : s.indirection.Represents f) (r : ℕ) : s.physical r=location f r := by
  unfold physical location
  rw [hf.slots]
  cases f r <;> rfl

def visit (e : Event) : Visit ℕ ℕ := ⟨e.rowID,e.location,e.mitigate⟩

def lands (T : ℕ) (w : Period ℕ ℕ) (e : Event) (w' : Period ℕ ℕ) : Prop := Period.Step T w (visit e) w'

def renewed (w : Period ℕ ℕ) : Period ℕ ℕ := Period.start w.place

def Abstracts (T rows n : ℕ) (s : RowQuarantine) (w : List Event) (a : Period ℕ ℕ) : Prop :=
  (s.Configured T ∧ s.Watched w ∧ s.Mapped rows n) ∧ ∃ h f, s.Placing rows n h (moves w) f ∧
    a=⟨f,arc n h (moves w),s.slack⟩

theorem detect_placing (hs : s.Placing rows n h k f) (hd : s.Detected currTick addr m) :
    ∃ h', m.Placing rows n h' (if windowOver currTick s.lastReset=true then 0 else k) f ∧
      (windowOver currTick s.lastReset=false → h'=h) ∧ m.randRowID=s.randRowID := by
  obtain ⟨_,u,v,acc,det,flag,hu,_,hv,_,rfl⟩:=hd
  obtain ⟨f',c,d,st,_,_,_,rfl⟩:=hv
  rcases hu with ⟨hover,acc',d',st',rfl⟩ | ⟨hover,d',st',rfl⟩
  · rw [hover]
    have hreset:=inWindow_reset hs.2.matched hs.2.represents
    exact ⟨s.indirection.nextFreeQRID,⟨hs.1,hreset⟩,fun hfalse => (Bool.noConfusion hfalse),rfl⟩
  · rw [hover]
    exact ⟨h,hs,fun _ => rfl,rfl⟩

theorem renewed_eq (ended : Bool) (f : ℕ ≃. ℕ) {h h' : ℕ} (w : List Event) (slack : ℕ → ℕ) (hh : ended=false → h'=h) :
    (if ended=true then renewed ⟨f,arc n h (moves w),slack⟩ else ⟨f,arc n h (moves w),slack⟩) =
      (⟨f,arc n h' (moves (if ended=true then [] else w)),
        if ended=true then fun _ => 0 else slack⟩ : Period ℕ ℕ) := by
  cases ended with
  | true =>
    have harc : arc n h' (moves []) = ∅ := arc_zero n h'
    simp only [if_true,harc]
    rfl
  | false =>
    rw [hh rfl]
    rfl

theorem access_lands {a : Period ℕ ℕ} (hs : Abstracts T rows n s w a) (haccess : s.access currTick addr = .ok s')
    (hload : ∀ b, loads (push Event.reset w (s.event currTick addr s')) b≤1360000)
    (hmoves : moves (push Event.reset w (s.event currTick addr s'))≤n) :
    ∃ a', Abstracts T rows n s' (push Event.reset w (s.event currTick addr s')) a' ∧
      lands T (if (s.event currTick addr s').reset=true then renewed a else a) (s.event currTick addr s') a' := by
  obtain ⟨⟨hc,hw,hm⟩,h,f,hplacing,rfl⟩:=hs
  obtain ⟨m,hdetect,hcases⟩:=access_cases haccess
  obtain ⟨m',hdetect',hst⟩:=access_still hm haccess
  obtain rfl : m'=m := Except.ok.inj (hdetect'.symm.trans hdetect)
  have hdetected:=(detect_frame s currTick addr).of_ok hdetect
  obtain ⟨hkept,haged⟩:=access_watched hc hw hm haccess hload
  obtain ⟨h',hplacing',hh,hrand⟩:=detect_placing hplacing hdetected
  have hmit : (s.event currTick addr s').mitigate=m'.decision.mitigate := hst.mitigate
  have hloc : (s.event currTick addr s').location=location f (s.randRowID.get (addr/8192)) :=
    physical_eq hplacing.2.represents _
  have hstart : (if (s.event currTick addr s').reset=true then 0 else moves w) =
      moves (if (s.event currTick addr s').reset=true then [] else w) := by
    split <;> rfl
  rw [moves_push] at hmoves
  unfold Abstracts lands visit
  rw [moves_push,renewed_eq (s.event currTick addr s').reset f w s.slack hh,hloc]
  rw [hmit] at hmoves haged ⊢
  change m'.Placing rows n h' (if (s.event currTick addr s').reset=true then 0 else moves w) f at hplacing'
  rw [hstart] at hplacing'
  generalize moves (if (s.event currTick addr s').reset=true then [] else w)=k at *
  rcases hcases with ⟨hflag,hq⟩ | ⟨hflag,misses,hd⟩ | ⟨hflag,rfl⟩
  · rw [hflag] at haged hmoves ⊢
    rw [if_pos rfl] at hmoves ⊢
    obtain ⟨hnot,hs'⟩:=(quarantineRow_placing hplacing' (by omega) _).of_ok hq
    rw [hrand] at hs'
    refine ⟨_,⟨hkept,h',_,hs',rfl⟩,?_⟩
    rw [arc_succ,← hplacing'.2.head]
    exact .flagged _ _ _ _ haged hnot
  · rw [hflag] at haged ⊢
    rw [if_neg Bool.false_ne_true]
    rcases (drainRow_placing (s := {m' with prevDrainCacheMissVal := misses}) hplacing').of_ok hd with
      hs' | ⟨q,hq,hs'⟩
    · exact ⟨_,⟨hkept,h',_,hs',rfl⟩,.quiet _ _ _ haged⟩
    · exact ⟨_,⟨hkept,h',_,hs',rfl⟩,.drained _ _ _ q haged hq⟩
  · rw [hflag] at haged ⊢
    rw [if_neg Bool.false_ne_true]
    exact ⟨_,⟨hkept,h',_,hplacing',rfl⟩,.quiet _ _ _ haged⟩

variable {p : MemCtrlParams} {draws : ℕ → ℕ} {trackers : Bank → Tracker} {memory : RowQuarantine}
  {accesses : List (UInt64 × ℕ)} {log mid : List Event}

theorem buildRQ_placing (p : MemCtrlParams) (draws : ℕ → ℕ) (trackers : Bank → Tracker)
    (memory : RowQuarantine) : Post (buildRQ p draws trackers memory)
      (fun s => s.started.Placing (builtRows p) p.rhRqQrSize 0 0 ⊥) := by
  refine (buildRQ_post p draws trackers memory).imp ?_
  rintro s ⟨_,_,_,_,_,_,_,_,_,_,_,rfl⟩
  have hmapped:=construct_mapped p.rhRqQrSize p.rowsPerBank (p.rhActualThreshold/2)
    (p.banksPerRank%256) (p.ranksPerChannel%256) 1 draws memory
  refine ⟨rfl,hmapped.2.2,⟨?_,?_⟩,fun hn => hn,rfl,?_,fun hn => ⟨0,hn,?_,.inl rfl⟩⟩
  · intro r
    simp [IndirectionTables.slotOf,started,construct]
  · intro q
    simp [IndirectionTables.rowAt,started,construct]
  · exact (Nat.zero_mod _).symm
  · exact (Nat.zero_mod _).symm

theorem accessAll_lands {a : Period ℕ ℕ} (hs : Abstracts T rows n s [] a) (hrun : s.accessAll accesses = .ok (s',log))
    (hload : ∀ part, part <+: log → ∀ b, loads (currentWindow part) b≤1360000)
    (hmoves : ∀ part, part <+: log → moves (currentWindow part)≤n) :
    ∃ a', Log (lands T) renewed Event.reset a log a' := by
  apply accessAll_log (Abstracts T rows n)
    (fun w => (∀ b, loads w b≤1360000) ∧ moves w≤n) ?_ hs hrun
    fun part hpart _ => ⟨hload part hpart,hmoves part hpart⟩
  intro s w a currTick addr s' hsim haccess hadm
  exact access_lands hsim haccess hadm.1 hadm.2

/-- In a stretch shorter than a window a home location gets at most `rh_actual_threshold`
accesses, and a slot of the region fewer than twice that: an occupant of each of the two
windows can be replaced in its window. -/
theorem landings_bounded (hbanks : p.banksPerRank=16) (hranks : p.ranksPerChannel=1)
    (hbuild : buildRQ p draws trackers memory = .ok s)
    (hrun : s.started.accessAll accesses = .ok (s',log))
    (hsorted : accesses.Pairwise fun a a' => a.1≤a'.1)
    (hload : ∀ part, part <+: log → ∀ b, loads (currentWindow part) b≤1360000)
    (hmoves : ∀ part, part <+: log → moves (currentWindow part)≤p.rhRqQrSize)
    (hmid : Stretch log mid) :
    (∀ r, mid.countP (fun e => e.location = .home r)≤2*(p.rhActualThreshold/2) ∧
      mid.countP (fun e => e.location = .home r)≤p.rhActualThreshold) ∧
    ∀ q, mid.countP (fun e => e.location = .slot q)≤4*(p.rhActualThreshold/2)-1 := by
  have hs:=(buildRQ_started hbanks hranks draws trackers memory).of_ok hbuild
  have hplacing:=(buildRQ_placing p draws trackers memory).of_ok hbuild
  have hone:=stretch_one_reset hs.mapped hrun hsorted hmid
  have hT:=hs.configured.positive
  have habstracts : Abstracts (p.rhActualThreshold/2) (builtRows p) p.rhRqQrSize s.started []
      ⟨⊥,arc p.rhRqQrSize 0 0,s.started.slack⟩ :=
    ⟨⟨hs.configured,hs.watched,hs.mapped⟩,0,⊥,hplacing,rfl⟩
  obtain ⟨a',hlog⟩:=accessAll_lands habstracts hrun hload hmoves
  obtain ⟨before,after,rfl⟩:=hmid.part
  obtain ⟨_,hlog,_⟩:=log_append hlog
  obtain ⟨a0,hbefore,hlog⟩:=log_append hlog
  have hbelow : a0.Below (p.rhActualThreshold/2) :=
    log_invariant hbefore (fun _ _ _ hstep => Period.step_below hstep) hs.configured.slack_lt
  obtain ⟨mid1,mid2,a1,a2,rfl,h1,h2⟩:=log_two_windows hlog hone
  have hcount : ∀ x, (mid1++mid2).countP (fun e => e.location=x) =
      (mid1.map visit++mid2.map visit).countP fun v => v.location=x := by
    intro x
    rw [← List.map_append,List.countP_map]
    rfl
  constructor
  · intro r
    have hhome:=Period.two_periods_home hbelow (steps_map h1) (steps_map h2) hT r
    rw [← hcount] at hhome
    omega
  · intro q
    have hslot:=Period.two_periods_slot hbelow (steps_map h1) (steps_map h2) hT q
    rw [← hcount] at hslot
    exact hslot

/-- Rows 1, 2 and 3 fill the region. In the next window row 2 is accessed in slot 1 until it
moves on, and row 4 takes the slot; after one more reset row 4 moves on and row 7 takes it. -/
def hammering : List (UInt64 × ℕ) :=
  [(0,1),(0,1),(0,2),(0,2),(0,3),(0,3),(64000000000,5),(127999999999,2),(127999999999,2),
    (127999999999,4),(127999999999,4),(127999999999,4),(127999999999,6),(127999999999,6),
    (128000000000,4),(128000000000,4),(128000000000,7),(128000000000,7),(128000000000,7),
    (128000000000,7)].map fun a => (a.1,8192*a.2)

theorem hammering_run : ∃ s s' log, buildRQ smallParams id (fun _ => .zeroed) zeroed = .ok s ∧
    s.started.accessAll hammering = .ok (s',log) ∧
    (∀ part, part <+: log → ∀ b, loads (currentWindow part) b≤1360000) ∧
    (∀ part, part <+: log → moves (currentWindow part) ≤ smallParams.rhRqQrSize) ∧
    Stretch log (log.drop 7) ∧ (log.drop 7).countP (fun e => e.location = .slot 1)=7 := by
  have hrun : Post (do
      let s ← buildRQ smallParams id (fun _ => .zeroed) zeroed
      let r ← s.started.accessAll hammering
      pure (s,r)) (fun r => (∀ part∈r.2.2.inits, moves (currentWindow part)≤3) ∧
        (∀ e∈r.2.2.drop 7, ∀ e'∈r.2.2.drop 7, e'.tick.toNat<e.tick.toNat+64000000000) ∧
        (r.2.2.drop 7).countP (fun e => e.location = .slot 1)=7) fun _ => False := by
    decide +kernel
  obtain ⟨⟨s,s',log⟩,hs,hmoves,hshort,hcount⟩:=hrun.returns
  obtain ⟨_,hbuild,hs⟩:=bind_ok hs
  obtain ⟨_,haccess,hs⟩:=bind_ok hs
  cases hs
  have hlength : log.length=20 := by
    rw [← length_map (f := Event.tick),accessAll_ticks haccess]
    rfl
  refine ⟨s,s',log,hbuild,haccess,?_,?_,⟨(drop_suffix 7 log).isInfix,hshort⟩,hcount⟩
  · intro part hpart b
    have hle:=hpart.length_le
    have hload:=loads_window_le part b
    omega
  · exact fun part hpart => hmoves part ((mem_inits part log).mpr hpart)

/-- Within the loads, and with three moves in each window at most, slot 1 gets seven accesses
in one tick. -/
theorem slot_above_threshold : ∃ s s' log mid,
    buildRQ smallParams id (fun _ => .zeroed) zeroed = .ok s ∧
      s.started.accessAll hammering = .ok (s',log) ∧
      (hammering.Pairwise fun a a' => a.1≤a'.1) ∧
      (∀ part, part <+: log → ∀ b, loads (currentWindow part) b≤1360000) ∧
      (∀ part, part <+: log → moves (currentWindow part) ≤ smallParams.rhRqQrSize) ∧
      Stretch log mid ∧ mid.countP (fun e => e.location = .slot 1)=7 ∧
      smallParams.rhActualThreshold < mid.countP (fun e => e.location = .slot 1) := by
  obtain ⟨s,s',log,hbuild,haccess,hload,hmoves,hmid,hcount⟩:=hammering_run
  refine ⟨s,s',log,log.drop 7,hbuild,haccess,by decide,hload,hmoves,hmid,hcount,?_⟩
  rw [hcount]
  decide

theorem landings_bounded_of_hammering : ∃ s s' log,
    buildRQ smallParams id (fun _ => .zeroed) zeroed = .ok s ∧
      s.started.accessAll hammering = .ok (s',log) ∧ Stretch log (log.drop 7) ∧
      (log.drop 7).countP (fun e => e.location = .home 7)≤4 ∧
      (log.drop 7).countP (fun e => e.location = .slot 1)≤7 := by
  obtain ⟨s,s',log,hbuild,haccess,hload,hmoves,hmid,_⟩:=hammering_run
  have h:=landings_bounded rfl rfl hbuild haccess (by decide) hload hmoves hmid
  exact ⟨s,s',log,hbuild,haccess,hmid,(h.1 7).2,h.2 1⟩

end AquaGem5.Quarantine.RowQuarantine
