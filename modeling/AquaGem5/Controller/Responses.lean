import AquaGem5.Controller.WriteIndex

/-!
# The responses to the reads

A ticket of a memory packet is its system packet and the helper it shares with the other parts. As long as there are
tickets of a system packet it is not answered, and a helper counts the parts that have none any more.
-/

namespace AquaGem5.Controller
open Ticks Checked Queues List Nat

namespace MemCtrl

def ticket (memPkt : MemPacket) : ℕ × Option ℕ := (memPkt.pkt,memPkt.burstHelper)

def View.tickets (v : View) : Multiset (ℕ × Option ℕ) := v.reads.map ticket+(v.respQueue.map ticket : Multiset _)

def waiting (T : Multiset (ℕ × Option ℕ)) (ref : ℕ) : ℕ := T.countP fun t => t.1=ref

/-- Each of the packets is answered once, or has tickets and is not answered; all of them name one helper, which counts
the parts that are left. -/
structure Accounted (refs : List ℕ) (T : Multiset (ℕ × Option ℕ)) (helpers : List BurstHelper) (responses : List ℕ) : Prop where
  asked : ∀ t∈T,t.1∈refs
  answered : ∀ ref∈responses,ref∈refs
  once : ∀ ref∈refs,responses.count ref=if waiting T ref=0 then 1 else 0
  single : ∀ ref,(ref,none)∈T → waiting T ref=1
  joined : ∀ ref i,(ref,some i)∈T → (∀ t∈T,t.1=ref ↔ t.2=some i) ∧
    ∃ h,helpers[i]?=some h ∧ h.burstCount=h.burstsServiced+waiting T ref

variable {refs : List ℕ} {T : Multiset (ℕ × Option ℕ)} {helpers : List BurstHelper} {responses : List ℕ} {ref i m : ℕ}
  {helper : Option ℕ}

theorem waiting_cons (t : ℕ × Option ℕ) (T : Multiset (ℕ × Option ℕ)) (ref : ℕ) :
    waiting (t ::ₘ T) ref=waiting T ref+if t.1=ref then 1 else 0 :=
  Multiset.countP_cons _ t T

theorem waiting_eq_zero : waiting T ref=0 ↔ ∀ t∈T,t.1≠ref := Multiset.countP_eq_zero

theorem accounted_nil : Accounted [] 0 [] [] where
  asked t ht := absurd ht (Multiset.notMem_zero t)
  answered _ href := absurd href List.not_mem_nil
  once _ href := absurd href List.not_mem_nil
  single _ ht := absurd ht (Multiset.notMem_zero _)
  joined _ _ ht := absurd ht (Multiset.notMem_zero _)

namespace Accounted

theorem unasked (h : Accounted refs T helpers responses) (hnew : ref∉refs) :
    waiting T ref=0 ∧ responses.count ref=0 :=
  ⟨waiting_eq_zero.mpr fun t ht heq => hnew (heq ▸ h.asked t ht),
    count_eq_zero.mpr fun hin => hnew (h.answered ref hin)⟩

theorem whole (h : Accounted refs T helpers responses) (hnew : ref∉refs) :
    Accounted (refs++[ref]) T helpers (responses++[ref]) := by
  obtain ⟨hwaiting,hcount⟩:=h.unasked hnew
  refine ⟨fun t ht => mem_append_left _ (h.asked t ht),fun other hin => ?_,fun other hin => ?_,h.single,h.joined⟩
  · exact mem_append.mpr ((mem_append.mp hin).imp_left (h.answered other))
  · rw [count_append]
    cases mem_append.mp hin with
    | inl hold =>
      have hne : ref≠other := fun heq => hnew (heq ▸ hold)
      have hzero : [ref].count other=0 := count_eq_zero.mpr fun hin => hne (mem_singleton.mp hin).symm
      rw [hzero,add_zero,h.once other hold]
    | inr hself =>
      rw [mem_singleton.mp hself,hcount,hwaiting,count_singleton_self,if_pos rfl]

theorem fork (h : Accounted refs T helpers responses) (hnew : ref∉refs) (hm : 0 < m) (more : List BurstHelper)
    (hhelper : (helper=none ∧ m=1) ∨ (helper=some helpers.length ∧ ∃ b,more=[b] ∧ b.burstCount=b.burstsServiced+m)) :
    Accounted (refs++[ref]) (Multiset.replicate m (ref,helper)+T) (helpers++more) responses := by
  obtain ⟨hwaiting,hcount⟩:=h.unasked hnew
  have hmany : ∀ other,waiting (Multiset.replicate m (ref,helper)+T) other =
      waiting T other+if ref=other then m else 0 := fun other => by
    rw [waiting,Multiset.countP_add,Nat.add_comm,waiting]
    congr 1
    by_cases heq : ref=other
    · rw [if_pos heq,Multiset.countP_eq_card.mpr fun t ht => by rw [Multiset.eq_of_mem_replicate ht]; exact heq,
        Multiset.card_replicate]
    · rw [if_neg heq,Multiset.countP_eq_zero.mpr fun t ht => by rw [Multiset.eq_of_mem_replicate ht]; exact heq]
  have hself : waiting (Multiset.replicate m (ref,helper)+T) ref=m := by
    rw [hmany,hwaiting,if_pos rfl,Nat.zero_add]
  have hothers : ∀ other,other≠ref → waiting (Multiset.replicate m (ref,helper)+T) other=waiting T other :=
    fun other hne => by rw [hmany,if_neg hne.symm,add_zero]
  have hold : ∀ t∈T,t.1≠ref := waiting_eq_zero.mp hwaiting
  -- a ticket is one of the new ones or an old one of another packet
  have hcases : ∀ t∈Multiset.replicate m (ref,helper)+T,t=(ref,helper) ∨ (t∈T ∧ t.1≠ref) := fun t ht =>
    (Multiset.mem_add.mp ht).imp Multiset.eq_of_mem_replicate fun hin => ⟨hin,hold t hin⟩
  -- the helpers of the old tickets are old ones
  have hbound : ∀ t∈T,∀ j,t.2=some j → j<helpers.length := fun t ht j hj => by
    obtain ⟨b,hb,_⟩:=(h.joined t.1 j (hj ▸ ht)).2
    exact (List.getElem?_eq_some_iff.mp hb).1
  constructor
  · intro t ht
    cases hcases t ht with
    | inl heq => exact heq ▸ mem_append_right refs (mem_singleton_self ref)
    | inr hin => exact mem_append_left _ (h.asked t hin.1)
  · exact fun other hin => mem_append_left _ (h.answered other hin)
  · intro other hin
    cases mem_append.mp hin with
    | inl hin => rw [hothers other fun heq => hnew (heq ▸ hin),h.once other hin]
    | inr hin => rw [mem_singleton.mp hin,hself,hcount,if_neg hm.ne']
  · intro other hin
    cases hcases _ hin with
    | inl heq =>
      cases heq
      rw [hself]
      rcases hhelper with ⟨_,hone⟩ | ⟨hsome,_⟩
      · exact hone
      · cases hsome
    | inr hin => rw [hothers other hin.2,h.single other hin.1]
  · intro other j hin
    cases hcases _ hin with
    | inl heq =>
      cases heq
      rcases hhelper with ⟨hnone,_⟩ | ⟨hsome,b,hmore,hb⟩
      · cases hnone
      · cases hsome
        refine ⟨fun t ht => ?_,b,?_,?_⟩
        · cases hcases t ht with
          | inl heq =>
            rw [heq]
            exact ⟨fun _ => rfl,fun _ => rfl⟩
          | inr hin => exact ⟨fun heq => absurd heq hin.2,fun heq => absurd (hbound t hin.1 _ heq) (lt_irrefl _)⟩
        · rw [hmore,getElem?_concat_length]
        · rw [hself]
          exact hb
    | inr hin =>
      obtain ⟨hall,b,hb,hcountdown⟩:=h.joined other j hin.1
      refine ⟨fun t ht => ?_,b,?_,?_⟩
      · cases hcases t ht with
        | inl heq =>
          rw [heq]
          refine ⟨fun heq => absurd heq.symm hin.2,fun heq => ?_⟩
          rcases hhelper with ⟨hnone,_⟩ | ⟨hsome,_⟩
          · rw [hnone] at heq
            cases heq
          · rw [hsome] at heq
            cases heq
            exact absurd (hbound _ hin.1 _ rfl) (lt_irrefl _)
        | inr hin => exact hall t hin.1
      · rw [List.getElem?_append_left (List.getElem?_eq_some_iff.mp hb).1]
        exact hb
      · rw [hothers other hin.2]
        exact hcountdown

theorem waiting_rest (T : Multiset (ℕ × Option ℕ)) (helper : Option ℕ) {ref other : ℕ} (hne : other≠ref) :
    waiting ((ref,helper) ::ₘ T) other=waiting T other := by
  rw [waiting_cons,if_neg hne.symm,add_zero]

theorem waiting_head (T : Multiset (ℕ × Option ℕ)) (helper : Option ℕ) (ref : ℕ) :
    waiting ((ref,helper) ::ₘ T) ref=waiting T ref+1 := by
  rw [waiting_cons,if_pos rfl]

theorem finish (h : Accounted refs ((ref,none) ::ₘ T) helpers responses) : Accounted refs T helpers (responses++[ref]) := by
  have hhead:=Multiset.mem_cons_self (ref,(none : Option ℕ)) T
  have hlast : waiting T ref=0 := by
    have hone:=h.single ref hhead
    rw [waiting_head] at hone
    omega
  have hother : ∀ t∈T,t.1≠ref := waiting_eq_zero.mp hlast
  constructor
  · exact fun t ht => h.asked t (Multiset.mem_cons_of_mem ht)
  · intro other hin
    cases mem_append.mp hin with
    | inl hin => exact h.answered other hin
    | inr hin => exact mem_singleton.mp hin ▸ h.asked _ hhead
  · intro other hin
    have hcount:=h.once other hin
    rw [count_append]
    by_cases heq : other=ref
    · rw [heq,waiting_head,if_neg (succ_ne_zero _)] at hcount
      rw [heq,hcount,hlast,count_singleton_self,if_pos rfl]
    · have hzero : [ref].count other=0 := count_eq_zero.mpr fun hin => heq (mem_singleton.mp hin)
      rw [hzero,add_zero,hcount,waiting_rest T none heq]
  · intro other hin
    rw [← waiting_rest T none (hother _ hin)]
    exact h.single other (Multiset.mem_cons_of_mem hin)
  · intro other j hin
    obtain ⟨hall,b,hb,hcountdown⟩:=h.joined other j (Multiset.mem_cons_of_mem hin)
    rw [waiting_rest T none (hother _ hin)] at hcountdown
    exact ⟨fun t ht => hall t (Multiset.mem_cons_of_mem ht),b,hb,hcountdown⟩

theorem part (h : Accounted refs ((ref,some i) ::ₘ T) helpers responses) :
    ∃ b,helpers[i]?=some b ∧ (b.burstsServiced+1=b.burstCount ↔ waiting T ref=0) ∧
      Accounted refs T (helpers.modify i fun b => {b with burstsServiced := b.burstsServiced+1})
        (if b.burstsServiced+1=b.burstCount then responses++[ref] else responses) := by
  have hhead:=Multiset.mem_cons_self (ref,some i) T
  obtain ⟨hmine,b,hb,hcountdown⟩:=h.joined ref i hhead
  rw [waiting_head] at hcountdown
  have hlast : b.burstsServiced+1=b.burstCount ↔ waiting T ref=0 := by omega
  refine ⟨b,hb,hlast,?_⟩
  constructor
  · exact fun t ht => h.asked t (Multiset.mem_cons_of_mem ht)
  · intro other hin
    split at hin
    next =>
      cases mem_append.mp hin with
      | inl hin => exact h.answered other hin
      | inr hin => exact mem_singleton.mp hin ▸ h.asked _ hhead
    next => exact h.answered other hin
  · intro other hin
    have hcount:=h.once other hin
    by_cases heq : other=ref
    · rw [heq,waiting_head,if_neg (succ_ne_zero _)] at hcount
      rw [heq]
      by_cases hdone : waiting T ref=0
      · rw [if_pos (hlast.mpr hdone),if_pos hdone,count_append,hcount,count_singleton_self]
      · rw [if_neg fun hd => hdone (hlast.mp hd),if_neg hdone,hcount]
    · have hzero : [ref].count other=0 := count_eq_zero.mpr fun hin => heq (mem_singleton.mp hin)
      rw [waiting_rest T _ heq] at hcount
      split
      next => rw [count_append,hzero,add_zero,hcount]
      next => exact hcount
  · intro other hin
    have hne : other≠ref := fun heq => by
      have hsome : (none : Option ℕ)=some i := (hmine _ (Multiset.mem_cons_of_mem hin)).mp heq
      cases hsome
    rw [← waiting_rest T (some i) hne]
    exact h.single other (Multiset.mem_cons_of_mem hin)
  · intro other j hin
    obtain ⟨hall,b',hb',hcountdown'⟩:=h.joined other j (Multiset.mem_cons_of_mem hin)
    refine ⟨fun t ht => hall t (Multiset.mem_cons_of_mem ht),?_⟩
    rw [getElem?_modify]
    by_cases heq : other=ref
    · have hj : some j=some i := (hmine _ (Multiset.mem_cons_of_mem hin)).mp heq
      cases hj
      rw [hb',heq]
      rw [heq,waiting_head] at hcountdown'
      refine ⟨{b' with burstsServiced := b'.burstsServiced+1},?_,?_⟩
      · simp only [if_true,Option.map_eq_map,Option.map_some]
      · dsimp only
        omega
    · have hji : i≠j := fun hij => heq ((hmine _ (Multiset.mem_cons_of_mem hin)).mpr (hij ▸ rfl))
      rw [waiting_rest T (some i) heq] at hcountdown'
      refine ⟨b',?_,hcountdown'⟩
      simp only [hb',if_neg hji,Option.map_eq_map,Option.map_some]

end Accounted

variable {P : Params} {A : List Packet} {s s' : State} {v v' : View} {fuel curTick n : ℕ}
  {defense : MemPacket → Protection} {pkt : Packet} {memPkt : MemPacket} {piece : ℕ × ℕ}

theorem forwarded_le_one (h : Indexed P (s.view P.numPriorities)) (hpart : Part P piece) : forwarded P s piece≤1 := by
  obtain ⟨hpos,hburst⟩:=hpart
  have hnodup : ((queued P.numPriorities (s.qos.queue .WRITE)).map fun memPkt => burstAlign P memPkt.addr true).Nodup := by
    rw [← Multiset.coe_nodup,h.bursts]
    exact s.isInWriteQueue.nodup
  rw [forwarded]
  split
  next =>
    refine (any_le_countP _ _ _).trans (le_trans (countP_mono_left fun memPkt hin hserves => ?_)
      (le_trans (le_of_eq countP_map.symm) (nodup_iff_count_le_one.mp hnodup (burstAlign P piece.1 true))))
    obtain ⟨hle,hend⟩:=of_decide_eq_true hserves
    obtain ⟨prio,hprio,hmem⟩:=mem_queued.mp hin
    obtain ⟨k,hk⟩:=mem_iff_getElem?.mp hmem
    have hwhole : Whole P (Qos.forgetQos memPkt) := h.whole _ (Multiset.mem_add.mpr (.inr (mem_contents hprio hk)))
    -- the address of the piece is between the ends of the packet
    have hsame : memPkt.addr/P.burstSize true=piece.1/P.burstSize true := by
      have hfirst : memPkt.addr/P.burstSize true≤piece.1/P.burstSize true := Nat.div_le_div_right hle
      have hlast : piece.1/P.burstSize true≤(memPkt.addr+memPkt.size-1)/P.burstSize true :=
        Nat.div_le_div_right (by omega)
      have hmid : memPkt.addr/P.burstSize true=(memPkt.addr+memPkt.size-1)/P.burstSize true := hwhole.burst
      omega
    have halign : ∀ addr,burstAlign P addr true=P.burstSize true*(addr/P.burstSize true) := fun addr => by
      have hdiv:=div_add_mod addr (P.burstSize true)
      rw [burstAlign]
      omega
    simp only [Function.comp_apply,beq_iff_eq,halign,hsame]
  next => exact zero_le _

def View.Accounts (refs : List ℕ) (v : View) : Prop := Accounted refs v.tickets v.burstHelpers v.responses

/-- Of the pieces that were looked at, `m` have joined the queues. The first of them made a helper, if the packet is
split. -/
structure Collected (n : ℕ) (pkt : Packet) (pktCount : ℕ) (v : View) (done m : ℕ) (loop : ReadLoop) : Prop where
  count : m+loop.pktsServicedByWrQ=done
  tickets : (loop.s.view n).tickets=Multiset.replicate m (pkt.ref,loop.burstHelper)+v.tickets
  helper : (loop.s.burstHelpers,loop.burstHelper) =
    if 1<pktCount ∧ 0 < m then (v.burstHelpers++[⟨pktCount,0⟩],some v.burstHelpers.length) else (v.burstHelpers,none)
  responses : loop.s.responses=v.responses

theorem addReadPiece_collected {pktCount done : ℕ} {loop : ReadLoop} (h : Indexed P (loop.s.view P.numPriorities))
    (hprio : pkt.qosValue<P.numPriorities) (hpart : Part P piece)
    (hloop : ∃ m,Collected P.numPriorities pkt pktCount v done m loop) :
    Post (addReadPiece P curTick defense true pkt pktCount loop piece)
      (fun loop' => ∃ m,Collected P.numPriorities pkt pktCount v (done+1) m loop') := by
  obtain ⟨m,hcount,htickets,hhelper,hresponses⟩:=hloop
  have hone:=forwarded_le_one h hpart
  refine (addReadPiece_view hprio pktCount loop piece).forget fun loop' hloop' => ?_
  rcases hloop' with ⟨hserved,heq⟩ | ⟨_,memPkt,hjoined⟩
  · have hexact : forwarded P loop.s piece=1 := by omega
    rw [heq,hexact]
    exact ⟨m,by dsimp only; omega,htickets,hhelper,hresponses⟩
  · have hhelper' : (loop'.s.burstHelpers,loop'.burstHelper)=if 1<pktCount then
        (v.burstHelpers++[⟨pktCount,0⟩],some v.burstHelpers.length) else (v.burstHelpers,none) := by
      rw [hjoined.helper]
      by_cases hsplit : 1<pktCount
      · by_cases hm : 0 < m
        · rw [if_pos ⟨hsplit,hm⟩] at hhelper
          obtain ⟨hlist,hsome⟩:=Prod.mk.inj hhelper
          have hmade : ¬(1<pktCount ∧ loop.burstHelper=none) := fun hboth => by
            have hnone:=hboth.2
            rw [hsome] at hnone
            cases hnone
          rw [if_neg hmade,if_pos hsplit,hlist,hsome]
        · rw [if_neg fun hboth => hm hboth.2] at hhelper
          obtain ⟨hlist,hnone⟩:=Prod.mk.inj hhelper
          rw [if_pos ⟨hsplit,hnone⟩,if_pos hsplit,hlist]
      · rw [if_neg fun hboth => hsplit hboth.1] at hhelper
        rw [if_neg fun hboth => hsplit hboth.1,if_neg hsplit,hhelper]
    refine ⟨m+1,?_,?_,?_,?_⟩
    · rw [hjoined.serviced]
      omega
    · have hticket : ticket (Qos.forgetQos memPkt)=(pkt.ref,loop'.burstHelper) :=
        Prod.ext hjoined.piece.ref hjoined.burstHelper
      have hold : Multiset.replicate m (pkt.ref,loop.burstHelper)=Multiset.replicate m (pkt.ref,loop'.burstHelper) := by
        rcases Nat.eq_zero_or_pos m with rfl | hm
        · rfl
        · have hsame : loop.burstHelper=loop'.burstHelper := by
            simp only [hm,and_true] at hhelper
            exact (Prod.mk.inj (hhelper.trans hhelper'.symm)).2
          rw [hsame]
      rw [hjoined.view,Multiset.replicate_succ,Multiset.cons_add,← hold,← htickets]
      simp only [View.tickets,Multiset.map_cons,hticket,Multiset.cons_add]
    · rw [hhelper']
      simp only [succ_pos,and_true]
    · exact (congrArg View.responses hjoined.view).trans hresponses

theorem addToReadQueue_accounted (hP : P.DramOnly) (hpkt : pkt.InMemory) (hsize : pkt.size≠0)
    (hprio : pkt.qosValue<P.numPriorities) (h : Indexed P (s.view P.numPriorities))
    (hs : (s.view P.numPriorities).Accounts refs) (hnew : pkt.ref∉refs) :
    Post (addToReadQueue P curTick defense true pkt (pktCount (P.burstSize true) pkt.addr pkt.size) s)
      (fun s' => (s'.view P.numPriorities).Accounts (refs++[pkt.ref])) := by
  have hparts:=part_of_mem hP hpkt hsize
  rw [addToReadQueue]
  simp only [post_bind,partly_check]
  intro _ hzero _
  refine Post.mono (E := fun _ => True) (Post.foldlM_count (I := fun done loop => Indexed P (loop.s.view P.numPriorities) ∧
    ∃ m,Collected P.numPriorities pkt (pktCount (P.burstSize true) pkt.addr pkt.size) (s.view P.numPriorities) done m loop)
    ⟨h,0,rfl,?_,?_,rfl⟩ fun i _ loop hloop piece hin => ?_) (fun loop hloop => ?_) fun _ _ => trivial
  · exact (zero_add _).symm
  · rw [if_neg fun hboth => absurd hboth.2 (lt_irrefl 0)]
    rfl
  · refine ((addReadPiece_indexed hloop.1 hprio _ (hparts piece hin)).and
      (addReadPiece_collected hloop.1 hprio (hparts piece hin) hloop.2)).forget fun _ hl => hl
  · rw [pieces_length] at hloop
    generalize pktCount (P.burstSize true) pkt.addr pkt.size=count at hloop hzero ⊢
    obtain ⟨_,m,hcount,htickets,hhelper,hresponses⟩:=hloop
    rw [post_ite]
    refine ⟨fun hall => ?_,fun hsome => ?_⟩
    · -- the write queues serve all pieces
      have hm : m=0 := by omega
      rw [hm,if_neg fun hboth => absurd hboth.2 (lt_irrefl 0)] at hhelper
      rw [hm,Multiset.replicate_zero,zero_add] at htickets
      have hanswered:=hs.whole hnew
      rw [← htickets,← hresponses,← (Prod.mk.inj hhelper).1] at hanswered
      exact hanswered
    · have hm : 0 < m := by omega
      by_cases hsplit : 1<count
      · rw [if_pos ⟨hsplit,hm⟩] at hhelper
        obtain ⟨hlist,hnone⟩:=Prod.mk.inj hhelper
        have hforked:=hs.fork hnew hm [⟨count,loop.pktsServicedByWrQ⟩]
          (.inr ⟨rfl,_,rfl,by dsimp only; omega⟩)
        rw [hnone] at htickets ⊢
        have hmodify : loop.s.burstHelpers.modify (s.view P.numPriorities).burstHelpers.length
            (fun b => {b with burstsServiced := loop.pktsServicedByWrQ}) =
              (s.view P.numPriorities).burstHelpers++[⟨count,loop.pktsServicedByWrQ⟩] := by
          rw [hlist,modify_eq_take_drop,take_left,drop_left]
          rfl
        rw [← htickets,← hresponses,← hmodify] at hforked
        exact hforked
      · rw [if_neg fun hboth => hsplit hboth.1] at hhelper
        obtain ⟨hlist,hnone⟩:=Prod.mk.inj hhelper
        have hforked:=hs.fork hnew hm [] (.inl ⟨rfl,by omega⟩)
        rw [hnone] at htickets ⊢
        rw [append_nil,← htickets,← hresponses,← hlist] at hforked
        exact hforked

theorem addToWriteQueue_accounted {pktCount : ℕ} (hprio : pkt.qosValue<n) (hs : (s.view n).Accounts refs)
    (hnew : pkt.ref∉refs) :
    Post (addToWriteQueue P curTick defense true pkt pktCount s) (fun s' => (s'.view n).Accounts (refs++[pkt.ref])) := by
  rw [addToWriteQueue]
  simp only [post_bind,partly_check,post_pure]
  intro _ _
  refine Post.mono (E := fun _ => True) (Post.foldlM (I := fun s' : State => (s'.view n).Accounts refs) hs fun s1 h1 piece _ => ?_)
    (fun s1 h1 => ?_) fun _ _ => trivial
  · refine (addWritePiece_view hprio piece).forget fun s' hs' => ?_
    rcases hs' with ⟨_,hview⟩ | ⟨_,memPkt,_,hview⟩
    · rw [hview]
      exact h1
    · rw [hview]
      exact h1
  · exact Accounted.whole h1 hnew

theorem Arrived.accounted {accepted : Bool} (h : Arrived P curTick defense pkt s accepted s') (hP : P.DramOnly)
    (hpkt : pkt.InMemory) (hindexed : Indexed P (s.view P.numPriorities)) (hs : (s.view P.numPriorities).Accounts refs)
    (hnew : accepted=true → pkt.ref∉refs) :
    (s'.view P.numPriorities).Accounts (if accepted then refs++[pkt.ref] else refs) := by
  cases h with
  | refused _ h => exact h ▸ hs
  | write s1 _ prio hview hprio hsize h =>
    have hprio' : ({pkt with qosValue := prio} : Packet).qosValue<P.numPriorities := hprio
    have hnew' : ({pkt with qosValue := prio} : Packet).ref∉refs := hnew rfl
    exact (addToWriteQueue_accounted hprio' (hview ▸ hs) hnew').of_ok h
  | read s1 _ prio hview hprio hsize h =>
    have hpkt' : ({pkt with qosValue := prio} : Packet).InMemory := ⟨hpkt.size_lt,hpkt.end_lt⟩
    exact (addToReadQueue_accounted hP hpkt' hsize hprio (hview ▸ hindexed) (hview ▸ hs) (hnew rfl)).of_ok h

theorem serviced_part {b : BurstHelper} (hhelper : memPkt.burstHelper=some i) (hb : s.burstHelpers[i]?=some b) :
    (s.serviced memPkt).burstHelpers=s.burstHelpers.modify i (fun b => {b with burstsServiced := b.burstsServiced+1}) ∧
      (s.serviced memPkt).responses =
        if b.burstsServiced+1=b.burstCount then s.responses++[memPkt.pkt] else s.responses := by
  have hget : (s.burstHelpers.modify i fun b => {b with burstsServiced := b.burstsServiced+1})[i]? =
      some {b with burstsServiced := b.burstsServiced+1} := by
    rw [getElem?_modify,hb]
    simp only [if_true,Option.map_eq_map,Option.map_some]
  unfold State.serviced
  rw [hhelper]
  dsimp only
  split
  next hany =>
    rw [hget,Option.any_some,decide_eq_true_eq] at hany
    exact ⟨rfl,(if_pos hany).symm⟩
  next hany =>
    rw [hget,Option.any_some,decide_eq_true_eq] at hany
    exact ⟨rfl,(if_neg hany).symm⟩

theorem responded_accounted {rest : List MemPacket} (hresp : s.respQueue=memPkt::rest) (hs : (s.view n).Accounts refs)
    (hview : s'.view n={(s.serviced memPkt).view n with
      respQueue := rest.map Qos.forgetQos
      respondEvent := (rest.map Qos.forgetQos).head?.map MemPacket.readyTime}) : (s'.view n).Accounts refs := by
  have htickets : (s.view n).tickets=ticket memPkt ::ₘ (s'.view n).tickets := by
    rw [hview,serviced_view]
    simp only [View.tickets,State.view,hresp,map_cons,← Multiset.cons_coe,Multiset.add_cons]
    rfl
  have h : Accounted refs (ticket memPkt ::ₘ (s'.view n).tickets) s.burstHelpers s.responses := htickets ▸ hs
  have hstate : (s'.view n).burstHelpers=(s.serviced memPkt).burstHelpers ∧
      (s'.view n).responses=(s.serviced memPkt).responses := by
    rw [hview]
    exact ⟨rfl,rfl⟩
  rw [View.Accounts,hstate.1,hstate.2]
  cases hhelper : memPkt.burstHelper with
  | none =>
    rw [ticket,hhelper] at h
    unfold State.serviced
    rw [hhelper]
    exact h.finish
  | some i =>
    rw [ticket,hhelper] at h
    obtain ⟨b,hb,_,hpart⟩:=h.part
    obtain ⟨hhelpers,hresponses⟩:=serviced_part hhelper hb
    rw [hhelpers,hresponses]
    exact hpart

theorem Turned.accounted (h : Turned P n fuel curTick s s') (hs : (s.view n).Accounts refs) : (s'.view n).Accounts refs := by
  cases h with
  | none h => exact h ▸ hs
  | read s0 memPkt served h =>
    have hticket : ticket served.1=ticket memPkt := by rw [h.issued.memPkt]; rfl
    have htickets : (s'.view n).tickets=(s.view n).tickets := by
      rw [View.tickets,View.tickets,h.view,h.reads]
      simp only [map_append,map_cons,map_nil,← Multiset.coe_add,Multiset.map_cons,Multiset.coe_singleton]
      rw [← add_assoc,add_comm,Multiset.singleton_add,Multiset.cons_add]
      exact congrArg (· ::ₘ _) hticket
    rw [View.Accounts,htickets,h.view]
    exact hs
  | write s0 memPkt served h =>
    rw [h.view]
    exact hs

theorem Run.accounted (hP : P.DramOnly) (h : Run P A s) (hdistinct : (A.map Packet.ref).Nodup) :
    (s.view P.numPriorities).Accounts (A.map Packet.ref) := by
  induction h with
  | init =>
    have hnone : ((State.new P).view P.numPriorities).tickets=0 := by
      have hreads : ((State.new P).view P.numPriorities).reads=0 := Qos.new_contents _ .READ
      rw [View.tickets,hreads]
      rfl
    rw [View.Accounts,hnone]
    exact accounted_nil
  | recvTimingReq A s s' curTick schedule defense pkt accepted hs hpkt hrun ih =>
    have harrived:=(recvTimingReq_view hP schedule s).of_ok hrun
    cases accepted with
    | false => exact harrived.accounted hP hpkt (hs.indexed hP) (ih hdistinct) fun heq => absurd heq Bool.false_ne_true
    | true =>
      simp only [if_true,map_append,map_cons,map_nil] at hdistinct ⊢
      obtain ⟨hold,_,hnew⟩:=nodup_append.mp hdistinct
      refine harrived.accounted hP hpkt (hs.indexed hP) (ih hold) fun _ hin => ?_
      exact hnew _ hin _ (mem_singleton_self _) rfl
  | processRespondEvent A s s' curTick _ _ hrun ih =>
    obtain ⟨memPkt,rest,hresp,hview⟩:=(processRespondEvent_view s).of_ok hrun
    exact responded_accounted hresp (ih hdistinct) hview
  | processNextReqEvent A s s' fuel curTick turn hs hrun ih =>
    exact ((processNextReqEvent_view hP (hs.indexed hP).allDram turn).of_ok hrun).accounted (ih hdistinct)
  | mediaEvent A s dram nvm _ ih => exact ih hdistinct

def State.waitingReads (n : ℕ) (s : State) : List MemPacket := queued n (s.qos.queue .READ)++s.respQueue

theorem tickets_eq (s : State) : (s.view n).tickets=((s.waitingReads n).map ticket : Multiset (ℕ × Option ℕ)) := by
  rw [View.tickets,State.view,State.waitingReads,map_append,← Multiset.coe_add]
  dsimp only
  rw [Qos.contents,Multiset.map_map,map_map]
  rfl

/-- A packet is answered once, and that when none of its memory packets waits any more. The helper of a split one has
counted the parts that do not wait, those that the write queues served among them. -/
structure ExactlyOnce (P : Params) (A : List Packet) (s : State) : Prop where
  atMostOnce : ∀ pkt∈A,s.responses.count pkt.ref≤1
  answered : ∀ pkt∈A,s.responses.count pkt.ref=1 ↔ ∀ memPkt∈s.waitingReads P.numPriorities,memPkt.pkt≠pkt.ref
  unsplit : ∀ memPkt∈s.waitingReads P.numPriorities,memPkt.burstHelper=none →
    (s.waitingReads P.numPriorities).countP (fun other => decide (other.pkt=memPkt.pkt))=1
  joined : ∀ memPkt∈s.waitingReads P.numPriorities,∀ i,memPkt.burstHelper=some i →
    ∃ h,s.burstHelpers[i]?=some h ∧ h.burstCount =
      h.burstsServiced+(s.waitingReads P.numPriorities).countP fun other => decide (other.pkt=memPkt.pkt)

theorem waiting_eq (s : State) (ref : ℕ) : waiting (s.view n).tickets ref =
    (s.waitingReads n).countP fun memPkt => decide (memPkt.pkt=ref) := by
  rw [waiting,tickets_eq,Multiset.coe_countP,countP_map]
  rfl

theorem exactly_once (hP : P.DramOnly) (h : Run P A s) (hdistinct : (A.map Packet.ref).Nodup) : ExactlyOnce P A s := by
  have hs:=h.accounted hP hdistinct
  have hin : ∀ memPkt∈s.waitingReads P.numPriorities,ticket memPkt∈(s.view P.numPriorities).tickets := fun memPkt hin => by
    rw [tickets_eq,Multiset.mem_coe]
    exact List.mem_map_of_mem hin
  have honce : ∀ pkt∈A,s.responses.count pkt.ref=if waiting (s.view P.numPriorities).tickets pkt.ref=0 then 1 else 0 :=
    fun pkt hpkt => hs.once pkt.ref (List.mem_map_of_mem hpkt)
  refine ⟨fun pkt hpkt => ?_,fun pkt hpkt => ?_,fun memPkt hmem hnone => ?_,fun memPkt hmem i hsome => ?_⟩
  · rw [honce pkt hpkt]
    split
    next => exact le_refl 1
    next => exact Nat.zero_le 1
  · rw [honce pkt hpkt,waiting_eq]
    constructor
    · intro hone memPkt hmem heq
      rw [if_neg (List.countP_pos_iff.mpr ⟨memPkt,hmem,decide_eq_true heq⟩).ne'] at hone
      cases hone
    · intro hnone
      exact if_pos (List.countP_eq_zero.mpr fun memPkt hmem heq => hnone memPkt hmem (of_decide_eq_true heq))
  · have hticket:=hin memPkt hmem
    rw [ticket,hnone] at hticket
    rw [← waiting_eq]
    exact hs.single memPkt.pkt hticket
  · have hticket:=hin memPkt hmem
    rw [ticket,hsome] at hticket
    rw [← waiting_eq]
    exact (hs.joined memPkt.pkt i hticket).2

theorem exactly_once_forwarded : ∃ s,Run ddr3Ctrl [⟨0,128,64,false,true,false,true,7,0⟩,⟨1,128,64,true,false,false,true,7,0⟩] s ∧
    s.waitingReads 1=[] ∧ s.responses.count 1=1 := by
  have hwrite : Post (recvTimingReq ddr3Ctrl 0 ⟨0,fun _ => 0,id,0⟩ (fun _ => ⟨0,0⟩) ⟨0,128,64,false,true,false,true,7,0⟩
      (.new ddr3Ctrl)) (fun answer => answer.1=true ∧ Post (recvTimingReq ddr3Ctrl 0 ⟨0,fun _ => 0,id,0⟩ (fun _ => ⟨0,0⟩)
        ⟨1,128,64,true,false,false,true,7,0⟩ answer.2) (fun answer' => answer'.1=true ∧ answer'.2.waitingReads 1=[])
          fun _ => False) fun _ => False := by decide
  obtain ⟨⟨accepted,s1⟩,hok,htrue,hread⟩:=hwrite.returns
  obtain ⟨⟨accepted',s⟩,hok',htrue',hempty⟩:=hread.returns
  dsimp only at htrue htrue' hempty
  subst htrue htrue'
  have hs1 : Run ddr3Ctrl [⟨0,128,64,false,true,false,true,7,0⟩] s1 :=
    .recvTimingReq [] _ s1 0 _ _ _ true .init ⟨by decide,by decide⟩ hok
  have hs : Run ddr3Ctrl [⟨0,128,64,false,true,false,true,7,0⟩,⟨1,128,64,true,false,false,true,7,0⟩] s :=
    .recvTimingReq _ s1 s 0 _ _ _ true hs1 ⟨by decide,by decide⟩ hok'
  have honce:=exactly_once ddr3Ctrl_dramOnly hs (by decide)
  refine ⟨s,hs,hempty,(honce.answered ⟨1,128,64,true,false,false,true,7,0⟩ (by decide)).mpr fun memPkt hin => ?_⟩
  have hnone : memPkt∈([] : List MemPacket) := hempty ▸ hin
  exact absurd hnone List.not_mem_nil

end MemCtrl

end AquaGem5.Controller
