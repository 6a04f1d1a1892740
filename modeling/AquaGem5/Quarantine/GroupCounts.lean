import AquaGem5.Quarantine.Inverse

/-!
# The group counters are exact

Without a filter and with a cache, `bitvector` and `ORR_CBF` both count the quarantined rows of each group.
-/

namespace AquaGem5.Quarantine.IndirectionTables
open Checked Finset

def residents (rpb : ℕ) (t : IndirectionTables) (g : ℕ) : ℕ :=
  ((Finset.range t.rowToQRT.size).filter fun r =>
    r/rpb=g ∧ (t.rowToQRT.get r).valid=true).card

variable {rpb : ℕ} {t : IndirectionTables} {a : ℕ}

theorem residents_le (rpb : ℕ) (t : IndirectionTables) (g : ℕ) : residents rpb t g≤t.rowToQRT.size := by
  have hle:=card_filter_le (range t.rowToQRT.size) fun r =>
    r/rpb=g ∧ (t.rowToQRT.get r).valid=true
  rwa [card_range] at hle

theorem residents_pos (ha : a<t.rowToQRT.size) (hv : (t.rowToQRT.get a).valid=true) : 0<residents rpb t (a/rpb) := by
  apply card_pos.mpr
  exact ⟨a,mem_filter.mpr ⟨mem_range.mpr ha,rfl,hv⟩⟩

theorem residents_two {b : ℕ} (ha : a<t.rowToQRT.size) (hv : (t.rowToQRT.get a).valid=true)
    (hb : b<t.rowToQRT.size) (hv' : (t.rowToQRT.get b).valid=true) (hne : b≠a)
    (hgroup : b/rpb=a/rpb) : 1<residents rpb t (a/rpb) := by
  apply one_lt_card.mpr
  exact ⟨b,mem_filter.mpr ⟨mem_range.mpr hb,hgroup,hv'⟩,
    a,mem_filter.mpr ⟨mem_range.mpr ha,rfl,hv⟩,hne⟩

theorem residents_mapRow (rpb : ℕ) (ha : a<t.rowToQRT.size) (g : ℕ) :
    residents rpb (t.mapRow a) g+(if a/rpb=g ∧ (t.rowToQRT.get a).valid=true then 1 else 0) =
      residents rpb t g+if a/rpb=g then 1 else 0 := by
  have hset:=Cells.card_set t.rowToQRT (fun r e => r/rpb=g ∧ e.valid=true) ha
    ⟨true,t.nextFreeQRID⟩
  simp only [and_true] at hset
  exact hset

theorem residents_clearRow (rpb : ℕ) (ha : a<t.rowToQRT.size) (hv : (t.rowToQRT.get a).valid=true)
    (g : ℕ) : residents rpb (t.clearRow a) g+(if a/rpb=g then 1 else 0)=residents rpb t g := by
  have hset:=Cells.card_set t.rowToQRT (fun r e => r/rpb=g ∧ e.valid=true) ha
    {t.rowToQRT.get a with valid := false}
  simp only [hv,and_true,Bool.false_eq_true,and_false,if_false,Nat.add_zero] at hset
  exact hset

end AquaGem5.Quarantine.IndirectionTables

namespace AquaGem5.Quarantine.RowQuarantine
open Checked Detector Mitigation IndirectionTables

def Tally (rpb : ℕ) (c : Cells ℕ) (t : IndirectionTables) : Prop := ∀ g, c.get g=residents rpb t g

structure Tallies (rpb : ℕ) (k : Counters) (t : IndirectionTables) : Prop where
  bits : Tally rpb k.bits t
  orr : Tally rpb k.orr t

variable {rows n rpb : ℕ} {s s' : RowQuarantine} {c : Cells ℕ} {k : Counters} {t : IndirectionTables}
  {a : ℕ}

theorem Tally.mark (hc : Tally rpb c t) (hsize : t.rowToQRT.size<2^32) (ha : a<t.rowToQRT.size)
    (hv : (t.rowToQRT.get a).valid=false) : Tally rpb (changeAt c (a/rpb) inc32) (t.mapRow a) := by
  intro g
  have hmap:=residents_mapRow rpb ha g
  have hle : residents rpb (t.mapRow a) g≤t.rowToQRT.size := residents_le rpb (t.mapRow a) g
  have hg:=hc g
  simp only [hv,Bool.false_eq_true,and_false,if_false,Nat.add_zero] at hmap
  unfold changeAt
  rw [Cells.get_set]
  by_cases hga : g=a/rpb
  · subst hga
    rw [if_pos rfl] at hmap ⊢
    rw [inc32_of_lt (by omega)]
    omega
  · rw [if_neg (Ne.symm hga)] at hmap
    rw [if_neg hga]
    omega

theorem Tally.remap (hc : Tally rpb c t) (ha : a<t.rowToQRT.size)
    (hv : (t.rowToQRT.get a).valid=true) : Tally rpb c (t.mapRow a) := by
  intro g
  have hmap:=residents_mapRow rpb ha g
  simp only [hv,and_true] at hmap
  rw [hc g]
  omega

theorem Tally.clear (hc : Tally rpb c t) (hsize : t.rowToQRT.size<2^32) (ha : a<t.rowToQRT.size)
    (hv : (t.rowToQRT.get a).valid=true) : Tally rpb (changeAt c (a/rpb) dec32) (t.clearRow a) := by
  intro g
  have hclear:=residents_clearRow rpb ha hv g
  have hle:=residents_le rpb t g
  have hg:=hc g
  unfold changeAt
  rw [Cells.get_set]
  by_cases hga : g=a/rpb
  · subst hga
    rw [if_pos rfl] at hclear ⊢
    rw [dec32_of_pos (by omega) (by omega)]
    omega
  · rw [if_neg (Ne.symm hga)] at hclear
    rw [if_neg hga]
    omega

structure Exact (s : RowQuarantine) : Prop where
  noFilter : s.filter=none
  cached : s.cache.isSome
  tallies : Tallies s.rowsPerBtvBit s.counters s.indirection

def Counting (rows n : ℕ) (s : RowQuarantine) : Prop := s.Mapped rows n ∧ s.Exact

theorem group_of_lt (s : RowQuarantine) (ha : a<2^32) : s.group a=a/s.rowsPerBtvBit := by
  unfold group generateCBFID
  rw [Nat.mod_eq_of_lt ha]

theorem Tallies.mark (hk : Tallies s.rowsPerBtvBit k t) (hf : s.filter=none)
    (hsize : t.rowToQRT.size<2^32) (ha : a<t.rowToQRT.size)
    (hv : (t.rowToQRT.get a).valid=false) : Tallies s.rowsPerBtvBit (s.marked k a) (t.mapRow a) := by
  simp only [marked,hf,Option.isSome_none,Bool.false_eq_true,if_false,group_of_lt s (ha.trans hsize)]
  exact ⟨hk.bits.mark hsize ha hv,hk.orr.mark hsize ha hv⟩

theorem Tallies.clear (hk : Tallies s.rowsPerBtvBit k t) (hf : s.filter=none)
    (hc : s.cache.isSome) (hsize : t.rowToQRT.size<2^32) (ha : a<t.rowToQRT.size)
    (hv : (t.rowToQRT.get a).valid=true) : Tallies s.rowsPerBtvBit (s.cleared k a) (t.clearRow a) := by
  simp only [cleared,hf,hc,Option.isSome_none,Bool.false_eq_true,if_false,if_true,
    group_of_lt s (ha.trans hsize)]
  exact ⟨hk.bits.clear hsize ha hv,hk.orr.clear hsize ha hv⟩

theorem Tallies.positive (hk : Tallies s.rowsPerBtvBit k t) (hsize : t.rowToQRT.size<2^32)
    (ha : a<t.rowToQRT.size) (hv : (t.rowToQRT.get a).valid=true) :
    0<k.bits.get (s.group a) ∧ 0<k.orr.get (s.group a) := by
  rw [group_of_lt s (ha.trans hsize),hk.bits,hk.orr]
  exact ⟨residents_pos ha hv,residents_pos ha hv⟩

theorem Exact.updated (hs : s.Exact) (h : Updated s t k s') (hk : Tallies s.rowsPerBtvBit k t) : s'.Exact := by
  obtain ⟨f,c,d,st,hf,hc,_,rfl⟩:=h
  rw [hs.noFilter] at hf
  exact ⟨by simpa using hf,hc.trans hs.cached,hk⟩

theorem Exact.looked (hs : s.Exact) (h : Looked s s') : s'.Exact := hs.updated h hs.tallies

theorem Exact.not_unmarked (hs : s.Exact) {e : Fault} (h : 0<k.bits.get (s.group a)) : ¬s.Unmarked k a e := by
  rintro (⟨_,hf⟩ | ⟨_,_,hz⟩)
  · exact hf hs.noFilter
  · omega

theorem enteredCounters_tallies (hs : s.Exact) (hsize : s.indirection.rowToQRT.size<2^32)
    (ha : a<s.indirection.rowToQRT.size) :
    Tallies s.rowsPerBtvBit (s.enteredCounters a) (s.indirection.mapRow a) := by
  unfold enteredCounters
  split
  · rename_i hv
    exact ⟨hs.tallies.bits.remap ha hv,hs.tallies.orr.remap ha hv⟩
  · rename_i hv
    exact hs.tallies.mark hs.noFilter hsize ha (by simpa using hv)

theorem Tally.of_rows {t' : IndirectionTables} (hc : Tally rpb c t) (h : t'.rowToQRT=t.rowToQRT) :
    Tally rpb c t' := by
  intro g
  rw [hc g]
  unfold residents
  rw [h]

theorem Tallies.of_rows {t' : IndirectionTables} (hk : Tallies rpb k t)
    (h : t'.rowToQRT=t.rowToQRT) : Tallies rpb k t' := ⟨hk.bits.of_rows h,hk.orr.of_rows h⟩

theorem quarantinedCounters_tallies {f : ℕ ≃. ℕ} (hs : s.Exact) (hf : s.indirection.Represents f)
    (hsize : s.indirection.rowToQRT.size<2^32) (ha : a<s.indirection.rowToQRT.size)
    (hnext : s.indirection.nextFreeQRID<s.indirection.qrToRowT.size) (m : ℕ) :
    Tallies s.rowsPerBtvBit (s.quarantinedCounters a) ((s.indirection.quarantined a).advanceHead m) := by
  have henter:=enteredCounters_tallies hs hsize ha
  have hrows : ((s.indirection.quarantined a).advanceHead m).rowToQRT =
      if s.headEntry.valid=true then ((s.indirection.mapRow a).clearRow s.headEntry.value).rowToQRT
      else (s.indirection.mapRow a).rowToQRT := by
    rw [(advanceHead_tables _ m).1]
    unfold quarantined headEntry
    dsimp only
    split <;> split <;> rfl
  unfold quarantinedCounters
  by_cases hv : s.headEntry.valid=true
  · obtain ⟨hb,hbv⟩:=headEntry_mapped hf a hnext hv
    rw [if_pos hv] at hrows ⊢
    have hclear:=Tallies.clear henter hs.noFilter hs.cached hsize hb hbv
    exact hclear.of_rows hrows
  · rw [if_neg hv] at hrows ⊢
    exact henter.of_rows hrows

theorem quarantineRow_counting (hs : s.Counting rows n) (hrows : rows<2^32) (rowID : ℕ) :
    Post (s.quarantineRow rowID) (Counting rows n) Plain := by
  obtain ⟨hm,he⟩:=hs
  obtain ⟨f,hf⟩:=hm.2.2.inverse
  have hsize : s.indirection.rowToQRT.size<2^32 := hm.2.2.rowTable.trans_lt hrows
  refine (quarantineRow_frame hf rowID).mono ?_ ?_
  · rintro s' ⟨hrow,hnext,hu⟩
    have hk:=quarantinedCounters_tallies he hf hsize hrow hnext s.numQREntries
    have he':=he.updated hu hk
    rw [hm.2.1] at hu
    exact ⟨hm.updated hu (hm.2.2.push hrow hnext),he'⟩
  · rintro e (hplain | ⟨hrow,hnext,hv,hun⟩)
    · exact hplain
    · obtain ⟨hb,hbv⟩:=headEntry_mapped hf rowID hnext hv
      have henter:=enteredCounters_tallies he hsize hrow
      exact (he.not_unmarked (henter.positive hsize hb hbv).1 hun).elim

theorem drainRow_counting (hs : s.Counting rows n) (hrows : rows<2^32) : Post s.drainRow (Counting rows n) Plain := by
  obtain ⟨hm,he⟩:=hs
  obtain ⟨f,hf⟩:=hm.2.2.inverse
  have hsize : s.indirection.rowToQRT.size<2^32 := hm.2.2.rowTable.trans_lt hrows
  refine (drainRow_frame hf).mono ?_ ?_
  · rintro s' (⟨_,hlook⟩ | ⟨hd,hu⟩)
    · exact ⟨hm.looked hlook,he.looked hlook⟩
    · obtain ⟨hb,hbv⟩:=tailEntry_mapped hf hd
      rw [hm.2.1] at hu
      refine ⟨hm.updated hu (hm.2.2.drain hd.2.1 hd.2.2),he.updated hu ?_⟩
      have hclear:=Tallies.clear he.tallies he.noFilter he.cached hsize hb hbv
      exact hclear.of_rows rfl
  · rintro e (hplain | ⟨hd,hun⟩)
    · exact hplain
    · obtain ⟨hb,hbv⟩:=tailEntry_mapped hf hd
      exact (he.not_unmarked (he.tallies.positive hsize hb hbv).1 hun).elim

theorem Exact.refreshed (hs : s.Exact) {currTick : UInt64} (h : Refreshed s currTick s') : s'.Exact := by
  rcases h with ⟨_,acc,d,st,rfl⟩ | ⟨_,d,st,rfl⟩
  · exact ⟨hs.noFilter,hs.cached,hs.tallies.of_rows rfl⟩
  · exact ⟨hs.noFilter,hs.cached,hs.tallies⟩

theorem Exact.not_missed (hs : s.Exact) (hsize : s.indirection.rowToQRT.size<2^32) {rowID : ℕ}
    {e : Fault} : ¬s.Missed rowID e := by
  rintro ⟨_,hsome,hzero⟩
  obtain ⟨q,hq⟩:=Option.isSome_iff_exists.mp hsome
  obtain ⟨hrow,hv,_⟩:=slotOf_eq_some.mp hq
  have hpos:=(hs.tallies.positive hsize hrow hv).1
  have hbit:=hzero hs.noFilter
  dsimp only [counters] at hpos
  omega

theorem detect_counting (hs : s.Counting rows n) (hrows : rows<2^32) (currTick : UInt64)
    (addr : ℕ) : Post (s.detect currTick addr) (Counting rows n) Plain := by
  obtain ⟨hm,he⟩:=hs
  have hsize : s.indirection.rowToQRT.size<2^32 := hm.2.2.rowTable.trans_lt hrows
  refine (detect_frame s currTick addr).mono ?_ ?_
  · rintro s' ⟨_,u,v,acc,det,flag,hu,_,hv,_,rfl⟩
    have hm':=(hm.refreshed hu).looked hv
    have he':=(he.refreshed hu).looked hv
    exact ⟨hm',he'.noFilter,he'.cached,he'.tallies⟩
  · rintro e (hplain | ⟨rowID,hmiss⟩)
    · exact hplain
    · exact (he.not_missed hsize hmiss).elim

theorem perform_counting (hs : s.Counting rows n) (hrows : rows<2^32) (a : Action) :
    Post (s.perform a) (Counting rows n) Plain := by
  cases a with
  | access currTick addr =>
    apply access_of (detect_counting hs hrows currTick addr)
    · exact fun u hu rowID => quarantineRow_counting hu hrows rowID
    · intro u misses hu
      have hu' : ({u with prevDrainCacheMissVal := misses} : RowQuarantine).Counting rows n :=
        ⟨hu.1,hu.2.noFilter,hu.2.cached,hu.2.tallies⟩
      exact drainRow_counting hu' hrows
    · exact fun _ h => h
  | startAccess currTick =>
    exact (startAccess_frame s currTick).imp fun _ h => ⟨hs.1.refreshed h,hs.2.refreshed h⟩
  | detect currTick addr => exact detect_counting hs hrows currTick addr
  | addQCheckDelay rowID =>
    have hsize : s.indirection.rowToQRT.size<2^32 := hs.1.2.2.rowTable.trans_lt hrows
    refine (addQCheckDelay_frame s rowID).mono (fun _ h => ⟨hs.1.looked h.2,hs.2.looked h.2⟩) ?_
    rintro e (hplain | hmiss)
    · exact hplain
    · exact (hs.2.not_missed hsize hmiss).elim
  | quarantineRow rowID => exact quarantineRow_counting hs hrows rowID
  | drainRow => exact drainRow_counting hs hrows
  | reset =>
    refine (reset_frame s).imp ?_
    rintro s' ⟨acc,st,rfl⟩
    exact ⟨⟨hs.1.1,hs.1.2.1,hs.1.2.2.atReset⟩,hs.2.noFilter,hs.2.cached,hs.2.tallies.of_rows rfl⟩

theorem construct_counting (numQREntries rowsPerBank threshold numBanks numRanks numChannels : ℕ)
    (draws : ℕ → ℕ) {memory : RowQuarantine} (hfilter : memory.filter=none) (hcache : memory.cache.isSome) :
    (construct numQREntries rowsPerBank threshold numBanks numRanks numChannels draws memory).Counting
      (rowsPerBank*numBanks*numRanks*numChannels%2^32) numQREntries := by
  have hnone : Tally memory.rowsPerBtvBit (.calloc (rowsPerBank*numBanks*numRanks*numChannels%2^32) 0)
      ⟨.calloc (rowsPerBank*numBanks*numRanks*numChannels%2^32) ⟨false,0⟩,
        .calloc numQREntries ⟨false,0⟩,0,0,0⟩ := by
    intro g
    simp [residents]
  exact ⟨construct_mapped ..,hfilter,hcache,hnone,hnone⟩

/-- Without a filter and with a cache both counters of every group are the number of its
quarantined rows in every reachable state. So no assert fires, and both counters are positive
when `removeRow` takes one off for the tail's row, or for the row that A displaces. -/
theorem counters_exact {numQREntries rowsPerBank threshold numBanks numRanks numChannels : ℕ}
    {draws : ℕ → ℕ} {memory : RowQuarantine} (hfilter : memory.filter=none)
    (hcache : memory.cache.isSome)
    (h : Reachable (construct numQREntries rowsPerBank threshold numBanks numRanks numChannels
      draws memory) s) :
    (∀ g, s.orrCBF.get g=s.bitvector.get g ∧ s.bitvector.get g =
      ((Finset.range s.numRows).filter fun r =>
        r/s.rowsPerBtvBit=g ∧ (s.indirection.rowToQRT.get r).valid=true).card) ∧
    (∀ a, Post (s.perform a) (fun _ => True) Plain) ∧
    (s.Drains → 0<s.bitvector.get (s.group s.tailEntry.value) ∧
      0<s.orrCBF.get (s.group s.tailEntry.value)) ∧
    ∀ rowID<s.numRows, ∀ u, s.enterRow rowID (s.indirection.rowToQRT.get rowID).valid = .ok u →
      s.indirection.nextFreeQRID<s.numQREntries → s.headEntry.valid=true →
      0<u.bitvector.get (u.group s.headEntry.value) ∧ 0<u.orrCBF.get (u.group s.headEntry.value) := by
  have hrows : rowsPerBank*numBanks*numRanks*numChannels%2^32<2^32 := Nat.mod_lt _ (by decide)
  have hs:=reachable_of (construct_counting numQREntries rowsPerBank threshold numBanks numRanks
    numChannels draws hfilter hcache) (fun u hu a => perform_counting hu hrows a) h
  obtain ⟨hm,he⟩:=hs
  obtain ⟨f,hf⟩:=hm.2.2.inverse
  have hsize : s.indirection.rowToQRT.size<2^32 := hm.2.2.rowTable.trans_lt hrows
  refine ⟨?_,?_,?_,?_⟩
  · intro g
    have hbits:=he.tallies.bits g
    have horr:=he.tallies.orr g
    refine ⟨horr.trans hbits.symm,hbits.trans ?_⟩
    unfold residents
    rw [hm.2.2.rowTable,← hm.1]
  · intro a
    exact (perform_counting ⟨hm,he⟩ hrows a).imp fun _ _ => trivial
  · intro hd
    obtain ⟨hb,hbv⟩:=tailEntry_mapped hf hd
    exact he.tallies.positive hsize hb hbv
  · intro rowID hrow u hu hnext hv
    have hrow' : rowID<s.indirection.rowToQRT.size := by rwa [hm.2.2.rowTable,← hm.1]
    have hnext' : s.indirection.nextFreeQRID<s.indirection.qrToRowT.size := by
      rwa [hm.2.2.slotTable,← hm.2.1]
    obtain ⟨hb,hbv⟩:=headEntry_mapped hf rowID hnext' hv
    have henter:=(enterRow_frame s rowID _).of_ok hu
    have hpos:=(enteredCounters_tallies he hsize hrow').positive hsize hb hbv
    obtain ⟨f',c',d',st',_,_,_,rfl⟩:=henter
    exact hpos

theorem counters_exact_of_selfDisplacement :
    ∃ s1 s2 s3, (construct 2 4 1 1 1 1 id
        {zeroed with rowsPerBtvBit := 2, cache := some (.construct 1 2 2)}).quarantineRow 3 = .ok s1 ∧
      s1.quarantineRow 2 = .ok s2 ∧ s2.quarantineRow 3 = .ok s3 ∧
      s2.bitvector.get 1=2 ∧ s3.bitvector.get 1=1 ∧ s3.orrCBF.get 1=s3.bitvector.get 1 ∧
      Post (s3.perform .drainRow) (fun _ => True) Plain := by
  have hrun : Post (do
      let s ← (construct 2 4 1 1 1 1 id
        {zeroed with rowsPerBtvBit := 2, cache := some (.construct 1 2 2)}).quarantineRow 3
      let s ← s.quarantineRow 2
      let t ← s.quarantineRow 3
      pure (s,t)) (fun p => p.1.bitvector.get 1=2 ∧ p.2.bitvector.get 1=1) fun _ => False := by
    decide +kernel
  obtain ⟨⟨s2,s3⟩,hs,hbits,hbits'⟩:=hrun.returns
  obtain ⟨s1,h1,hs⟩:=bind_ok hs
  obtain ⟨_,h2,hs⟩:=bind_ok hs
  obtain ⟨_,h3,hs⟩:=bind_ok hs
  cases hs
  have h:=counters_exact rfl rfl (.step _ _ (.quarantineRow 3) (.step _ _ (.quarantineRow 2)
    (.step _ _ (.quarantineRow 3) .start h1) h2) h3)
  exact ⟨s1,s2,s3,h1,h2,h3,hbits,hbits',(h.1 1).1,h.2.1 .drainRow⟩

end AquaGem5.Quarantine.RowQuarantine
