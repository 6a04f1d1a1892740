import AquaGem5.Quarantine.CacheDirectory
import AquaGem5.Quarantine.GroupCounts

/-!
# The cache holds quarantined rows only, each once

A row enters the cache when it is quarantined or after a miss, and leaves it when its slot is freed.
-/

namespace AquaGem5.Quarantine.RowQuarantine
open Checked Detector Mitigation Directory FunctionalCache

structure Coherent (rpb : ℕ) (t : IndirectionTables) (c : FunctionalCache) : Prop where
  offset : c.mBlkOffset=5
  factor : c.partialLookupFactor=rpb
  placed : Placed c.home c.tags
  quarantined : ∀ r, Member c.tags r → (t.slotOf r).isSome

def Cached (rpb : ℕ) (t : IndirectionTables) (s : RowQuarantine) : Prop :=
  ∃ c, s.cache=some c ∧ Coherent rpb t c

variable {rows n rpb : ℕ} {s s' : RowQuarantine} {c c' : FunctionalCache} {t : IndirectionTables}
  {k : Counters} {a : ℕ}

theorem Coherent.kept (h : Coherent rpb t c) (hk : Kept c c') : Coherent rpb t c' := by
  have hshape:=hk.shape
  simp only [shape,Prod.mk.injEq] at hshape
  refine ⟨hshape.1.trans h.offset,hshape.2.2.2.trans h.factor,?_,?_⟩
  · rw [hk.tags,home_of_shape hk.shape]
    exact h.placed
  · rw [hk.tags]
    exact h.quarantined

theorem Coherent.cleared (h : Coherent rpb t c) (hshape : c'.shape=c.shape) {set way : ℕ}
    (htags : c'.tags=clear c.tags set way) : Coherent rpb t c' := by
  have hs:=hshape
  simp only [shape,Prod.mk.injEq] at hs
  refine ⟨hs.1.trans h.offset,hs.2.2.2.trans h.factor,?_,?_⟩
  · rw [htags,home_of_shape hshape]
    exact clear_placed h.placed set way
  · intro r hr
    rw [htags] at hr
    exact h.quarantined r (clear_member hr)

theorem Coherent.filled (h : Coherent rpb t c) (hshape : c'.shape=c.shape) {way : ℕ}
    (htags : c'.tags=put c.tags (c.home a) way a) (ha : ¬Member c.tags a)
    (hq : (t.slotOf a).isSome) : Coherent rpb t c' := by
  have hs:=hshape
  simp only [shape,Prod.mk.injEq] at hs
  refine ⟨hs.1.trans h.offset,hs.2.2.2.trans h.factor,?_,?_⟩
  · rw [htags,home_of_shape hshape]
    exact put_placed h.placed ha way
  · intro r hr
    rw [htags] at hr
    rcases put_member hr with rfl | hmem
    · exact hq
    · exact h.quarantined r hmem

theorem Coherent.tables (h : Coherent rpb t c) {t' : IndirectionTables}
    (ht : ∀ r, Member c.tags r → (t.slotOf r).isSome → (t'.slotOf r).isSome) : Coherent rpb t' c :=
  ⟨h.offset,h.factor,h.placed,fun r hr => ht r hr (h.quarantined r hr)⟩

theorem within_cache {α : Type} {m : Except FunctionalCache.Fault α} {Q : α → Prop}
    (h : Post m Q) : Post (within Fault.cache m) Q :=
  (post_within Fault.cache m Q fun _ => True).mpr h

theorem lookup_not_member (h : Coherent rpb t c) {way : ℕ} (hl : Looks c a (fun r => r=a) way)
    (hway : ¬way<c.mWays) : ¬Member c.tags a := by
  intro hm
  obtain ⟨w,hw⟩:=(member_iff h.placed).mp hm
  exact hl.2 hway w a hw rfl

theorem removeRowFromCache_coherent (s : RowQuarantine) (h : Coherent rpb t c) (index : ℕ) :
    Post (s.removeRowFromCache c index) (fun p => ∃ c', p.1.cache=some c' ∧ Coherent rpb t c' ∧ ¬Member c'.tags index) := by
  unfold removeRowFromCache
  refine (within_cache (lookup_post c index false)).bind ?_
  rintro ⟨c1,way⟩ ⟨hkept,hlooks⟩
  have h1:=h.kept hkept
  rw [post_ite]
  constructor
  · intro hway
    rw [ways_of_shape hkept.shape] at hway
    obtain ⟨r,hr,htag⟩:=hlooks.1 hway
    subst hr
    refine (post_true _).bind fun e _ => ?_
    refine (within_cache (invalidate_post c1 r way)).bind fun c' hc' => ?_
    refine ⟨c',rfl,h1.cleared hc'.1 hc'.2,?_⟩
    rw [hc'.2,home_of_shape hkept.shape]
    apply clear_not_member h1.placed
    rw [hkept.tags]
    exact htag
  · intro hway
    rw [ways_of_shape hkept.shape] at hway
    refine ⟨c1,rfl,h1,?_⟩
    rw [hkept.tags]
    exact lookup_not_member h hlooks hway

theorem insertRowInCache_coherent (s : RowQuarantine) (h : Coherent rpb t c)
    (ha : ¬Member c.tags a) (hq : (t.slotOf a).isSome) (setDirty : Bool) :
    Post (s.insertRowInCache c a setDirty) (fun p => p.1.Cached rpb t) := by
  unfold insertRowInCache
  refine (within_cache (findVictim_post c a)).bind ?_
  rintro ⟨c1,way⟩ ⟨hkept,hway⟩
  have h1:=h.kept hkept
  refine (post_true _).bind fun valid _ => ?_
  refine (post_true _).bind fun e _ => ?_
  refine (within_cache (invalidate_post c1 a way)).bind fun c2 hc2 => ?_
  have h2:=h1.cleared hc2.1 hc2.2
  have hway2 : way<c2.mWays := by
    rwa [ways_of_shape hc2.1,ways_of_shape hkept.shape]
  refine (within_cache (fill_post c2 a hway2)).bind fun c3 hc3 => ?_
  have hnot : ¬Member c2.tags a := by
    intro hm
    rw [hc2.2] at hm
    have hm':=clear_member hm
    rw [hkept.tags] at hm'
    exact ha hm'
  have h3:=h2.filled hc3.1 hc3.2 hnot hq
  refine Post.bind (R := Kept c3) ?_ fun c4 hc4 => ⟨c4,rfl,h3.kept hc4⟩
  split
  · exact within_cache (setDirtyBit_post c3 a way)
  · exact .refl c3

structure Paths where
  negatives : UInt64
  cacheHits : UInt64
  partialHits : UInt64
  groupMisses : UInt64
  misses : UInt64

def paths (st : Stats) : Paths :=
  ⟨st.sBtvTrueNegatives,st.sCacheHit,st.sCachePartialHitOrrSet,st.sCachePartialHitOrrUnset,st.sCacheMiss⟩

inductive Resolved (t : IndirectionTables) (rowID : ℕ) (p : Paths) : Paths → Prop
  | negative (h : (t.rowToQRT.get rowID).valid=false) :
      Resolved t rowID p {p with negatives := p.negatives+1}
  | cacheHit (h : (t.rowToQRT.get rowID).valid=true) :
      Resolved t rowID p {p with cacheHits := p.cacheHits+1}
  | partialHit (h : (t.rowToQRT.get rowID).valid=false) :
      Resolved t rowID p {p with partialHits := p.partialHits+1}
  | groupMiss : Resolved t rowID p {p with groupMisses := p.groupMisses+1}
  | miss : Resolved t rowID p {p with misses := p.misses+1}

theorem evictBlock_paths (s : RowQuarantine) (c : FunctionalCache) (index way : ℕ) :
    Post (s.evictBlock c index way) (fun p => paths p.1.stats=paths s.stats) := by
  unfold evictBlock
  refine (post_true _).bind fun isDirty _ => ?_
  refine (post_true _).bind fun rowID _ => ?_
  rw [post_pure]
  dsimp only
  unfold Stats.countEvict
  split <;> rfl

theorem insertRowInCache_paths (s : RowQuarantine) (c : FunctionalCache) (index : ℕ) (b : Bool) :
    Post (s.insertRowInCache c index b) (fun p => paths p.1.stats=paths s.stats) := by
  unfold insertRowInCache
  refine (post_true _).bind fun r _ => ?_
  refine (post_true _).bind fun valid _ => ?_
  refine Post.bind (R := fun e => paths e.1.stats=paths s.stats) ?_ fun e he => ?_
  · rw [post_ite]
    exact ⟨fun _ => evictBlock_paths s r.1 index r.2,fun _ => rfl⟩
  · refine (post_true _).bind fun c1 _ => ?_
    refine (post_true _).bind fun c2 _ => ?_
    exact (post_true _).bind fun c3 _ => he

theorem findInserted_paths (s : RowQuarantine) (rowID index : ℕ) :
    Post (s.findInserted rowID index) (fun p => paths p.1.stats=paths s.stats) := by
  unfold findInserted
  refine (post_true _).bind fun e _ => ?_
  rw [post_ite]
  refine ⟨fun _ => rfl,fun _ => ?_⟩
  refine (post_true _).bind fun line _ => ?_
  refine (post_true _).bind fun row _ => ?_
  refine (post_true _).bind fun g _ => ?_
  refine (post_true _).bind fun orr _ => ?_
  rw [post_ite]
  exact ⟨fun _ => rfl,fun _ => rfl⟩

theorem paths_addTableDelay (s : RowQuarantine) : paths s.addTableDelay.stats=paths s.stats := by
  unfold addTableDelay
  split <;> rfl

theorem mem_group {lo row rpb : ℕ} (hlo : lo/rpb*rpb≤row) (hhi : row<lo/rpb*rpb+rpb) : row/rpb=lo/rpb := by
  apply Nat.div_eq_of_lt_le hlo
  rw [Nat.add_mul,Nat.one_mul]
  exact hhi

theorem cacheMiss_coherent (hs : Coherent s.rowsPerBtvBit s.indirection c)
    (hsize : s.indirection.rowToQRT.size<2^32) (hmiss : ¬Member c.tags a)
    (hgroup : s.orrCBF.get (a/s.rowsPerBtvBit)=1 → ∀ r, Member c.tags r → r/s.rowsPerBtvBit≠a/s.rowsPerBtvBit) :
    Post (s.cacheMiss c a a) (fun s' => s'.Cached s.rowsPerBtvBit s.indirection ∧
      paths s'.stats=paths s.stats) := by
  unfold cacheMiss
  have hfind:=(findInserted_post s.addTableDelay a a).and (findInserted_paths s.addTableDelay a a)
  refine hfind.partly.bind ?_
  rintro ⟨u,row⟩ ⟨⟨⟨st,rfl⟩,hrow⟩,hpaths⟩
  rw [paths_addTableDelay] at hpaths
  obtain ⟨f1,c1,d1,st1,_,_,_,hdelay⟩:=looked_addTableDelay s
  have hrow' : row=s.numRows ∨ (row=a ∧ (s.indirection.slotOf a).isSome) ∨
      s.Found (a/s.rowsPerBtvBit*s.rowsPerBtvBit)
        (a/s.rowsPerBtvBit*s.rowsPerBtvBit+s.rowsPerBtvBit) row := by
    rw [hdelay] at hrow
    exact hrow
  rw [hdelay,post_ite]
  refine ⟨fun hlt => ?_,fun _ => ⟨⟨c,rfl,hs⟩,hpaths⟩⟩
  have hne : row≠s.numRows := Nat.ne_of_lt hlt
  have hsome : (s.indirection.slotOf row).isSome := by
    rcases hrow' with hr | ⟨hr,hv⟩ | ⟨_,_,hv⟩
    · exact (hne hr).elim
    · exact hr ▸ hv
    · exact hv
  refine (mayInsert_post _ a a row).partly.bind fun insert hins => ?_
  rw [post_ite]
  refine ⟨fun hi => ?_,fun _ => ⟨⟨c,rfl,hs⟩,hpaths⟩⟩
  have hnew : ¬Member c.tags row := by
    rcases hins hi with hr | horr
    · exact hr ▸ hmiss
    · rcases hrow' with hr | ⟨hr,_⟩ | ⟨hlo,hhi,_⟩
      · exact (hne hr).elim
      · exact hr ▸ hmiss
      · exact fun hm => hgroup horr row hm (mem_group hlo hhi)
  have hrow32 : generateCBFID row=row := by
    obtain ⟨q,hq⟩:=Option.isSome_iff_exists.mp hsome
    exact Nat.mod_eq_of_lt ((IndirectionTables.slotOf_eq_some.mp hq).1.trans hsize)
  rw [hrow32]
  have hinsert:=(insertRowInCache_coherent _ hs hnew hsome false).and
    (insertRowInCache_paths {s with
      filter := f1, cache := c1, decision := d1, stats := st} c row false)
  refine hinsert.partly.bind ?_
  rintro ⟨v,e⟩ ⟨hcached,hp⟩
  rw [post_ite]
  exact ⟨fun _ => ⟨hcached,hp.trans hpaths⟩,fun _ => ⟨hcached,hp.trans hpaths⟩⟩

theorem home_of_group (h : Coherent rpb t c) (hdvd : rpb∣32) {r : ℕ} (hr : r/rpb=a/rpb) : c.home r=c.home a := by
  obtain ⟨m,hm⟩:=hdvd
  have hset : ∀ x, x >>> 5=x/rpb/m := by
    intro x
    rw [Nat.shiftRight_eq_div_pow,Nat.div_div_eq_div_mul,← hm]
  unfold home
  rw [h.offset,hset r,hset a,hr]

theorem checkCache_coherent (hs : Coherent s.rowsPerBtvBit s.indirection c) (hcount : s.Exact)
    (hdvd : s.rowsPerBtvBit∣32) (hsize : s.indirection.rowToQRT.size<2^32) (ha : a<s.indirection.rowToQRT.size) :
    Post (s.checkCache c a a) (fun s' => s'.Cached s.rowsPerBtvBit s.indirection ∧
      Resolved s.indirection a (paths s.stats) (paths s'.stats)) := by
  unfold checkCache
  refine (within_cache (lookup_post c a true)).bind ?_
  rintro ⟨c1,way⟩ ⟨hkept,hlooks⟩
  have h1:=hs.kept hkept
  rw [post_ite]
  constructor
  · intro hway
    rw [ways_of_shape hkept.shape] at hway
    obtain ⟨r,hr,htag⟩:=hlooks.1 hway
    subst hr
    obtain ⟨q,hq⟩:=Option.isSome_iff_exists.mp (hs.quarantined r ⟨_,_,htag⟩)
    exact ⟨⟨c1,rfl,h1⟩,.cacheHit (IndirectionTables.slotOf_eq_some.mp hq).2.1⟩
  · intro hway
    rw [ways_of_shape hkept.shape] at hway
    have hmiss : ¬Member c1.tags a := by
      rw [hkept.tags]
      exact lookup_not_member hs hlooks hway
    refine (within_cache (partialLookup_post c1 a)).bind ?_
    rintro ⟨c2,pway⟩ ⟨hkept2,hlooks2⟩
    have h2:=h1.kept hkept2
    rw [← hkept2.tags] at hmiss
    rw [h1.factor] at hlooks2
    rw [post_ite]
    constructor
    · intro hpway
      rw [ways_of_shape hkept2.shape] at hpway
      obtain ⟨r,hr,htag⟩:=hlooks2.1 hpway
      have hmem : Member c2.tags r := ⟨_,_,hkept2.tags ▸ htag⟩
      have hne : r≠a := fun h => hmiss (h ▸ hmem)
      obtain ⟨q,hq⟩:=Option.isSome_iff_exists.mp (h2.quarantined r hmem)
      obtain ⟨hrow,hv,_⟩:=IndirectionTables.slotOf_eq_some.mp hq
      simp only [post_bind,post_udiv,Cells.post_read]
      refine ⟨fun _ => trivial,fun _ => ⟨fun _ => ?_,fun _ => trivial⟩⟩
      rw [post_ite]
      constructor
      · intro horr
        -- the block found is of the only quarantined row of the group
        refine ⟨⟨c2,rfl,h2⟩,.partialHit ?_⟩
        by_contra hva
        have htwo:=IndirectionTables.residents_two ha (Bool.not_eq_false _ ▸ hva) hrow hv hne hr
        have hone:=hcount.tallies.orr (a/s.rowsPerBtvBit)
        dsimp only [counters] at hone
        have horr' : s.orrCBF.get (a/s.rowsPerBtvBit)=1 := horr
        omega
      · intro horr
        have hcoherent:=cacheMiss_coherent (s := {s.addSramDelay s.sramCacheAccDelay with
          stats := {s.stats with sCachePartialHitOrrUnset := s.stats.sCachePartialHitOrrUnset+1} })
          h2 hsize hmiss fun h => (horr h).elim
        refine hcoherent.imp ?_
        rintro s' ⟨hcached,hp⟩
        refine ⟨hcached,?_⟩
        rw [hp]
        exact .groupMiss
    · intro hpway
      rw [ways_of_shape hkept2.shape] at hpway
      have hgroup : ∀ r, Member c2.tags r → r/s.rowsPerBtvBit≠a/s.rowsPerBtvBit := by
        intro r hm hr
        rw [hkept2.tags] at hm
        obtain ⟨w,hw⟩:=(member_iff h1.placed).mp hm
        rw [home_of_group h1 hdvd hr] at hw
        exact hlooks2.2 hpway w r hw hr
      have hcoherent:=cacheMiss_coherent (s := {s.addSramDelay s.sramCacheAccDelay with
        stats := {s.stats with sCacheMiss := s.stats.sCacheMiss+1} }) h2 hsize hmiss fun _ => hgroup
      refine hcoherent.imp ?_
      rintro s' ⟨hcached,hp⟩
      refine ⟨hcached,?_⟩
      rw [hp]
      exact .miss

theorem addQCheckDelay_coherent (hs : s.Cached s.rowsPerBtvBit s.indirection) (hcount : s.Exact)
    (hdvd : s.rowsPerBtvBit∣32) (hsize : s.indirection.rowToQRT.size<2^32) (a : ℕ) :
    Post (s.addQCheckDelay a) (fun s' => s'.Cached s.rowsPerBtvBit s.indirection ∧
      Resolved s.indirection a (paths s.stats) (paths s'.stats)) := by
  have hframe:=(addQCheckDelay_frame s a).partly
  by_cases ha : a<s.indirection.rowToQRT.size
  · obtain ⟨c,hcache,hc⟩:=hs
    have hindex : generateCBFID a=a := Nat.mod_eq_of_lt (ha.trans hsize)
    unfold addQCheckDelay
    rw [hindex]
    refine (mayBeRemapped_post _ a).partly.bind fun possible hp => ?_
    rw [post_ite]
    constructor
    · intro _
      refine Post.bind (R := fun u => (u.Cached s.rowsPerBtvBit s.indirection ∧
        Resolved s.indirection a (paths s.stats) (paths u.stats)) ∧ u.filter=none) ?_ ?_
      · have hd : (s.addSramDelay s.sramCBFAccDelay).cache=some c := hcache
        rw [hd]
        have hcoherent:=checkCache_coherent (s := s.addSramDelay s.sramCBFAccDelay) hc
          ⟨hcount.noFilter,hcount.cached,hcount.tallies⟩ hdvd hsize ha
        have hlook:=checkCache_frame (s.addSramDelay s.sramCBFAccDelay) c (by rw [hd]; rfl) a a
        refine (hcoherent.and hlook).partly.imp ?_
        rintro u ⟨hu,hl⟩
        have hexact : (s.addSramDelay s.sramCBFAccDelay).Exact :=
          ⟨hcount.noFilter,hcount.cached,hcount.tallies⟩
        exact ⟨hu,(hexact.looked hl).noFilter⟩
      · rintro u ⟨⟨hcached,hres⟩,hf⟩
        refine (post_true _).bind fun e _ => ?_
        rw [post_pure]
        unfold countPositive
        rw [hf]
        cases e.valid <;> exact ⟨hcached,hres⟩
    · intro hno
      rw [post_bind,Cells.post_read]
      refine ⟨fun _ => ?_,fun _ => trivial⟩
      simp only [post_bind,partly_check,post_pure]
      intro hv
      have hf : (s.addSramDelay s.sramCBFAccDelay).filter=none := hcount.noFilter
      unfold countNegative
      rw [hf]
      exact ⟨⟨c,hcache,hc⟩,.negative hv⟩
  · exact hframe.imp fun _ h => (ha h.1).elim

def Held (rpb : ℕ) (s : RowQuarantine) : Prop :=
  s.rowsPerBtvBit=rpb ∧ s.Cached rpb s.indirection

theorem Updated.held (h : Updated s t k s') (hr : s.rowsPerBtvBit=rpb) (hc : s'.Cached rpb t) : s'.Held rpb := by
  obtain ⟨f,c,d,st,_,_,_,rfl⟩:=h
  exact ⟨hr,hc⟩

theorem held_tables (hs : s.Held rpb) (ht : t.rowToQRT=s.indirection.rowToQRT) :
    ({s with indirection := t} : RowQuarantine).Held rpb := by
  obtain ⟨hr,c,hcache,hc⟩:=hs
  refine ⟨hr,c,hcache,hc.tables fun r _ hsome => ?_⟩
  have hslot : t.slotOf r=s.indirection.slotOf r := by
    unfold IndirectionTables.slotOf
    rw [ht]
  exact hslot ▸ hsome

theorem held_addVirtualDelay (hs : s.Held rpb) (d : UInt64) : (s.addVirtualDelay d).Held rpb := by
  unfold addVirtualDelay
  split <;> exact hs

theorem setFilterEntry_cache (s : RowQuarantine) (index : ℕ) :
    Post (s.setFilterEntry index) (fun s' => s'.cache=s.cache) := by
  unfold setFilterEntry
  split
  · exact (post_true _).bind fun f _ => rfl
  · refine (post_true _).bind fun g _ => ?_
    refine (post_true _).bind fun count _ => ?_
    exact (post_true _).bind fun orr _ => rfl

theorem clearFilterEntry_cache (s : RowQuarantine) (index : ℕ) :
    Post (s.clearFilterEntry index) (fun s' => s'.cache=s.cache) := by
  unfold clearFilterEntry
  split
  · refine (post_true _).bind fun present _ => ?_
    refine (post_true _).bind fun _ _ => ?_
    exact (post_true _).bind fun f _ => rfl
  · refine (post_true _).bind fun g _ => ?_
    refine (post_true _).bind fun count _ => ?_
    exact (post_true _).bind fun _ _ => rfl

theorem uncacheRow_coherent (hs : s.Cached rpb t) (index : ℕ) : Post (s.uncacheRow index)
      (fun p => ∃ c', p.1.cache=some c' ∧ Coherent rpb t c' ∧ ¬Member c'.tags index) := by
  obtain ⟨c,hcache,hc⟩:=hs
  unfold uncacheRow
  rw [hcache]
  refine (removeRowFromCache_coherent s hc index).bind fun r hr => ?_
  refine (post_true _).bind fun g _ => ?_
  exact (post_true _).bind fun orr _ => hr

theorem removeRow_held (hs : s.Held rpb) (hsize : s.indirection.rowToQRT.size<2^32) (slot : ℕ) :
    Post (s.removeRow slot) (fun p => p.1.Held rpb) := by
  obtain ⟨hr,hc⟩:=hs
  unfold removeRow
  simp only [post_bind,Cells.post_read,post_check]
  refine ⟨fun _ => ⟨fun hb => ⟨fun _ => ?_,fun _ => trivial⟩,fun _ => trivial⟩,fun _ => trivial⟩
  have hrow32 : generateCBFID (s.indirection.qrToRowT.get slot).value =
      (s.indirection.qrToRowT.get slot).value := Nat.mod_eq_of_lt (hb.trans hsize)
  have hclear:=(clearFilterEntry_frame {s with indirection := s.indirection.removed slot}
    (s.indirection.qrToRowT.get slot).value).partly.and (clearFilterEntry_cache _ _)
  refine hclear.partly.imp ?_
  rintro v ⟨hv,hcache⟩
  have hcv : v.Cached rpb s.indirection := by
    obtain ⟨c,hc⟩:=hc
    exact ⟨c,hcache.trans hc.1,hc.2⟩
  have huncache:=(uncacheRow_frame v (s.indirection.qrToRowT.get slot).value).partly.and
    (uncacheRow_coherent hcv _)
  refine huncache.partly.imp ?_
  rintro p ⟨hp,c',hc',hcoh,hnot⟩
  rw [hrow32] at hnot
  rw [hv.indirection] at hp
  refine hp.held (hv.rowsPerBtvBit.trans hr) ⟨c',hc',hcoh.tables ?_⟩
  intro r hm hsome
  have hne : r≠(s.indirection.qrToRowT.get slot).value := fun h => hnot (h ▸ hm)
  rw [IndirectionTables.removed,IndirectionTables.slotOf_clearRow,if_neg hne]
  exact hsome

theorem drainRow_held (hs : s.Held rpb) (hsize : s.indirection.rowToQRT.size<2^32) :
    Post s.drainRow (Held rpb) := by
  unfold drainRow
  have hlook:=(looked_addVirtualDelay s s.accDelay).indirection
  have hu:=held_addVirtualDelay hs s.accDelay
  rw [← hlook] at hsize
  generalize s.addVirtualDelay s.accDelay=u at hu hsize
  refine (post_true _).bind fun b _ => ?_
  rw [post_ite]
  refine ⟨fun _ => ?_,fun _ => hu⟩
  refine (removeRow_held (s := {u with stats := {u.stats with sDrainQr := u.stats.sDrainQr+1} })
    hu hsize u.indirection.qrTailID).bind fun p hp => ?_
  have hp':=held_addVirtualDelay (s := p.1.addDelay u.moveDelay) hp u.accDelay
  exact held_tables (held_addVirtualDelay hp' u.accDelay) rfl

theorem cacheRow_held (hs : s.Held rpb) (hq : (s.indirection.slotOf a).isSome) :
    Post (s.cacheRow a) (Held rpb) := by
  obtain ⟨hr,c,hcache,hc⟩:=hs
  have hinsert:=(cacheRow_frame s a).partly
  have hcached : Post (s.cacheRow a) (fun s' => s'.Cached rpb s.indirection) := by
    unfold cacheRow
    rw [hcache]
    refine (within_cache (lookup_post c a false)).bind ?_
    rintro ⟨c1,way⟩ ⟨hkept,hlooks⟩
    have h1:=hc.kept hkept
    rw [post_ite]
    constructor
    · intro hway
      have hnot : ¬Member c1.tags a := by
        rw [ways_of_shape hkept.shape] at hway
        rw [hkept.tags]
        exact lookup_not_member hc hlooks (by omega)
      refine (insertRowInCache_coherent s h1 hnot hq true).bind fun e he => ?_
      rw [post_pure]
      split
      · unfold addVirtualDelay
        split <;> exact he
      · exact he
    · intro _
      exact (within_cache (setDirtyBit_post c1 a way)).bind fun c2 hc2 => ⟨c2,rfl,h1.kept hc2⟩
  refine (hinsert.and hcached).partly.imp ?_
  rintro s' ⟨hl,hc'⟩
  exact hl.held hr hc'

theorem enterRow_held (hs : s.Held rpb) (hsize : s.indirection.rowToQRT.size<2^32)
    (ha : a<s.indirection.rowToQRT.size) (inRegion : Bool) :
    Post (s.enterRow a inRegion) (Held rpb) := by
  have hindex : generateCBFID a=a := Nat.mod_eq_of_lt (ha.trans hsize)
  unfold enterRow
  rw [hindex]
  have hset : Post (if inRegion=true then pure s else s.setFilterEntry a) (fun u =>
      u.indirection=s.indirection ∧ u.Held rpb) := by
    rw [post_ite]
    refine ⟨fun _ => ⟨rfl,hs⟩,fun _ => ?_⟩
    have hframe:=setFilterEntry_frame s a
    rw [hindex] at hframe
    refine (hframe.partly.and (setFilterEntry_cache s a)).partly.imp ?_
    rintro u ⟨hu,hcache⟩
    obtain ⟨hr,c,hc,hcoh⟩:=hs
    exact ⟨hu.indirection,hu.held hr ⟨c,hcache.trans hc,hcoh⟩⟩
  refine hset.bind ?_
  rintro u ⟨hu,hr,c,hc,hcoh⟩
  have hau : a<u.indirection.rowToQRT.size := hu ▸ ha
  have hslot:=fun r => IndirectionTables.slotOf_mapRow hau r
  apply cacheRow_held
  · refine ⟨hr,c,hc,hcoh.tables fun r _ hsome => ?_⟩
    rw [hslot r]
    split
    · rfl
    · exact hsome
  · rw [hslot a,if_pos rfl]
    rfl

theorem displaceRow_held (hs : s.Held rpb) (hsize : s.indirection.rowToQRT.size<2^32) (rowID : ℕ)
    (inRegion : Bool) (b : Entry) : Post (s.displaceRow rowID inRegion b) (Held rpb) := by
  unfold displaceRow
  rw [post_ite]
  refine ⟨fun _ => ?_,fun _ => hs⟩
  refine (removeRow_held hs hsize s.indirection.nextFreeQRID).bind fun p hp => ?_
  rw [post_pure]
  split
  · exact held_addVirtualDelay (s := p.1.addDelay s.moveDelay) hp _
  · exact hp

theorem placeRow_held (hs : s.Held rpb) (rowID : ℕ) (orig : Entry) :
    Post (s.placeRow rowID orig) (Held rpb) := by
  unfold placeRow
  have hu:=held_addVirtualDelay (s := s.addDelay s.moveDelay) hs s.accDelay
  generalize (s.addDelay s.moveDelay).addVirtualDelay s.accDelay=u at hu
  have hfill:=held_tables (t := u.indirection.fillSlot rowID) hu rfl
  refine (post_true _).bind fun _ _ => ?_
  rw [post_ite]
  refine ⟨fun _ => ?_,fun _ => hfill⟩
  refine (post_true _).bind fun e _ => ?_
  refine (post_true _).bind fun _ _ => ?_
  rw [post_pure]
  split
  · exact held_tables (held_addVirtualDelay hfill _) rfl
  · exact held_tables hfill rfl

theorem quarantineRow_held (hs : s.Held rpb) (hsize : s.indirection.rowToQRT.size<2^32) (rowID : ℕ) :
    Post (s.quarantineRow rowID) (Held rpb) := by
  unfold quarantineRow
  rw [post_bind,Cells.post_read]
  refine ⟨fun hrow => ?_,fun _ => trivial⟩
  refine ((enterRow_held hs hsize hrow _).and (enterRow_frame s rowID _).partly).partly.bind ?_
  rintro u ⟨hu,hframe⟩
  have hsize' : u.indirection.rowToQRT.size<2^32 := by
    rw [hframe.indirection]
    exact hsize
  have hlook:=(looked_addVirtualDelay u u.accDelay).indirection
  have hv:=held_addVirtualDelay hu u.accDelay
  rw [← hlook] at hsize'
  refine (post_true _).bind fun b _ => ?_
  refine (displaceRow_held hv hsize' rowID _ b).bind fun w hw => ?_
  refine (placeRow_held hw rowID _).bind fun x hx => ?_
  exact held_tables hx (advanceHead_tables _ _).1

def Serving (rows n rpb : ℕ) (s : RowQuarantine) : Prop := s.Counting rows n ∧ s.Held rpb

theorem Serving.size (hs : s.Serving rows n rpb) (hrows : rows<2^32) :
    s.indirection.rowToQRT.size<2^32 := hs.1.1.2.2.rowTable.trans_lt hrows

theorem Held.refreshed (hs : s.Held rpb) {currTick : UInt64} (h : Refreshed s currTick s') : s'.Held rpb := by
  rcases h with ⟨_,acc,d,st,rfl⟩ | ⟨_,d,st,rfl⟩
  · have ht:=held_tables hs (t := {s.indirection with prevQRHeadID := s.indirection.nextFreeQRID}) rfl
    exact ht
  · exact hs

theorem addQCheckDelay_serving (hs : s.Serving rows n rpb) (hdvd : rpb∣32) (hrows : rows<2^32)
    (rowID : ℕ) : Post (s.addQCheckDelay rowID) (fun s' => s'.Held rpb ∧ rowID<s.indirection.rowToQRT.size ∧
      Resolved s.indirection rowID (paths s.stats) (paths s'.stats)) := by
  obtain ⟨hr,hc⟩:=hs.2
  subst hr
  have hcoherent:=addQCheckDelay_coherent hc hs.1.2 hdvd (hs.size hrows) rowID
  refine (hcoherent.and (addQCheckDelay_frame s rowID)).partly.imp ?_
  rintro s' ⟨⟨hcached,hres⟩,hrow,hl⟩
  exact ⟨hl.held rfl hcached,hrow,hres⟩

theorem detect_serving (hs : s.Serving rows n rpb) (hdvd : rpb∣32) (hrows : rows<2^32)
    (currTick : UInt64) (addr : ℕ) : Post (s.detect currTick addr) (Serving rows n rpb) := by
  have hcount:=detect_counting hs.1 hrows currTick addr
  refine (hcount.and (detect_frame s currTick addr)).partly.imp ?_
  rintro s' ⟨hcount',_,u,v,acc,det,flag,hu,hcheck,_,_,rfl⟩
  have hm:=hs.1.1.refreshed hu
  have hserve : u.Serving rows n rpb := ⟨⟨hm,hs.1.2.refreshed hu⟩,hs.2.refreshed hu⟩
  have hv:=((addQCheckDelay_serving hserve hdvd hrows _).of_ok hcheck).1
  exact ⟨hcount',hv⟩

theorem perform_serving (hs : s.Serving rows n rpb) (hdvd : rpb∣32) (hrows : rows<2^32)
    (a : Action) : Post (s.perform a) (Serving rows n rpb) := by
  have hquarantine : ∀ u, Serving rows n rpb u → ∀ rowID,
      Post (u.quarantineRow rowID) (Serving rows n rpb) := by
    intro u hu rowID
    exact ((quarantineRow_counting hu.1 hrows rowID).and
      (quarantineRow_held hu.2 (hu.size hrows) rowID)).partly
  have hdrain : ∀ u, Serving rows n rpb u → Post u.drainRow (Serving rows n rpb) := by
    intro u hu
    exact ((drainRow_counting hu.1 hrows).and (drainRow_held hu.2 (hu.size hrows))).partly
  cases a with
  | access currTick addr =>
    apply access_of (detect_serving hs hdvd hrows currTick addr) hquarantine
    · intro u misses hu
      exact hdrain {u with prevDrainCacheMissVal := misses}
        ⟨⟨hu.1.1,hu.1.2.noFilter,hu.1.2.cached,hu.1.2.tallies⟩,hu.2⟩
    · exact fun _ _ => trivial
  | startAccess currTick =>
    refine (startAccess_frame s currTick).partly.imp ?_
    exact fun u hu => ⟨⟨hs.1.1.refreshed hu,hs.1.2.refreshed hu⟩,hs.2.refreshed hu⟩
  | detect currTick addr => exact detect_serving hs hdvd hrows currTick addr
  | addQCheckDelay rowID =>
    have hcount:=perform_counting hs.1 hrows (.addQCheckDelay rowID)
    refine (hcount.and (addQCheckDelay_serving hs hdvd hrows rowID)).partly.imp ?_
    exact fun u hu => ⟨hu.1,hu.2.1⟩
  | quarantineRow rowID => exact hquarantine s hs rowID
  | drainRow => exact hdrain s hs
  | reset =>
    have hcount:=perform_counting hs.1 hrows .reset
    refine (hcount.and (reset_frame s)).partly.imp ?_
    rintro s' ⟨hc,acc,st,rfl⟩
    have ht:=held_tables hs.2
      (t := {s.indirection with prevQRHeadID := s.indirection.nextFreeQRID}) rfl
    exact ⟨hc,ht⟩

theorem construct_coherent (sets ways rpb : ℕ) (t : IndirectionTables) :
    Coherent rpb t (.construct sets ways rpb) := by
  have hempty : (FunctionalCache.construct sets ways rpb).tags=fun _ _ => none := by
    funext set way
    simp [tags,block,FunctionalCache.construct]
  refine ⟨rfl,rfl,?_,?_⟩
  · rw [hempty]
    exact placed_empty _
  · rintro r ⟨set,way,h⟩
    rw [hempty] at h
    cases h

variable {numQREntries rowsPerBank threshold numBanks numRanks numChannels sets ways : ℕ}
  {draws : ℕ → ℕ} {memory : RowQuarantine}

theorem reachable_serving (hfilter : memory.filter=none)
    (hcache : memory.cache=some (.construct sets ways memory.rowsPerBtvBit)) (hdvd : memory.rowsPerBtvBit∣32)
    (h : Reachable (construct numQREntries rowsPerBank threshold numBanks numRanks numChannels draws memory) s) :
    s.Serving (rowsPerBank*numBanks*numRanks*numChannels%2^32) numQREntries memory.rowsPerBtvBit := by
  have hrows : rowsPerBank*numBanks*numRanks*numChannels%2^32<2^32 := Nat.mod_lt _ (by decide)
  refine reachable_of ?_ (fun u hu a => perform_serving hu hdvd hrows a) h
  refine ⟨construct_counting _ _ _ _ _ _ _ hfilter (by rw [hcache]; rfl),rfl,_,hcache,?_⟩
  exact construct_coherent sets ways _ _

/-- Every valid block of the cache holds a quarantined row, in the set of the row, and no other
block holds that row. -/
theorem cache_coherent (hfilter : memory.filter=none)
    (hcache : memory.cache=some (.construct sets ways memory.rowsPerBtvBit)) (hdvd : memory.rowsPerBtvBit∣32)
    (h : Reachable (construct numQREntries rowsPerBank threshold numBanks numRanks numChannels draws memory) s) :
    ∃ c, s.cache=some c ∧
      (∀ set, ∀ way<c.mWays, (c.block set way).valid=true →
        (c.block set way).tag<s.numRows ∧
        (s.indirection.rowToQRT.get (c.block set way).tag).valid=true ∧
        set=((c.block set way).tag >>> 5)%c.mSets) ∧
      ∀ set set', ∀ way<c.mWays, ∀ way'<c.mWays, (c.block set way).valid=true →
        (c.block set' way').valid=true → (c.block set way).tag=(c.block set' way').tag →
        set=set' ∧ way=way' := by
  obtain ⟨hcount,_,c,hc,hcoh⟩:=reachable_serving hfilter hcache hdvd h
  have htag : ∀ set, ∀ way<c.mWays, (c.block set way).valid=true →
      c.tags set way=some (c.block set way).tag := by
    intro set way hway hv
    exact tags_eq_some.mpr ⟨hway,hv,rfl⟩
  refine ⟨c,hc,?_,?_⟩
  · intro set way hway hv
    have ht:=htag set way hway hv
    obtain ⟨q,hq⟩:=Option.isSome_iff_exists.mp (hcoh.quarantined _ ⟨set,way,ht⟩)
    obtain ⟨hrow,hvalid,_⟩:=IndirectionTables.slotOf_eq_some.mp hq
    rw [hcount.1.2.2.rowTable,← hcount.1.1] at hrow
    have hset:=hcoh.placed.home set way _ ht
    unfold home at hset
    rw [hcoh.offset] at hset
    exact ⟨hrow,hvalid,hset⟩
  · intro set set' way hway way' hway' hv hv' heq
    have ht:=htag set way hway hv
    have ht':=htag set' way' hway' hv'
    rw [← heq] at ht'
    have hsets : set=set' :=
      (hcoh.placed.home set way _ ht).trans (hcoh.placed.home set' way' _ ht').symm
    subst hsets
    exact ⟨rfl,hcoh.placed.unique set way way' _ ht ht'⟩

theorem cache_coherent_of_neighbour :
    ∃ s1 s2 s3 c, (construct 2 4 1 1 1 1 id
        {zeroed with rowsPerBtvBit := 2, cache := some (.construct 1 1 2)}).quarantineRow 2 = .ok s1 ∧
      s1.quarantineRow 0 = .ok s2 ∧ s2.addQCheckDelay 3 = .ok s3 ∧ s3.cache=some c ∧
      (c.block 0 0).valid=true ∧ (c.block 0 0).tag=2 ∧
      (s3.indirection.rowToQRT.get (c.block 0 0).tag).valid=true := by
  have hrun : Post (do
      let s ← (construct 2 4 1 1 1 1 id
        {zeroed with rowsPerBtvBit := 2, cache := some (.construct 1 1 2)}).quarantineRow 2
      let s ← s.quarantineRow 0
      s.addQCheckDelay 3) (fun s => s.cache.any (fun c =>
        0<c.mWays ∧ (c.block 0 0).valid=true ∧ (c.block 0 0).tag=2)=true) fun _ => False := by
    decide +kernel
  obtain ⟨s3,hs,hblock⟩:=hrun.returns
  obtain ⟨s1,h1,hs⟩:=bind_ok hs
  obtain ⟨s2,h2,h3⟩:=bind_ok hs
  obtain ⟨c,hc,hheld,_⟩:=cache_coherent rfl rfl (by decide) (.step _ _ (.addQCheckDelay 3)
    (.step _ _ (.quarantineRow 0) (.step _ _ (.quarantineRow 2) .start h1) h2) h3)
  rw [hc,Option.any_some,decide_eq_true_eq] at hblock
  obtain ⟨hways,hv,htag⟩:=hblock
  exact ⟨s1,s2,s3,c,h1,h2,h3,hc,hv,htag,(hheld 0 0 hways hv).2.1⟩

/-- A lookup that does not read the table agrees with it, and every other lookup reads it. -/
theorem fastPath_agrees (hfilter : memory.filter=none)
    (hcache : memory.cache=some (.construct sets ways memory.rowsPerBtvBit)) (hdvd : memory.rowsPerBtvBit∣32)
    (h : Reachable (construct numQREntries rowsPerBank threshold numBanks numRanks numChannels draws memory) s)
    {r : ℕ} (hrun : s.addQCheckDelay r = .ok s') :
    r<s.numRows ∧
    (s'.stats.sCacheHit=s.stats.sCacheHit+1 → (s.indirection.rowToQRT.get r).valid=true) ∧
    (s'.stats.sCachePartialHitOrrSet=s.stats.sCachePartialHitOrrSet+1 →
      (s.indirection.rowToQRT.get r).valid=false) ∧
    (s'.stats.sBtvTrueNegatives=s.stats.sBtvTrueNegatives+1 →
      (s.indirection.rowToQRT.get r).valid=false) ∧
    (s'.stats.sCacheHit=s.stats.sCacheHit →
      s'.stats.sCachePartialHitOrrSet=s.stats.sCachePartialHitOrrSet →
      s'.stats.sBtvTrueNegatives=s.stats.sBtvTrueNegatives →
      s'.stats.sCachePartialHitOrrUnset=s.stats.sCachePartialHitOrrUnset+1 ∨
        s'.stats.sCacheMiss=s.stats.sCacheMiss+1) := by
  have hs:=reachable_serving hfilter hcache hdvd h
  have hrows : rowsPerBank*numBanks*numRanks*numChannels%2^32<2^32 := Nat.mod_lt _ (by decide)
  obtain ⟨_,hrow,hres⟩:=(addQCheckDelay_serving hs hdvd hrows r).of_ok hrun
  rw [hs.1.1.2.2.rowTable,← hs.1.1.1] at hrow
  refine ⟨hrow,?_⟩
  have hsucc : ∀ x : UInt64, x≠x+1 := by
    intro x hx
    simp at hx
  have hpaths : ∀ p', paths s'.stats=p' → s'.stats.sBtvTrueNegatives=p'.negatives ∧
      s'.stats.sCacheHit=p'.cacheHits ∧ s'.stats.sCachePartialHitOrrSet=p'.partialHits ∧
      s'.stats.sCachePartialHitOrrUnset=p'.groupMisses ∧ s'.stats.sCacheMiss=p'.misses := by
    rintro p' rfl
    exact ⟨rfl,rfl,rfl,rfl,rfl⟩
  generalize hp : paths s'.stats=p' at hres
  obtain ⟨hneg,hhit,hsingle,hgroup,hmiss⟩:=hpaths p' hp
  rw [hneg,hhit,hsingle,hgroup,hmiss]
  cases hres with
  | negative hv => exact ⟨fun h => (hsucc _ h).elim,fun _ => hv,fun _ => hv,fun _ _ h => (hsucc _ h.symm).elim⟩
  | cacheHit hv =>
    exact ⟨fun _ => hv,fun h => (hsucc _ h).elim,fun h => (hsucc _ h).elim,
      fun h => (hsucc _ h.symm).elim⟩
  | partialHit hv =>
    exact ⟨fun h => (hsucc _ h).elim,fun _ => hv,fun _ => hv,fun _ h => (hsucc _ h.symm).elim⟩
  | groupMiss =>
    exact ⟨fun h => (hsucc _ h).elim,fun h => (hsucc _ h).elim,fun h => (hsucc _ h).elim,
      fun _ _ _ => .inl rfl⟩
  | miss =>
    exact ⟨fun h => (hsucc _ h).elim,fun h => (hsucc _ h).elim,fun h => (hsucc _ h).elim,
      fun _ _ _ => .inr rfl⟩

theorem fastPath_agrees_of_single :
    ∃ s s1 s2 s3, (construct 1 4 1 1 1 1 id
        {zeroed with rowsPerBtvBit := 2, cache := some (.construct 1 1 2)}).quarantineRow 2 = .ok s ∧
      s.addQCheckDelay 2 = .ok s1 ∧ s.addQCheckDelay 3 = .ok s2 ∧ s.addQCheckDelay 0 = .ok s3 ∧
      (s.indirection.rowToQRT.get 2).valid=true ∧ (s.indirection.rowToQRT.get 3).valid=false ∧
      (s.indirection.rowToQRT.get 0).valid=false := by
  have hrun : Post (do
      let s ← (construct 1 4 1 1 1 1 id
        {zeroed with rowsPerBtvBit := 2, cache := some (.construct 1 1 2)}).quarantineRow 2
      let s1 ← s.addQCheckDelay 2
      let s2 ← s.addQCheckDelay 3
      let s3 ← s.addQCheckDelay 0
      pure (s,s1,s2,s3)) (fun p => p.2.1.stats.sCacheHit=p.1.stats.sCacheHit+1 ∧
        p.2.2.1.stats.sCachePartialHitOrrSet=p.1.stats.sCachePartialHitOrrSet+1 ∧
        p.2.2.2.stats.sBtvTrueNegatives=p.1.stats.sBtvTrueNegatives+1) fun _ => False := by
    decide +kernel
  obtain ⟨⟨s,s1,s2,s3⟩,hs,hhit,hsingle,hneg⟩:=hrun.returns
  obtain ⟨_,h,hs⟩:=bind_ok hs
  obtain ⟨_,h1,hs⟩:=bind_ok hs
  obtain ⟨_,h2,hs⟩:=bind_ok hs
  obtain ⟨_,h3,hs⟩:=bind_ok hs
  cases hs
  have hreach:=Reachable.step _ _ (.quarantineRow 2) .start h
  exact ⟨s,s1,s2,s3,h,h1,h2,h3,(fastPath_agrees rfl rfl (by decide) hreach h1).2.1 hhit,
    (fastPath_agrees rfl rfl (by decide) hreach h2).2.2.1 hsingle,
    (fastPath_agrees rfl rfl (by decide) hreach h3).2.2.2.1 hneg⟩

end AquaGem5.Quarantine.RowQuarantine
