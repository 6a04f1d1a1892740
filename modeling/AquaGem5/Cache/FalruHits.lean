import AquaGem5.Cache.FalruRuns
import AquaGem5.Lib.LruStack

/-!
# Counting the hits of several cache sizes (fa_lru.cc)

A hit is recorded after its block was moved to the head, where it is in all tracked caches.
-/

namespace AquaGem5.Cache
open Address Checked Links Bits Function List

abbrev Access : Type := Addr × Bool

structure FalruTags (p : FalruParams) extends FalruList p where
  blks : p.Blk → CacheBlk
  tagHash : Addr × Bool → Option p.Blk
  hits : ℕ → ℕ
  misses : ℕ → ℕ
  accesses : ℕ
  tagsInUse : ℤ

namespace FalruParams

variable (p : FalruParams)

def extractTag (addr : Addr) : Addr := addr &&& ~~~(BitVec.ofNat 64 (p.blkSize-1))

def hashKey (a : Access) : Addr × Bool := (p.extractTag a.1,a.2)

end FalruParams

namespace FalruTags

variable {p : FalruParams} (s : FalruTags p)

def findBlock (addr : Addr) (isSecure : Bool) : Except Fault (Option p.Blk) :=
  let tag := p.extractTag addr
  match s.tagHash (tag,isSecure) with
  | none => .ok none
  | some blk =>
    if (s.blks blk).isValid ∧ ¬((s.blks blk).tag=tag ∧ (s.blks blk).isSecure=isSecure) then .error .assertion
    else .ok (some blk)

def isHit (blk : Option p.Blk) : Bool := blk.any fun b => (s.blks b).isValid

/-- What `recordAccess` counts as a hit of the `i`th cache. -/
def fits (blk : Option p.Blk) (i : ℕ) : Bool :=
  if i<p.numTrackedCaches then blk.any fun b => decide (1#32 <<< i &&& s.inCachesMask b≠0) else s.isHit blk

def recordAccess (blk : Option p.Blk) : FalruTags p :=
  {s with
    hits := fun i => if i≤p.numTrackedCaches ∧ s.fits blk i then s.hits i+1 else s.hits i
    misses := fun i => if i≤p.numTrackedCaches ∧ ¬s.fits blk i then s.misses i+1 else s.misses i
    accesses := s.accesses+1}

def moveToHead (blk : p.Blk) : Except Fault (FalruTags p) := do
  let list ← s.toFalruList.moveToHead blk
  return {s with toFalruList := list}

def moveToTail (blk : p.Blk) : Except Fault (FalruTags p) := do
  let list ← s.toFalruList.moveToTail blk
  return {s with toFalruList := list}

def promote (blk : Option p.Blk) : Except Fault (FalruTags p) :=
  match blk with
  | some b => if (s.blks b).isValid then s.moveToHead b else .ok s
  | none => .ok s

/-- Returns the block and what it stores to `in_caches_mask`, too. -/
def accessBlock (addr : Addr) (isSecure : Bool) : Except Fault (FalruTags p × Option p.Blk × BitVec 32) := do
  let blk ← s.findBlock addr isSecure
  let mask := if s.isHit blk then (blk.map s.inCachesMask).getD 0 else 0
  let s ← s.promote blk
  return (s.recordAccess blk,blk,mask)

def invalidate (blk : p.Blk) : Except Fault (FalruTags p) :=
  let key := ((s.blks blk).tag,(s.blks blk).isSecure)
  if s.tagHash key=none then .error .assertion
  else if (s.blks blk).isValid then
    {s with
      tagHash := Function.update s.tagHash key none
      blks := Function.update s.blks blk CacheBlk.invalidated
      tagsInUse := s.tagsInUse-1}.moveToTail blk
  else .error .assertion

def findVictim : p.Blk := s.tail

def insertBlock (addr : Addr) (isSecure : Bool) (blk : p.Blk) : Except Fault (FalruTags p) :=
  if s.inCachesMask blk≠0 then .error .assertion
  else if (s.blks blk).isValid then .error .assertion
  else if (s.blks blk).status≠Status.zero then .error .assertion
  else do
    let b := CacheBlk.inserted (p.extractTag addr) isSecure
    let s ← {s with
      blks := Function.update s.blks blk b
      tagsInUse := s.tagsInUse+1}.moveToHead blk
    return {s with tagHash := Function.update s.tagHash (b.tag,b.isSecure) (some blk)}

def evict (victim : p.Blk) : Except Fault (FalruTags p) :=
  if (s.blks victim).isValid then s.invalidate victim else .ok s

def access (s : FalruTags p) (a : Access) : Except Fault (FalruTags p) := do
  let (s,blk,_) ← s.accessBlock a.1 a.2
  if s.isHit blk then return s
  else do
    let victim := s.findVictim
    let s ← s.evict victim
    s.insertBlock a.1 a.2 victim

end FalruTags

namespace FalruParams

variable (p : FalruParams)

def init : Except Fault (FalruTags p) := do
  let list ← p.tagsInit
  return {
    toFalruList := list
    blks := fun _ => CacheBlk.invalidated
    tagHash := fun _ => none
    hits := fun _ => 0
    misses := fun _ => 0
    accesses := 0
    tagsInUse := 0}

def run (accesses : List Access) : Except Fault (FalruTags p) := do
  let s ← p.init
  accesses.foldlM FalruTags.access s

end FalruParams

namespace FalruTags

variable {p : FalruParams}

def keyOf (s : FalruTags p) (b : p.Blk) : Option (Addr × Bool) :=
  if (s.blks b).isValid then some ((s.blks b).tag,(s.blks b).isSecure) else none

structure Follows (intact : Bool) (trace : List (Addr × Bool)) (s : FalruTags p) (xs : List p.Blk) : Prop where
  tracks : FalruList.Tracks intact s.toFalruList xs
  keys : ∀ (j : ℕ) (b : p.Blk),xs[j]?=some b → s.keyOf b=(LruStack.stack trace)[j]?
  hash : ∀ k b,s.tagHash k=some b ↔ s.keyOf b=some k
  cleared : ∀ b,(s.blks b).isValid=false → (s.blks b).status=Status.zero

structure Counts (trace : List (Addr × Bool)) (s : FalruTags p) : Prop where
  hits : ∀ i≤p.numTrackedCaches,s.hits i=LruStack.hits p.numBlocks trace
  total : ∀ i≤p.numTrackedCaches,s.hits i+s.misses i=s.accesses
  accesses : s.accesses=trace.length

theorem keyOf_eq_some {s : FalruTags p} {b : p.Blk} {k : Addr × Bool} : s.keyOf b=some k ↔
    (s.blks b).isValid=true ∧ (s.blks b).tag=k.1 ∧ (s.blks b).isSecure=k.2 := by
  unfold keyOf
  split_ifs with hvalid
  · simp [hvalid,Prod.ext_iff]
  · simp [hvalid]

section Recording

variable {s : FalruTags p} {trace : List (Addr × Bool)} {k : Addr × Bool} {blk : Option p.Blk} {hit : Bool}

theorem Counts.record (h : Counts trace s) (hfits : ∀ i≤p.numTrackedCaches,s.fits blk i=hit)
    (hmem : hit=true ↔ k∈LruStack.contents p.numBlocks trace) : Counts (trace++[k]) (s.recordAccess blk) where
  hits := by
    intro i hi
    have hold:=h.hits i hi
    simp only [recordAccess,hfits i hi,hi,LruStack.hits_snoc,← hmem,true_and]
    cases hit with
    | false | true => simpa using hold
  total := by
    intro i hi
    have hold:=h.total i hi
    simp only [recordAccess,hfits i hi,hi,true_and]
    cases hit with
    | false | true => simp; omega
  accesses := by simp [recordAccess,h.accesses]

theorem fits_none (s : FalruTags p) (i : ℕ) : s.fits none i=false := by
  unfold fits
  split_ifs <;> rfl

theorem fits_head {intact : Bool} {b : p.Blk} {ys : List p.Blk}
    (h : FalruList.Tracks intact s.toFalruList (b::ys)) (hvalid : (s.blks b).isValid=true) (i : ℕ) :
    s.fits (some b) i=true := by
  have h32:=p.numTrackedCaches_lt
  unfold fits
  split_ifs with hi
  · have hpos:=p.trackedBlks_pos i
    have hbit:=h.mask 0 b rfl i
    rw [decide_eq_true (by omega)] at hbit
    have hne : 1#32 <<< i &&& s.inCachesMask b≠0 := (bit_and_ne_zero (by omega)).mpr hbit
    simpa using hne
  · simpa [isHit] using hvalid

end Recording

section Finding

variable {intact : Bool} {s : FalruTags p} {xs : List p.Blk} {trace : List (Addr × Bool)}
  (h : Follows intact trace s xs)

include h

theorem Follows.mem_contents {k : Addr × Bool} : k∈LruStack.contents p.numBlocks trace ↔ ∃ b,s.tagHash k=some b := by
  have htwo:=p.two_le_numBlocks
  rw [LruStack.contents_eq (by omega)]
  constructor
  · intro hmem
    obtain ⟨j,hj⟩:=position_of_mem hmem
    rw [getElem?_take] at hj
    split_ifs at hj with hlt
    obtain ⟨b,hb⟩:=h.tracks.get hlt
    exact ⟨b,(h.hash k b).mpr ((h.keys j b hb).trans hj)⟩
  · intro hhash
    obtain ⟨b,hb⟩:=hhash
    obtain ⟨j,hj,hlt⟩:=h.tracks.position b
    have hkey:=(h.keys j b hj).symm.trans ((h.hash k b).mp hb)
    refine mem_of_getElem? (i := j) ?_
    rw [getElem?_take,if_pos hlt,hkey]

theorem Follows.findBlock (a : Access) : s.findBlock a.1 a.2 = .ok (s.tagHash (p.hashKey a)) := by
  simp only [FalruTags.findBlock,FalruParams.hashKey]
  cases hhash : s.tagHash (p.extractTag a.1,a.2) with
  | none => rfl
  | some b =>
    have hkey:=keyOf_eq_some.mp ((h.hash _ b).mp hhash)
    exact if_neg fun hc => hc.2 ⟨hkey.2.1,hkey.2.2⟩

theorem Follows.reorder {s' : FalruTags p} {c : Bool} {q : ℕ} {b : p.Blk} {k : Addr × Bool}
    (hq : xs[q]?=some b) (hkey : s.keyOf b=some k) (htracks : FalruList.Tracks c s'.toFalruList (b::xs.eraseIdx q))
    (hblks : s'.blks=s.blks) (hhash : s'.tagHash=s.tagHash) : Follows c (trace++[k]) s' (b::xs.eraseIdx q) where
  tracks := htracks
  keys := by
    have hsame : ∀ b,s'.keyOf b=s.keyOf b := fun b => by rw [keyOf,keyOf,hblks]
    have htop : (LruStack.stack trace)[q]?=some k := by rw [← h.keys q b hq,hkey]
    intro j c hj
    rw [LruStack.stack_snoc,LruStack.touch_getElem? (LruStack.stack_nodup trace) htop,hsame]
    cases j with
    | zero =>
      obtain rfl : b=c := by simpa using hj
      exact hkey
    | succ j =>
      rw [getElem?_cons_succ,getElem?_eraseIdx] at hj ⊢
      split_ifs at hj ⊢ with hjq
      · exact h.keys j c hj
      · exact h.keys (j+1) c hj
  hash := by
    intro k b
    rw [hhash,keyOf,hblks]
    exact h.hash k b
  cleared := by
    rw [hblks]
    exact h.cleared

theorem Follows.hit {a : Access} {b : p.Blk} (hb : s.tagHash (p.hashKey a)=some b)
    (hmove : intact=true ∨ b=s.head) (hcounts : Counts trace s) :
    ∃ s' ys,s.access a = .ok s' ∧ Follows (intact&&decide (b=s.head)) (trace++[p.hashKey a]) s' ys ∧
      Counts (trace++[p.hashKey a]) s' := by
  have hkey:=(h.hash _ b).mp hb
  have hvalid:=(keyOf_eq_some.mp hkey).1
  have hhit : s.isHit (some b)=true := by simpa [isHit] using hvalid
  obtain ⟨q,hq,_⟩:=h.tracks.position b
  obtain ⟨list,hlist,htracks⟩ : ∃ list,s.toFalruList.moveToHead b = .ok list ∧
      FalruList.Tracks (intact&&decide (b=s.head)) list (b::xs.eraseIdx q) := by
    by_cases hhead : b=s.head
    · have hq0:=(h.tracks.head_position hq).mp hhead
      have hsame : b::xs.eraseIdx q=xs := by
        cases xs with
        | nil => cases hq
        | cons c ys =>
          subst hq0
          obtain rfl : c=b := by simpa using hq
          rfl
      refine ⟨s.toFalruList,if_neg (not_not_intro hhead),?_⟩
      rw [hsame,decide_eq_true hhead,Bool.and_true]
      exact h.tracks
    · have hq0 : 0<q := Nat.pos_of_ne_zero ((h.tracks.head_position hq).not.mp hhead)
      have hintact:=hmove.resolve_right hhead
      obtain ⟨list,hlist,htracks⟩:=(hintact ▸ h.tracks).moveToHead hq hq0
      refine ⟨list,hlist,?_⟩
      rw [decide_eq_false hhead,Bool.and_false]
      exact htracks
  let s1 : FalruTags p := {s with toFalruList := list}
  have hfollows : Follows (intact&&decide (b=s.head)) (trace++[p.hashKey a]) s1 (b::xs.eraseIdx q) :=
    h.reorder hq hkey htracks rfl rfl
  have hfits : ∀ i≤p.numTrackedCaches,s1.fits (some b) i=true := fun i _ => fits_head hfollows.tracks hvalid i
  have hcounts1 : Counts trace s1 := ⟨hcounts.hits,hcounts.total,hcounts.accesses⟩
  have hmem : true=true ↔ p.hashKey a∈LruStack.contents p.numBlocks trace :=
    ⟨fun _ => h.mem_contents.mpr ⟨b,hb⟩,fun _ => rfl⟩
  refine ⟨s1.recordAccess (some b),_,?_,⟨hfollows.tracks,hfollows.keys,hfollows.hash,hfollows.cleared⟩,
    hcounts1.record hfits hmem⟩
  have hpromote : s.promote (some b) = .ok s1 := by
    simp only [promote,hvalid,if_true,moveToHead,hlist]
    rfl
  rw [access,accessBlock,h.findBlock,hb]
  simp only [bind,Except.bind,hpromote,pure,Except.pure]
  exact if_pos hhit


end Finding

structure Vacant (intact : Bool) (trace : List (Addr × Bool)) (s : FalruTags p) (xs : List p.Blk) : Prop where
  tracks : FalruList.Tracks intact s.toFalruList xs
  keys : ∀ (j : ℕ) (b : p.Blk),xs[j]?=some b → b≠s.tail → s.keyOf b=(LruStack.stack trace)[j]?
  free : (s.blks s.tail).isValid=false
  hash : ∀ k b,s.tagHash k=some b ↔ s.keyOf b=some k
  cleared : ∀ b,(s.blks b).isValid=false → (s.blks b).status=Status.zero

variable {intact : Bool} {s : FalruTags p} {xs : List p.Blk} {trace : List (Addr × Bool)}

theorem keyOf_of_invalid {b : p.Blk} (h : (s.blks b).isValid=false) : s.keyOf b=none := by
  rw [keyOf,h]
  rfl

theorem Follows.evict (h : Follows intact trace s xs) : ∃ s',s.evict s.tail = .ok s' ∧ Vacant intact trace s' xs ∧
    s'.toFalruList=s.toFalruList ∧ s'.hits=s.hits ∧ s'.misses=s.misses ∧ s'.accesses=s.accesses := by
  cases hvalid : (s.blks s.tail).isValid with
  | false =>
    refine ⟨s,?_,⟨h.tracks,fun j b hj _ => h.keys j b hj,hvalid,h.hash,h.cleared⟩,rfl,rfl,rfl,rfl⟩
    rw [FalruTags.evict,hvalid]
    rfl
  | true =>
    let k:=((s.blks s.tail).tag,(s.blks s.tail).isSecure)
    let s1 : FalruTags p := {s with
      tagHash := update s.tagHash k none
      blks := update s.blks s.tail CacheBlk.invalidated
      tagsInUse := s.tagsInUse-1}
    have hkey : s.keyOf s.tail=some k := by rw [keyOf,if_pos hvalid]
    have hknown : s.tagHash k=some s.tail := (h.hash _ _).mpr hkey
    have hfree : (s1.blks s.tail).isValid=false := by
      simp only [s1,update_self]
      rfl
    have hother : ∀ b,b≠s.tail → s1.blks b=s.blks b := fun b hb => update_of_ne hb ..
    have hkeys : ∀ b,b≠s.tail → s1.keyOf b=s.keyOf b := fun b hb => by rw [keyOf,keyOf,hother b hb]
    refine ⟨s1,?_,⟨h.tracks,?_,hfree,?_,?_⟩,rfl,rfl,rfl,rfl⟩
    · have hlast : s1.moveToTail s.tail = .ok s1 := by
        have hlist : s.toFalruList.moveToTail s.tail = .ok s.toFalruList := if_neg (not_not_intro rfl)
        simp only [s1,moveToTail,hlist]
        rfl
      rw [FalruTags.evict,if_pos hvalid,invalidate]
      simp only [hvalid,if_true]
      have hsome : s.tagHash ((s.blks s.tail).tag,(s.blks s.tail).isSecure)≠none := by simp [k,hknown]
      rw [if_neg hsome]
      exact hlast
    · intro j b hj hb
      rw [hkeys b hb]
      exact h.keys j b hj
    · intro k' b
      by_cases hb : b=s.tail
      · subst hb
        rw [keyOf_of_invalid hfree]
        simp only [s1]
        by_cases hk : k'=k
        · rw [hk,update_self]
          simp
        · rw [update_of_ne hk,h.hash,hkey]
          simp [eq_comm,hk]
      · rw [hkeys b hb,← h.hash]
        simp only [s1]
        by_cases hk : k'=k
        · rw [hk,update_self,hknown]
          simp [eq_comm,hb]
        · rw [update_of_ne hk]
    · intro b hb
      by_cases hbt : b=s.tail
      · subst hbt
        simp only [s1,update_self]
        rfl
      · rw [hother b hbt] at hb ⊢
        exact h.cleared b hb

section Inserting

variable (h : Vacant intact trace s xs)

include h

theorem Vacant.tail_position : xs[p.numBlocks-1]?=some s.tail := by
  have htail:=h.tracks.tail
  rw [getLast?_eq_getElem?,h.tracks.length] at htail
  exact htail

theorem Vacant.tail_mask : s.inCachesMask s.tail=0 := by
  apply BitVec.eq_of_getLsbD_eq
  intro i _
  have hnot : ¬(i<p.numTrackedCaches ∧ p.numBlocks-1<p.trackedBlks i) := by
    intro hc
    have hlt:=p.trackedBlks_lt_numBlocks hc.1
    omega
  rw [h.tracks.mask _ _ h.tail_position,decide_eq_false hnot]
  exact BitVec.getLsbD_zero.symm

theorem Vacant.insertBlock_eq (a : Access) : s.insertBlock a.1 a.2 s.tail=do
    let b:=CacheBlk.inserted (p.extractTag a.1) a.2
    let s' ← FalruTags.moveToHead {s with
      blks := update s.blks s.tail b
      tagsInUse := s.tagsInUse+1} s.tail
    return {s' with tagHash := update s'.tagHash (b.tag,b.isSecure) (some s.tail)} := by
  have hvalid : ¬(s.blks s.tail).isValid=true := by
    rw [h.free]
    exact Bool.false_ne_true
  rw [insertBlock,if_neg (not_not_intro h.tail_mask),if_neg hvalid,if_neg (not_not_intro (h.cleared _ h.free))]

end Inserting

theorem Vacant.insert (h : Vacant true trace s xs) (a : Access)
    (hnew : p.hashKey a∉LruStack.contents p.numBlocks trace) :
    ∃ s' ys,s.insertBlock a.1 a.2 s.tail = .ok s' ∧ Follows false (trace++[p.hashKey a]) s' ys ∧
      s'.hits=s.hits ∧ s'.misses=s.misses ∧ s'.accesses=s.accesses := by
  have htwo:=p.two_le_numBlocks
  have hlen:=h.tracks.length
  have hlast:=h.tail_position
  obtain ⟨list,hlist,htracks⟩:=h.tracks.moveToHead hlast (by omega)
  rw [LruStack.contents_eq (by omega)] at hnew
  let k:=p.hashKey a
  let s1 : FalruTags p := {s with
    toFalruList := list
    blks := update s.blks s.tail (CacheBlk.inserted (p.extractTag a.1) a.2)
    tagsInUse := s.tagsInUse+1
    tagHash := update s.tagHash k (some s.tail)}
  have hself : s1.keyOf s.tail=some k := by
    rw [keyOf_eq_some]
    simp only [s1,update_self]
    exact ⟨rfl,rfl,rfl⟩
  have hother : ∀ b,b≠s.tail → s1.blks b=s.blks b := fun b hb => update_of_ne hb ..
  have hkeys : ∀ b,b≠s.tail → s1.keyOf b=s.keyOf b := fun b hb => by rw [keyOf,keyOf,hother b hb]
  have hapart : ∀ b,b≠s.tail → s.keyOf b≠some k := by
    intro b hb hkey
    obtain ⟨j,hj,hlt⟩:=h.tracks.position b
    rw [h.keys j b hj hb] at hkey
    refine hnew (mem_of_getElem? (i := j) ?_)
    rw [getElem?_take,if_pos hlt,hkey]
  refine ⟨s1,_,?_,⟨htracks,?_,?_,?_⟩,rfl,rfl,rfl⟩
  · rw [h.insertBlock_eq]
    simp only [FalruTags.moveToHead,hlist]
    rfl
  · intro j b hj
    rw [LruStack.stack_snoc]
    cases j with
    | zero =>
      obtain rfl : s.tail=b := by simpa using hj
      exact hself
    | succ j =>
      rw [getElem?_cons_succ,getElem?_eraseIdx] at hj
      have hj' : j<p.numBlocks-1 ∧ xs[j]?=some b := by
        split_ifs at hj with hlt
        · exact ⟨hlt,hj⟩
        · rw [getElem?_eq_none_iff.mpr (by omega)] at hj
          cases hj
      have hb : b≠s.tail := position_ne h.tracks.linked.nodup hj'.2 hlast (by omega)
      have htop:=congrArg (fun ys => ys[j+1]?) (LruStack.touch_take hnew)
      simp only [getElem?_take,if_pos (show j+1<p.numBlocks by omega),getElem?_cons_succ] at htop
      rw [htop,hkeys b hb]
      exact h.keys j b hj'.2 hb
  · intro k' b
    by_cases hb : b=s.tail
    · subst hb
      rw [hself]
      simp only [s1]
      by_cases hk : k'=k
      · rw [hk,update_self]
        simp
      · rw [update_of_ne hk,h.hash,keyOf_of_invalid h.free]
        simp [eq_comm,hk]
    · rw [hkeys b hb]
      simp only [s1]
      by_cases hk : k'=k
      · rw [hk,update_self]
        simp [hapart b hb,eq_comm,hb]
      · rw [update_of_ne hk,h.hash]
  · intro b hb
    by_cases hbt : b=s.tail
    · subst hbt
      simp only [s1,update_self] at hb
      cases hb
    · rw [hother b hbt] at hb ⊢
      exact h.cleared b hb

theorem Follows.miss_eq (h : Follows intact trace s xs) {a : Access} (ha : s.tagHash (p.hashKey a)=none) :
    ∃ s',Vacant intact trace s' xs ∧ s'.toFalruList=s.toFalruList ∧ s.access a=s'.insertBlock a.1 a.2 s'.tail ∧
      (Counts trace s → Counts (trace++[p.hashKey a]) s') := by
  let s1:=s.recordAccess none
  have hfollows : Follows intact trace s1 xs := ⟨h.tracks,h.keys,h.hash,h.cleared⟩
  obtain ⟨s2,hevict,hvacant,hlist,hhits,hmisses,haccesses⟩:=hfollows.evict
  refine ⟨s2,hvacant,hlist,?_,fun hcounts => ?_⟩
  · have htail : s2.tail=s1.tail := congrArg FalruList.tail hlist
    rw [access,accessBlock,h.findBlock,ha,htail]
    simp only [bind,Except.bind,promote,pure,Except.pure]
    rw [if_neg (show ¬(s.recordAccess none).isHit none=true by simp [isHit])]
    simp only [findVictim]
    rw [hevict]
  · have hmem : false=true ↔ p.hashKey a∈LruStack.contents p.numBlocks trace := by
      rw [h.mem_contents,ha]
      simp
    have hrecord:=hcounts.record (fun i _ => fits_none s i) hmem
    refine ⟨?_,?_,?_⟩
    · rw [hhits]
      exact hrecord.hits
    · rw [hhits,hmisses,haccesses]
      exact hrecord.total
    · rw [haccesses]
      exact hrecord.accesses

theorem Follows.miss (h : Follows true trace s xs) {a : Access} (ha : s.tagHash (p.hashKey a)=none)
    (hcounts : Counts trace s) : ∃ s' ys,s.access a = .ok s' ∧ Follows false (trace++[p.hashKey a]) s' ys ∧
      Counts (trace++[p.hashKey a]) s' := by
  have hnew : p.hashKey a∉LruStack.contents p.numBlocks trace := by
    rw [h.mem_contents,ha]
    simp
  obtain ⟨s1,hvacant,_,haccess,hrecord⟩:=h.miss_eq ha
  obtain ⟨s2,ys,hinsert,hfollows,hhits,hmisses,haccesses⟩:=hvacant.insert a hnew
  have hcounts1:=hrecord hcounts
  refine ⟨s2,ys,haccess.trans hinsert,hfollows,?_,?_,?_⟩
  · rw [hhits]
    exact hcounts1.hits
  · rw [hhits,hmisses,haccesses]
    exact hcounts1.total
  · rw [haccesses]
    exact hcounts1.accesses

theorem Follows.stuck (h : Follows false trace s xs) (hone : p.minTrackedSize=p.blkSize) {a : Access}
    (ha : s.tagHash (p.hashKey a)≠some s.head) : s.access a = .error .null := by
  cases hhash : s.tagHash (p.hashKey a) with
  | none =>
    have htwo:=p.two_le_numBlocks
    obtain ⟨s1,hvacant,_,haccess,_⟩:=h.miss_eq hhash
    have hne : s1.tail≠s1.head := (hvacant.tracks.head_position hvacant.tail_position).not.mpr (by omega)
    rw [haccess,hvacant.insertBlock_eq]
    simp only [FalruTags.moveToHead,hvacant.tracks.stuck hone hne]
    rfl
  | some b =>
    have hne : b≠s.head := fun hb => ha (hb ▸ hhash)
    have hvalid:=(keyOf_eq_some.mp ((h.hash _ b).mp hhash)).1
    have hpromote : s.promote (some b) = .error .null := by
      simp only [promote,hvalid,if_true,FalruTags.moveToHead,h.tracks.stuck hone hne]
      rfl
    rw [access,accessBlock,h.findBlock,hhash]
    simp only [bind,Except.bind,hpromote]

theorem Follows.head_hash (h : Follows intact trace s xs) {k : Addr × Bool} (hk : (LruStack.stack trace).head?=some k) :
    s.tagHash k=some s.head := by
  have hhead:=h.tracks.head
  rw [head?_eq_getElem?] at hhead hk
  rw [h.hash,h.keys 0 _ hhead,hk]

theorem Follows.repair {c : Bool} (h : Follows c trace s xs) (hmany : p.blkSize<p.minTrackedSize) :
    Follows true trace s xs := by
  refine ⟨?_,h.keys,h.hash,h.cleared⟩
  cases c with
  | false => exact h.tracks.repair hmany
  | true => exact h.tracks

theorem init_ok (p : FalruParams) : ∃ s xs,p.init = .ok s ∧ Follows true [] s xs ∧ Counts [] s := by
  obtain ⟨list,hrun,htracks⟩:=FalruList.tagsInit_ok (p := p)
  have hinit : p.init = .ok {
      toFalruList := list
      blks := fun _ => CacheBlk.invalidated
      tagHash := fun _ => none
      hits := fun _ => 0
      misses := fun _ => 0
      accesses := 0
      tagsInUse := 0} := by
    rw [FalruParams.init,hrun]
    rfl
  refine ⟨_,_,hinit,⟨htracks,fun _ _ _ => rfl,fun k b => ?_,fun _ _ => rfl⟩,fun _ _ => rfl,fun _ _ => rfl,rfl⟩
  rw [keyOf_of_invalid rfl]
  simp

theorem run_snoc (p : FalruParams) (accesses : List Access) (a : Access) :
    p.run (accesses++[a])=p.run accesses >>= fun s => s.access a := by
  cases hinit : p.init with
  | error e =>
    rw [FalruParams.run,FalruParams.run,hinit]
    rfl
  | ok s =>
    rw [FalruParams.run,FalruParams.run,hinit]
    simp only [bind,Except.bind]
    rw [foldlM_append]
    simp only [bind,Except.bind]
    cases accesses.foldlM FalruTags.access s with
    | error e => rfl
    | ok s' =>
      simp only [foldlM_cons,foldlM_nil,bind,Except.bind,pure,Except.pure]
      cases s'.access a <;> rfl

def OneBlock (p : FalruParams) (accesses : List Access) : Prop :=
  ∀ a∈accesses,∀ b∈accesses,p.hashKey a=p.hashKey b

theorem stack_last (trace : List (Addr × Bool)) (k : Addr × Bool) : (LruStack.stack (trace++[k])).head?=some k := by
  rw [LruStack.stack_snoc]
  rfl

theorem run_one (hone : p.minTrackedSize=p.blkSize) (accesses : List Access) :
    (OneBlock p accesses → ∃ c s xs,p.run accesses = .ok s ∧ Follows c (accesses.map p.hashKey) s xs ∧
      Counts (accesses.map p.hashKey) s ∧ c=decide (accesses=[])) ∧
    (¬OneBlock p accesses → ∃ e,p.run accesses = .error e) := by
  induction accesses using reverseRecOn with
  | nil =>
    constructor
    · intro _
      obtain ⟨s,xs,hinit,h,hcounts⟩:=init_ok p
      exact ⟨true,s,xs,by rw [FalruParams.run,hinit]; rfl,h,hcounts,rfl⟩
    · intro hnot
      exact (hnot fun a ha => by cases ha).elim
  | append_singleton accesses a ih =>
    rw [run_snoc]
    by_cases hold : OneBlock p accesses
    · obtain ⟨c,s,xs,hrun,h,hcounts,hc⟩:=ih.1 hold
      rw [hrun,map_append]
      cases accesses using reverseRecOn with
      | nil =>
        have hnone : s.tagHash (p.hashKey a)=none := by
          cases ha : s.tagHash (p.hashKey a) with
          | none => rfl
          | some b =>
            obtain ⟨q,hq,_⟩:=h.tracks.position b
            have hkey:=(h.keys q b hq).symm.trans ((h.hash _ b).mp ha)
            cases hkey
        subst hc
        obtain ⟨s',ys,haccess,h',hcounts'⟩:=h.miss hnone hcounts
        refine ⟨fun _ => ⟨false,s',ys,haccess,h',hcounts',rfl⟩,fun hnot => (hnot ?_).elim⟩
        intro x hx y hy
        obtain rfl : x=a := by simpa using hx
        obtain rfl : y=x := by simpa using hy
        rfl
      | append_singleton accesses b =>
        have hfalse : c=false := by
          rw [hc]
          simp
        subst hfalse
        have htop : (LruStack.stack ((accesses++[b]).map p.hashKey)).head?=some (p.hashKey b) := by
          rw [map_append]
          exact stack_last _ _
        by_cases hab : p.hashKey a=p.hashKey b
        · have hhash : s.tagHash (p.hashKey a)=some s.head := h.head_hash (hab ▸ htop)
          obtain ⟨s',ys,haccess,h',hcounts'⟩:=h.hit hhash (.inr rfl) hcounts
          refine ⟨fun _ => ⟨false,s',ys,haccess,h',hcounts',by simp⟩,fun hnot => (hnot ?_).elim⟩
          have hall : ∀ x∈accesses++[b]++[a],p.hashKey x=p.hashKey b := by
            intro x hx
            rcases mem_append.mp hx with hx | hx
            · exact hold x hx b (by simp)
            · obtain rfl : x=a := by simpa using hx
              exact hab
          intro x hx y hy
          rw [hall x hx,hall y hy]
        · have hne : s.tagHash (p.hashKey a)≠some s.head := by
            intro ha
            have hhash:=(h.hash _ _).mp ha
            rw [(h.hash _ _).mp (h.head_hash htop)] at hhash
            exact hab (Option.some.inj hhash).symm
          refine ⟨fun hnew => (hab (hnew a (by simp) b (by simp))).elim,fun _ => ⟨_,h.stuck hone hne⟩⟩
    · obtain ⟨e,hrun⟩:=ih.2 hold
      rw [hrun]
      refine ⟨fun hnew => (hold fun x hx y hy => ?_).elim,fun _ => ⟨e,rfl⟩⟩
      exact hnew x (mem_append_left _ hx) y (mem_append_left _ hy)

structure Counted (accesses : List Access) (s : FalruTags p) : Prop where
  hits : ∀ i≤p.numTrackedCaches,
    s.hits i=LruStack.hits ((p.minTrackedSize <<< i)/p.blkSize) (accesses.map p.hashKey)
  total : ∀ i≤p.numTrackedCaches,s.hits i+s.misses i=s.accesses
  accesses : s.accesses=accesses.length

end FalruTags

end AquaGem5.Cache
