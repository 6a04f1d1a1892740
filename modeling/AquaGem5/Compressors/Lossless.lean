import AquaGem5.Compressors.Dictionary

/-!
# The dictionary compressors are lossless

Both sides start from the same dictionary and change it by the same entries, so a pattern that was
matched against an entry is decompressed with that entry.
-/

namespace AquaGem5.Compressors
open Address Chunks Checked List Nat

variable {w : Width}

theorem unmasked_or_iff {n : ℕ} {v d mask : BitVec n} : v &&& ~~~mask ||| d &&& mask=v ↔ v &&& mask=d &&& mask := by
  simp only [BitVec.eq_of_getLsbD_eq_iff,BitVec.getLsbD_or,BitVec.getLsbD_and,BitVec.getLsbD_not]
  apply forall_congr'
  intro j
  apply forall_congr'
  intro hj
  cases v.getLsbD j <;> cases mask.getLsbD j <;> simp [hj]

theorem Width.div_mul {rep : Width} (h : rep.bytes<w.bytes) : w.bytes/rep.bytes*(8*rep.bytes)=8*w.bytes := by
  cases rep <;> cases w <;> first | rfl | exact absurd h (by decide)

variable {matchLocation : ℤ}

theorem matchesMasked_iff {mask v : w.Value} {dictBytes : DictionaryEntry w} :
    Kind.matchesMasked mask (toDictionaryEntry v) dictBytes matchLocation=true ↔
      0 ≤ matchLocation ∧ v &&& mask=fromDictionaryEntry dictBytes &&& mask := by
  rw [Kind.matchesMasked,from_toDictionaryEntry,Bool.and_eq_true,decide_eq_true_eq,beq_iff_eq]

def Content.Given (v : w.Value) (dictBytes : DictionaryEntry w) : Content w → Prop
  | .masked mask _ => v &&& mask=fromDictionaryEntry dictBytes &&& mask
  | _ => True

theorem Kind.masked_back {v mask : w.Value} {dictBytes : DictionaryEntry w} :
    (Content.masked mask (fromDictionaryEntry (toDictionaryEntry v) &&& ~~~mask)).decompress dictBytes =
        toDictionaryEntry v ↔ v &&& mask=fromDictionaryEntry dictBytes &&& mask := by
  rw [Content.decompress,from_toDictionaryEntry,toDictionaryEntry_inj,unmasked_or_iff]

theorem Kind.decompress_content_iff {k : Kind w} {v : w.Value} {bytes dictBytes : DictionaryEntry w}
    (h : k.isPattern (toDictionaryEntry v) bytes matchLocation=true) :
    (k.content (toDictionaryEntry v)).decompress dictBytes=toDictionaryEntry v ↔
      (k.content (toDictionaryEntry v)).Given v dictBytes := by
  cases k with
  | uncompressed | delta deltaSizeBits smaller => exact iff_of_true rfl trivial
  | masked mask | locatedMasked mask location => exact masked_back
  | maskedValue value mask =>
    have hmask : value &&& mask=v &&& mask := by
      rw [Kind.isPattern,from_toDictionaryEntry,beq_iff_eq] at h
      exact h
    refine iff_of_true ?_ trivial
    rw [Kind.content,Content.decompress,from_toDictionaryEntry,from_toDictionaryEntry,unmasked_or_iff.mpr hmask.symm]
  | repeatedValue rep smaller =>
    rw [Kind.isPattern,from_toDictionaryEntry,all_eq_true] at h
    have hsplit : split (8*rep.bytes) (w.bytes/rep.bytes) v =
        replicate (w.bytes/rep.bytes) (v.setWidth (8*rep.bytes)) := by
      rw [eq_replicate_iff]
      refine ⟨length_split _ _ v,fun curValue hmem => ?_⟩
      simpa using h curValue hmem
    have hpos : 0<8*rep.bytes := by cases rep <;> decide
    refine iff_of_true ?_ trivial
    rw [Kind.content,Content.decompress,from_toDictionaryEntry,← hsplit,join_split hpos (Width.div_mul smaller)]

theorem Kind.given_of_isPattern {k : Kind w} {v : w.Value} {bytes dictBytes : DictionaryEntry w}
    (h : k.isPattern (toDictionaryEntry v) bytes matchLocation=true) (hdict : 0 ≤ matchLocation → dictBytes=bytes) :
    (k.content (toDictionaryEntry v)).Given v dictBytes := by
  cases k with
  | masked mask =>
    obtain ⟨hloc,hmask⟩:=matchesMasked_iff.mp h
    rw [hdict hloc]
    exact hmask
  | locatedMasked mask location =>
    obtain ⟨hloc,hmask⟩:=matchesMasked_iff.mp ((Bool.and_eq_true _ _).mp h).2
    rw [hdict hloc]
    exact hmask
  | uncompressed | maskedValue | repeatedValue | delta => trivial

namespace Scheme

variable (c : Scheme w)

theorem getPattern_eq (bytes dictBytes : DictionaryEntry w) (matchLocation : ℤ) :
    ∃ p : PatternClass w,p.kind.isPattern bytes dictBytes matchLocation=true ∧
      c.getPattern bytes dictBytes matchLocation=p.create bytes matchLocation := by
  unfold getPattern
  cases hfind : c.factory.find? fun head => head.kind.isPattern bytes dictBytes matchLocation with
  | none => exact ⟨UncompressedPattern c.lastLength,rfl,rfl⟩
  | some p => exact ⟨p,by simpa using find?_some hfind,rfl⟩

theorem foldl_smallest {E : Type} (f : E → Pattern w) (es : List E) : ∀ pattern : Pattern w,
    es.foldl (fun pattern e => if (f e).sizeBits<pattern.sizeBits then f e else pattern) pattern=pattern ∨
      ∃ e∈es,es.foldl (fun pattern e => if (f e).sizeBits<pattern.sizeBits then f e else pattern) pattern=f e := by
  induction es with
  | nil =>
    intro pattern
    exact .inl rfl
  | cons e es ih =>
    intro pattern
    rw [foldl_cons]
    cases ih (if (f e).sizeBits<pattern.sizeBits then f e else pattern) with
    | inl hkept =>
      rw [hkept]
      split
      · exact .inr ⟨e,mem_cons_self,rfl⟩
      · exact .inl rfl
    | inr hnew =>
      obtain ⟨e',he',hnew⟩:=hnew
      exact .inr ⟨e',mem_cons_of_mem e he',hnew⟩

theorem search_eq (bytes : DictionaryEntry w) (d : Dictionary w) :
    c.search bytes d=c.getPattern bytes (toDictionaryEntry 0) (-1) ∨
      ∃ (i : ℕ) (entry : DictionaryEntry w),d[i]?=some entry ∧ c.search bytes d=c.getPattern bytes entry i := by
  rcases foldl_smallest (fun e => c.getPattern bytes e.1 e.2) d.zipIdx (c.getPattern bytes (toDictionaryEntry 0) (-1)) with
    hnone | ⟨e,he,hsome⟩
  · exact .inl hnone
  · exact .inr ⟨e.2,e.1,mk_mem_zipIdx_iff_getElem?.mp he,hsome⟩

theorem foldl_le {E : Type} (f : E → Pattern w) (es : List E) : ∀ pattern : Pattern w,
    (es.foldl (fun pattern e => if (f e).sizeBits<pattern.sizeBits then f e else pattern) pattern).sizeBits ≤
        pattern.sizeBits ∧
      ∀ e∈es,(es.foldl (fun pattern e => if (f e).sizeBits<pattern.sizeBits then f e else pattern) pattern).sizeBits ≤
        (f e).sizeBits := by
  induction es with
  | nil => exact fun _ => ⟨Nat.le_refl _,fun _ he => absurd he not_mem_nil⟩
  | cons e es ih =>
    intro pattern
    rw [foldl_cons]
    obtain ⟨hfirst,hrest⟩:=ih (if (f e).sizeBits<pattern.sizeBits then f e else pattern)
    have hboth : (if (f e).sizeBits<pattern.sizeBits then f e else pattern).sizeBits≤pattern.sizeBits ∧
        (if (f e).sizeBits<pattern.sizeBits then f e else pattern).sizeBits≤(f e).sizeBits := by
      split
      next hlt => exact ⟨le_of_lt hlt,Nat.le_refl _⟩
      next hge => exact ⟨Nat.le_refl _,Nat.le_of_not_lt hge⟩
    refine ⟨hfirst.trans hboth.1,fun e' he' => ?_⟩
    rcases mem_cons.mp he' with rfl | he'
    · exact hfirst.trans hboth.2
    · exact hrest e' he'

theorem search_le (bytes : DictionaryEntry w) {d : Dictionary w} {i : ℕ} {entry : DictionaryEntry w}
    (h : d[i]?=some entry) : (c.search bytes d).sizeBits≤(c.getPattern bytes entry i).sizeBits := by
  obtain ⟨_,hall⟩:=foldl_le (fun e => c.getPattern bytes e.1 e.2) d.zipIdx (c.getPattern bytes (toDictionaryEntry 0) (-1))
  rw [search]
  exact hall (entry,i) (mk_mem_zipIdx_iff_getElem?.mpr h)

theorem search_none (bytes : DictionaryEntry w) (d : Dictionary w)
    (h : ∀ (i : ℕ) (entry : DictionaryEntry w),d[i]?=some entry →
      (c.getPattern bytes (toDictionaryEntry 0) (-1)).sizeBits≤(c.getPattern bytes entry i).sizeBits) :
    c.search bytes d=c.getPattern bytes (toDictionaryEntry 0) (-1) := by
  rw [search]
  refine foldlRecOn (motive := fun pattern => pattern=c.getPattern bytes (toDictionaryEntry 0) (-1)) d.zipIdx _ rfl
    fun pattern hpattern e he => ?_
  rw [hpattern]
  exact if_neg (not_lt.mpr (h e.2 e.1 (mk_mem_zipIdx_iff_getElem?.mp he)))

theorem decompress_search_iff (v : w.Value) (d : Dictionary w) (dictBytes : DictionaryEntry w) :
    (c.search (toDictionaryEntry v) d).content.decompress dictBytes=toDictionaryEntry v ↔
      (c.search (toDictionaryEntry v) d).content.Given v dictBytes := by
  rcases c.search_eq (toDictionaryEntry v) d with hnone | ⟨i,entry,hentry,hsome⟩
  · obtain ⟨p,hp,hcreate⟩:=c.getPattern_eq (toDictionaryEntry v) (toDictionaryEntry 0) (-1)
    rw [hnone,hcreate]
    exact Kind.decompress_content_iff hp
  · obtain ⟨p,hp,hcreate⟩:=c.getPattern_eq (toDictionaryEntry v) entry i
    rw [hsome,hcreate]
    exact Kind.decompress_content_iff hp

theorem given_search (junk : ℕ → DictionaryEntry w) (v : w.Value) {d : Dictionary w} (hd : d.length≤256) :
    (c.search (toDictionaryEntry v) d).content.Given v
      (d.getD (c.search (toDictionaryEntry v) d).location (junk (c.search (toDictionaryEntry v) d).location)) := by
  rcases c.search_eq (toDictionaryEntry v) d with hnone | ⟨i,entry,hentry,hsome⟩
  · obtain ⟨p,hp,hcreate⟩:=c.getPattern_eq (toDictionaryEntry v) (toDictionaryEntry 0) (-1)
    rw [hnone,hcreate]
    exact Kind.given_of_isPattern hp fun hloc => absurd hloc (by decide)
  · obtain ⟨p,hp,hcreate⟩:=c.getPattern_eq (toDictionaryEntry v) entry i
    have hlt : i<256 := lt_of_lt_of_le (List.getElem?_eq_some_iff.mp hentry).1 hd
    have hloc : (p.create (toDictionaryEntry v) i).location=i := by
      have hnat : (BitVec.ofInt 8 (i : ℤ)).toNat=i := by
        rw [BitVec.ofInt_natCast,BitVec.toNat_ofNat,mod_eq_of_lt hlt]
      exact hnat
    rw [hsome,hcreate,hloc,getD_eq_getElem?_getD,hentry]
    exact Kind.given_of_isPattern hp fun _ => rfl

end Scheme

def Replacement.Room (dictionarySize n : ℕ) (d : Dictionary w) : Replacement → Prop
  | .append => d.length+n≤dictionarySize
  | .fifo => d.length≤2 ∧ 2≤dictionarySize

instance (r : Replacement) (dictionarySize n : ℕ) (d : Dictionary w) : Decidable (r.Room dictionarySize n d) :=
  match r with
  | .append => inferInstanceAs (Decidable (_≤_))
  | .fifo => inferInstanceAs (Decidable (_ ∧ _))

section Room

variable {r : Replacement} {dictionarySize n : ℕ} {d : Dictionary w}

theorem Replacement.Room.length_le (h : r.Room dictionarySize n d) : d.length≤dictionarySize := by
  cases r with
  | append => exact le_of_add_right_le h
  | fifo => exact h.1.trans h.2

theorem Replacement.Room.skip (h : r.Room dictionarySize (n+1) d) : r.Room dictionarySize n d := by
  cases r with
  | append => exact le_of_succ_le h
  | fifo => exact h

theorem Replacement.length_next (data : DictionaryEntry w) : (Replacement.append.next d data).length=d.length+1 := by
  rw [Replacement.next,length_append,length_singleton]
  intro _ _ h
  cases h

theorem Replacement.Room.add (h : r.Room dictionarySize (n+1) d) (data : DictionaryEntry w) :
    r.addToDictionary dictionarySize d data = .ok (r.next d data) ∧ r.Room dictionarySize n (r.next d data) := by
  cases r with
  | append =>
    have hroom : d.length+(n+1)≤dictionarySize := h
    constructor
    · rw [Replacement.addToDictionary]
      exact if_pos (by omega)
    · rw [Replacement.Room,Replacement.length_next]
      omega
  | fifo =>
    obtain ⟨hlen,hsize⟩:=h
    constructor
    · rw [Replacement.addToDictionary]
      exact if_pos (by omega)
    · refine ⟨?_,hsize⟩
      rcases d with _ | ⟨_,_ | ⟨_,_ | ⟨_,_⟩⟩⟩
      · exact le_succ 1
      · exact Nat.le_refl 2
      · exact Nat.le_refl 2
      · exact absurd hlen (by simp)

def Replacement.after (r : Replacement) (pattern : Pattern w) (d : Dictionary w) (data : DictionaryEntry w) : Dictionary w :=
  if pattern.allocate then r.next d data else d

theorem Replacement.Room.after (h : r.Room dictionarySize (n+1) d) (pattern : Pattern w) (data : DictionaryEntry w) :
    r.Room dictionarySize n (r.after pattern d data) := by
  unfold Replacement.after
  split
  · exact (h.add data).2
  · exact h.skip

end Room

namespace Scheme

variable (c c' : Scheme w) (junk : ℕ → DictionaryEntry w)

/-- The second compressor's dictionary serves the patterns of the first. -/
def Follows : Dictionary w → Dictionary w → List w.Value → Prop
  | _,_,[] => True
  | d,d',v::values =>
    let pattern := c.search (toDictionaryEntry v) d
    pattern.content.Given v (d'.getD pattern.location (junk pattern.location)) ∧
      Follows (c.replacement.after pattern d (toDictionaryEntry v)) (c'.replacement.after pattern d' (toDictionaryEntry v)) values

inductive Compresses : Dictionary w → List w.Value → Dictionary w → List (Pattern w) → Prop where
  | nil {d : Dictionary w} : Compresses d [] d []
  | cons {d d1 : Dictionary w} {v : w.Value} {values : List w.Value} {patterns : List (Pattern w)}
      (h : Compresses (c.replacement.after (c.search (toDictionaryEntry v) d) d (toDictionaryEntry v)) values d1 patterns) :
      Compresses d (v::values) d1 (c.search (toDictionaryEntry v) d::patterns)

variable {c c' junk} {dictionarySize : ℕ} {d d1 d' : Dictionary w} {v : w.Value} {values : List w.Value}
  {patterns : List (Pattern w)}

theorem compressValue_ok (hroom : c.replacement.Room dictionarySize (n+1) d) (v : w.Value) :
    c.compressValue dictionarySize d v = .ok (c.replacement.after (c.search (toDictionaryEntry v) d) d (toDictionaryEntry v),
      c.search (toDictionaryEntry v) d) := by
  obtain ⟨hadd,_⟩:=hroom.add (toDictionaryEntry v)
  unfold Replacement.after
  by_cases hallocate : (c.search (toDictionaryEntry v) d).allocate=true
  · simp only [compressValue,if_pos hallocate,hadd,bind,Except.bind]
  · simp only [compressValue,if_neg hallocate]

theorem compressValues_ok (hroom : c.replacement.Room dictionarySize values.length d) :
    ∃ d1 patterns,c.compressValues dictionarySize d values = .ok (d1,patterns) ∧ c.Compresses d values d1 patterns := by
  induction values generalizing d with
  | nil => exact ⟨d,[],rfl,.nil⟩
  | cons v values ih =>
    have hvalue:=compressValue_ok hroom v
    obtain ⟨d1,patterns,hrun,hsteps⟩:=ih (hroom.after (c.search (toDictionaryEntry v) d) (toDictionaryEntry v))
    refine ⟨d1,c.search (toDictionaryEntry v) d::patterns,?_,.cons hsteps⟩
    simp only [compressValues,hvalue,bind,Except.bind,hrun]

theorem Compresses.length_le (h : c.Compresses d values d1 patterns) (happend : c.replacement = .append) :
    d.length≤d1.length := by
  induction h with
  | nil => exact Nat.le_refl _
  | cons _ ih =>
    refine le_trans ?_ ih
    unfold Replacement.after
    split
    · rw [happend,Replacement.length_next]
      exact le_succ _
    · exact Nat.le_refl _

theorem Compresses.length_patterns (h : c.Compresses d values d1 patterns) : patterns.length=values.length := by
  induction h with
  | nil => rfl
  | cons _ ih => rw [length_cons,length_cons,ih]

theorem length_decompressValues {d : Dictionary w} (h : c.decompressValues junk dictionarySize d patterns = .ok values) :
    values.length=patterns.length := by
  induction patterns generalizing d values with
  | nil =>
    obtain rfl:=Except.ok.inj h
    rfl
  | cons pattern patterns ih =>
    simp only [decompressValues,bind,Except.bind] at h
    split at h
    · cases h
    · split at h
      · cases h
      · rename_i rest hrest
        obtain rfl:=Except.ok.inj h
        rw [length_cons,length_cons,ih hrest]

theorem Follows.same (hsize : dictionarySize≤256) (hsame : c'.replacement=c.replacement)
    (hroom : c.replacement.Room dictionarySize values.length d) : c.Follows c' junk d d values := by
  induction values generalizing d with
  | nil => trivial
  | cons v values ih =>
    constructor
    · exact c.given_search junk v (hroom.length_le.trans hsize)
    · rw [hsame]
      exact ih (hroom.after _ _)

theorem decompressValues_cons_iff {pattern : Pattern w} (hroom : c'.replacement.Room dictionarySize (n+1) d') :
    c'.decompressValues junk dictionarySize d' (pattern::patterns) = .ok (v::values) ↔
      pattern.content.decompress (d'.getD pattern.location (junk pattern.location))=toDictionaryEntry v ∧
        c'.decompressValues junk dictionarySize (c'.replacement.after pattern d' (toDictionaryEntry v)) patterns = .ok values := by
  have hvalue : c'.decompressValue junk dictionarySize d' pattern =
      .ok (c'.replacement.after pattern d' (pattern.content.decompress (d'.getD pattern.location (junk pattern.location))),
        fromDictionaryEntry (pattern.content.decompress (d'.getD pattern.location (junk pattern.location)))) := by
    obtain ⟨hadd,_⟩:=hroom.add (pattern.content.decompress (d'.getD pattern.location (junk pattern.location)))
    unfold Replacement.after
    by_cases hallocate : pattern.allocate=true
    · simp only [decompressValue,if_pos hallocate,hadd,bind,Except.bind]
    · simp only [decompressValue,if_neg hallocate]
  generalize pattern.content.decompress (d'.getD pattern.location (junk pattern.location))=data at hvalue
  have hdata : fromDictionaryEntry data=v ↔ data=toDictionaryEntry v := by
    rw [← toDictionaryEntry_inj,to_fromDictionaryEntry]
  simp only [decompressValues,hvalue,bind,Except.bind]
  constructor
  · intro h
    split at h
    · cases h
    · rename_i rest hrest
      obtain ⟨hfirst,rfl⟩:=List.cons.inj (Except.ok.inj h)
      have heq:=hdata.mp hfirst
      subst heq
      exact ⟨rfl,hrest⟩
  · rintro ⟨rfl,hrest⟩
    rw [hrest,from_toDictionaryEntry]

theorem Compresses.decompress_iff (h : c.Compresses d values d1 patterns)
    (hroom : c'.replacement.Room dictionarySize values.length d') :
    c'.decompressValues junk dictionarySize d' patterns = .ok values ↔ c.Follows c' junk d d' values := by
  induction h generalizing d' with
  | nil => exact iff_of_true rfl trivial
  | @cons d d1 v values patterns _ ih =>
    rw [decompressValues_cons_iff hroom,Follows,ih (hroom.after _ _),c.decompress_search_iff]

end Scheme

/-! ## Round trips of whole lines -/

variable {w' : Width}

def Width.perWord (w : Width) : ℕ := w.chunkSize.numChunksPer64

theorem Width.perWord_eq (w : Width) : w.perWord=8/w.bytes := by cases w <;> rfl

theorem Width.perWord_pos (w : Width) : 0<w.perWord := w.chunkSize.perWord_pos

theorem Width.perWord_mul (w : Width) : w.perWord*(8*w.bytes)=64 := w.chunkSize.perWord_mul

theorem Width.bits_pos (w : Width) : 0<8*w.bytes := w.chunkSize.pos

def toValues (w : Width) (line : Line) : List w.Value := (w.chunkSize.toChunks line).map fun chunk => chunk.setWidth _

theorem length_toValues (w : Width) (line : Line) : (toValues w line).length=line.length*w.perWord := by
  rw [toValues,length_map,ChunkSize.length_toChunks]
  rfl

theorem getLsbD_toValues (line : Line) {i p : ℕ} (hi : i<line.length*w.perWord) (hp : p<8*w.bytes) :
    ((toValues w line).getD i 0).getLsbD p=(line.getD (i/w.perWord) 0).getLsbD (i%w.perWord*(8*w.bytes)+p) := by
  have hmap : (toValues w line).getD i 0=((w.chunkSize.toChunks line).getD i 0).setWidth (8*w.bytes) := by
    have hzero : (0 : w.Value)=(0 : Addr).setWidth (8*w.bytes) := by simp
    rw [hzero,toValues,getD_map]
  rw [hmap,BitVec.getLsbD_setWidth,decide_eq_true hp,Bool.true_and]
  exact w.chunkSize.getLsbD_toChunks line hi hp

theorem getLsbD_concatenate {words q p : ℕ} (values : List w.Value) (hq : q<words) (hp : p<64) :
    ((Compressor.concatenate w words values).getD q 0).getLsbD p =
      (values.getD (q*w.perWord+p/(8*w.bytes)) 0).getLsbD (p%(8*w.bytes)) := by
  have hget : (Compressor.concatenate w words values).getD q 0 =
      place 64 (8/w.bytes) fun j => values.getD (8/w.bytes*q+j) 0 := by
    rw [Compressor.concatenate,getD_eq_getElem?_getD,getElem?_map,getElem?_range hq]
    rfl
  have hrow : p/(8*w.bytes)<8/w.bytes := by
    rw [← w.perWord_eq]
    exact w.chunkSize.div_lt hp
  have hbit:=getLsbD_place w.bits_pos (fun j => values.getD (8/w.bytes*q+j) 0) hp hrow
  rw [hget]
  exact hbit.trans (by rw [w.perWord_eq,mul_comm q])

theorem value_lt {words q p : ℕ} (hq : q<words) (hp : p<64) : q*w.perWord+p/(8*w.bytes)<words*w.perWord := by
  have hrow : p/(8*w.bytes)<w.perWord := w.chunkSize.div_lt hp
  have hstep : (q+1)*w.perWord≤words*w.perWord := mul_le_mul_right _ hq
  rw [add_mul] at hstep
  omega

theorem concatenate_toValues (w : Width) (line : Line) : Compressor.concatenate w line.length (toValues w line)=line := by
  have hlen : (Compressor.concatenate w line.length (toValues w line)).length=line.length := by
    rw [Compressor.concatenate,length_map,length_range]
  apply ext_getElem hlen
  intro q hq hq'
  have hword : (Compressor.concatenate w line.length (toValues w line)).getD q 0=line.getD q 0 := by
    apply BitVec.eq_of_getLsbD_eq
    intro p hp
    rw [getLsbD_concatenate _ hq' hp,getLsbD_toValues line (value_lt hq' hp) (mod_lt _ w.bits_pos)]
    have hdiv : (q*w.perWord+p/(8*w.bytes))/w.perWord=q := w.chunkSize.index_div q hp
    have hmod : (q*w.perWord+p/(8*w.bytes))%w.perWord=p/(8*w.bytes) := w.chunkSize.index_mod q hp
    rw [hdiv,hmod,div_add_mod']
  rwa [getD_eq_getElem _ _ hq,getD_eq_getElem _ _ hq'] at hword

theorem concatenate_eq_iff {line : Line} {values : List w.Value} (hlen : values.length=line.length*w.perWord) :
    Compressor.concatenate w line.length values=line ↔ values=toValues w line := by
  constructor
  · intro hline
    apply ext_getElem (hlen.trans (length_toValues w line).symm)
    intro i hi hi'
    have hvalue : values.getD i 0=(toValues w line).getD i 0 := by
      apply BitVec.eq_of_getLsbD_eq
      intro p hp
      have hbound : i<line.length*w.perWord := hlen ▸ hi
      have hq : i/w.perWord<line.length := by rwa [div_lt_iff_lt_mul w.perWord_pos]
      have hrow : i%w.perWord<w.perWord := mod_lt _ w.perWord_pos
      have hp64 : i%w.perWord*(8*w.bytes)+p<64 := by
        have hmul:=w.perWord_mul
        have hstep : (i%w.perWord+1)*(8*w.bytes)≤w.perWord*(8*w.bytes) := mul_le_mul_right _ hrow
        rw [add_mul] at hstep
        omega
      have hdiv : (i%w.perWord*(8*w.bytes)+p)/(8*w.bytes)=i%w.perWord := by
        rw [mul_comm,mul_add_div w.bits_pos,div_eq_of_lt hp,add_zero]
      have hbit:=getLsbD_concatenate values hq hp64
      rw [hline,hdiv,mul_add_mod_of_lt hp,div_add_mod'] at hbit
      rw [getLsbD_toValues line hbound hp]
      exact hbit.symm
    rwa [getD_eq_getElem _ _ hi,getD_eq_getElem _ _ hi'] at hvalue
  · rintro rfl
    exact concatenate_toValues w line

namespace Scheme

def initial (c : Scheme w) : Dictionary w := if c.zeroBase then [toDictionaryEntry 0] else []

def Fits (c : Scheme w) (words dictionarySize : ℕ) : Prop :=
  dictionarySize≤256 ∧ c.replacement.Room dictionarySize (words*w.perWord) c.initial

variable {c : Scheme w} {c' : Scheme w'} {words dictionarySize dictionarySize' : ℕ}

theorem resetDictionary_ok {n : ℕ} (h : c.replacement.Room dictionarySize n c.initial) :
    c.resetDictionary dictionarySize = .ok c.initial := by
  unfold resetDictionary initial at *
  split
  · rename_i hzero
    rw [if_pos hzero] at h
    have hpos : 0<dictionarySize := h.length_le
    cases hr : c.replacement with
    | append => exact if_pos hpos
    | fifo => exact if_pos (.inr hpos)
  · rfl

def ReadsBack (c : Scheme w) (c' : Scheme w') (junk : ℕ → DictionaryEntry w') (line : Line) : Prop :=
  ∃ h : w=w',(h ▸ c).Follows c' junk (h ▸ c).initial c'.initial (toValues w' line)

theorem ReadsBack.same {c c' : Scheme w} {junk : ℕ → DictionaryEntry w} {line : Line} (h : c.Fits line.length dictionarySize)
    (hreplacement : c'.replacement=c.replacement) (hzero : c'.zeroBase=c.zeroBase) : c.ReadsBack c' junk line := by
  refine ⟨rfl,?_⟩
  have hinitial : c'.initial=c.initial := by rw [initial,initial,hzero]
  rw [hinitial]
  apply Follows.same h.1 hreplacement
  rw [length_toValues]
  exact h.2

end Scheme

namespace Scheme

theorem Compresses.line_iff {c c' : Scheme w} {junk : ℕ → DictionaryEntry w} {line : Line} {dictionarySize : ℕ}
    {d : Dictionary w} {patterns : List (Pattern w)} (h : c'.Fits line.length dictionarySize)
    (hsteps : c.Compresses c.initial (toValues w line) d patterns) :
    (c'.decompressValues junk dictionarySize c'.initial patterns).map (Compressor.concatenate w line.length) = .ok line ↔
      c.Follows c' junk c.initial c'.initial (toValues w line) := by
  have hroom:=h.2
  rw [← length_toValues] at hroom
  rw [← hsteps.decompress_iff hroom]
  cases hvalues : c'.decompressValues junk dictionarySize c'.initial patterns with
  | error e => exact iff_of_false (fun h => (by cases h)) (fun h => (by cases h))
  | ok values =>
    have hlen : values.length=line.length*w.perWord := by
      rw [length_decompressValues hvalues,hsteps.length_patterns,length_toValues]
    constructor
    · intro hline
      exact congrArg Except.ok ((concatenate_eq_iff hlen).mp (Except.ok.inj hline))
    · intro heq
      exact congrArg Except.ok ((concatenate_eq_iff hlen).mpr (Except.ok.inj heq))

theorem decompress_iff {c : Scheme w} {c' : Scheme w'} {junk : ℕ → DictionaryEntry w'} {line : Line} {dictionarySize : ℕ}
    {d : Dictionary w} {patterns : List (Pattern w)} (h : c'.Fits line.length dictionarySize)
    (hsteps : c.Compresses c.initial (toValues w line) d patterns) :
    (if h : w=w' then do
      let d' ← c'.resetDictionary dictionarySize
      let values ← c'.decompressValues junk dictionarySize d' (h ▸ patterns)
      .ok (Compressor.concatenate w' line.length values)
    else .error Fault.badCast) = .ok line ↔ c.ReadsBack c' junk line := by
  by_cases hw : w=w'
  · subst hw
    have hreads : c.ReadsBack c' junk line ↔ c.Follows c' junk c.initial c'.initial (toValues w line) := exists_prop_of_true rfl
    rw [hreads,← hsteps.line_iff h,dif_pos rfl]
    simp only [resetDictionary_ok h.2,bind,Except.bind]
    exact Iff.rfl
  · rw [dif_neg hw]
    exact iff_of_false (fun h => (by cases h)) fun ⟨hsame,_⟩ => hw hsame

end Scheme

theorem RepeatedQwords.entries_pos {values : List RepeatedQwords.W.Value} {d : Dictionary RepeatedQwords.W}
    {patterns : List (Pattern RepeatedQwords.W)} (h : RepeatedQwords.scheme.Compresses [] values d patterns)
    (hvalues : values≠[]) : d.length≠0 := by
  cases h with
  | nil => exact absurd rfl hvalues
  | cons h => exact ne_of_gt (h.length_le rfl)

theorem Class.finish_ok (cls : Class) (blkSize : ℕ) {line : Line} (hline : line≠[]) {d : Dictionary cls.width}
    {patterns : List (Pattern cls.width)} (h : cls.scheme.Compresses cls.scheme.initial (toValues cls.width line) d patterns)
    (size : ℕ) : ∃ sizeBits,cls.scheme.finish blkSize d.length size = .ok sizeBits := by
  cases cls with
  | cpack | fpcd => exact ⟨_,rfl⟩
  | baseDelta w deltaSizeBits smaller =>
    by_cases hover : BaseDelta.DEFAULT_MAX_NUM_BASES<d.length
    · exact ⟨_,if_pos hover⟩
    · exact ⟨_,if_neg hover⟩
  | repeatedQwords =>
    have hvalues : toValues .w64 line≠[] := by
      intro hnil
      have hlen:=length_toValues .w64 line
      rw [hnil] at hlen
      have hpos:=length_pos_iff.mpr hline
      exact absurd hlen (Nat.ne_of_lt (Nat.mul_pos hpos Width.w64.perWord_pos))
    have hentries:=RepeatedQwords.entries_pos h hvalues
    by_cases hmany : 1<d.length
    · exact ⟨_,(if_neg hentries).trans (if_pos hmany)⟩
    · exact ⟨_,(if_neg hentries).trans (if_neg hmany)⟩
  | zero =>
    by_cases hmany : 0<d.length
    · exact ⟨_,if_pos hmany⟩
    · exact ⟨_,if_neg hmany⟩

namespace Compressor

variable {c c' : Compressor} {line : Line}

def Fits (c : Compressor) (words : ℕ) : Prop := c.cls.scheme.Fits words c.dictionarySize

instance (c : Compressor) (words : ℕ) : Decidable (c.Fits words) := inferInstanceAs (Decidable (_ ∧ _))

def Wrote (c : Compressor) (line : Line) (data : CompData) : Prop :=
  ∃ d patterns sizeBits,c.cls.scheme.Compresses c.cls.scheme.initial (toValues c.cls.width line) d patterns ∧
    data=⟨c.cls.width,patterns,sizeBits⟩

theorem compress_of_room (hline : line≠[]) (hroom : c.cls.scheme.replacement.Room c.dictionarySize
    (line.length*c.cls.width.perWord) c.cls.scheme.initial) : ∃ r,c.compress line = .ok r ∧ c.Wrote line r.compData := by
  rw [← length_toValues] at hroom
  obtain ⟨d,patterns,hrun,hsteps⟩:=Scheme.compressValues_ok hroom
  obtain ⟨sizeBits,hfinish⟩:=c.cls.finish_ok (line.length*8) hline hsteps (patterns.map Pattern.sizeBits).sum
  rw [toValues] at hrun
  refine ⟨⟨⟨c.cls.width,patterns,thresholded (line.length*8) c.sizeThreshold sizeBits⟩,
    c.cls.scheme.compLat (line.length*8),c.cls.scheme.decompLat (line.length*8)⟩,?_,d,patterns,_,hsteps,rfl⟩
  simp only [compress,compressChunks,Scheme.resetDictionary_ok hroom,hrun,hfinish,bind,Except.bind]

theorem compress_ok (hline : line≠[]) (h : c.Fits line.length) :
    ∃ r,c.compress line = .ok r ∧ c.Wrote line r.compData := compress_of_room hline h.2

theorem decompress_iff {junk : (w : Width) → ℕ → DictionaryEntry w} {data : CompData} (h : c'.Fits line.length)
    (hdata : c.Wrote line data) : c'.decompress junk line.length data = .ok line ↔
      c.cls.scheme.ReadsBack c'.cls.scheme (junk c'.cls.width) line := by
  obtain ⟨d,patterns,sizeBits,hsteps,rfl⟩:=hdata
  exact Scheme.decompress_iff h hsteps

def roundTrip (c : Compressor) (junk : (w : Width) → ℕ → DictionaryEntry w) (line : Line) : Except Fault Line := do
  let r ← c.compress line
  c.decompress junk line.length r.compData

theorem roundTrip_eq {junk : (w : Width) → ℕ → DictionaryEntry w} (hline : line≠[]) (h : c.Fits line.length) :
    c.roundTrip junk line = .ok line := by
  obtain ⟨r,hr,hwrote⟩:=compress_ok hline h
  have hback : c.decompress junk line.length r.compData = .ok line :=
    (decompress_iff h hwrote).mpr (Scheme.ReadsBack.same h rfl rfl)
  simp only [roundTrip,hr,bind,Except.bind,hback]

end Compressor

end AquaGem5.Compressors
