import AquaGem5.Compressors.BaseDelta

/-!
# Reads of the dictionary (dictionary_compressor_impl.hh)

`decompressValue` copies an entry of the dictionary whatever the pattern is.
-/

namespace AquaGem5.Compressors
open Covering List

variable {w : Width}

def Pattern.readIndex (p : Pattern w) : Option ℕ := some p.location

/-- The entry that the pattern matched is read, or none, and it is an entry of the dictionary. -/
structure Pattern.Sound (dictionarySize : ℕ) (p : Pattern w) : Prop where
  matched : p.readIndex=if 0≤p.matchLocation then some p.matchLocation.toNat else none
  inside : ∀ i∈p.readIndex,i<dictionarySize

def Class.dictionarySize (blkSize : ℕ) : Class → ℕ
  | fpcd => 2
  | _ => blkSize

def Class.NearZero (line : Line) : Class → Prop
  | baseDelta w deltaSizeBits _ => ∀ value∈toValues w line,BaseDelta.Near deltaSizeBits 0 value
  | _ => False

theorem Pattern.not_sound {dictionarySize : ℕ} {p : Pattern w} (h : p.matchLocation = -1) : ¬p.Sound dictionarySize := by
  intro hsound
  have hmatched:=hsound.matched
  rw [h,if_neg (by decide)] at hmatched
  exact absurd hmatched (Option.some_ne_none _)

theorem Scheme.Compresses.unmatched {c : Scheme w} {values : List w.Value} {d : Dictionary w} {patterns : List (Pattern w)}
    (h : c.Compresses [] values d patterns) (hvalues : values≠[]) : ∃ p∈patterns,p.matchLocation = -1 := by
  cases h with
  | nil => exact absurd rfl hvalues
  | cons _ => exact ⟨_,mem_cons_self,rfl⟩

theorem BaseDelta.sound_iff {deltaSizeBits dictionarySize : ℕ} {smaller : deltaSizeBits<8*w.bytes} {values : List w.Value}
    {d : Dictionary w} {patterns : List (Pattern w)} (hpos : 0<dictionarySize)
    (h : (scheme w deltaSizeBits smaller).Compresses ([0].map toDictionaryEntry) values d patterns) :
    (∀ p∈patterns,p.Sound dictionarySize) ↔ ∀ value∈values,Near deltaSizeBits 0 value := by
  induction values generalizing patterns with
  | nil =>
    cases h
    exact iff_of_true (fun _ hp => absurd hp not_mem_nil) fun _ hv => absurd hv not_mem_nil
  | cons value values ih =>
    cases h with
    | cons hrest =>
      rw [forall_mem_cons,forall_mem_cons,← near_iff,← covered_zero]
      by_cases hcov : covered (near deltaSizeBits) [0] value=true
      · obtain ⟨i,hi,hsearch⟩:=search_near smaller hcov
        rw [hsearch] at hrest ⊢
        obtain rfl : i=0 := Nat.lt_one_iff.mp hi
        have hsound : (deltaOf smaller value 0).Sound dictionarySize :=
          ⟨rfl,fun i hin => (Option.some.inj hin) ▸ hpos⟩
        rw [and_iff_right hsound,and_iff_right hcov]
        exact ih hrest
      · have hsearch:=search_far smaller hcov
        rw [hsearch]
        exact iff_of_false (fun hall => Pattern.not_sound rfl hall.1) fun hall => hcov hall.1

theorem toValues_ne_nil {line : Line} (hline : line≠[]) : toValues w line≠[] := by
  have hpos:=Nat.mul_pos (length_pos_iff.mpr hline) w.perWord_pos
  rw [← length_toValues] at hpos
  exact length_pos_iff.mp hpos

theorem Class.room (cls : Class) (hT : 1<cls.width.bytes) {words : ℕ} (hwords : 0<words) :
    cls.scheme.replacement.Room (cls.dictionarySize (words*8)) (words*cls.width.perWord) cls.scheme.initial := by
  cases cls with
  | baseDelta w deltaSizeBits smaller => exact BaseDelta.room smaller hT hwords
  | fpcd => exact ⟨Nat.zero_le _,Nat.le_refl _⟩
  | cpack =>
    have hroom : 0+words*2≤words*8 := by omega
    exact hroom
  | repeatedQwords | zero =>
    have hroom : 0+words*1≤words*8 := by omega
    exact hroom

/-- The dictionary is read at the entries that matched exactly in a line of deltas to zero. -/
theorem reads_sound_iff (cls : Class) (hT : 1<cls.width.bytes) (line : Line) (hline : line≠[]) (sizeThreshold : ℕ) :
    ∃ r,(⟨cls,cls.dictionarySize (line.length*8),sizeThreshold⟩ : Compressor).compress line = .ok r ∧
      ((∀ p∈r.compData.entries,p.Sound (cls.dictionarySize (line.length*8))) ↔ cls.NearZero line) := by
  have hpos:=List.length_pos_iff.mpr hline
  obtain ⟨r,hr,d,patterns,sizeBits,hsteps,hdata⟩:=Compressor.compress_of_room
    (c := ⟨cls,cls.dictionarySize (line.length*8),sizeThreshold⟩) hline (cls.room hT hpos)
  refine ⟨r,hr,?_⟩
  rw [hdata]
  cases cls with
  | baseDelta w deltaSizeBits smaller => exact BaseDelta.sound_iff (Nat.mul_pos hpos (by decide)) hsteps
  | cpack | fpcd | repeatedQwords | zero =>
    obtain ⟨p,hp,hnone⟩:=hsteps.unmatched (toValues_ne_nil hline)
    exact iff_of_false (fun hall => Pattern.not_sound hnone (hall p hp)) id

/-- A line of 64 bytes of zeros, compressed by C-Pack: its first pattern reads entry 255 of 64. -/
theorem not_reads_sound : ∃ r,(⟨.cpack,64,32⟩ : Compressor).compress (List.replicate 8 0) = .ok r ∧
    ∃ p∈r.compData.entries,p.matchLocation = -1 ∧ p.readIndex=some 255 ∧ ¬p.Sound 64 := by
  have hline : List.replicate 8 0≠([] : Line) := by decide
  obtain ⟨r,hr,d,patterns,sizeBits,hsteps,hdata⟩:=Compressor.compress_of_room (c := ⟨.cpack,64,32⟩) hline
    (Class.room .cpack (by decide) (List.length_pos_iff.mpr hline))
  obtain ⟨p,hp,hnone⟩:=hsteps.unmatched (toValues_ne_nil (by decide))
  refine ⟨r,hr,?_⟩
  rw [hdata]
  refine ⟨p,hp,hnone,?_,Pattern.not_sound hnone⟩
  rw [Pattern.readIndex,Pattern.location,hnone]
  rfl

theorem reads_sound_two : ∃ r,(⟨.baseDelta .w64 8 (by decide),16,8⟩ : Compressor).compress [3,5] = .ok r ∧
    ∀ p∈r.compData.entries,p.Sound 16 := by
  obtain ⟨r,hr,hiff⟩:=reads_sound_iff (.baseDelta .w64 8 (by decide)) (by decide) [3,5] (by decide) 8
  have hnear : (toValues .w64 [3,5]).all (BaseDelta.near 8 0)=true := by decide +kernel
  exact ⟨r,hr,hiff.mpr fun value hin => BaseDelta.near_iff.mp (List.all_eq_true.mp hnear value hin)⟩

end AquaGem5.Compressors
