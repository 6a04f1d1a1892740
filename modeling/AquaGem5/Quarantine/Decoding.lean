import AquaGem5.Quarantine.Tracking
import Mathlib.Order.Interval.Finset.Nat

/-!
# The randomised mapping of the detector's rows

The constructor of `Row_Quarantine` fills `randRowID` with the identity and swaps every entry
with one that `rand()` picks, so a permutation is left, and `decodeAddr` splits its values
into banks and rows of the detector. The loops count with an `int`, which has no increment
at `INT_MAX`: with 2^31 rows or more they overflow.
-/

namespace AquaGem5.Quarantine
open Checked Detector

namespace RowQuarantine

inductive LoopFault where
  | outOfBounds
  | divByZero
  | badConversion
  | intOverflow
  deriving DecidableEq

instance : Undefined LoopFault := ⟨.outOfBounds,.divByZero,.badConversion⟩

/-- `ii++` of an `int` that is not negative. -/
def nextIndex (ii : ℕ) : Except LoopFault ℕ :=
  if ii+1=2^31 then .error .intOverflow else .ok (ii+1)

def identityRows : ℕ → ℕ → Cells ℕ → Except LoopFault (Cells ℕ)
  | 0,_,ids => pure ids
  | fuel+1,ii,ids => do
    let ids ← ids.write ii ii
    let ii ← nextIndex ii
    identityRows fuel ii ids

def shuffleRows (draws : ℕ → ℕ) (numDRAMRows : ℕ) :
    ℕ → ℕ → Cells ℕ → Except LoopFault (Cells ℕ)
  | 0,_,ids => pure ids
  | fuel+1,ii,ids => do
    let jj ← umod (draws ii) numDRAMRows
    let temp ← ids.read ii
    let other ← ids.read jj
    let ids ← ids.write ii other
    let ids ← ids.write jj temp
    let next ← nextIndex ii
    shuffleRows draws numDRAMRows fuel next ids

def randomRows (draws : ℕ → ℕ) (numDRAMRows : ℕ) : Except LoopFault (Cells ℕ) := do
  let ids ← identityRows numDRAMRows 0 (.calloc numDRAMRows 0)
  shuffleRows draws numDRAMRows numDRAMRows 0 ids

/-- The mapping is a permutation of the rows, and `decodeAddr` reaches every pair of a bank
and a row of the detector from exactly one row of the memory. -/
structure Balanced (numRows : ℕ) (ids : Cells ℕ) : Prop where
  permutes : Set.BijOn ids.get (Set.Iio numRows) (Set.Iio numRows)
  decodes : ∀ s : RowQuarantine,s.randRowID=ids → s.numRows=numRows →
    s.numAccessesToRow.size=numRows → ∃ mapping : ℕ → DecodedAddr,
      (∀ addr,addr/8192<numRows →
        ∃ s', s.decodeAddr addr = .ok (s',mapping (addr/8192))) ∧
      Set.BijOn (fun row => ((mapping row).bank.bankID,(mapping row).rowID)) (Set.Iio numRows)
        (Set.Iio 16 ×ˢ Set.Iio (numRows/16))

variable {draws : ℕ → ℕ} {n : ℕ} {ids : Cells ℕ}

theorem nextIndex_post (ii : ℕ) (Q : ℕ → Prop) (E : LoopFault → Prop) : Post (nextIndex ii) Q E ↔
      (ii+1=2^31 → E .intOverflow) ∧ (ii+1≠2^31 → Q (ii+1)) := by
  unfold nextIndex
  rw [post_ite,post_ok,post_error]

theorem identityRows_post {fuel ii : ℕ} (hsize : ids.size=n) (hfuel : ii+fuel=n)
    (hn : n<2^31) : Post (identityRows fuel ii ids)
      (fun ids' => ids'.size=n ∧ ∀ r<n,ids'.get r=if ii≤r then r else ids.get r) fun _ => False := by
  induction fuel generalizing ii ids with
  | zero =>
    refine ⟨hsize,fun r hr => ?_⟩
    rw [if_neg (by omega)]
  | succ fuel ih =>
    simp only [identityRows,post_bind,Cells.post_write,nextIndex_post]
    refine ⟨fun _ => ⟨fun h => by omega,fun _ => ?_⟩,fun h => h (by omega)⟩
    have hset : (ids.set ii ii).size=n := hsize
    refine (ih hset (by omega)).imp ?_
    intro ids' h
    refine ⟨h.1,fun r hr => ?_⟩
    rw [h.2 r hr,Cells.get_set]
    grind

theorem shuffleRows_post {fuel ii : ℕ} {ids' : Cells ℕ} (hsize : ids.size=n)
    (hfuel : ii+fuel=n) (hn : n<2^31) (hsame : ∀ r<n,ids.get r=ids'.get r) : Post (shuffleRows draws n fuel ii ids)
      (fun out => out.size=n ∧ ∀ r<n,out.get r=(shuffle draws n fuel ii ids').get r) fun _ => False := by
  induction fuel generalizing ii ids ids' with
  | zero => exact ⟨hsize,hsame⟩
  | succ fuel ih =>
    have hii : ii<n := by omega
    have hjj : draws ii%n<n := Nat.mod_lt _ (by omega)
    simp only [shuffleRows,post_bind,post_umod,Cells.post_read,Cells.post_write,nextIndex_post]
    refine ⟨fun h => by omega,fun _ => ⟨fun _ => ⟨fun _ => ⟨fun _ => ⟨fun _ => ⟨fun h => by omega,
      fun _ => ?_⟩,fun h => h (hsize ▸ hjj)⟩,fun h => h (hsize ▸ hii)⟩,fun h => h (hsize ▸ hjj)⟩,
      fun h => h (hsize ▸ hii)⟩⟩
    rw [shuffle]
    refine ih hsize (by omega) fun r hr => ?_
    simp only [Cells.get_set,hsame r hr,hsame _ hii,hsame _ hjj]

theorem randomRows_post (draws : ℕ → ℕ) (hn : n<2^31) : Post (randomRows draws n)
    (fun out => out.size=n ∧ ∀ r<n,out.get r=(shuffle draws n n 0 ⟨n,id⟩).get r) fun _ => False := by
  unfold randomRows
  refine (identityRows_post (n := n) rfl (Nat.zero_add n) hn).bind fun ids hids => ?_
  refine shuffleRows_post hids.1 (Nat.zero_add n) hn fun r hr => ?_
  rw [hids.2 r hr,if_pos (Nat.zero_le r)]
  rfl

theorem identityRows_overflow {fuel ii : ℕ} (hsize : ids.size=n) (hfuel : ii+fuel=n)
    (hii : ii<2^31) (hn : 2^31≤n) : identityRows fuel ii ids = .error .intOverflow := by
  induction fuel generalizing ii ids with
  | zero => omega
  | succ fuel ih =>
    have hwrite : (ids.write ii ii : Except LoopFault (Cells ℕ)) = .ok (ids.set ii ii) :=
      if_pos (by omega)
    simp only [identityRows,hwrite,bind,Except.bind,nextIndex]
    by_cases hmax : ii+1=2^31
    · rw [if_pos hmax]
    · rw [if_neg hmax]
      exact ih hsize (by omega) (by omega)

theorem randomRows_overflow (draws : ℕ → ℕ) (hn : 2^31≤n) : randomRows draws n = .error .intOverflow := by
  have hfirst : identityRows n 0 (.calloc n 0) = .error .intOverflow :=
    identityRows_overflow rfl (Nat.zero_add n) (by decide) hn
  simp only [randomRows,hfirst,bind,Except.bind]

theorem split_bijOn (h16 : 16∣n) : Set.BijOn (fun v => (v%16,v/16%(n/16))) (Set.Iio n)
    (Set.Iio 16 ×ˢ Set.Iio (n/16)) := by
  obtain ⟨k,rfl⟩:=h16
  rw [Nat.mul_div_cancel_left k (by decide)]
  have hquot : ∀ v<16*k,v/16%k=v/16 := fun v hv => Nat.mod_eq_of_lt (by omega)
  refine ⟨fun v hv => ?_,fun v hv w hw h => ?_,fun p hp => ?_⟩
  · have hv : v<16*k := hv
    refine ⟨Nat.mod_lt v (by decide),?_⟩
    change v/16%k<k
    rw [hquot v hv]
    omega
  · have hv : v<16*k := hv
    have hw : w<16*k := hw
    simp only [Prod.mk.injEq,hquot v hv,hquot w hw] at h
    omega
  · obtain ⟨hb,hr⟩:=hp
    have hb : p.1<16 := hb
    have hr : p.2<k := hr
    have hv : p.2*16+p.1<16*k := by omega
    refine ⟨p.2*16+p.1,hv,Prod.ext ?_ ?_⟩
    · change (p.2*16+p.1)%16=p.1
      omega
    · change (p.2*16+p.1)/16%k=p.2
      rw [hquot _ hv]
      omega

theorem balanced_of_permutes (h16 : 16∣n) (h32 : n<2^32) (hsize : ids.size=n)
    (hperm : Set.BijOn ids.get (Set.Iio n) (Set.Iio n)) : Balanced n ids := by
  refine ⟨hperm,?_⟩
  rintro s rfl rfl hcounts
  refine ⟨fun row => ⟨s.randRowID.get row/16%(s.numRows/16),⟨0,0,s.randRowID.get row%16⟩⟩,
    fun addr haddr => ?_,(split_bijOn h16).comp hperm⟩
  have hpos : s.numRows/16≠0 := by
    obtain ⟨k,hk⟩:=h16
    omega
  have hcount : (s.numAccessesToRow.read (addr/8192) : Except Fault ℕ) =
      .ok (s.numAccessesToRow.get (addr/8192)) := Cells.read_of_lt _ (by omega)
  have hrow : (s.randRowID.read (addr/8192) : Except Fault ℕ) =
      .ok (s.randRowID.get (addr/8192)) := Cells.read_of_lt _ (by omega)
  simp only [decodeAddr,Nat.mod_eq_of_lt (haddr.trans h32),hcount,hrow,bind,Except.bind,umod,
    if_neg hpos,pure,Except.pure]
  exact ⟨_,rfl⟩

/-- The mapping is collision-free and balanced unless the index of the loops overflows. -/
theorem decoded_rows_iff (draws : ℕ → ℕ) (n : ℕ) (h16 : 16∣n) (h32 : n<2^32) :
    (∃ ids, randomRows draws n = .ok ids ∧ Balanced n ids) ↔ n<2^31 := by
  constructor
  · intro h
    obtain ⟨ids,hrun,-⟩:=h
    by_contra hn
    rw [randomRows_overflow draws (Nat.not_lt.mp hn)] at hrun
    cases hrun
  · intro hn
    obtain ⟨ids,hrun,hsize,hsame⟩:=(randomRows_post draws hn).returns
    refine ⟨ids,hrun,balanced_of_permutes h16 h32 hsize ?_⟩
    have hperm : Permutes n (shuffle draws n n 0 ⟨n,id⟩) :=
      shuffle_permutes draws ⟨Function.injective_id,fun _ h => h⟩ (Nat.zero_add n).le
    have hmaps : Set.MapsTo ids.get (Set.Iio n) (Set.Iio n) := fun r hr => by
      rw [hsame r hr]
      exact hperm.inRange r hr
    refine ((Set.finite_Iio n).injOn_iff_bijOn_of_mapsTo hmaps).mp fun r hr r' hr' h => ?_
    rw [hsame r hr,hsame r' hr'] at h
    exact hperm.injective h

theorem decoded_rows_iff_sixteen :
    (∃ ids, randomRows (fun ii => 15-ii) 16 = .ok ids ∧ Balanced 16 ids) ↔ 16<2^31 :=
  decoded_rows_iff (fun ii => 15-ii) 16 (by decide) (by decide)

theorem decoded_rows_overflow :
    16∣2^31+16 ∧ 2^31+16<2^32 ∧
      randomRows (fun _ => 0) (2^31+16) = .error .intOverflow ∧
      ¬∃ ids, randomRows (fun _ => 0) (2^31+16) = .ok ids ∧ Balanced (2^31+16) ids := by
  have hfault:=randomRows_overflow (fun _ => 0) (n := 2^31+16) (by decide)
  refine ⟨by decide,by decide,hfault,?_⟩
  rintro ⟨ids,hrun,-⟩
  rw [hfault] at hrun
  cases hrun

end RowQuarantine

end AquaGem5.Quarantine
