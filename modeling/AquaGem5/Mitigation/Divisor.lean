import AquaGem5.Mitigation.BlockHammer

/-!
# The delay arithmetic of BlockHammer

The guard compares one less than the count with the threshold, the subtraction takes one more than the count away: the
two counts between them divide by zero or wrap.
-/

namespace AquaGem5.Throttle.BlockHammer
open Checked Mitigation

variable {byZero : UInt64 → Except Fault UInt64} {s s' s1 : BlockHammer} {a : Access} {as : List Access}
  {es : List Event}

structure Regular (s : BlockHammer) : Prop where
  size : s.numAccessesToRow.size=s.numDRAMRows
  outside : ∀ i, s.numDRAMRows ≤ i → s.numAccessesToRow.get i=0

def countFound (s : BlockHammer) (a : Access) : UInt32 :=
  if windowOver a.currTick s.lastReset=true then 0 else s.numAccessesToRow.get (s.dramRowID a)

theorem opened_count (h : s.Regular) (ho : s.Opened s1 a.currTick) :
    s1.numAccessesToRow.get (s.dramRowID a)=s.countFound a := by
  unfold countFound
  cases hover : windowOver a.currTick s.lastReset with
  | true =>
    obtain ⟨_,hswept,hzero⟩:=ho.begins hover
    rw [if_pos rfl]
    by_cases hin : s.dramRowID a<s.numDRAMRows
    · exact hswept _ hin
    · exact hzero _ (h.outside _ (Nat.le_of_not_lt hin))
  | false =>
    rw [if_neg Bool.false_ne_true,(ho.stays hover).2]

theorem opened_regular (h : s.Regular) (ho : s.Opened s1 a.currTick) : s1.Regular := by
  refine ⟨?_,fun i hi => ?_⟩
  · rw [ho.same.size,h.size,ho.same.numDRAMRows]
  · rw [ho.same.numDRAMRows] at hi
    have hzero:=h.outside i hi
    cases hover : windowOver a.currTick s.lastReset with
    | true => exact (ho.begins hover).2.2 i hzero
    | false =>
      rw [(ho.stays hover).2]
      exact hzero

theorem counted_regular (h : s1.Regular) {currTick : UInt64} {row : ℕ}
    (hc : Counted byZero s1 s' currTick row) : s'.Regular := by
  refine ⟨?_,fun i hi => ?_⟩
  · rw [hc.same.size,h.size,hc.same.numDRAMRows]
  · rw [hc.same.numDRAMRows] at hi
    have hin:=hc.inBounds
    rw [h.size] at hin
    rw [hc.counts,Cells.get_set_ne _ _ (by omega)]
    exact h.outside i hi

structure Ran (as : List Access) (s s' : BlockHammer) : Prop where
  regular : s'.Regular
  same : s.Same s'
  lastReset : s'.lastReset=s.lastReset ∨ ∃ x∈as,s'.lastReset=x.currTick

theorem access_ran (h : s.Regular) (haccess : s.access byZero a = .ok s') : Ran [a] s s' := by
  obtain ⟨s1,ho,hc⟩:=(access_post byZero s a).of_ok haccess
  refine ⟨counted_regular (opened_regular h ho) hc,ho.same.trans hc.same,?_⟩
  rw [hc.lastReset]
  cases hover : windowOver a.currTick s.lastReset with
  | true => exact .inr ⟨a,List.mem_singleton_self a,(ho.begins hover).1⟩
  | false => exact .inl (ho.stays hover).1

theorem run_ran (h : s.Regular) (hrun : s.run byZero as = .ok (s',es)) : Ran as s s' := by
  induction as generalizing s es with
  | nil =>
    cases hrun
    exact ⟨h,⟨rfl,rfl,rfl,rfl,rfl⟩,.inl rfl⟩
  | cons a as ih =>
    obtain ⟨s1,haccess,hrest⟩:=bind_ok hrun
    obtain ⟨⟨s2,es'⟩,hrun',heq⟩:=bind_ok hrest
    cases heq
    have hfirst:=access_ran h haccess
    have hlater:=ih hfirst.regular hrun'
    refine ⟨hlater.regular,hfirst.same.trans hlater.same,?_⟩
    rcases hlater.lastReset with heq | ⟨x,hx,heq⟩
    · rw [heq]
      rcases hfirst.lastReset with heq | ⟨x,hx,heq⟩
      · exact .inl heq
      · exact .inr ⟨x,List.mem_cons.mpr (.inl (List.mem_singleton.mp hx)),heq⟩
    · exact .inr ⟨x,List.mem_cons_of_mem a hx,heq⟩

theorem construct_regular (threshold : UInt32) (numRows : ℕ) (blThreshold : UInt32)
    (numBanks numRanks numChannels : ℕ) (memory : BlockHammer) :
    (construct threshold numRows blThreshold numBanks numRanks numChannels memory).Regular :=
  ⟨rfl,fun _ _ => rfl⟩

theorem openWindow_returns_iff (h : s.Regular) (currTick : UInt64) : (∃ s1,s.openWindow currTick = .ok s1) ↔
    (windowOver currTick s.lastReset=true → s.numDRAMRows<2^31) := by
  unfold openWindow
  dsimp only
  cases hover : windowOver currTick s.lastReset with
  | false => exact ⟨fun _ => nofun,fun _ => ⟨_,rfl⟩⟩
  | true =>
    rw [if_pos rfl]
    refine (reset_returns_iff ?_).trans ⟨fun hlt _ => hlt,fun hlt => hlt rfl⟩
    exact h.size

def InRange (threshold n : UInt32) : Prop :=
  1≤(actsRemaining threshold n).toNat ∧ (actsRemaining threshold n).toNat≤threshold.toNat ∧
    (n-1<threshold → n.toNat+1≤threshold.toNat)

theorem inRange_iff (threshold c : UInt32) : InRange threshold (c+1) ↔
    0<threshold.toNat ∧ c.toNat+1≠threshold.toNat ∧ c.toNat+2≠threshold.toNat := by
  have hlt:=threshold.toNat_lt
  have hc : c+1-1=c := UInt32.add_sub_cancel c 1
  unfold InRange actsRemaining
  rw [hc]
  by_cases hbelow : c<threshold
  · have hcT:=UInt32.lt_iff_toNat_lt.mp hbelow
    have hn : (c+1).toNat=c.toNat+1 := by
      rw [UInt32.toNat_add,show (1 : UInt32).toNat=1 from rfl]
      exact Nat.mod_eq_of_lt (by omega)
    have hsub : (threshold-(c+1)-1).toNat =
        (2^32-1+(threshold.toNat-(c.toNat+1)))%2^32 := by
      rw [UInt32.toNat_sub,UInt32.toNat_sub_of_le _ _ (UInt32.le_iff_toNat_le.mpr (by omega)),hn]
      rfl
    rw [if_pos hbelow,UInt32.toNat_toUInt64,hsub,hn]
    simp only [hbelow,true_implies]
    omega
  · have hcT : threshold.toNat≤c.toNat :=
      Nat.le_of_not_lt fun h => hbelow (UInt32.lt_iff_toNat_lt.mpr h)
    rw [if_neg hbelow]
    have hone : (1 : UInt64).toNat=1 := rfl
    rw [hone]
    constructor
    · rintro ⟨_,hpos,_⟩
      exact ⟨hpos,by omega,by omega⟩
    · rintro ⟨hpos,_⟩
      exact ⟨Nat.le_refl 1,hpos,fun hno => absurd hno hbelow⟩

structure WellDefined (byZero : UInt64 → Except Fault UInt64) (s : BlockHammer) (a : Access) : Prop where
  opens : ∃ s1,s.openWindow a.currTick = .ok s1
  divisor : ∀ s1,s.openWindow a.currTick = .ok s1 →
    s1.blackListThreshold≤(s1.numAccessesToRow.get (s1.dramRowID a)+1).toUInt64 →
      InRange s1.threshold (s1.numAccessesToRow.get (s1.dramRowID a)+1)
  delay : ∀ s',s.access byZero a = .ok s' →
    a.currTick.toNat+s'.decision.mcDelay.toNat ≤ s'.lastReset.toNat+refreshWindow.toNat

theorem opened_window (ho : s.Opened s1 a.currTick) (hle : s.lastReset≤a.currTick) :
    s1.lastReset≤a.currTick ∧ a.currTick.toNat<s1.lastReset.toNat+refreshWindow.toNat := by
  cases hover : windowOver a.currTick s.lastReset with
  | true =>
    rw [(ho.begins hover).1]
    exact ⟨UInt64.le_refl _,Nat.lt_add_of_pos_right (by decide)⟩
  | false =>
    rw [(ho.stays hover).1]
    exact ⟨hle,(not_windowOver_iff hle).mp hover⟩

theorem mcDelay_le {currTick delay : UInt64} {n : UInt32} (hle : s.lastReset≤currTick)
    (hin : currTick.toNat<s.lastReset.toNat+refreshWindow.toNat)
    (hrange : s.blackListThreshold≤n.toUInt64 → InRange s.threshold n) (h : s.mcDelay byZero currTick n = .ok delay) :
    currTick.toNat+delay.toNat ≤ s.lastReset.toNat+refreshWindow.toNat := by
  have hleft:=toNat_remaining hle hin
  unfold mcDelay at h
  split at h
  next hlisted =>
    have hpos:=(hrange hlisted).1
    have hne : actsRemaining s.threshold n≠0 := by
      intro hzero
      rw [hzero] at hpos
      exact absurd hpos (by decide)
    unfold divide at h
    rw [if_neg hne] at h
    cases h
    rw [UInt64.toNat_div]
    have hdiv:=Nat.div_le_self (refreshWindow+s.lastReset-currTick).toNat
      (actsRemaining s.threshold n).toNat
    omega
  next =>
    cases h
    have hzero : (0 : UInt64).toNat=0 := rfl
    omega

/-- In any run whose ticks have not passed this one, the arithmetic of the next access is well defined
exactly when it does not take the count of a black-listed row to the threshold or one below it, and the counters
fit the loop of a reset it begins with. -/
theorem wellDefined_iff (threshold blThreshold : UInt32) (numRows numBanks numRanks numChannels : ℕ)
    (memory : BlockHammer) (byZero : UInt64 → Except Fault UInt64) (as : List Access) (s : BlockHammer)
    (es : List Event) (a : Access)
    (hrun : (construct threshold numRows blThreshold numBanks numRanks numChannels memory).run byZero as =
      .ok (s,es)) (hticks : ∀ x∈as,x.currTick≤a.currTick) :
    s.WellDefined byZero a ↔ (windowOver a.currTick s.lastReset=true → numRows*numBanks*numRanks*numChannels%2^32<2^31) ∧
      (blThreshold.toUInt64≤(s.countFound a+1).toUInt64 → 0<threshold.toNat ∧ (s.countFound a).toNat+1≠threshold.toNat ∧
        (s.countFound a).toNat+2≠threshold.toNat) := by
  obtain ⟨hregular,hsame,hreset⟩ :=
    run_ran (construct_regular threshold numRows blThreshold numBanks numRanks numChannels memory) hrun
  have hT : s.threshold=threshold := hsame.threshold
  have hB : s.blackListThreshold=blThreshold.toUInt64 := hsame.blackListThreshold
  have hle : s.lastReset≤a.currTick := by
    rcases hreset with heq | ⟨x,hx,heq⟩
    · rw [heq]
      exact UInt64.zero_le
    · rw [heq]
      exact hticks x hx
  have hcount : ∀ s1,s.Opened s1 a.currTick → s1.threshold=threshold ∧
      s1.blackListThreshold=blThreshold.toUInt64 ∧
      s1.numAccessesToRow.get (s1.dramRowID a)=s.countFound a := by
    intro s1 ho
    have hrow : s1.dramRowID a=s.dramRowID a := by
      unfold dramRowID
      rw [ho.same.numBanks]
    rw [hrow,opened_count hregular ho]
    exact ⟨ho.same.threshold.trans hT,ho.same.blackListThreshold.trans hB,rfl⟩
  have hopens : (∃ s1,s.openWindow a.currTick = .ok s1) ↔ _ := openWindow_returns_iff hregular a.currTick
  rw [hsame.numDRAMRows] at hopens
  constructor
  · intro h
    refine ⟨hopens.mp h.opens,fun hlisted => ?_⟩
    obtain ⟨s1,hok⟩:=h.opens
    obtain ⟨hT1,hB1,hfound⟩:=hcount s1 ((openWindow_post s a.currTick).of_ok hok)
    have hrange:=h.divisor s1 hok
    rw [hT1,hB1,hfound] at hrange
    exact (inRange_iff threshold _).mp (hrange hlisted)
  · intro ⟨hfit,h⟩
    refine ⟨hopens.mpr hfit,fun s1 hok hlisted => ?_,fun s' haccess => ?_⟩
    · obtain ⟨hT1,hB1,hfound⟩:=hcount s1 ((openWindow_post s a.currTick).of_ok hok)
      rw [hB1,hfound] at hlisted
      rw [hT1,hfound]
      exact (inRange_iff threshold _).mpr (h hlisted)
    · obtain ⟨s1,ho,hc⟩:=(access_post byZero s a).of_ok haccess
      obtain ⟨hT1,hB1,_⟩:=hcount s1 ho
      obtain ⟨hle1,hin⟩:=opened_window ho hle
      have hdelay:=hc.delay
      rw [opened_count hregular ho] at hdelay
      rw [hc.lastReset]
      refine mcDelay_le hle1 hin (fun hlisted => ?_) hdelay
      rw [hB1] at hlisted
      rw [hT1]
      exact (inRange_iff threshold _).mpr (h hlisted)

theorem wellDefined_iff_second :
    ∃ s es,(construct 100 4 2 1 1 1 zeroed).run (fun _ => .error .divByZero)
        [⟨5,1,⟨0,0,0⟩⟩] = .ok (s,es) ∧ s.WellDefined (fun _ => .error .divByZero) ⟨7,1,⟨0,0,0⟩⟩ := by
  have hrun : Post ((construct 100 4 2 1 1 1 zeroed).run (fun _ => .error .divByZero)
      [⟨5,1,⟨0,0,0⟩⟩]) (fun p => p.1.countFound ⟨7,1,⟨0,0,0⟩⟩=1) fun _ => False := by
    decide +kernel
  obtain ⟨⟨s,es⟩,hok,hcount⟩:=hrun.returns
  have hfound : s.countFound ⟨7,1,⟨0,0,0⟩⟩=1 := hcount
  refine ⟨s,es,hok,(wellDefined_iff 100 2 4 1 1 1 zeroed _ _ s es _ hok (by decide)).mpr
    ⟨fun _ => by decide,fun _ => ?_⟩⟩
  rw [hfound]
  decide

/-- With a threshold of two and a black list from one on, the first access divides by zero. -/
theorem first_access_divides_by_zero :
    ¬(construct 2 1 1 1 1 1 zeroed).WellDefined (fun _ => .error .divByZero) ⟨0,0,⟨0,0,0⟩⟩ := by
  intro h
  have hrange:=h.divisor _ rfl (by decide)
  exact absurd hrange.1 (by decide)

end AquaGem5.Throttle.BlockHammer
