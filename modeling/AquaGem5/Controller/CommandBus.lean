import AquaGem5.Lib.Ticks

/-!
# Command bandwidth (mem_ctrl.cc)

`burstTicks` is the multiset of the windows of the commands already placed. The search loops
run on a budget of iterations: `none` is a loop that has not ended within it.
-/

namespace AquaGem5.Controller
open Ticks Multiset

def pruneBurstTick (curTick : ℕ) (burstTicks : Multiset ℕ) : Multiset ℕ :=
  burstTicks.filter fun t => ¬t<curTick

def getBurstWindow (commandWindow cmdTick : ℕ) : ℕ := cmdTick-cmdTick%commandWindow

def singleLoop (commandWindow maxCmds : ℕ) (burstTicks : Multiset ℕ) : ℕ → ℕ × ℕ → Option (ℕ × ℕ)
  | 0,_ => none
  | fuel+1,(burstTick,cmdAt) =>
    if maxCmds≤burstTicks.count burstTick then
      singleLoop commandWindow maxCmds burstTicks fuel (burstTick+commandWindow,burstTick+commandWindow)
    else some (burstTick,cmdAt)

def verifySingleCmd (commandWindow fuel : ℕ) (burstTicks : Multiset ℕ) (cmdTick maxCmds : ℕ) :
    Option (ℕ × Multiset ℕ) := do
  let (burstTick,cmdAt) ← singleLoop commandWindow maxCmds burstTicks fuel
    (getBurstWindow commandWindow cmdTick,cmdTick)
  some (cmdAt,burstTick ::ₘ burstTicks)

/-- The windows of the two commands and the tick of the second. -/
structure Slots where
  burstTick : ℕ
  firstCmdTick : ℕ
  cmdAt : ℕ

/-- The distance from the second command's window back to the earliest one of the first. -/
def offsetLoop (commandWindow maxSplit firstCmdOffset : ℕ) : ℕ → ℕ → Option ℕ
  | 0,_ => none
  | fuel+1,burstOffset =>
    if firstCmdOffset+burstOffset < maxSplit then
      offsetLoop commandWindow maxSplit firstCmdOffset fuel (burstOffset+commandWindow)
    else some burstOffset

def Slots.sameBurst (s : Slots) : Prop := s.burstTick=s.firstCmdTick

instance (s : Slots) : Decidable s.sameBurst := inferInstanceAs (Decidable (_=_))

def Slots.firstCanIssue (burstTicks : Multiset ℕ) (maxCmds : ℕ) (s : Slots) : Prop :=
  burstTicks.count s.firstCmdTick < maxCmds

instance (burstTicks : Multiset ℕ) (maxCmds : ℕ) (s : Slots) :
    Decidable (s.firstCanIssue burstTicks maxCmds) := inferInstanceAs (Decidable (_<_))

def Slots.secondCanIssue (burstTicks : Multiset ℕ) (maxCmds : ℕ) (s : Slots) : Prop :=
  (if s.sameBurst then burstTicks.count s.firstCmdTick+1 else burstTicks.count s.burstTick) < maxCmds

instance (burstTicks : Multiset ℕ) (maxCmds : ℕ) (s : Slots) :
    Decidable (s.secondCanIssue burstTicks maxCmds) := inferInstanceAs (Decidable (_<_))

def Slots.shiftSecond (commandWindow : ℕ) (s : Slots) : Slots :=
  {s with burstTick := s.burstTick+commandWindow, cmdAt := s.burstTick+commandWindow}

def Slots.shiftFirst (commandWindow : ℕ) (s : Slots) : Slots :=
  {s with firstCmdTick := s.firstCmdTick+commandWindow}

def Slots.pass (commandWindow maxCmds maxSplit : ℕ) (burstTicks : Multiset ℕ) (s : Slots) : Slots :=
  let s' := if s.secondCanIssue burstTicks maxCmds then s else s.shiftSecond commandWindow
  let gapViolated := ¬s.sameBurst ∧ maxSplit<tickSub s'.burstTick s.firstCmdTick
  if ¬s.firstCanIssue burstTicks maxCmds ∨ (¬s.secondCanIssue burstTicks maxCmds ∧ gapViolated) then
    s'.shiftFirst commandWindow
  else s'

def multiLoop (commandWindow maxCmds maxSplit : ℕ) (burstTicks : Multiset ℕ) : ℕ → Slots → Option Slots
  | 0,_ => none
  | fuel+1,s =>
    if s.firstCanIssue burstTicks maxCmds ∧ s.secondCanIssue burstTicks maxCmds then some s
    else multiLoop commandWindow maxCmds maxSplit burstTicks fuel
      (s.pass commandWindow maxCmds maxSplit burstTicks)

/-- Start with the assumption that the second command will issue at `cmdTick`; the first
one's window does not go below zero. -/
def Slots.start (commandWindow cmdTick burstOffset : ℕ) : Slots :=
  let burstTick := getBurstWindow commandWindow cmdTick
  ⟨burstTick,burstTick-min burstOffset burstTick,cmdTick⟩

def verifyMultiCmd (commandWindow fuel : ℕ) (burstTicks : Multiset ℕ) (cmdTick maxCmds maxSplit : ℕ) :
    Option (ℕ × Multiset ℕ) := do
  let burstOffset ← offsetLoop commandWindow maxSplit (cmdTick%commandWindow) fuel 0
  let s ← multiLoop commandWindow maxCmds maxSplit burstTicks fuel (.start commandWindow cmdTick burstOffset)
  some (s.cmdAt,s.firstCmdTick ::ₘ s.burstTick ::ₘ burstTicks)

variable {commandWindow maxCmds maxSplit fuel : ℕ} {burstTicks : Multiset ℕ}

theorem dvd_getBurstWindow (commandWindow cmdTick : ℕ) :
    commandWindow∣getBurstWindow commandWindow cmdTick := Nat.dvd_sub_mod cmdTick

theorem getBurstWindow_add (commandWindow cmdTick : ℕ) :
    getBurstWindow commandWindow cmdTick+cmdTick%commandWindow=cmdTick :=
  Nat.sub_add_cancel (Nat.mod_le cmdTick commandWindow)

theorem getBurstWindow_of_dvd {t : ℕ} (h : commandWindow∣t) : getBurstWindow commandWindow t=t := by
  unfold getBurstWindow
  rw [Nat.mod_eq_zero_of_dvd h,Nat.sub_zero]

theorem add_le_of_dvd {t t' : ℕ} (h : commandWindow∣t) (h' : commandWindow∣t') (hlt : t<t') : t+commandWindow≤t' := by
  have hle:=Nat.le_of_dvd (Nat.sub_pos_of_lt hlt) (Nat.dvd_sub h' h)
  omega

theorem singleLoop_ends (hpos : 0<commandWindow) (hmax : 0 < maxCmds) {burstTick : ℕ} (cmdAt : ℕ)
    (hfuel : ahead burstTicks burstTick<fuel) :
    (singleLoop commandWindow maxCmds burstTicks fuel (burstTick,cmdAt)).isSome=true := by
  induction fuel generalizing burstTick cmdAt with
  | zero => omega
  | succ fuel ih =>
    unfold singleLoop
    split
    next hfull =>
      have hless:=ahead_lt (hmax.trans_le hfull) (Nat.lt_add_of_pos_right (n := burstTick) hpos)
      exact ih (burstTick+commandWindow) (by omega)
    next => rfl

theorem singleLoop_spec {burstTick cmdAt burstTick' cmdAt' : ℕ}
    (h : singleLoop commandWindow maxCmds burstTicks fuel (burstTick,cmdAt)=some (burstTick',cmdAt')) :
    burstTicks.count burstTick' < maxCmds ∧ (burstTick'=burstTick ∧ cmdAt'=cmdAt ∨
      maxCmds≤burstTicks.count burstTick ∧ cmdAt'=burstTick' ∧
        burstTick+commandWindow≤burstTick' ∧ (commandWindow∣burstTick → commandWindow∣burstTick')) := by
  induction fuel generalizing burstTick cmdAt with
  | zero => cases h
  | succ fuel ih =>
    unfold singleLoop at h
    split at h
    next hfull =>
      have hnext : ∀ d, commandWindow∣d → commandWindow∣d+commandWindow := fun d hd =>
        Nat.dvd_add hd (Nat.dvd_refl commandWindow)
      cases ih h with
      | intro hroom hmoved =>
        cases hmoved with
        | inl hsame =>
          exact ⟨hroom,.inr ⟨hfull,hsame.2.trans hsame.1.symm,hsame.1.ge,fun hd => hsame.1 ▸ hnext _ hd⟩⟩
        | inr hlater =>
          obtain ⟨_,hat,hle,hdvd⟩:=hlater
          exact ⟨hroom,.inr ⟨hfull,hat,by omega,fun hd => hdvd (hnext _ hd)⟩⟩
    next hroom =>
      cases h
      exact ⟨Nat.lt_of_not_le hroom,.inl ⟨rfl,rfl⟩⟩

theorem verifySingleCmd_ends (hpos : 0<commandWindow) (hmax : 0 < maxCmds) (cmdTick : ℕ)
    (hfuel : burstTicks.card<fuel) : (verifySingleCmd commandWindow fuel burstTicks cmdTick maxCmds).isSome=true := by
  have hloop:=singleLoop_ends hpos hmax cmdTick
    ((ahead_le_card burstTicks (getBurstWindow commandWindow cmdTick)).trans_lt hfuel)
  obtain ⟨r,hr⟩:=Option.isSome_iff_exists.mp hloop
  simp [verifySingleCmd,hr]

variable {burstTicks' : Multiset ℕ}

theorem verifySingleCmd_spec (hpos : 0<commandWindow) {cmdTick cmdAt : ℕ}
    (h : verifySingleCmd commandWindow fuel burstTicks cmdTick maxCmds=some (cmdAt,burstTicks')) :
    burstTicks'=getBurstWindow commandWindow cmdAt ::ₘ burstTicks ∧
      burstTicks.count (getBurstWindow commandWindow cmdAt) < maxCmds ∧ cmdTick≤cmdAt ∧
      (burstTicks.count (getBurstWindow commandWindow cmdTick) < maxCmds → cmdAt=cmdTick) := by
  unfold verifySingleCmd at h
  simp only [Option.bind_eq_bind,Option.bind_eq_some_iff] at h
  obtain ⟨⟨burstTick,cmdAt'⟩,hloop,heq⟩:=h
  cases heq
  have hwindow:=getBurstWindow_add commandWindow cmdTick
  have hmod:=Nat.mod_lt cmdTick hpos
  obtain ⟨hroom,⟨rfl,rfl⟩ | ⟨hfull,rfl,hle,hdvd⟩⟩:=singleLoop_spec hloop
  · exact ⟨rfl,hroom,le_refl _,fun _ => rfl⟩
  · rw [getBurstWindow_of_dvd (hdvd (dvd_getBurstWindow commandWindow cmdTick))]
    exact ⟨rfl,hroom,by omega,fun hfree => absurd hfree (Nat.not_lt.mpr hfull)⟩

theorem offsetLoop_ends (hpos : 0<commandWindow) (firstCmdOffset burstOffset : ℕ)
    (hfuel : maxSplit-(firstCmdOffset+burstOffset)<fuel) :
    (offsetLoop commandWindow maxSplit firstCmdOffset fuel burstOffset).isSome=true := by
  induction fuel generalizing burstOffset with
  | zero => omega
  | succ fuel ih =>
    unfold offsetLoop
    split
    next hshort => exact ih (burstOffset+commandWindow) (by omega)
    next => rfl

theorem offsetLoop_spec {firstCmdOffset burstOffset burstOffset' : ℕ} (hdvd : commandWindow∣burstOffset)
    (hstart : burstOffset=0 ∨ firstCmdOffset+burstOffset < maxSplit+commandWindow)
    (h : offsetLoop commandWindow maxSplit firstCmdOffset fuel burstOffset=some burstOffset') :
    commandWindow∣burstOffset' ∧ maxSplit≤firstCmdOffset+burstOffset' ∧
      (burstOffset'=0 ∨ firstCmdOffset+burstOffset' < maxSplit+commandWindow) := by
  induction fuel generalizing burstOffset with
  | zero => cases h
  | succ fuel ih =>
    unfold offsetLoop at h
    split at h
    next hshort => exact ih (Nat.dvd_add hdvd (Nat.dvd_refl commandWindow)) (.inr (by omega)) h
    next hfar =>
      cases h
      exact ⟨hdvd,Nat.le_of_not_lt hfar,hstart⟩

/-- The search from the windows `first` and `second` of a request at `cmdTick`. While the
second command is in its own window, the first has passed only full ones. -/
structure Slots.Placed (commandWindow maxCmds maxSplit : ℕ) (burstTicks : Multiset ℕ)
    (first second cmdTick : ℕ) (s : Slots) : Prop where
  firstAligned : commandWindow∣s.firstCmdTick
  aligned : commandWindow∣s.burstTick
  ordered : s.firstCmdTick ≤ s.burstTick
  gap : s.burstTick ≤ s.firstCmdTick+maxSplit+commandWindow
  passed : s.burstTick=second → ∀ t, commandWindow∣t → first≤t → t<s.firstCmdTick →
    maxCmds≤burstTicks.count t
  moved : s.burstTick=second ∧ s.cmdAt=cmdTick ∨
    s.cmdAt=s.burstTick ∧ second+commandWindow ≤ s.burstTick ∧ (maxCmds≤burstTicks.count second ∨
      burstTicks.count second+1=maxCmds ∧
        ∀ t, commandWindow∣t → first≤t → t<second → maxCmds≤burstTicks.count t)

section Search

variable {first second cmdTick : ℕ} {s : Slots}

theorem full_of_not_secondCanIssue (h : ¬s.secondCanIssue burstTicks maxCmds) : maxCmds≤burstTicks.count s.burstTick ∨
      s.sameBurst ∧ burstTicks.count s.burstTick+1=maxCmds := by
  unfold Slots.secondCanIssue at h
  split at h
  next hsame =>
    rw [← hsame] at h
    have hcases : maxCmds≤burstTicks.count s.burstTick ∨ burstTicks.count s.burstTick+1=maxCmds := by
      omega
    exact hcases.imp_right fun hone => ⟨hsame,hone⟩
  next => exact .inl (Nat.le_of_not_lt h)

theorem not_secondCanIssue_of_same (hsame : s.sameBurst) (h : ¬s.firstCanIssue burstTicks maxCmds) :
    ¬s.secondCanIssue burstTicks maxCmds := by
  unfold Slots.secondCanIssue
  unfold Slots.firstCanIssue at h
  rw [if_pos hsame]
  omega

theorem pass_cases (commandWindow maxSplit : ℕ)
    (hno : ¬(s.firstCanIssue burstTicks maxCmds ∧ s.secondCanIssue burstTicks maxCmds)) :
    (¬s.sameBurst ∧ ¬s.firstCanIssue burstTicks maxCmds ∧
      s.pass commandWindow maxCmds maxSplit burstTicks=s.shiftFirst commandWindow) ∨
    (¬s.secondCanIssue burstTicks maxCmds ∧ (s.pass commandWindow maxCmds maxSplit burstTicks =
          (s.shiftSecond commandWindow).shiftFirst commandWindow ∨
        (s.sameBurst ∨ tickSub (s.burstTick+commandWindow) s.firstCmdTick ≤ maxSplit) ∧
          s.pass commandWindow maxCmds maxSplit burstTicks=s.shiftSecond commandWindow)) := by
  by_cases hsecond : s.secondCanIssue burstTicks maxCmds
  · have hfirst : ¬s.firstCanIssue burstTicks maxCmds := fun h => hno ⟨h,hsecond⟩
    refine .inl ⟨fun hsame => not_secondCanIssue_of_same hsame hfirst hsecond,hfirst,?_⟩
    unfold Slots.pass
    simp [hsecond,hfirst]
  · refine .inr ⟨hsecond,?_⟩
    unfold Slots.pass
    simp only [hsecond,if_false,not_false_eq_true,true_and]
    split
    next => exact .inl rfl
    next hstay =>
      have hgap : s.sameBurst ∨ tickSub (s.burstTick+commandWindow) s.firstCmdTick ≤ maxSplit := by
        by_cases hsame : s.sameBurst
        · exact .inl hsame
        · exact .inr (Nat.le_of_not_lt fun hlt => hstay (.inr ⟨hsame,hlt⟩))
      exact .inr ⟨hgap,rfl⟩

theorem pass_ahead (maxSplit : ℕ) (hpos : 0<commandWindow) (hmax : 2 ≤ maxCmds)
    (hno : ¬(s.firstCanIssue burstTicks maxCmds ∧ s.secondCanIssue burstTicks maxCmds)) :
    ahead burstTicks (s.pass commandWindow maxCmds maxSplit burstTicks).burstTick +
        ahead burstTicks (s.pass commandWindow maxCmds maxSplit burstTicks).firstCmdTick <
      ahead burstTicks s.burstTick+ahead burstTicks s.firstCmdTick := by
  have hfirstLe:=ahead_anti burstTicks (Nat.le_add_right s.firstCmdTick commandWindow)
  cases pass_cases commandWindow maxSplit hno with
  | inl hfirst =>
    obtain ⟨_,hfull,hpass⟩:=hfirst
    have hoccupied : 0<burstTicks.count s.firstCmdTick := by
      unfold Slots.firstCanIssue at hfull
      omega
    have hless:=ahead_lt hoccupied (Nat.lt_add_of_pos_right (n := s.firstCmdTick) hpos)
    rw [hpass]
    exact Nat.add_lt_add_left hless _
  | inr hsecond =>
    obtain ⟨hfull,hpass⟩:=hsecond
    have hoccupied : 0<burstTicks.count s.burstTick := by
      cases full_of_not_secondCanIssue hfull with
      | inl hall | inr hone => omega
    have hless:=ahead_lt hoccupied (Nat.lt_add_of_pos_right (n := s.burstTick) hpos)
    cases hpass with
    | inl hboth =>
      rw [hboth]
      exact Nat.add_lt_add_of_lt_of_le hless hfirstLe
    | inr honly =>
      rw [honly.2]
      exact Nat.add_lt_add_right hless _

theorem placed_pass (hpos : 0<commandWindow)
    (h : s.Placed commandWindow maxCmds maxSplit burstTicks first second cmdTick)
    (hno : ¬(s.firstCanIssue burstTicks maxCmds ∧ s.secondCanIssue burstTicks maxCmds)) :
    (s.pass commandWindow maxCmds maxSplit burstTicks).Placed commandWindow maxCmds maxSplit burstTicks
      first second cmdTick := by
  obtain ⟨hfirstAligned,haligned,hordered,hgap,hpassed,hmoved⟩:=h
  have hself:=Nat.dvd_refl commandWindow
  cases pass_cases commandWindow maxSplit hno with
  | inl hfirst =>
    obtain ⟨happart,hfull,hpass⟩:=hfirst
    have hroom:=add_le_of_dvd hfirstAligned haligned (lt_of_le_of_ne hordered (Ne.symm happart))
    rw [hpass]
    refine ⟨Nat.dvd_add hfirstAligned hself,haligned,hroom,?_,?_,hmoved⟩
    · show s.burstTick ≤ s.firstCmdTick+commandWindow+maxSplit+commandWindow
      omega
    · intro hstill t ht hle hlt
      by_cases hbefore : t<s.firstCmdTick
      · exact hpassed hstill t ht hle hbefore
      · -- the window just left is the only aligned tick added
        have heq : t=s.firstCmdTick := by
          by_contra hne
          have := add_le_of_dvd hfirstAligned ht (by omega)
          exact absurd hlt (Nat.not_lt.mpr this)
        rw [heq]
        exact Nat.le_of_not_lt hfull
  | inr hsecond =>
    obtain ⟨hfull,hpass⟩:=hsecond
    have hmoved' : (s.shiftSecond commandWindow).cmdAt=s.burstTick+commandWindow ∧
        second+commandWindow ≤ s.burstTick+commandWindow ∧ (maxCmds≤burstTicks.count second ∨
          burstTicks.count second+1=maxCmds ∧
            ∀ t, commandWindow∣t → first≤t → t<second → maxCmds≤burstTicks.count t) := by
      cases hmoved with
      | inl hhere =>
        refine ⟨rfl,by omega,?_⟩
        rw [← hhere.1]
        exact (full_of_not_secondCanIssue hfull).imp_right fun hone => ⟨hone.2,fun t ht hle hlt =>
          hpassed hhere.1 t ht hle (hlt.trans_eq hone.1)⟩
      | inr hthere => exact ⟨rfl,by omega,hthere.2.2⟩
    have hnever : s.burstTick+commandWindow≠second := by
      cases hmoved with
      | inl hhere | inr hthere => omega
    cases hpass with
    | inl hboth =>
      rw [hboth]
      refine ⟨Nat.dvd_add hfirstAligned hself,Nat.dvd_add haligned hself,?_,?_,
        fun hstill => absurd hstill hnever,.inr hmoved'⟩
      · exact Nat.add_le_add_right hordered commandWindow
      · show s.burstTick+commandWindow ≤ s.firstCmdTick+commandWindow+maxSplit+commandWindow
        omega
    | inr honly =>
      obtain ⟨hclose,hpass⟩:=honly
      rw [hpass]
      refine ⟨hfirstAligned,Nat.dvd_add haligned hself,hordered.trans (Nat.le_add_right _ _),?_,
        fun hstill => absurd hstill hnever,.inr hmoved'⟩
      show s.burstTick+commandWindow ≤ s.firstCmdTick+maxSplit+commandWindow
      cases hclose with
      | inl hsame =>
        unfold Slots.sameBurst at hsame
        omega
      | inr hnear =>
        rw [tickSub_of_le (by omega)] at hnear
        omega

theorem multiLoop_ends (maxSplit : ℕ) (s : Slots) (hpos : 0<commandWindow) (hmax : 2 ≤ maxCmds)
    (hfuel : ahead burstTicks s.burstTick+ahead burstTicks s.firstCmdTick<fuel) :
    (multiLoop commandWindow maxCmds maxSplit burstTicks fuel s).isSome=true := by
  induction fuel generalizing s with
  | zero => omega
  | succ fuel ih =>
    unfold multiLoop
    split
    next => rfl
    next hno =>
      have hless:=pass_ahead maxSplit hpos hmax hno
      exact ih (s.pass commandWindow maxCmds maxSplit burstTicks) (by omega)

theorem multiLoop_placed (hpos : 0<commandWindow) {s' : Slots}
    (h : s.Placed commandWindow maxCmds maxSplit burstTicks first second cmdTick)
    (hloop : multiLoop commandWindow maxCmds maxSplit burstTicks fuel s=some s') :
    s'.Placed commandWindow maxCmds maxSplit burstTicks first second cmdTick := by
  induction fuel generalizing s with
  | zero => cases hloop
  | succ fuel ih =>
    unfold multiLoop at hloop
    split at hloop
    next hcan =>
      cases hloop
      exact h
    next hno => exact ih (placed_pass hpos h hno) hloop

theorem multiLoop_room {s s' : Slots} (hloop : multiLoop commandWindow maxCmds maxSplit burstTicks fuel s=some s') :
    s'.firstCanIssue burstTicks maxCmds ∧ s'.secondCanIssue burstTicks maxCmds := by
  induction fuel generalizing s with
  | zero => cases hloop
  | succ fuel ih =>
    unfold multiLoop at hloop
    split at hloop
    next hcan =>
      cases hloop
      exact hcan
    next hno => exact ih hloop

end Search

def multiFuel (maxSplit : ℕ) (burstTicks : Multiset ℕ) : ℕ := maxSplit+2*burstTicks.card+1

theorem verifyMultiCmd_ends (hpos : 0<commandWindow) (hmax : 2 ≤ maxCmds) (cmdTick : ℕ)
    (hfuel : multiFuel maxSplit burstTicks≤fuel) :
    (verifyMultiCmd commandWindow fuel burstTicks cmdTick maxCmds maxSplit).isSome=true := by
  unfold multiFuel at hfuel
  have hoffset : (offsetLoop commandWindow maxSplit (cmdTick%commandWindow) fuel 0).isSome=true :=
    offsetLoop_ends hpos (cmdTick%commandWindow) 0 (by omega)
  obtain ⟨burstOffset,hb⟩:=Option.isSome_iff_exists.mp hoffset
  have hsecond:=ahead_le_card burstTicks (Slots.start commandWindow cmdTick burstOffset).burstTick
  have hfirst:=ahead_le_card burstTicks (Slots.start commandWindow cmdTick burstOffset).firstCmdTick
  have hloop : (multiLoop commandWindow maxCmds maxSplit burstTicks fuel
      (.start commandWindow cmdTick burstOffset)).isSome=true :=
    multiLoop_ends maxSplit (.start commandWindow cmdTick burstOffset) hpos hmax (by omega)
  obtain ⟨s,hs⟩:=Option.isSome_iff_exists.mp hloop
  simp [verifyMultiCmd,hb,hs]

theorem start_reaches {cmdTick burstOffset t : ℕ} (hdvd : commandWindow∣burstOffset)
    (hsplit : maxSplit≤cmdTick%commandWindow+burstOffset) (ht : commandWindow∣t)
    (hreach : cmdTick<t+commandWindow+maxSplit) : (Slots.start commandWindow cmdTick burstOffset).firstCmdTick≤t := by
  have hwindow:=getBurstWindow_add commandWindow cmdTick
  have hstart : commandWindow∣getBurstWindow commandWindow cmdTick-burstOffset :=
    Nat.dvd_sub (dvd_getBurstWindow commandWindow cmdTick) hdvd
  show getBurstWindow commandWindow cmdTick-min burstOffset (getBurstWindow commandWindow cmdTick)≤t
  by_contra hbefore
  have hfar:=add_le_of_dvd ht hstart (by omega)
  omega

theorem placed_start {cmdTick burstOffset : ℕ} (hdvd : commandWindow∣burstOffset)
    (hnear : burstOffset=0 ∨ cmdTick%commandWindow+burstOffset < maxSplit+commandWindow) :
    (Slots.start commandWindow cmdTick burstOffset).Placed commandWindow maxCmds maxSplit burstTicks
      (Slots.start commandWindow cmdTick burstOffset).firstCmdTick
      (getBurstWindow commandWindow cmdTick) cmdTick := by
  have hmin : commandWindow∣min burstOffset (getBurstWindow commandWindow cmdTick) := by
    cases Nat.le_total burstOffset (getBurstWindow commandWindow cmdTick) with
    | inl hle => rwa [Nat.min_eq_left hle]
    | inr hle =>
      rw [Nat.min_eq_right hle]
      exact dvd_getBurstWindow commandWindow cmdTick
  refine ⟨Nat.dvd_sub (dvd_getBurstWindow commandWindow cmdTick) hmin,
    dvd_getBurstWindow commandWindow cmdTick,Nat.sub_le _ _,?_,fun _ t _ hle hlt => ?_,.inl ⟨rfl,rfl⟩⟩
  · show getBurstWindow commandWindow cmdTick≤getBurstWindow commandWindow cmdTick -
      min burstOffset (getBurstWindow commandWindow cmdTick)+maxSplit+commandWindow
    omega
  · exact absurd hle (Nat.not_le.mpr hlt)

/-- Nothing at `cmdTick`'s own window stops the request: it is not full, and if it has a
single slot left, an earlier window in reach of the first command has a slot. -/
def MultiFree (commandWindow maxCmds maxSplit : ℕ) (burstTicks : Multiset ℕ) (cmdTick : ℕ) : Prop :=
  burstTicks.count (getBurstWindow commandWindow cmdTick) < maxCmds ∧
    (burstTicks.count (getBurstWindow commandWindow cmdTick)+1=maxCmds →
      ∃ t, commandWindow∣t ∧ t<getBurstWindow commandWindow cmdTick ∧
        cmdTick<t+commandWindow+maxSplit ∧ burstTicks.count t < maxCmds)

structure Legal (commandWindow maxCmds : ℕ) (burstTicks : Multiset ℕ) : Prop where
  aligned : ∀ t∈burstTicks, commandWindow∣t
  bounded : ∀ t, burstTicks.count t ≤ maxCmds

theorem legal_cons {burstTick : ℕ} (h : Legal commandWindow maxCmds burstTicks)
    (hdvd : commandWindow∣burstTick) (hroom : burstTicks.count burstTick < maxCmds) :
    Legal commandWindow maxCmds (burstTick ::ₘ burstTicks) := by
  refine ⟨fun t ht => ?_,fun t => ?_⟩
  · cases mem_cons.mp ht with
    | inl heq => rwa [heq]
    | inr hin => exact h.aligned t hin
  · have hold:=h.bounded t
    rw [count_cons]
    split
    next heq =>
      rw [heq]
      exact hroom
    next => exact hold

theorem legal_place {s : Slots} (h : Legal commandWindow maxCmds burstTicks)
    (hfirstAligned : commandWindow∣s.firstCmdTick) (haligned : commandWindow∣s.burstTick)
    (hfirst : s.firstCanIssue burstTicks maxCmds) (hsecond : s.secondCanIssue burstTicks maxCmds) :
    Legal commandWindow maxCmds (s.firstCmdTick ::ₘ s.burstTick ::ₘ burstTicks) := by
  unfold Slots.secondCanIssue at hsecond
  unfold Slots.firstCanIssue at hfirst
  split at hsecond
  next hsame =>
    rw [← hsame] at hsecond
    refine legal_cons (legal_cons h haligned (by omega)) hfirstAligned ?_
    rw [← hsame,count_cons_self]
    exact hsecond
  next happart =>
    refine legal_cons (legal_cons h haligned hsecond) hfirstAligned ?_
    rw [count_cons_of_ne (Ne.symm happart)]
    exact hfirst

theorem verifyMultiCmd_spec (hpos : 0<commandWindow) {cmdTick cmdAt : ℕ}
    (h : verifyMultiCmd commandWindow fuel burstTicks cmdTick maxCmds maxSplit=some (cmdAt,burstTicks')) :
    cmdTick≤cmdAt ∧ (MultiFree commandWindow maxCmds maxSplit burstTicks cmdTick → cmdAt=cmdTick) ∧
      (Legal commandWindow maxCmds burstTicks → Legal commandWindow maxCmds burstTicks') ∧
      ∃ firstCmdTick, burstTicks'=firstCmdTick ::ₘ getBurstWindow commandWindow cmdAt ::ₘ burstTicks ∧
        firstCmdTick≤getBurstWindow commandWindow cmdAt ∧
        getBurstWindow commandWindow cmdAt≤firstCmdTick+maxSplit+commandWindow := by
  unfold verifyMultiCmd at h
  simp only [Option.bind_eq_bind,Option.bind_eq_some_iff] at h
  obtain ⟨burstOffset,hoffset,s,hloop,heq⟩:=h
  cases heq
  obtain ⟨hdvd,hsplit,hnear⟩:=offsetLoop_spec (Nat.dvd_zero commandWindow) (.inl rfl) hoffset
  have hplaced:=multiLoop_placed hpos (placed_start hdvd hnear) hloop
  obtain ⟨hfirst,hsecond⟩:=multiLoop_room hloop
  have hlegal:=fun h => legal_place h hplaced.firstAligned hplaced.aligned hfirst hsecond
  have hwindow:=getBurstWindow_add commandWindow cmdTick
  have hmod:=Nat.mod_lt cmdTick hpos
  cases hplaced.moved with
  | inl hhere =>
    obtain ⟨hburst,hat⟩:=hhere
    rw [hat,← hburst]
    exact ⟨le_refl _,fun _ => rfl,hlegal,s.firstCmdTick,rfl,hplaced.ordered,hplaced.gap⟩
  | inr hthere =>
    obtain ⟨hat,hlater,hwhy⟩:=hthere
    rw [hat,getBurstWindow_of_dvd hplaced.aligned]
    refine ⟨by omega,fun hfree => ?_,hlegal,s.firstCmdTick,rfl,hplaced.ordered,hplaced.gap⟩
    cases hwhy with
    | inl hfull => exact absurd hfree.1 (Nat.not_lt.mpr hfull)
    | inr hone =>
      obtain ⟨t,ht,hlt,hreach,hroom⟩:=hfree.2 hone.1
      exact absurd hroom (Nat.not_lt.mpr (hone.2 t ht (start_reaches hdvd hsplit ht hreach) hlt))

theorem verifyMultiCmd_room {cmdTick cmdAt : ℕ}
    (h : verifyMultiCmd commandWindow fuel burstTicks cmdTick maxCmds maxSplit=some (cmdAt,burstTicks')) :
    ∃ s : Slots,burstTicks'=s.firstCmdTick ::ₘ s.burstTick ::ₘ burstTicks ∧
      s.firstCanIssue burstTicks maxCmds ∧ s.secondCanIssue burstTicks maxCmds := by
  unfold verifyMultiCmd at h
  simp only [Option.bind_eq_bind,Option.bind_eq_some_iff] at h
  obtain ⟨burstOffset,_,s,hloop,heq⟩:=h
  cases heq
  exact ⟨s,rfl,multiLoop_room hloop⟩

inductive Reachable (commandWindow maxCmds : ℕ) : Multiset ℕ → Prop
  | empty : Reachable commandWindow maxCmds 0
  | prune (burstTicks : Multiset ℕ) (curTick : ℕ) : Reachable commandWindow maxCmds burstTicks →
      Reachable commandWindow maxCmds (pruneBurstTick curTick burstTicks)
  | single (burstTicks burstTicks' : Multiset ℕ) (fuel cmdTick cmdAt : ℕ) :
      Reachable commandWindow maxCmds burstTicks →
      verifySingleCmd commandWindow fuel burstTicks cmdTick maxCmds=some (cmdAt,burstTicks') →
      Reachable commandWindow maxCmds burstTicks'
  | multi (burstTicks burstTicks' : Multiset ℕ) (fuel cmdTick maxSplit cmdAt : ℕ) :
      Reachable commandWindow maxCmds burstTicks →
      verifyMultiCmd commandWindow fuel burstTicks cmdTick maxCmds maxSplit=some (cmdAt,burstTicks') →
      Reachable commandWindow maxCmds burstTicks'

theorem legal_prune (h : Legal commandWindow maxCmds burstTicks) (curTick : ℕ) :
    Legal commandWindow maxCmds (pruneBurstTick curTick burstTicks) :=
  ⟨fun t ht => h.aligned t (mem_of_mem_filter ht),fun t =>
    (count_le_of_le t (filter_le _ burstTicks)).trans (h.bounded t)⟩

theorem reachable_legal (hpos : 0<commandWindow) (h : Reachable commandWindow maxCmds burstTicks) :
    Legal commandWindow maxCmds burstTicks := by
  induction h with
  | empty => exact ⟨fun t ht => absurd ht (notMem_zero t),fun t => by simp⟩
  | prune burstTicks curTick _ ih => exact legal_prune ih curTick
  | single burstTicks burstTicks' fuel cmdTick cmdAt _ hcall ih =>
    obtain ⟨rfl,hroom,_⟩:=verifySingleCmd_spec hpos hcall
    exact legal_cons ih (dvd_getBurstWindow commandWindow cmdAt) hroom
  | multi burstTicks burstTicks' fuel cmdTick maxSplit cmdAt _ hcall ih =>
    exact (verifyMultiCmd_spec hpos hcall).2.2.1 ih

/-- From any state the calls can leave behind, both searches end, keep the bandwidth of
every window, and move a request only for want of a slot. -/
theorem command_bandwidth (hpos : 0<commandWindow) (hmax : 2 ≤ maxCmds)
    (h : Reachable commandWindow maxCmds burstTicks) :
    Legal commandWindow maxCmds burstTicks ∧
      (∀ cmdTick fuel, burstTicks.card<fuel →
        (verifySingleCmd commandWindow fuel burstTicks cmdTick maxCmds).isSome=true) ∧
      (∀ cmdTick maxSplit fuel, multiFuel maxSplit burstTicks≤fuel →
        (verifyMultiCmd commandWindow fuel burstTicks cmdTick maxCmds maxSplit).isSome=true) ∧
      (∀ fuel cmdTick cmdAt burstTicks',
        verifySingleCmd commandWindow fuel burstTicks cmdTick maxCmds=some (cmdAt,burstTicks') →
        burstTicks'=getBurstWindow commandWindow cmdAt ::ₘ burstTicks ∧
          burstTicks.count (getBurstWindow commandWindow cmdAt) < maxCmds ∧ cmdTick≤cmdAt ∧
          (burstTicks.count (getBurstWindow commandWindow cmdTick) < maxCmds → cmdAt=cmdTick)) ∧
      ∀ fuel cmdTick maxSplit cmdAt burstTicks',
        verifyMultiCmd commandWindow fuel burstTicks cmdTick maxCmds maxSplit=some (cmdAt,burstTicks') →
        cmdTick≤cmdAt ∧ (MultiFree commandWindow maxCmds maxSplit burstTicks cmdTick → cmdAt=cmdTick) ∧
          Legal commandWindow maxCmds burstTicks' ∧
          ∃ firstCmdTick, burstTicks'=firstCmdTick ::ₘ getBurstWindow commandWindow cmdAt ::ₘ burstTicks ∧
            firstCmdTick≤getBurstWindow commandWindow cmdAt ∧
            getBurstWindow commandWindow cmdAt≤firstCmdTick+maxSplit+commandWindow := by
  have hlegal:=reachable_legal hpos h
  refine ⟨hlegal,fun cmdTick fuel => verifySingleCmd_ends hpos (by omega) cmdTick,
    fun cmdTick maxSplit fuel => verifyMultiCmd_ends hpos hmax cmdTick,
    fun fuel cmdTick cmdAt burstTicks' => verifySingleCmd_spec hpos,
    fun fuel cmdTick maxSplit cmdAt burstTicks' hcall => ?_⟩
  obtain ⟨hlater,hfree,hkeeps,hplaced⟩:=verifyMultiCmd_spec hpos hcall
  exact ⟨hlater,hfree,hkeeps hlegal,hplaced⟩

theorem command_bandwidth_two_pairs :
    Legal 10 2 {0,0} ∧ (verifyMultiCmd 10 20 {0,0} 5 2 3).isSome=true := by
  have hreach : Reachable 10 2 {0,0} :=
    .single {0} _ 1 0 0 (.single 0 _ 1 0 0 .empty (by decide)) (by decide)
  obtain ⟨hlegal,_,hmulti,_⟩:=command_bandwidth (by decide) (by decide) hreach
  exact ⟨hlegal,hmulti 5 3 20 (by decide)⟩

/-- With one slot left in its own window the second command moves on: the first one takes it. -/
theorem verifyMultiCmd_moves_second : Reachable 10 2 {0} ∧
    ({0} : Multiset ℕ).count (getBurstWindow 10 5)<2 ∧
    verifyMultiCmd 10 3 {0} 5 2 0=some (10,{0,10,0}) := by
  refine ⟨.single 0 _ 1 0 0 .empty ?_,?_,?_⟩
  · decide
  · decide
  · decide

end AquaGem5.Controller
