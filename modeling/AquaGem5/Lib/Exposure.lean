import AquaGem5.Lib.Relocation
import AquaGem5.Lib.Windows

/-!
# How often a location is visited

Keys have a home and may be placed in a slot; a visit of a key lands on its location. Each key has a slack below `T`:
a visit raises it, or flags the key and relocates it, and no visit of another key lowers it. `budget` bounds the
visits a location still gets in the period.
-/

namespace AquaGem5.Exposure
open Relocation Windows List

variable {ρ κ : Type} [DecidableEq ρ] [DecidableEq κ]

inductive Location (ρ κ : Type) where
  | home (r : ρ)
  | slot (q : κ)
  deriving DecidableEq

def location (f : ρ ≃. κ) (r : ρ) : Location ρ κ :=
  match f r with
  | some q => .slot q
  | none => .home r

structure Period (ρ κ : Type) where
  place : ρ ≃. κ
  used : Set κ
  slack : ρ → ℕ

structure Visit (ρ κ : Type) where
  key : ρ
  location : Location ρ κ
  flagged : Bool

structure Aged (T : ℕ) (slack : ρ → ℕ) (r : ρ) (flagged : Bool) (slack' : ρ → ℕ) : Prop where
  below : ∀ x, slack' x<T
  rises : ∀ x, x≠r → slack x ≤ slack' x
  quiet : flagged=false → slack r<slack' r

def age (T : ℕ) (slack : ρ → ℕ) (v : ρ × Bool) (slack' : ρ → ℕ) : Prop := Aged T slack v.1 v.2 slack'

omit [DecidableEq ρ] in
theorem steps_below {T : ℕ} {slack slack' : ρ → ℕ} {vs : List (ρ × Bool)} (h0 : ∀ x, slack x<T)
    (h : Steps (age T) slack vs slack') (x : ρ) : slack' x<T := by
  induction h with
  | nil slack => exact h0 x
  | cons slack slack1 slack' v vs hstep _ ih => exact ih hstep.below

theorem steps_slack {T : ℕ} {slack slack' : ρ → ℕ} {vs : List (ρ × Bool)}
    (h : Steps (age T) slack vs slack') (x : ρ) (hvs : ∀ v∈vs, v.1=x → v.2=false) :
    slack x+vs.countP (fun v => v.1=x) ≤ slack' x := by
  induction h with
  | nil slack => simp
  | cons slack slack1 slack' v vs hstep _ ih =>
    have hrest:=ih fun u hu => hvs u (mem_cons_of_mem v hu)
    rw [countP_cons]
    by_cases hx : v.1=x
    · have hquiet:=hstep.quiet (hvs v mem_cons_self hx)
      rw [hx] at hquiet
      rw [if_pos (by simpa using hx)]
      omega
    · have hrise:=hstep.rises x (Ne.symm hx)
      rw [if_neg (by simpa using hx)]
      omega

theorem two_periods_key {T : ℕ} {slack slack1 slack2 : ρ → ℕ} {vs us : List (ρ × Bool)} {x : ρ}
    (h0 : ∀ y, slack y<T) (h1 : Steps (age T) slack vs slack1)
    (h2 : Steps (age T) (fun _ => 0) us slack2) (hvs : ∀ v∈vs++us, v.1=x → v.2=false) :
    (vs++us).countP (fun v => v.1=x)≤2*(T-1) := by
  have hs1:=steps_slack h1 x fun v hv => hvs v (mem_append_left us hv)
  have hs2:=steps_slack h2 x fun v hv => hvs v (mem_append_right vs hv)
  have hb1:=steps_below h0 h1 x
  have hb2:=steps_below (fun y => (Nat.zero_le _).trans_lt (h0 y)) h2 x
  rw [countP_append]
  omega

namespace Period

def start (place : ρ ≃. κ) : Period ρ κ := ⟨place,∅,fun _ => 0⟩

def Below (T : ℕ) (w : Period ρ κ) : Prop := ∀ x, w.slack x<T

inductive Step (T : ℕ) : Period ρ κ → Visit ρ κ → Period ρ κ → Prop
  | quiet (w : Period ρ κ) (r : ρ) (slack : ρ → ℕ) (ha : Aged T w.slack r false slack) :
      Step T w ⟨r,location w.place r,false⟩ ⟨w.place,w.used,slack⟩
  | drained (w : Period ρ κ) (r : ρ) (slack : ρ → ℕ) (q : κ) (ha : Aged T w.slack r false slack)
      (hq : q∉w.used) :
      Step T w ⟨r,location w.place r,false⟩ ⟨release w.place q,w.used,slack⟩
  | flagged (w : Period ρ κ) (r : ρ) (slack : ρ → ℕ) (q : κ) (ha : Aged T w.slack r true slack)
      (hq : q∉w.used) :
      Step T w ⟨r,location w.place r,true⟩ ⟨relocate w.place r q,insert q w.used,slack⟩

theorem step_below {T : ℕ} {w w' : Period ρ κ} {v : Visit ρ κ} (h : Step T w v w') : w'.Below T := by
  cases h with
  | quiet r slack ha | drained r slack q ha hq | flagged r slack q ha hq => exact ha.below

theorem run_below {T : ℕ} {w w' : Period ρ κ} {vs : List (Visit ρ κ)} (hw : w.Below T)
    (h : Steps (Step T) w vs w') : w'.Below T := by
  induction h with
  | nil => exact hw
  | cons w w1 w' v vs hstep _ ih => exact ih (step_below hstep)

def room (T : ℕ) (slack : ρ → ℕ) : Option ρ → ℕ
  | none => 0
  | some r => T-slack r

open Classical in
noncomputable def spare (T : ℕ) (used : Set κ) (q : κ) : ℕ := if q∈used then 0 else T

/-- A key at home is visited there until it is flagged, and one in a slot of an earlier
period may come back; a slot is visited until its occupant is flagged, and if it is not yet
used one more key can be relocated to it. -/
noncomputable def budget (T : ℕ) (w : Period ρ κ) : Location ρ κ → ℕ
  | .home r => match w.place r with
    | none => T-w.slack r
    | some q => spare T w.used q
  | .slot q => room T w.slack (w.place.symm q)+spare T w.used q

variable {T : ℕ} {w : Period ρ κ} {r : ρ} {q : κ}

section Bounds
omit [DecidableEq ρ] [DecidableEq κ]

theorem location_eq_home {f : ρ ≃. κ} {y : ρ} : location f r = .home y ↔ r=y ∧ f r=none := by
  unfold location
  cases f r <;> simp

theorem location_eq_slot {f : ρ ≃. κ} : location f r = .slot q ↔ f r=some q := by
  unfold location
  cases f r <;> simp

theorem budget_of_home (h : w.place r=none) : w.budget T (.home r)=T-w.slack r := by
  simp only [budget,h]

theorem budget_of_placed (h : w.place r=some q) : w.budget T (.home r)=spare T w.used q := by
  simp only [budget,h]

theorem budget_of_empty (h : w.place.symm q=none) : w.budget T (.slot q)=spare T w.used q := by
  simp only [budget,h,room,Nat.zero_add]

theorem budget_of_occupied (h : w.place.symm q=some r) : w.budget T (.slot q)=T-w.slack r+spare T w.used q := by
  simp only [budget,h,room]

theorem spare_le (T : ℕ) (used : Set κ) (q : κ) : spare T used q≤T := by
  unfold spare
  split <;> omega

theorem spare_mem {used : Set κ} (h : q∈used) : spare T used q=0 := if_pos h

theorem spare_not_mem {used : Set κ} (h : q∉used) : spare T used q=T := if_neg h

theorem spare_insert {used : Set κ} {k : κ} (h : k≠q) : spare T (insert q used) k=spare T used k := by
  by_cases hk : k∈used
  · rw [spare_mem hk,spare_mem (Set.mem_insert_of_mem q hk)]
  · rw [spare_not_mem hk,spare_not_mem]
    rintro (hkq | hmem)
    · exact h hkq
    · exact hk hmem

theorem room_le (T : ℕ) (slack : ρ → ℕ) (o : Option ρ) : room T slack o≤T := by
  cases o with
  | none => exact Nat.zero_le T
  | some r => exact Nat.sub_le T _

theorem budget_home_le (T : ℕ) (w : Period ρ κ) (r : ρ) : w.budget T (.home r)≤T := by
  cases h : w.place r with
  | none =>
    rw [budget_of_home h]
    exact Nat.sub_le T _
  | some q =>
    rw [budget_of_placed h]
    exact spare_le T w.used q

theorem budget_slot_le (T : ℕ) (w : Period ρ κ) (q : κ) : w.budget T (.slot q)≤2*T := by
  have hroom:=room_le T w.slack (w.place.symm q)
  have hspare:=spare_le T w.used q
  simp only [budget]
  omega

end Bounds

theorem quiet_budget {slack : ρ → ℕ} (ha : Aged T w.slack r false slack) (x : Location ρ κ) : budget T ⟨w.place,w.used,slack⟩ x+(if location w.place r=x then 1 else 0) ≤
      w.budget T x := by
  have hle : ∀ y, w.slack y ≤ slack y := by
    intro y
    by_cases hy : y=r
    · exact hy ▸ (ha.quiet rfl).le
    · exact ha.rises y hy
  have hr:=ha.quiet rfl
  cases x with
  | home y =>
    have hy:=hle y
    cases hp : w.place y with
    | none =>
      rw [budget_of_home (by exact hp),budget_of_home hp]
      by_cases hry : r=y
      · subst hry
        have hb:=ha.below r
        dsimp only
        split <;> omega
      · rw [if_neg fun h => hry (location_eq_home.mp h).1]
        dsimp only
        omega
    | some p =>
      rw [budget_of_placed (by exact hp),budget_of_placed hp,if_neg]
      · exact Nat.le_refl _
      · intro h
        obtain ⟨rfl,hnone⟩:=location_eq_home.mp h
        simp [hp] at hnone
  | slot p =>
    simp only [budget,location_eq_slot,← w.place.eq_some_iff]
    cases ho : w.place.symm p with
    | none => simp [room]
    | some o =>
      have hy:=hle o
      simp only [room,Option.some.injEq]
      by_cases hor : o=r
      · subst hor
        have hb:=ha.below o
        rw [if_pos rfl]
        omega
      · rw [if_neg hor]
        omega

omit [DecidableEq ρ] in
theorem release_budget (hq : q∉w.used) (x : Location ρ κ) :
    budget T ⟨release w.place q,w.used,w.slack⟩ x≤w.budget T x := by
  cases x with
  | home y =>
    cases hp : w.place y with
    | none =>
      rw [budget_of_home hp,budget_of_home]
      simp [release_apply,hp]
    | some p =>
      rw [budget_of_placed hp]
      by_cases hpq : p=q
      · rw [hpq,spare_not_mem hq,budget_of_home]
        · exact Nat.sub_le T _
        · simp [release_apply,hp,hpq]
      · rw [budget_of_placed (q := p)]
        simp [release_apply,hp,hpq]
  | slot k =>
    simp only [budget,release_symm]
    split
    · simp only [room]
      omega
    · exact Nat.le_refl _

theorem flagged_budget {slack : ρ → ℕ} (hw : w.slack r<T) (ha : Aged T w.slack r true slack) (hq : q∉w.used)
    (x : Location ρ κ) : budget T ⟨relocate w.place r q,insert q w.used,slack⟩ x +
      (if location w.place r=x then 1 else 0)≤w.budget T x := by
  have hused : spare T (insert q w.used) q=0 := spare_mem (Set.mem_insert q w.used)
  have hspare : spare T w.used q=T := spare_not_mem hq
  cases x with
  | home y =>
    have happ:=relocate_apply w.place r q y
    cases hp : w.place y with
    | none =>
      rw [budget_of_home hp]
      by_cases hyr : y=r
      · subst hyr
        rw [if_pos rfl,hp,if_neg (by simp)] at happ
        rw [budget_of_placed (by exact happ)]
        dsimp only
        split <;> omega
      · have hage:=ha.rises y hyr
        rw [if_neg hyr,hp,if_neg (by simp)] at happ
        rw [budget_of_home (by exact happ),if_neg fun h => hyr (location_eq_home.mp h).1.symm]
        dsimp only
        omega
    | some p =>
      have hloc : location w.place r ≠ .home y := by
        intro h
        obtain ⟨rfl,hnone⟩:=location_eq_home.mp h
        simp [hp] at hnone
      rw [budget_of_placed hp,if_neg hloc]
      by_cases hpq : p=q
      · subst hpq
        -- the key was in the slot, and goes home
        have hnone : relocate w.place r p y=none := by
          rw [happ]
          by_cases hyr : y=r
          · rw [if_pos hyr,← hyr,if_pos hp]
          · rw [if_neg hyr,if_pos hp]
        rw [budget_of_home (by exact hnone)]
        dsimp only
        omega
      · by_cases hyr : y=r
        · subst hyr
          rw [if_pos rfl,hp,if_neg (by simpa using hpq)] at happ
          rw [budget_of_placed (by exact happ)]
          dsimp only
          omega
        · rw [if_neg hyr,hp,if_neg (by simpa using hpq)] at happ
          rw [budget_of_placed (by exact happ)]
          dsimp only
          rw [spare_insert hpq]
          omega
  | slot k =>
    simp only [budget,relocate_symm,location_eq_slot]
    by_cases hkq : k=q
    · subst hkq
      rw [if_pos rfl,hused,hspare]
      by_cases hself : w.place r=some k
      · rw [if_pos hself,if_pos hself,(w.place.eq_some_iff).mpr hself]
        simp only [room]
        omega
      · rw [if_neg hself,if_neg hself]
        have hroom:=room_le T slack (some r)
        omega
    · rw [if_neg hkq,spare_insert hkq]
      by_cases hself : w.place r=some k
      · rw [if_pos hself,if_pos hself,(w.place.eq_some_iff).mpr hself]
        simp only [room]
        omega
      · rw [if_neg hself,if_neg hself]
        cases ho : w.place.symm k with
        | none => simp [room]
        | some o =>
          have hor : o≠r := fun h => hself (h ▸ (w.place.eq_some_iff).mp ho)
          have hage:=ha.rises o hor
          simp only [room]
          omega

theorem step_budget {w' : Period ρ κ} {v : Visit ρ κ} (hw : w.Below T) (h : Step T w v w')
    (x : Location ρ κ) : w'.budget T x+(if v.location=x then 1 else 0)≤w.budget T x := by
  cases h with
  | quiet r slack ha => exact quiet_budget ha x
  | drained r slack q ha hq =>
    have hquiet:=quiet_budget ha x
    have hrelease:=release_budget (w := ⟨w.place,w.used,slack⟩) (T := T) hq x
    dsimp only at hrelease ⊢
    omega
  | flagged r slack q ha hq => exact flagged_budget (hw r) ha hq x

theorem run_budget {w' : Period ρ κ} {vs : List (Visit ρ κ)} (hw : w.Below T)
    (h : Steps (Step T) w vs w') (x : Location ρ κ) : w'.budget T x+vs.countP (fun v => v.location=x)≤w.budget T x := by
  induction h with
  | nil => simp
  | cons w w1 w' v vs hstep _ ih =>
    have hs:=step_budget hw hstep x
    have hr:=ih (step_below hstep)
    simp only [countP_cons,decide_eq_true_eq]
    omega

theorem two_periods_home {w1 w2 : Period ρ κ} {vs us : List (Visit ρ κ)} (hw : w.Below T)
    (h1 : Steps (Step T) w vs w1) (h2 : Steps (Step T) (start w1.place) us w2) (hT : 0<T) (x : ρ) :
    (vs++us).countP (fun v => v.location = .home x)≤2*T := by
  have hr1:=run_budget hw h1 (.home x)
  have hr2:=run_budget (fun _ => hT) h2 (.home x)
  have hb1:=budget_home_le T w x
  have hb2:=budget_home_le T (start w1.place : Period ρ κ) x
  rw [countP_append]
  omega

theorem two_periods_slot {w1 w2 : Period ρ κ} {vs us : List (Visit ρ κ)} (hw : w.Below T)
    (h1 : Steps (Step T) w vs w1) (h2 : Steps (Step T) (start w1.place) us w2) (hT : 0<T) (q : κ) :
    (vs++us).countP (fun v => v.location = .slot q)≤4*T-1 := by
  have hr1:=run_budget hw h1 (.slot q)
  have hr2:=run_budget (fun _ => hT) h2 (.slot q)
  have hb1:=budget_slot_le T w q
  have hb2:=budget_slot_le T (start w1.place : Period ρ κ) q
  rw [countP_append]
  cases ho : w1.place.symm q with
  | none =>
    have hspare:=spare_le T (∅ : Set κ) q
    rw [budget_of_empty (w := start w1.place) ho] at hr2
    dsimp only [start] at hr2
    omega
  | some o =>
    have hlt:=run_below hw h1 o
    rw [budget_of_occupied ho] at hr1
    omega

end Period

end AquaGem5.Exposure
