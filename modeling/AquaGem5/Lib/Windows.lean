import Mathlib.Data.List.Infix

/-!
# Runs cut into windows

The events of a run each make a step of an abstract state. Some events begin a new window: the state is renewed before
their step. `sinceReset` is the part of a run in its last window.
-/

namespace AquaGem5.Windows
open List

variable {α ε δ : Type} {step : α → ε → α → Prop} {renew : α → α} {isReset : ε → Bool}

inductive Steps (step : α → ε → α → Prop) : α → List ε → α → Prop
  | nil (a : α) : Steps step a [] a
  | cons (a b c : α) (e : ε) (es : List ε) : step a e b → Steps step b es c → Steps step a (e::es) c

inductive Log (step : α → ε → α → Prop) (renew : α → α) (isReset : ε → Bool) : α → List ε → α → Prop
  | nil (a : α) : Log step renew isReset a [] a
  | cons (a b c : α) (e : ε) (es : List ε) : step (if isReset e=true then renew a else a) e b →
      Log step renew isReset b es c → Log step renew isReset a (e::es) c

def push (isReset : ε → Bool) (w : List ε) (e : ε) : List ε :=
  if isReset e=true then [e] else w++[e]

def sinceReset (isReset : ε → Bool) (es : List ε) : List ε := es.foldl (push isReset) []

theorem push_length (isReset : ε → Bool) (w : List ε) (e : ε) : (push isReset w e).length≤w.length+1 := by
  unfold push
  split <;> simp

theorem sinceReset_length (isReset : ε → Bool) (es : List ε) : (sinceReset isReset es).length≤es.length := by
  have hfold : ∀ w : List ε, (es.foldl (push isReset) w).length≤w.length+es.length := by
    induction es with
    | nil => exact fun w => Nat.le_refl _
    | cons e es ih =>
      intro w
      have hpush:=push_length isReset w e
      have hrest:=ih (push isReset w e)
      rw [foldl_cons,length_cons]
      omega
  have hnil:=hfold []
  rw [length_nil,Nat.zero_add] at hnil
  exact hnil

variable {es : List ε}

theorem foldl_push_of_no_reset {isReset : ε → Bool} (h : ∀ e∈es, isReset e=false)
    (w : List ε) : es.foldl (push isReset) w=w++es := by
  induction es generalizing w with
  | nil => exact (append_nil w).symm
  | cons e es ih =>
    have hpush : push isReset w e=w++[e] := by
      unfold push
      rw [h e mem_cons_self,if_neg Bool.false_ne_true]
    rw [foldl_cons,ih (fun e' he' => h e' (mem_cons_of_mem e he')),hpush,append_assoc,
      singleton_append]

theorem mem_push (isReset : ε → Bool) (w : List ε) (e : ε) : e∈push isReset w e := by
  unfold push
  split
  next => exact mem_singleton_self e
  next => exact mem_append_right w (mem_singleton_self e)

theorem push_countP (isReset : ε → Bool) (p : ε → Bool) (w : List ε) (e : ε) : (push isReset w e).countP p =
      (if isReset e=true then 0 else w.countP p)+if p e=true then 1 else 0 := by
  unfold push
  split
  next => rw [countP_singleton,Nat.zero_add]
  next => rw [countP_append,countP_singleton]

theorem steps_map {f : δ → ε} {a b : α} {ds : List δ} (h : Steps (fun a d b => step a (f d) b) a ds b) :
    Steps step a (ds.map f) b := by
  induction h with
  | nil a => exact .nil a
  | cons a b c d ds hstep _ ih => exact .cons a b c (f d) (ds.map f) hstep ih

theorem log_append {a c : α} {es es' : List ε} (h : Log step renew isReset a (es++es') c) :
    ∃ b, Log step renew isReset a es b ∧ Log step renew isReset b es' c := by
  induction es generalizing a with
  | nil => exact ⟨a,.nil a,h⟩
  | cons e es ih =>
    cases h with
    | cons _ b _ _ _ hstep hrest =>
      obtain ⟨d,hd,hc⟩:=ih hrest
      exact ⟨d,.cons a b d e es hstep hd,hc⟩

theorem log_steps {a b : α} (h : Log step renew isReset a es b)
    (hno : ∀ e∈es, isReset e=false) : Steps step a es b := by
  induction h with
  | nil a => exact .nil a
  | cons a b c e es hstep _ ih =>
    rw [hno e mem_cons_self] at hstep
    exact .cons a b c e es hstep (ih fun e' he' => hno e' (mem_cons_of_mem e he'))

theorem log_invariant {a b : α} {p : α → Prop} (h : Log step renew isReset a es b)
    (hstep : ∀ a e b, step a e b → p b) (ha : p a) : p b := by
  induction h with
  | nil a => exact ha
  | cons a b c e es hs _ ih => exact ih (hstep _ e b hs)

theorem log_two_windows {a c : α} (h : Log step renew isReset a es c)
    (hone : es.countP isReset≤1) : ∃ es1 es2 b d, es=es1++es2 ∧ Steps step a es1 b ∧ Steps step (renew b) es2 d := by
  induction h with
  | nil a => exact ⟨[],[],a,renew a,rfl,.nil a,.nil _⟩
  | cons a b c e es hstep hrest ih =>
    rw [countP_cons] at hone
    cases he : isReset e with
    | true =>
      rw [he,if_pos rfl] at hone hstep
      have hno : ∀ e'∈es, isReset e'=false := by
        have hzero : es.countP isReset=0 := by omega
        intro e' he'
        simpa using countP_eq_zero.mp hzero e' he'
      exact ⟨[],e::es,a,c,rfl,.nil a,.cons _ b c e es hstep (log_steps hrest hno)⟩
    | false =>
      rw [he,if_neg Bool.false_ne_true] at hone hstep
      obtain ⟨es1,es2,b',d,rfl,h1,h2⟩:=ih hone
      exact ⟨e::es1,es2,b',d,rfl,.cons a b b' e es1 hstep h1,h2⟩

end AquaGem5.Windows
