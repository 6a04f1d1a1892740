import Mathlib.Algebra.Group.Nat.Defs
import Mathlib.Data.Nat.Basic
import Mathlib.Logic.Function.Basic

/-!
# Checked computations

A computation of a C program that may stop at an assertion, or at a step the language leaves undefined, is a value of
`Except ε α`. `Post m Q E` says that `m` either returns a value with `Q` or stops at a fault with `E`.
-/

namespace AquaGem5.Checked
open List

variable {ε α β : Type}

/-- The faults every C program shares: an index outside its array, a division by zero,
and a conversion of a floating value outside the integer's range. -/
class Undefined (ε : Type) where
  outOfBounds : ε
  divByZero : ε
  badConversion : ε

def Post (m : Except ε α) (Q : α → Prop) (E : ε → Prop := fun _ => True) : Prop :=
  match m with
  | .ok a => Q a
  | .error e => E e

@[simp] theorem post_ok (a : α) (Q : α → Prop) (E : ε → Prop) : Post (.ok a) Q E ↔ Q a := Iff.rfl

@[simp] theorem post_pure (a : α) (Q : α → Prop) (E : ε → Prop) : Post (pure a) Q E ↔ Q a := Iff.rfl

@[simp] theorem post_error (e : ε) (Q : α → Prop) (E : ε → Prop) : Post (.error e) Q E ↔ E e := Iff.rfl

@[simp] theorem post_bind (m : Except ε α) (f : α → Except ε β) (Q : β → Prop) (E : ε → Prop) :
    Post (m >>= f) Q E ↔ Post m (fun a => Post (f a) Q E) E := by
  cases m <;> rfl

theorem post_ite (c : Prop) [Decidable c] (m n : Except ε α) (Q : α → Prop) (E : ε → Prop) :
    Post (if c then m else n) Q E ↔ (c → Post m Q E) ∧ (¬c → Post n Q E) := by
  by_cases h : c <;> simp [h]

variable {m : Except ε α}

theorem Post.mono {Q Q' : α → Prop} {E E' : ε → Prop} (h : Post m Q E)
    (hq : ∀ a, Q a → Q' a) (he : ∀ e, E e → E' e) : Post m Q' E' := by
  cases m with
  | ok a => exact hq a h
  | error e => exact he e h

theorem Post.imp {Q Q' : α → Prop} {E : ε → Prop} (h : Post m Q E) (hq : ∀ a, Q a → Q' a) : Post m Q' E :=
  h.mono hq fun _ => id

/-- Which fault stops the computation is forgotten. -/
theorem Post.forget {Q Q' : α → Prop} {E : ε → Prop} (h : Post m Q E) (hq : ∀ a, Q a → Q' a) : Post m Q' :=
  h.mono hq fun _ _ => trivial

theorem Post.and {Q Q' : α → Prop} {E E' : ε → Prop} (h : Post m Q E)
    (h' : Post m Q' E') : Post m (fun a => Q a ∧ Q' a) fun e => E e ∧ E' e := by
  cases m with
  | ok a | error e => exact ⟨h,h'⟩

variable {E : ε → Prop} {Q : α → Prop}

theorem Post.eq_ok (h : Post m Q E) : Post m (fun a => m = .ok a ∧ Q a) E := by
  cases m with
  | ok a => exact ⟨rfl,h⟩
  | error e => exact h

theorem Post.partly (h : Post m Q E) : Post m Q := h.mono (fun _ hq => hq) fun _ _ => trivial

theorem Post.bind {f : α → Except ε β} {R : α → Prop} {Q : β → Prop}
    (h : Post m R E) (hf : ∀ a, R a → Post (f a) Q E) : Post (m >>= f) Q E :=
  (post_bind m f Q E).mpr (h.mono hf fun _ => id)

theorem Post.of_ok {a : α} (h : Post m Q E) (hm : m = .ok a) : Q a := by
  subst hm
  exact h

theorem Post.of_error {e : ε} (h : Post m Q E) (hm : m = .error e) : E e := by
  subst hm
  exact h

theorem Post.returns (h : Post m Q fun _ => False) : ∃ a, m = .ok a ∧ Q a := by
  cases m with
  | ok a => exact ⟨a,rfl,h⟩
  | error e => exact h.elim

theorem Post.exists_ok {Q : α → Prop} (h : Post m Q fun _ => False) : ∃ a, m = .ok a := h.returns.imp fun _ => And.left

/-- Whether the computation returns, read off what it leaves and where it stops. -/
theorem Post.returns_iff {p : Prop} (h : Post m (fun _ => p) fun _ => ¬p) : (∃ a, m = .ok a) ↔ p :=
  ⟨fun ⟨_,hm⟩ => h.of_ok hm,fun hp => (h.mono (fun _ h => h) fun _ hno => hno hp).exists_ok⟩

theorem post_true (m : Except ε α) : Post m (fun _ => True) := by
  cases m <;> trivial

instance (m : Except ε α) (Q : α → Prop) (E : ε → Prop) [DecidablePred Q] [DecidablePred E] :
    Decidable (Post m Q E) :=
  match m with
  | .ok a => inferInstanceAs (Decidable (Q a))
  | .error e => inferInstanceAs (Decidable (E e))

variable {b : β}

theorem bind_ok {f : α → Except ε β} (h : m >>= f = .ok b) : ∃ a, m = .ok a ∧ f a = .ok b := by
  cases m with
  | ok a => exact ⟨a,rfl,h⟩
  | error e => cases h

theorem map_ok {f : α → β} (h : m.map f = .ok b) : ∃ a, m = .ok a ∧ f a=b := by
  cases m with
  | ok a => exact ⟨a,rfl,Except.ok.inj h⟩
  | error e => cases h

theorem foldlM_range {f : β → ℕ → Except ε β} {P : ℕ → β → Prop} {n : ℕ} (h : P 0 b)
    (hstep : ∀ k<n,∀ b,P k b → ∃ b', f b k = .ok b' ∧ P (k+1) b') :
    ∃ b', (List.range n).foldlM f b = .ok b' ∧ P n b' := by
  induction n with
  | zero => exact ⟨b,rfl,h⟩
  | succ n ih =>
    obtain ⟨b1,hrun,h1⟩:=ih fun k hk => hstep k (by omega)
    obtain ⟨b2,hlast,h2⟩:=hstep n (Nat.lt_succ_self n) b1 h1
    refine ⟨b2,?_,h2⟩
    rw [range_succ,foldlM_append,hrun]
    simp only [bind,Except.bind,foldlM_cons,foldlM_nil,hlast,pure,Except.pure]

variable {γ : Type}

theorem foldlM_prefix {f : β → γ → Except ε β} {P : List γ → β → Prop} {l : List γ} (h : P [] b)
    (hstep : ∀ done x rest,l=done++x::rest → ∀ b,P done b → ∃ b', f b x = .ok b' ∧ P (done++[x]) b') :
    ∃ b', l.foldlM f b = .ok b' ∧ P l b' := by
  suffices hrest : ∀ rest done b,l=done++rest → P done b → ∃ b', rest.foldlM f b = .ok b' ∧ P l b' from
    hrest l [] b rfl h
  intro rest
  induction rest with
  | nil =>
    intro done b hl hb
    rw [hl,append_nil]
    exact ⟨b,rfl,hb⟩
  | cons x rest ih =>
    intro done b hl hb
    obtain ⟨b1,hrun,h1⟩:=hstep done x rest hl b hb
    obtain ⟨b2,hlast,h2⟩:=ih (done++[x]) b1 (by rw [hl,append_assoc]; rfl) h1
    exact ⟨b2,by rw [foldlM_cons,hrun]; exact hlast,h2⟩

theorem Post.foldlM {f : β → γ → Except ε β} {I : β → Prop} {l : List γ} (h : I b)
    (hstep : ∀ b,I b → ∀ x∈l,Post (f b x) I E) : Post (l.foldlM f b) I E := by
  induction l generalizing b with
  | nil => exact h
  | cons x l ih =>
    rw [foldlM_cons]
    exact (hstep b h x (mem_cons_self ..)).bind fun b' hb' =>
      ih hb' fun b hb y hy => hstep b hb y (mem_cons_of_mem x hy)

theorem Post.foldlM_count {f : β → γ → Except ε β} {I : ℕ → β → Prop} {l : List γ} (h : I 0 b)
    (hstep : ∀ i<l.length,∀ b,I i b → ∀ x∈l,Post (f b x) (I (i+1)) E) : Post (l.foldlM f b) (I l.length) E := by
  induction l generalizing I b with
  | nil => exact h
  | cons x l ih =>
    rw [foldlM_cons]
    refine (hstep 0 (Nat.succ_pos _) b h x (mem_cons_self ..)).bind fun b1 h1 => ?_
    refine ih (I := fun i => I (i+1)) h1 fun i hi b hb y hy => ?_
    exact hstep (i+1) (Nat.succ_lt_succ hi) b hb y (mem_cons_of_mem x hy)

theorem foldlM_step {f : β → γ → Except ε β} {l : List γ} {b b' : β} {x : γ} (h : l.foldlM f b = .ok b')
    (hx : x∈l) : ∃ b1 b2,f b1 x = .ok b2 := by
  induction l generalizing b with
  | nil => exact absurd hx not_mem_nil
  | cons y l ih =>
    rw [foldlM_cons] at h
    obtain ⟨b1,h1,hrest⟩:=bind_ok h
    rcases mem_cons.mp hx with rfl | hx
    · exact ⟨b,b1,h1⟩
    · exact ih hrest hx

def check (p : Prop) [Decidable p] (e : ε) : Except ε Unit := if p then .ok () else .error e

@[simp] theorem post_check (p : Prop) [Decidable p] (e : ε) (Q : Unit → Prop) (E : ε → Prop) :
    Post (check p e) Q E ↔ (p → Q ()) ∧ (¬p → E e) := by
  unfold check
  rw [post_ite,post_ok,post_error]

theorem partly_check (p : Prop) [Decidable p] (e : ε) (Q : Unit → Prop) : Post (check p e) Q ↔ (p → Q ()) := by
  rw [post_check]
  exact and_iff_left fun _ => trivial

def udiv [Undefined ε] (a b : ℕ) : Except ε ℕ :=
  if b=0 then .error Undefined.divByZero else .ok (a/b)

def umod [Undefined ε] (a b : ℕ) : Except ε ℕ :=
  if b=0 then .error Undefined.divByZero else .ok (a%b)

@[simp] theorem post_udiv [Undefined ε] (a b : ℕ) (Q : ℕ → Prop) (E : ε → Prop) :
    Post (udiv a b) Q E ↔ (b=0 → E Undefined.divByZero) ∧ (b≠0 → Q (a/b)) := by
  unfold udiv
  rw [post_ite,post_ok,post_error]

@[simp] theorem post_umod [Undefined ε] (a b : ℕ) (Q : ℕ → Prop) (E : ε → Prop) :
    Post (umod a b) Q E ↔ (b=0 → E Undefined.divByZero) ∧ (b≠0 → Q (a%b)) := by
  unfold umod
  rw [post_ite,post_ok,post_error]

/-- The call of a component whose faults `lift` embeds. -/
def within {δ : Type} (lift : δ → ε) : Except δ α → Except ε α
  | .ok a => .ok a
  | .error d => .error (lift d)

@[simp] theorem post_within {δ : Type} (lift : δ → ε) (m : Except δ α) (Q : α → Prop) (E : ε → Prop) :
    Post (within lift m) Q E ↔ Post m Q fun d => E (lift d) := by
  cases m <;> rfl

def inc32 (x : ℕ) : ℕ := (x+1)%2^32

def dec32 (x : ℕ) : ℕ := (x+(2^32-1))%2^32

theorem inc32_of_lt {x : ℕ} (h : x+1<2^32) : inc32 x=x+1 := Nat.mod_eq_of_lt h

theorem dec32_of_pos {x : ℕ} (h : 0<x) (hx : x<2^32) : dec32 x=x-1 := by
  unfold dec32
  omega

end AquaGem5.Checked
