import AquaGem5.Swap.Capacity

/-!
# Windows of a run

What happened to one bank since its last reset is kept beside the run: the accesses, the
insertions, and the table as the reset left it.
-/

namespace AquaGem5.Swap.RandomizedRowSwap
open Checked Detector Mitigation Rit

structure Window where
  begun : Bool
  accesses : ℕ
  insertions : ℕ
  base : Rit

namespace Action

def renews (s : RandomizedRowSwap) : Action → Bool
  | .reset => true
  | .access currTick _ _ => windowOver currTick s.lastReset
  | _ => false

def accesses (b : Bank) : Action → ℕ
  | .access _ _ b' => if b'=b then 1 else 0
  | _ => 0

/-- The row whose tuple the action inserted into bank `b`, as the state `s'` after it tells. -/
def inserted (b : Bank) (s' : RandomizedRowSwap) : Action → Option ℕ
  | .insertTuple row b' => if b'=b then some row else none
  | .access _ row b' => if b'=b ∧ s'.decision.mitigate=true then some row else none
  | _ => none

def insertions (b : Bank) (s' : RandomizedRowSwap) (a : Action) : ℕ := if (a.inserted b s').isSome then 1 else 0

def on (b : Bank) : Action → Bool
  | .insertTuple _ b' => b'=b
  | .access _ _ b' => b'=b
  | _ => false

def isAccess : Action → Bool
  | .access _ _ _ => true
  | _ => false

end Action

def Window.renewed (w : Window) (b : Bank) (s : RandomizedRowSwap) (a : Action) : Window :=
  if a.renews s=true then ⟨true,0,0,s.unlocked b⟩ else w

def Window.next (w : Window) (b : Bank) (s : RandomizedRowSwap) (a : Action) (s' : RandomizedRowSwap) : Window :=
  {w.renewed b s a with
    accesses := (w.renewed b s a).accesses+a.accesses b
    insertions := (w.renewed b s a).insertions+a.insertions b s'}

/-- The runs of the actions `allowed`, each with the window it ends in. -/
inductive Run (allowed : Action → Prop) (s0 : RandomizedRowSwap) (b : Bank) : Window → RandomizedRowSwap → Prop
  | start : Run allowed s0 b ⟨false,0,0,s0.tables b⟩ s0
  | step (w : Window) (s s' : RandomizedRowSwap) (a : Action) : Run allowed s0 b w s → allowed a →
      s.perform a = .ok s' → Run allowed s0 b (w.next b s a s') s'

def found (s : RandomizedRowSwap) (b : Bank) (a : Action) : Rit :=
  if a.renews s=true then s.unlocked b else s.tables b

/-- What the table of a bank owes the next action of a run. -/
structure Defended (b : Bank) (w : Window) (s : RandomizedRowSwap) : Prop where
  /-- Since the reset only tuples without a lock were evicted, and what changed is locked. -/
  window : w.insertions ≤ s.maxValidTuples/2 → Later s.numTuples w.base (s.tables b)
  /-- A free tuple is there for one more insertion. -/
  free : ∀ a, (w.renewed b s a).insertions<s.maxValidTuples/2 →
    ∃ i<s.numTuples, ((s.found b a).tuples.get i).valid=false
  /-- The eviction loop finds its tuple. -/
  unstuck : ∀ a, a.on b=true → (w.renewed b s a).insertions<s.maxValidTuples/2 →
    s.perform a ≠ .error .noUnlockedTuple
  /-- The inserted row has a locked tuple, and every locked one stays. -/
  step : ∀ a s', s.perform a = .ok s' → (w.next b s a s').insertions ≤ s.maxValidTuples/2 →
    Later s.numTuples (s.found b a) (s'.tables b) ∧
      ∀ row, a.inserted b s'=some row → Holds s.numTuples row (s'.tables b)

variable {s s' s0 : RandomizedRowSwap} {b : Bank} {k : ℕ} {a : Action} {w : Window} {allowed : Action → Prop}

theorem inserted_insertTuple (row : ℕ) (b' : Bank) : (Action.insertTuple row b').inserted b s' =
    if b'=b then some row else none := rfl

theorem inserted_access (currTick : UInt64) (row : ℕ) (b' : Bank) :
    (Action.access currTick row b').inserted b s' =
      if b'=b ∧ s'.decision.mitigate=true then some row else none := rfl

variable {m : RandomizedRowSwap}

theorem unlocked_sane (hs : s.Sane) (hshape : SameShape s m) (htables : m.tables=s.unlocked) : m.Sane := by
  unfold Sane
  rw [hshape,htables]
  refine ⟨hs.tuples_lt,hs.demand_lt,fun b hb => ?_⟩
  have hb' : s.hasBank b := hb
  obtain ⟨hc,hv⟩:=hs.table hb'
  unfold unlocked
  rw [if_pos hb']
  exact ⟨unlock_consistent hc,hv⟩

theorem prepared_found {currTick : UInt64} {row : ℕ} {b' : Bank}
    (h : Prepared s currTick row b' m) : m.tables b=s.found b (.access currTick row b') := by
  unfold found Action.renews
  rw [h.tables]
  split <;> rfl

theorem prepared_sane {currTick : UInt64} {row : ℕ} {b' : Bank} (hs : s.Sane)
    (h : Prepared s currTick row b' m) : m.Sane := by
  have htables:=h.tables
  split at htables
  next => exact unlocked_sane hs h.shape htables
  next => exact hs.of_tables h.shape htables

theorem perform_aside (s : RandomizedRowSwap) (b : Bank) (a : Action) : Post (s.perform a)
    (fun s' => SameShape s s' ∧ (a.inserted b s'=none → s'.tables b=s.found b a)) := by
  cases a with
  | insertTuple row b' =>
    refine (insertTuple_aside s row b').imp fun s' h => ⟨h.shape,fun hnone => ?_⟩
    refine h.others b fun hb => ?_
    rw [inserted_insertTuple,if_pos hb.symm] at hnone
    cases hnone
  | reset =>
    refine (reset_tables s).forget fun s' h => ⟨h.1,fun _ => ?_⟩
    rw [h.2.1]
    rfl
  | resetDecision => exact ⟨rfl,fun _ => rfl⟩
  | getRemappedAddr row b' f =>
    refine Post.bind (getRemappedAddr_post row b' f) fun r hr => ⟨hr.1,fun _ => ?_⟩
    rw [hr.2]
    rfl
  | access currTick row b' =>
    refine access_prepared (fun _ _ _ => trivial) (fun m hm _ => ⟨hm.shape,fun _ => prepared_found hm⟩) ?_
    intro m hm hmit
    refine (insertTuple_aside m row b').imp fun u h delay => ⟨hm.shape.trans h.shape,fun hnone => ?_⟩
    have hother : b≠b' := by
      intro hb
      have hmit' : u.decision.mitigate=true := h.mitigate.trans hmit
      rw [inserted_access,if_pos ⟨hb.symm,hmit'⟩] at hnone
      cases hnone
    exact (h.others b hother).trans (prepared_found hm)

theorem perform_secured (hs : s.Sane) (hk : 2*(k+1) ≤ s.maxValidTuples)
    (hg : Guard s.numTuples (2*k) (s.found b a)) : Post (s.perform a) (fun s' => ∀ row, a.inserted b s'=some row →
        Secured s.numTuples (2*(k+1)) row (s.found b a) (s'.tables b)) fun e => a.on b=true → NotStuck e := by
  cases a with
  | insertTuple row b' =>
    by_cases hb : b'=b
    · subst hb
      refine (insertTuple_secured hs hk hg).mono (fun s' h row' hrow => ?_) fun _ h _ => h
      rw [inserted_insertTuple,if_pos rfl] at hrow
      cases hrow
      exact h
    · refine (post_true _).mono (fun s' _ row' hrow => ?_) fun _ _ hon => ?_
      · rw [inserted_insertTuple,if_neg hb] at hrow
        cases hrow
      · exact absurd (of_decide_eq_true hon) hb
  | reset => exact (post_true _).mono (fun s' _ row hrow => by cases hrow) fun _ _ h => by cases h
  | resetDecision => exact fun row hrow => by cases hrow
  | getRemappedAddr row b' f =>
    exact (post_true _).mono (fun s' _ row hrow => by cases hrow) fun _ _ h => by cases h
  | access currTick row b' =>
    refine access_prepared (fun e he _ _ => he) (fun m hm hquiet row' hrow => ?_) ?_
    · have hno : ¬(b'=b ∧ m.decision.mitigate=true) := by
        rw [hquiet]
        exact fun h => Bool.false_ne_true h.2
      rw [inserted_access,if_neg hno] at hrow
      cases hrow
    · intro m hm hmit
      by_cases hb : b'=b
      · subst hb
        have hfound:=prepared_found (b := b') hm
        rw [← hm.shape.numTuples,← hfound] at hg ⊢
        rw [← hm.shape.maxValidTuples] at hk
        refine (insertTuple_secured (prepared_sane hs hm) hk hg).mono (fun u h delay row' hrow => ?_)
          fun _ h _ => h
        rw [inserted_access] at hrow
        split at hrow
        next =>
          cases hrow
          exact h
        next => cases hrow
      · refine (post_true _).mono (fun u _ delay row' hrow => ?_) fun _ _ hon => ?_
        · rw [inserted_access,if_neg fun h => hb h.1] at hrow
          cases hrow
        · exact absurd (of_decide_eq_true hon) hb

def Guarded (n : ℕ) (w : Window) (t : Rit) : Prop := Guard n (2*w.insertions) t ∧ Later n w.base t

theorem renewed_guarded (hb : s.hasBank b) (a : Action)
    (h : w.insertions ≤ s.maxValidTuples/2 → Guarded s.numTuples w (s.tables b))
    (hk : (w.renewed b s a).insertions ≤ s.maxValidTuples/2) :
    Guarded s.numTuples (w.renewed b s a) (s.found b a) := by
  unfold Window.renewed found at *
  split
  next =>
    have hguard : Guard s.numTuples 0 (s.unlocked b) := by
      unfold unlocked
      rw [if_pos hb]
      exact unlock_guard s.numTuples (s.tables b)
    exact ⟨hguard,hguard.later⟩
  next hstay =>
    rw [if_neg hstay] at hk
    exact h hk

theorem perform_guarded (hb : s.hasBank b) (hsane : 0<s.maxValidTuples/2 → s.Sane)
    (h : w.insertions ≤ s.maxValidTuples/2 → Guarded s.numTuples w (s.tables b))
    (hperform : s.perform a = .ok s') (hk : (w.next b s a s').insertions ≤ s.maxValidTuples/2) :
    Guarded s.numTuples (w.next b s a s') (s'.tables b) ∧ Later s.numTuples (s.found b a) (s'.tables b) ∧
      ∀ row, a.inserted b s'=some row → Holds s.numTuples row (s'.tables b) := by
  have hnext : (w.next b s a s').insertions=(w.renewed b s a).insertions+a.insertions b s' := rfl
  obtain ⟨hguard,hbase⟩:=renewed_guarded hb a h (by omega)
  cases hinserted : a.inserted b s' with
  | none =>
    have hzero : a.insertions b s'=0 := by
      unfold Action.insertions
      rw [hinserted]
      rfl
    have htable:=((perform_aside s b a).of_ok hperform).2 hinserted
    rw [htable]
    refine ⟨⟨?_,hbase⟩,hguard.later,fun row hrow => by cases hrow⟩
    rw [hnext,hzero]
    exact hguard
  | some row =>
    have hone : a.insertions b s'=1 := by
      unfold Action.insertions
      rw [hinserted]
      rfl
    have hsecured:=(perform_secured (hsane (by omega)) (by omega) hguard).of_ok hperform row hinserted
    refine ⟨⟨?_,hbase.trans hsecured.later⟩,hsecured.later,fun row' hrow => ?_⟩
    · rw [hnext,hone]
      exact hsecured.guard
    · cases hrow
      exact hsecured.holds

theorem run_reachable (h : Run allowed s0 b w s) : Reachable s0 s := by
  induction h with
  | start => exact .start
  | step w s s' a _ _ hperform ih => exact .step s s' a ih hperform

theorem run_shape (h : Run allowed s0 b w s) : SameShape s0 s := by
  induction h with
  | start => rfl
  | step w s s' a _ _ hperform ih => exact ih.trans ((perform_aside s b a).of_ok hperform).1

theorem run_guarded (hb : s0.hasBank b) (hsane : 0<s0.maxValidTuples/2 → s0.Sane)
    (h0 : Guard s0.numTuples 0 (s0.tables b)) (h : Run allowed s0 b w s)
    (hk : w.insertions ≤ s.maxValidTuples/2) : Guarded s.numTuples w (s.tables b) := by
  induction h with
  | start => exact ⟨h0,h0.later⟩
  | step w s s' a hrun _ hperform ih =>
    have hshape:=run_shape hrun
    have hnext:=((perform_aside s b a).of_ok hperform).1
    have hbank : s.hasBank b := (hshape.hasBank b).mpr hb
    rw [hnext.maxValidTuples] at hk
    rw [hnext.numTuples]
    refine (perform_guarded hbank (fun hpos => ?_) ih hperform hk).1
    rw [hshape.maxValidTuples] at hpos
    exact (reachable_sane (hsane hpos) (run_reachable hrun)).2

theorem run_defended (hb : s0.hasBank b) (hsane : 0<s0.maxValidTuples/2 → s0.Sane)
    (h0 : Guard s0.numTuples 0 (s0.tables b)) (h : Run allowed s0 b w s) : Defended b w s := by
  have hguarded:=run_guarded hb hsane h0 h
  have hshape:=run_shape h
  have hbank : s.hasBank b := (hshape.hasBank b).mpr hb
  have hsane' : 0<s.maxValidTuples/2 → s.Sane := by
    intro hpos
    rw [hshape.maxValidTuples] at hpos
    exact (reachable_sane (hsane hpos) (run_reachable h)).2
  refine ⟨fun hk => (hguarded hk).2,fun a hk => ?_,fun a hon hk => ?_,fun a s' hperform hk => ?_⟩
  · have hs:=hsane' (by omega)
    obtain ⟨hc,hv⟩:=hs.table hbank
    have hfree:=hc.exists_free (hv.trans_lt hs.demand_lt)
    unfold found unlocked
    rw [if_pos hbank]
    split
    next =>
      obtain ⟨i,hi,hfree⟩:=hfree
      refine ⟨i,hi,?_⟩
      rw [unlock_tuples _ hi]
      exact hfree
    next => exact hfree
  · have hguard:=(renewed_guarded hbank a hguarded hk.le).1
    intro hstuck
    exact (perform_secured (hsane' (by omega)) (by omega) hguard).of_error hstuck hon rfl
  · exact (perform_guarded hbank hsane' hguarded hperform hk).2

end AquaGem5.Swap.RandomizedRowSwap
