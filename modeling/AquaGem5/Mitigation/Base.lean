import AquaGem5.Lib.Cells

/-!
# What the mitigations share (rowhammer_mitigation.hh)

The `Decision` an access returns, the 64 ms refresh window, and the per-row access counts a
reset folds into the statistics.
-/

namespace AquaGem5.Mitigation
open Checked

structure Decision where
  mitigate : Bool
  isActionSwap : Cells Bool
  validAddrs : ℕ
  addrs : Cells ℕ
  remappedAddr : UInt64
  delay : UInt64
  sramDelay : UInt64
  mcDelay : UInt64

namespace Decision

/-- `resetDecision` of every mitigation assigns each of these members. -/
def fresh : Decision where
  mitigate := false
  isActionSwap := .calloc 6 false
  validAddrs := 0
  addrs := .calloc 6 0
  remappedAddr := 0xffffffffffffffff
  delay := 0
  sramDelay := 0
  mcDelay := 0

/-- `isActionSwap[validAddrs] = true; addrs[validAddrs] = rowAddr; validAddrs++`. -/
def recordSwap {ε : Type} [Undefined ε] (d : Decision) (rowAddr : ℕ) : Except ε Decision := do
  let swaps ← d.isActionSwap.write d.validAddrs true
  let addrs ← d.addrs.write d.validAddrs rowAddr
  pure {d with isActionSwap := swaps, addrs := addrs, validAddrs := inc32 d.validAddrs}

end Decision

def refreshWindow : UInt64 := 64000000000

/-- `currTick - last_reset >= 64000000000`, on unsigned ticks. -/
def windowOver (currTick lastReset : UInt64) : Bool := refreshWindow≤currTick-lastReset

structure RowStats where
  sNumRowAccessesRH : UInt64
  sNumLogRowAccesses : Cells UInt64

/-- The bucket of a row's access count: `ii`-th of `buckets` powers of ten, the last one open. -/
def logBucket (buckets count : ℕ) : ℕ → ℕ → ℕ → Option ℕ
  | 0,_,_ => none
  | fuel+1,ii,logval =>
    if logval≤count ∧ (count<10*logval ∨ ii+1=buckets) then some ii
    else logBucket buckets count fuel (ii+1) (10*logval)

def RowStats.count (s : RowStats) (threshold count : ℕ) : RowStats :=
  let s := if threshold≤count then {s with sNumRowAccessesRH := s.sNumRowAccessesRH+1} else s
  match logBucket 4 count 4 0 1 with
  | some ii => {s with sNumLogRowAccesses :=
      s.sNumLogRowAccesses.set ii (s.sNumLogRowAccesses.get ii+1)}
  | none => s

variable {α ε : Type} [OfNat α 0] [Undefined ε]

/-- The loop of `reset` over the counters of the rows; its index is an `int`. -/
def sweepRows (overflow : ε) (countRow : RowStats → α → RowStats) :
    ℕ → ℕ → RowStats → Cells α → Except ε (RowStats × Cells α)
  | 0,_,stats,counts => pure (stats,counts)
  | fuel+1,rval,stats,counts => do
    let count ← counts.read rval
    let counts ← counts.write rval 0
    check (rval+1<2^31) overflow
    sweepRows overflow countRow fuel (rval+1) (countRow stats count) counts

theorem sweepRows_post (overflow : ε) (countRow : RowStats → α → RowStats) (fuel rval : ℕ) (stats : RowStats)
    (counts : Cells α) : Post (sweepRows overflow countRow fuel rval stats counts)
      (fun r => Cells.Swept 0 rval (rval+fuel) counts r.2 ∧ (rval<2^31 → rval+fuel<2^31))
      fun e => e=Undefined.outOfBounds ∧ counts.size<rval+fuel ∨ e=overflow ∧ 2^31≤rval+fuel := by
  induction fuel generalizing rval stats counts with
  | zero => exact ⟨Cells.swept_none 0 counts le_rfl,id⟩
  | succ fuel ih =>
    unfold sweepRows
    simp only [post_bind,Cells.post_read,Cells.post_write,post_check]
    refine ⟨fun _ => ⟨fun _ => ⟨fun hnext => ?_,fun _ => .inr ⟨trivial,by omega⟩⟩,fun _ => .inl ⟨trivial,by omega⟩⟩,
      fun _ => .inl ⟨trivial,by omega⟩⟩
    have hrest:=ih (rval+1) (countRow stats (counts.get rval)) (counts.set rval 0)
    rw [Nat.add_right_comm,Cells.size_set] at hrest
    exact hrest.imp fun r hr => ⟨hr.1.next,fun _ => hr.2 hnext⟩

end AquaGem5.Mitigation
