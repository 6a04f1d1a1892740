import Mathlib.Algebra.Group.Nat.Defs

/-!
# Memory packets (mem_ctrl.hh)
-/

namespace AquaGem5.Controller

/-- The last tick, which stands for one that is not known yet. -/
def maxTick : ℕ := 2^64-1

inductive BusState where
  | READ
  | WRITE
  deriving DecidableEq

/-- A system packet, as far as the controller looks at it. `ref` stands for the pointer to it. -/
structure Packet where
  ref : ℕ
  addr : ℕ
  size : ℕ
  isRead : Bool
  isWrite : Bool
  cacheResponding : Bool
  needsResponse : Bool
  requestorId : ℕ
  qosValue : ℕ
  deriving DecidableEq

/-- A memory packet. `ref` stands for the pointer to it, `pkt` for the pointer to the system
packet, and `burstHelper` for the pointer to the helper of a split packet. -/
structure MemPacket where
  ref : ℕ
  pkt : ℕ
  requestorId : ℕ
  read : Bool
  dram : Bool
  rank : ℕ
  bank : ℕ
  row : ℕ
  bankId : ℕ
  addr : ℕ
  size : ℕ
  burstHelper : Option ℕ
  qosValue : ℕ
  entryTime : ℕ
  readyTime : ℕ
  rhInjectDelay : Bool
  rhBubbleSize : ℕ
  rhSRAMDelay : ℕ
  deriving DecidableEq

end AquaGem5.Controller
