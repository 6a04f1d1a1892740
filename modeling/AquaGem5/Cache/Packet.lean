import AquaGem5.Cache.SectorBlk

/-!
# Memory commands and request packets (packet.hh, packet.cc, request.hh)

The commands with their attributes, and of a packet what the miss handling reads.
-/

namespace AquaGem5.Cache
open Address

namespace MemCmd

inductive Attribute where
  | isRead
  | isWrite
  | isUpgrade
  | isInvalidate
  | isClean
  | needsWritable
  | isRequest
  | isResponse
  | needsResponse
  | isEviction
  | isSWPrefetch
  | isHWPrefetch
  | isLlsc
  | hasData
  | isError
  | isPrint
  | isFlush
  | fromCache
  deriving DecidableEq

end MemCmd

inductive MemCmd where
  | invalidCmd
  | readReq
  | readResp
  | readRespWithInvalidate
  | writeReq
  | writeResp
  | writeCompleteResp
  | writebackDirty
  | writebackClean
  | writeClean
  | cleanEvict
  | softPFReq
  | softPFExReq
  | hardPFReq
  | softPFResp
  | hardPFResp
  | writeLineReq
  | upgradeReq
  | scUpgradeReq
  | upgradeResp
  | scUpgradeFailReq
  | upgradeFailResp
  | readExReq
  | readExResp
  | readCleanReq
  | readSharedReq
  | loadLockedReq
  | storeCondReq
  | storeCondFailReq
  | storeCondResp
  | swapReq
  | swapResp
  | memFenceReq
  | memSyncReq
  | memSyncResp
  | memFenceResp
  | cleanSharedReq
  | cleanSharedResp
  | cleanInvalidReq
  | cleanInvalidResp
  | invalidDestError
  | badAddressError
  | functionalReadError
  | functionalWriteError
  | printReq
  | flushReq
  | invalidateReq
  | invalidateResp
  | htmReq
  | htmReqResp
  | htmAbort
  deriving DecidableEq

namespace MemCmd
open Attribute

def commandInfo : MemCmd → List Attribute × MemCmd
  | .invalidCmd => ([],.invalidCmd)
  | .readReq => ([isRead,isRequest,needsResponse],.readResp)
  | .readResp => ([isRead,isResponse,hasData],.invalidCmd)
  | .readRespWithInvalidate => ([isRead,isResponse,hasData,isInvalidate],.invalidCmd)
  | .writeReq => ([isWrite,needsWritable,isRequest,needsResponse,hasData],.writeResp)
  | .writeResp => ([isWrite,isResponse],.invalidCmd)
  | .writeCompleteResp => ([isWrite,isResponse],.invalidCmd)
  | .writebackDirty => ([isWrite,isRequest,isEviction,hasData,fromCache],.invalidCmd)
  | .writebackClean => ([isWrite,isRequest,isEviction,hasData,fromCache],.invalidCmd)
  | .writeClean => ([isWrite,isRequest,hasData,fromCache],.invalidCmd)
  | .cleanEvict => ([isRequest,isEviction,fromCache],.invalidCmd)
  | .softPFReq => ([isRead,isRequest,isSWPrefetch,needsResponse],.softPFResp)
  | .softPFExReq => ([isRead,needsWritable,isInvalidate,isRequest,isSWPrefetch,needsResponse],.softPFResp)
  | .hardPFReq => ([isRead,isRequest,isHWPrefetch,needsResponse,fromCache],.hardPFResp)
  | .softPFResp => ([isRead,isResponse,isSWPrefetch,hasData],.invalidCmd)
  | .hardPFResp => ([isRead,isResponse,isHWPrefetch,hasData],.invalidCmd)
  | .writeLineReq => ([isWrite,needsWritable,isRequest,needsResponse,hasData],.writeResp)
  | .upgradeReq => ([isInvalidate,needsWritable,isUpgrade,isRequest,needsResponse,fromCache],.upgradeResp)
  | .scUpgradeReq => ([isInvalidate,needsWritable,isUpgrade,isLlsc,isRequest,needsResponse,fromCache],.upgradeResp)
  | .upgradeResp => ([isUpgrade,isResponse],.invalidCmd)
  | .scUpgradeFailReq => ([isRead,needsWritable,isInvalidate,isLlsc,isRequest,needsResponse,fromCache],.upgradeFailResp)
  | .upgradeFailResp => ([isRead,isResponse,hasData],.invalidCmd)
  | .readExReq => ([isRead,needsWritable,isInvalidate,isRequest,needsResponse,fromCache],.readExResp)
  | .readExResp => ([isRead,isResponse,hasData],.invalidCmd)
  | .readCleanReq => ([isRead,isRequest,needsResponse,fromCache],.readResp)
  | .readSharedReq => ([isRead,isRequest,needsResponse,fromCache],.readResp)
  | .loadLockedReq => ([isRead,isLlsc,isRequest,needsResponse],.readResp)
  | .storeCondReq => ([isWrite,needsWritable,isLlsc,isRequest,needsResponse,hasData],.storeCondResp)
  | .storeCondFailReq => ([isWrite,needsWritable,isLlsc,isRequest,needsResponse,hasData],.storeCondResp)
  | .storeCondResp => ([isWrite,isLlsc,isResponse],.invalidCmd)
  | .swapReq => ([isRead,isWrite,needsWritable,isRequest,hasData,needsResponse],.swapResp)
  | .swapResp => ([isRead,isWrite,isResponse,hasData],.invalidCmd)
  | .memFenceReq => ([isRequest,needsResponse],.memFenceResp)
  | .memSyncReq => ([isRequest,needsResponse],.memSyncResp)
  | .memSyncResp => ([isResponse],.invalidCmd)
  | .memFenceResp => ([isResponse],.invalidCmd)
  | .cleanSharedReq => ([isRequest,isClean,needsResponse,fromCache],.cleanSharedResp)
  | .cleanSharedResp => ([isResponse,isClean],.invalidCmd)
  | .cleanInvalidReq => ([isRequest,isInvalidate,isClean,needsResponse,fromCache],.cleanInvalidResp)
  | .cleanInvalidResp => ([isResponse,isInvalidate,isClean],.invalidCmd)
  | .invalidDestError => ([isResponse,isError],.invalidCmd)
  | .badAddressError => ([isResponse,isError],.invalidCmd)
  | .functionalReadError => ([isRead,isResponse,isError],.invalidCmd)
  | .functionalWriteError => ([isWrite,isResponse,isError],.invalidCmd)
  | .printReq => ([isRequest,isPrint],.invalidCmd)
  | .flushReq => ([isRequest,isFlush,needsWritable],.invalidCmd)
  | .invalidateReq => ([isInvalidate,isRequest,needsWritable,needsResponse,fromCache],.invalidateResp)
  | .invalidateResp => ([isInvalidate,isResponse],.invalidCmd)
  | .htmReq => ([isRead,isRequest,needsResponse],.htmReqResp)
  | .htmReqResp => ([isRead,isResponse],.invalidCmd)
  | .htmAbort => ([isRead,isRequest],.invalidCmd)

def testCmdAttrib (c : MemCmd) (a : Attribute) : Bool := decide (a∈c.commandInfo.1)

def responseCommand (c : MemCmd) : MemCmd := c.commandInfo.2

/-- What `replaceUpgrade` makes of a command. -/
def replaced : MemCmd → MemCmd
  | .upgradeReq => .readExReq
  | .scUpgradeReq => .scUpgradeFailReq
  | .storeCondReq => .storeCondFailReq
  | c => c

def upgrades (c : MemCmd) : Bool := c.testCmdAttrib isUpgrade || decide (c = .storeCondReq)

theorem replaced_isRequest (c : MemCmd) : c.replaced.testCmdAttrib isRequest=c.testCmdAttrib isRequest := by
  cases c <;> rfl

theorem replaced_needsWritable (c : MemCmd) :
    c.replaced.testCmdAttrib needsWritable=c.testCmdAttrib needsWritable := by
  cases c <;> rfl

theorem replaced_fromCache (c : MemCmd) : c.replaced.testCmdAttrib fromCache=c.testCmdAttrib fromCache := by
  cases c <;> rfl

theorem replaced_isWrite (c : MemCmd) : c.replaced.testCmdAttrib isWrite=c.testCmdAttrib isWrite := by
  cases c <;> rfl

theorem replaced_upgrades {c : MemCmd} (h : c.testCmdAttrib isRequest=true) : c.replaced.upgrades=false := by
  cases c <;> first | rfl | cases h

end MemCmd

/-- The flags of a request that the miss handling tests. -/
structure RequestFlags where
  uncacheable : Bool
  strictOrder : Bool
  privileged : Bool
  llsc : Bool
  memSwap : Bool
  memSwapCond : Bool
  secure : Bool
  invalidate : Bool
  clean : Bool
  deriving DecidableEq

namespace RequestFlags

def none : RequestFlags := ⟨false,false,false,false,false,false,false,false,false⟩

variable (f : RequestFlags)

def noMerge : Bool :=
  f.uncacheable || f.strictOrder || f.privileged || f.llsc || f.memSwap || f.memSwapCond || f.secure

def isCacheInvalidate : Bool := f.invalidate

def isCacheMaintenance : Bool := f.clean || f.invalidate

def isUncacheable : Bool := f.uncacheable

end RequestFlags

/-- A request inside a block. `senderMSHR` tells whether an upper cache's MSHR is among its sender states. -/
structure Packet (blkSize : ℕ) where
  cmd : MemCmd
  flags : RequestFlags
  addr : Addr
  size : ℕ
  senderMSHR : Bool
  isExpressSnoop : Bool
  request : cmd.testCmdAttrib .isRequest=true
  inside : (addr &&& BitVec.ofNat 64 (blkSize-1)).toNat+size≤blkSize

namespace Packet

variable {blkSize : ℕ} (pkt : Packet blkSize)

def needsWritable : Bool := pkt.cmd.testCmdAttrib .needsWritable

def isWrite : Bool := pkt.cmd.testCmdAttrib .isWrite

def isInvalidate : Bool := pkt.cmd.testCmdAttrib .isInvalidate

def isClean : Bool := pkt.cmd.testCmdAttrib .isClean

def needsResponse : Bool := pkt.cmd.testCmdAttrib .needsResponse

def fromCache : Bool := pkt.cmd.testCmdAttrib .fromCache

def getOffset : ℕ := (pkt.addr &&& BitVec.ofNat 64 (blkSize-1)).toNat

def replaceUpgrade : Packet blkSize :=
  {pkt with cmd := pkt.cmd.replaced, request := by rw [MemCmd.replaced_isRequest]; exact pkt.request}

@[simp] theorem replaceUpgrade_needsWritable : pkt.replaceUpgrade.needsWritable=pkt.needsWritable :=
  pkt.cmd.replaced_needsWritable

@[simp] theorem replaceUpgrade_fromCache : pkt.replaceUpgrade.fromCache=pkt.fromCache := pkt.cmd.replaced_fromCache

@[simp] theorem replaceUpgrade_isWrite : pkt.replaceUpgrade.isWrite=pkt.isWrite := pkt.cmd.replaced_isWrite

@[simp] theorem replaceUpgrade_upgrades : pkt.replaceUpgrade.cmd.upgrades=false :=
  MemCmd.replaced_upgrades pkt.request

def copy : Packet blkSize := {pkt with isExpressSnoop := false}

def wholeBlock : Packet blkSize :=
  {pkt with
    addr := pkt.addr &&& ~~~(BitVec.ofNat 64 (blkSize-1))
    size := blkSize
    senderMSHR := false
    isExpressSnoop := false
    inside := by
      have hzero : pkt.addr &&& ~~~(BitVec.ofNat 64 (blkSize-1)) &&& BitVec.ofNat 64 (blkSize-1)=0 := by
        rw [BitVec.and_assoc,BitVec.and_comm (~~~_),BitVec.and_not_self]
        exact BitVec.and_zero
      rw [hzero]
      exact Nat.le_of_eq (Nat.zero_add _)}

end Packet

end AquaGem5.Cache
