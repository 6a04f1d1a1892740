import Mathlib.Data.Finmap
import AquaGem5.Lib.Checked

/-!
# The snoop filter of a crossbar (snoop_filter.cc, snoop_filter.hh)

The map from line addresses to items is a finite map, and the stored iterator is the address it points
to. A packet is given by what its getters return. Statistics are left out.
-/

namespace AquaGem5.Ports
open Checked

namespace SnoopFilter

inductive Fault where
  /-- `fatal_if(id > SNOOP_MASK_SIZE)`. -/
  | tooManyPorts
  /-- `double request :(`. -/
  | doubleRequest
  /-- The sender of an eviction, a response or a snoop response does not hold the line. -/
  | notHolder
  /-- A response misses the request. -/
  | missingRequest
  /-- `snoop filter exceeded capacity`. -/
  | capacity
  | assertion
  /-- The stored iterator points to no entry. -/
  | dangling
  deriving DecidableEq

abbrev Addr := BitVec 64

abbrev SnoopMask := BitVec 256

structure Request where
  uncacheable : Bool
  cacheMaintenance : Bool

structure Packet where
  req : Request
  addr : Addr
  secure : Bool
  fromCache : Bool
  isRequest : Bool
  isResponse : Bool
  needsResponse : Bool
  cacheResponding : Bool
  isEviction : Bool
  isBlockCached : Bool
  isWriteback : Bool
  isInvalidate : Bool
  needsWritable : Bool
  hasSharers : Bool

structure Port where
  id : ℕ
  isSnooping : Bool
  deriving DecidableEq

structure SnoopItem where
  requested : SnoopMask
  holder : SnoopMask
  deriving DecidableEq

structure Config where
  linesize : BitVec 32
  lookupLatency : ℕ
  maxEntryCount : ℕ
  cpuSidePorts : List Port
  /-- `none` for `InvalidPortID`. -/
  localResponsePortIds : ℕ → Option ℕ

def track (c : Config × ℕ) (p : Port) : Config × ℕ :=
  if p.isSnooping then
    ({c.1 with
      cpuSidePorts := c.1.cpuSidePorts++[p]
      localResponsePortIds := Function.update c.1.localResponsePortIds p.id (some c.2)},c.2+1)
  else c

def setCPUSidePorts (linesize : BitVec 32) (lookupLatency maxEntryCount : ℕ) (ports : List Port) : Except Fault Config := do
  let (c,id) := ports.foldl track (⟨linesize,lookupLatency,maxEntryCount,[],fun _ => none⟩,0)
  check (id≤256) .tooManyPorts
  return c

def Config.portToMask (c : Config) (p : Port) : SnoopMask :=
  if p.isSnooping then
    match c.localResponsePortIds p.id with
    | some i => BitVec.twoPow 256 i
    | none => 0
  else 0

def Config.maskToPortList (c : Config) (mask : SnoopMask) : List Port := c.cpuSidePorts.filter fun p => mask &&& c.portToMask p≠0

/-- The address of the line, with the mark of the secure space. -/
def Config.lineAddr (c : Config) (addr : Addr) (secure : Bool) : Addr :=
  let line := addr &&& ~~~((c.linesize-1).setWidth 64)
  if secure then line ||| 1 else line

end SnoopFilter

open SnoopFilter in
structure SnoopFilter where
  cachedLocations : Finmap fun _ : Addr => SnoopItem
  /-- `reqLookupResult`; the iterator is `none` at the end. -/
  it : Option Addr
  retryItem : SnoopItem

namespace SnoopFilter

def SnoopItem.isNull (item : SnoopItem) : Bool := item.requested ||| item.holder=0

def eraseIfNullEntry (f : SnoopFilter) (line : Addr) : Except Fault SnoopFilter :=
  match f.cachedLocations.lookup line with
  | none => .error .dangling
  | some item => .ok (if item.isNull then {f with cachedLocations := f.cachedLocations.erase line} else f)

def store (f : SnoopFilter) (line : Addr) (item : SnoopItem) : SnoopFilter :=
  {f with cachedLocations := f.cachedLocations.insert line item}

variable (c : Config)

def allocate (cpkt : Packet) (port : Port) : Bool := !cpkt.req.uncacheable&&port.isSnooping&&cpkt.fromCache

def requestItem (cpkt : Packet) (port : Port) (item : SnoopItem) : Except Fault SnoopItem :=
  if cpkt.needsResponse then
    if !cpkt.cacheResponding then do
      check (item.requested &&& c.portToMask port=0) .doubleRequest
      return {item with requested := item.requested ||| c.portToMask port}
    else do
      check (item.holder &&& c.portToMask port≠0) .notHolder
      return item
  else do
    check (cpkt.isEviction=true) .assertion
    check (item.holder &&& c.portToMask port≠0) .notHolder
    return if !cpkt.isBlockCached then {item with holder := item.holder &&& ~~~c.portToMask port} else item

def lookupRequest (f : SnoopFilter) (cpkt : Packet) (port : Port) : Except Fault ((List Port × ℕ) × SnoopFilter) :=
  let lineAddr := c.lineAddr cpkt.addr cpkt.secure
  let isHit := (f.cachedLocations.lookup lineAddr).isSome
  if !isHit && !allocate cpkt port then .ok (([],c.lookupLatency),{f with it := none})
  else do
    let sfItem := (f.cachedLocations.lookup lineAddr).getD ⟨0,0⟩
    let f := if isHit then f else f.store lineAddr sfItem
    let f := {f with it := some lineAddr, retryItem := sfItem}
    let interested := sfItem.holder ||| sfItem.requested
    let snooped := (c.maskToPortList (interested &&& ~~~c.portToMask port),c.lookupLatency)
    if !allocate cpkt port then .ok (snooped,f)
    else do
      let sfItem ← requestItem c cpkt port sfItem
      return (snooped,f.store lineAddr sfItem)

def finishRequest (f : SnoopFilter) (willRetry : Bool) (addr : Addr) (isSecure : Bool) : Except Fault SnoopFilter :=
  match f.it with
  | none => .ok f
  | some line => do
    check (line=c.lineAddr addr isSecure) .assertion
    check ((f.cachedLocations.lookup line).isSome=true) .dangling
    (if willRetry then f.store line f.retryItem else f).eraseIfNullEntry line

def lookupSnoop (f : SnoopFilter) (cpkt : Packet) : Except Fault ((List Port × ℕ) × SnoopFilter) := do
  check (cpkt.isRequest=true) .assertion
  let lineAddr := c.lineAddr cpkt.addr cpkt.secure
  match f.cachedLocations.lookup lineAddr with
  | none =>
    check (f.cachedLocations.keys.card<c.maxEntryCount) .capacity
    return (([],c.lookupLatency),f)
  | some sfItem =>
    let snooped := (c.maskToPortList (sfItem.holder ||| sfItem.requested),c.lookupLatency)
    check (cpkt.isWriteback=true ∨ cpkt.req.uncacheable=true ∨ cpkt.isInvalidate=cpkt.needsWritable ∨
      cpkt.req.cacheMaintenance=true) .assertion
    if cpkt.isInvalidate=true ∧ sfItem.requested=0 then do
      let f ← (f.store lineAddr {sfItem with holder := 0}).eraseIfNullEntry lineAddr
      return (snooped,f)
    else return (snooped,f)

def updateSnoopResponse (f : SnoopFilter) (cpkt : Packet) (rspPort reqPort : Port) : Except Fault SnoopFilter := do
  check (cpkt.isResponse=true) .assertion
  check (cpkt.cacheResponding=true) .assertion
  if cpkt.req.uncacheable=true ∨ reqPort.isSnooping=false then return f
  else
    let lineAddr := c.lineAddr cpkt.addr cpkt.secure
    let sfItem := (f.cachedLocations.lookup lineAddr).getD ⟨0,0⟩
    check (sfItem.holder &&& c.portToMask rspPort≠0) .notHolder
    check (sfItem.requested &&& c.portToMask reqPort≠0) .missingRequest
    let holder := if !cpkt.hasSharers then 0 else sfItem.holder
    check (cpkt.isWriteback=false) .assertion
    let sfItem := ⟨sfItem.requested &&& ~~~c.portToMask reqPort,holder ||| c.portToMask reqPort⟩
    check (sfItem.requested ||| sfItem.holder≠0) .assertion
    return f.store lineAddr sfItem

def updateSnoopForward (f : SnoopFilter) (cpkt : Packet) : Except Fault SnoopFilter := do
  check (cpkt.isResponse=true) .assertion
  check (cpkt.cacheResponding=true) .assertion
  let lineAddr := c.lineAddr cpkt.addr cpkt.secure
  match f.cachedLocations.lookup lineAddr with
  | none => return f
  | some sfItem =>
    if !cpkt.hasSharers then (f.store lineAddr {sfItem with holder := 0}).eraseIfNullEntry lineAddr else return f

def updateResponse (f : SnoopFilter) (cpkt : Packet) (port : Port) : Except Fault SnoopFilter := do
  check (cpkt.isResponse=true) .assertion
  if cpkt.req.uncacheable=true ∨ port.isSnooping=false then return f
  else
    let lineAddr := c.lineAddr cpkt.addr cpkt.secure
    match f.cachedLocations.lookup lineAddr with
    | none => return f
    | some sfItem =>
      check (sfItem.requested &&& c.portToMask port≠0) .missingRequest
      let sfItem := {sfItem with requested := sfItem.requested &&& ~~~c.portToMask port}
      if cpkt.req.cacheMaintenance then
        let sfItem := if cpkt.isInvalidate then {sfItem with holder := sfItem.holder &&& ~~~c.portToMask port} else sfItem
        (f.store lineAddr sfItem).eraseIfNullEntry lineAddr
      else
        let sfItem := {sfItem with holder := sfItem.holder ||| c.portToMask port}
        check (sfItem.holder ||| sfItem.requested≠0) .assertion
        return f.store lineAddr sfItem

/-- The calls of the crossbar. A request is looked up and finished before the next call. -/
inductive Call where
  | request (cpkt : Packet) (port : Port) (willRetry : Bool)
  | snoop (cpkt : Packet)
  | snoopResponse (cpkt : Packet) (rspPort reqPort : Port)
  | snoopForward (cpkt : Packet)
  | response (cpkt : Packet) (port : Port)

def Call.line (c : Config) : Call → Addr
  | .request cpkt _ _ => c.lineAddr cpkt.addr cpkt.secure
  | .snoop cpkt => c.lineAddr cpkt.addr cpkt.secure
  | .snoopResponse cpkt _ _ => c.lineAddr cpkt.addr cpkt.secure
  | .snoopForward cpkt => c.lineAddr cpkt.addr cpkt.secure
  | .response cpkt _ => c.lineAddr cpkt.addr cpkt.secure

def Call.run (f : SnoopFilter) : Call → Except Fault SnoopFilter
  | .request cpkt port willRetry => do
    let (_,f) ← f.lookupRequest c cpkt port
    f.finishRequest c willRetry cpkt.addr cpkt.secure
  | .snoop cpkt => do
    let (_,f) ← f.lookupSnoop c cpkt
    return f
  | .snoopResponse cpkt rspPort reqPort => f.updateSnoopResponse c cpkt rspPort reqPort
  | .snoopForward cpkt => f.updateSnoopForward c cpkt
  | .response cpkt port => f.updateResponse c cpkt port

/-- The crossbar passes its own ports only. -/
def Call.From (ports : List Port) : Call → Prop
  | .request _ port _ => port∈ports
  | .snoop _ => True
  | .snoopResponse _ rspPort reqPort => rspPort∈ports ∧ reqPort∈ports
  | .snoopForward _ => True
  | .response _ port => port∈ports

/-- The calls of a run, the latest first. -/
inductive Reachable (ports : List Port) : SnoopFilter → List Call → Prop
  | start : Reachable ports ⟨∅,none,⟨0,0⟩⟩ []
  | call (f f' : SnoopFilter) (log : List Call) (call : Call) : Reachable ports f log → call.From ports →
      call.run c f = .ok f' → Reachable ports f' (call::log)

end SnoopFilter
end AquaGem5.Ports
