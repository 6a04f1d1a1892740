import AquaGem5.Cache.Packet
import AquaGem5.Lib.Tiling

/-!
# Functional accesses put together (packet.cc)

A functional packet passes the data that the components hold. Addresses have 64 bits.
-/

namespace AquaGem5.Memory.Functional
open List
open Cache (MemCmd)
open Overlay

abbrev Byte := BitVec 8

inductive Fault where
  | assertion
  | panic
  deriving DecidableEq

/-- A packet, with what the function reads. Its bytes are counted with an `int`. -/
structure Packet where
  cmd : MemCmd
  addr : ℕ
  isSecure : Bool
  size : ℕ
  data : List Byte
  bytesValid : List Bool
  size_lt : size<2^31

namespace Packet

variable (pkt : Packet)

def isPrint : Bool := pkt.cmd.testCmdAttrib .isPrint

def isRead : Bool := pkt.cmd.testCmdAttrib .isRead

def isWrite : Bool := pkt.cmd.testCmdAttrib .isWrite

def memcpy (dst : List Byte) (dstOffset : ℕ) (src : List Byte) (srcOffset n : ℕ) : List Byte :=
  overlay dst dstOffset ((src.drop srcOffset).take n)

/-- The answer, with the packet and the data afterwards. -/
def trySatisfyFunctional (addr : ℕ) (is_secure : Bool) (size : ℕ) (_data : Option (List Byte)) :
    Except Fault (Bool × Packet × Option (List Byte)) :=
  let func_start := pkt.addr
  let func_end := (pkt.addr+pkt.size+(2^64-1))%2^64
  let val_start := addr
  let val_end := (val_start+size+(2^64-1))%2^64
  if is_secure≠pkt.isSecure ∨ val_end<func_start ∨ func_end<val_start then .ok (false,pkt,_data)
  else if pkt.isPrint then
    match _data with
    | none => .ok (false,pkt,none)
    | some _ => .error .assertion
  else
    match _data with
    | none => .ok (false,pkt,none)
    | some data =>
      let val_offset := if val_start<func_start then func_start-val_start else 0
      let func_offset := if func_start<val_start then val_start-func_start else 0
      let overlap_size := min val_end func_end+1-max val_start func_start
      if pkt.isRead then
        let bytesValid := if pkt.bytesValid.isEmpty then List.replicate pkt.size false else pkt.bytesValid
        let before := (bytesValid.take func_offset).all id
        let bytesValid := overlay bytesValid func_offset (List.replicate overlap_size true)
        let after := (bytesValid.drop (func_offset+overlap_size)).all id
        .ok (before&&after,
          { pkt with data := memcpy pkt.data func_offset data val_offset overlap_size
                     bytesValid := bytesValid},some data)
      else if pkt.isWrite then
        .ok (false,pkt,some (memcpy data val_offset pkt.data func_offset overlap_size))
      else .error .panic

def offer (p : Piece Byte) (is_secure : Bool) : Except Fault (Bool × Packet × Option (List Byte)) :=
  pkt.trySatisfyFunctional p.addr is_secure p.data.length (some p.data)

/-- The packet after several sources of its security space. -/
def offers (pkt : Packet) (sources : List (Piece Byte)) : Except Fault Packet :=
  sources.foldlM (fun pkt p => (pkt.offer p pkt.isSecure).map (·.2.1)) pkt

end Packet

def Fits (addr size : ℕ) : Prop := 0<addr+size ∧ addr+size≤2^64

def Meets (pkt : Packet) (p : Piece Byte) : Prop :=
  pkt.addr<p.addr+p.data.length ∧ p.addr<pkt.addr+pkt.size

structure Overlap (pkt : Packet) (p : Piece Byte) (func_offset val_offset overlap_size : ℕ) : Prop where
  func_le : func_offset+overlap_size≤pkt.size
  val_le : val_offset+overlap_size≤p.data.length
  same : pkt.addr+func_offset=p.addr+val_offset
  func_iff : ∀ i<pkt.size,func_offset ≤ i ∧ i<func_offset+overlap_size ↔
    p.addr≤pkt.addr+i ∧ pkt.addr+i<p.addr+p.data.length
  val_iff : ∀ i<p.data.length,val_offset ≤ i ∧ i<val_offset+overlap_size ↔
    pkt.addr≤p.addr+i ∧ p.addr+i<pkt.addr+pkt.size

variable {pkt pkt' : Packet} {p : Piece Byte} {sources : List (Piece Byte)} {func_offset val_offset overlap_size : ℕ}

theorem overlap_of_meets (h : Meets pkt p) :
    Overlap pkt p (if pkt.addr<p.addr then p.addr-pkt.addr else 0) (if p.addr<pkt.addr then pkt.addr-p.addr else 0)
      (min (p.addr+p.data.length-1) (pkt.addr+pkt.size-1)+1-max p.addr pkt.addr) := by
  obtain ⟨hlow,hhigh⟩:=h
  constructor
  · split <;> omega
  · split <;> omega
  · split <;> split <;> omega
  · intro i hi
    split <;> omega
  · intro i hi
    split <;> omega

theorem length_copied {src : List Byte} {srcOffset n : ℕ} (h : srcOffset+n ≤ src.length) :
    ((src.drop srcOffset).take n).length=n := by
  rw [length_take,length_drop]
  omega

theorem length_memcpy {dst src : List Byte} {dstOffset srcOffset n : ℕ} (hdst : dstOffset+n≤dst.length)
    (hsrc : srcOffset+n ≤ src.length) : (Packet.memcpy dst dstOffset src srcOffset n).length=dst.length :=
  length_overlay (by rwa [length_copied hsrc])

theorem getElem?_memcpy {dst src : List Byte} {dstOffset srcOffset n : ℕ} (hdst : dstOffset+n≤dst.length)
    (hsrc : srcOffset+n ≤ src.length) (i : ℕ) : (Packet.memcpy dst dstOffset src srcOffset n)[i]? =
      if dstOffset ≤ i ∧ i<dstOffset+n then src[srcOffset+(i-dstOffset)]? else dst[i]? := by
  rw [Packet.memcpy,getElem?_overlay (by rwa [length_copied hsrc]),length_copied hsrc]
  split
  · rw [getElem?_take_of_lt (by omega),getElem?_drop]
  · rfl

namespace Overlap

variable (h : Overlap pkt p func_offset val_offset overlap_size)
include h

theorem read_byte (hsize : pkt.data.length=pkt.size) {i : ℕ} (hi : i<pkt.size) :
    (Packet.memcpy pkt.data func_offset p.data val_offset overlap_size)[i]? =
      (p.at? (pkt.addr+i)).or pkt.data[i]? := by
  have hsame:=h.same
  rw [getElem?_memcpy (hsize ▸ h.func_le) h.val_le]
  by_cases hin : func_offset ≤ i ∧ i<func_offset+overlap_size
  · obtain ⟨hlow,hhigh⟩:=(h.func_iff i hi).mp hin
    rw [if_pos hin,Piece.at?,if_pos hlow,show val_offset+(i-func_offset)=pkt.addr+i-p.addr by omega,
      getElem?_eq_getElem (by omega),Option.some_or]
  · have hnone : p.at? (pkt.addr+i)=none := by
      rw [← Option.not_isSome_iff_eq_none,Piece.at?_isSome,← h.func_iff i hi]
      exact hin
    rw [if_neg hin,hnone,Option.none_or]

theorem write_byte (hsize : pkt.data.length=pkt.size) {i : ℕ} (hi : i<p.data.length) :
    (Packet.memcpy p.data val_offset pkt.data func_offset overlap_size)[i]? =
      if pkt.addr≤p.addr+i ∧ p.addr+i<pkt.addr+pkt.size then pkt.data[p.addr+i-pkt.addr]? else p.data[i]? := by
  have hsame:=h.same
  rw [getElem?_memcpy h.val_le (hsize ▸ h.func_le)]
  by_cases hin : val_offset ≤ i ∧ i<val_offset+overlap_size
  · have hboth:=(h.val_iff i hi).mp hin
    rw [if_pos hin,if_pos hboth,show func_offset+(i-val_offset)=p.addr+i-pkt.addr by omega]
  · rw [if_neg hin,if_neg fun hboth => hin ((h.val_iff i hi).mpr hboth)]

end Overlap

theorem isPrint_of_isRead (h : pkt.isRead=true) : pkt.isPrint=false := by
  rw [Packet.isRead] at h
  rw [Packet.isPrint]
  cases hcmd : pkt.cmd <;> first | rfl | (rw [hcmd] at h; cases h)

theorem isPrint_of_isWrite (h : pkt.isWrite=true) : pkt.isPrint=false := by
  rw [Packet.isWrite] at h
  rw [Packet.isPrint]
  cases hcmd : pkt.cmd <;> first | rfl | (rw [hcmd] at h; cases h)

theorem offer_of_not_meets (hpkt : Fits pkt.addr pkt.size) (hp : Fits p.addr p.data.length) (h : ¬Meets pkt p) :
    pkt.offer p pkt.isSecure = .ok (false,pkt,some p.data) := by
  obtain ⟨hpos,hend⟩:=hpkt
  obtain ⟨hpos',hend'⟩:=hp
  rw [Packet.offer,Packet.trySatisfyFunctional]
  exact if_pos (.inr (by rw [Meets] at h; omega))

theorem last_eq {addr size : ℕ} (h : Fits addr size) : (addr+size+(2^64-1))%2^64=addr+size-1 := by
  obtain ⟨hpos,hend⟩:=h
  omega

theorem all_valid {l : List Bool} (h : func_offset+overlap_size≤l.length) : ((l.take func_offset).all id &&
      ((overlay l func_offset (List.replicate overlap_size true)).drop (func_offset+overlap_size)).all id) =
      (overlay l func_offset (List.replicate overlap_size true)).all id := by
  have htake : (l.take func_offset++replicate overlap_size true).length=func_offset+overlap_size := by
    rw [length_append,length_take,length_replicate]
    omega
  have hmarked : (replicate overlap_size true).all id=true := all_eq_true.mpr fun b hb =>
    eq_of_mem_replicate hb
  rw [overlay,drop_left' htake,all_append,all_append,hmarked,Bool.and_true]

def Packet.valid (pkt : Packet) : List Bool :=
  if pkt.bytesValid.isEmpty then List.replicate pkt.size false else pkt.bytesValid

def Packet.fill (pkt : Packet) (func_offset val_offset overlap_size : ℕ) (data : List Byte) : Packet :=
  { pkt with data := Packet.memcpy pkt.data func_offset data val_offset overlap_size
             bytesValid := overlay pkt.valid func_offset (List.replicate overlap_size true)}

@[simp] theorem fill_addr (data : List Byte) :
    (pkt.fill func_offset val_offset overlap_size data).addr=pkt.addr := rfl

@[simp] theorem fill_size (data : List Byte) :
    (pkt.fill func_offset val_offset overlap_size data).size=pkt.size := rfl

theorem not_disjoint (hpkt : Fits pkt.addr pkt.size) (hp : Fits p.addr p.data.length) (h : Meets pkt p) :
    ¬(pkt.isSecure≠pkt.isSecure ∨ p.addr+p.data.length-1<pkt.addr ∨ pkt.addr+pkt.size-1<p.addr) := by
  obtain ⟨hlow,hhigh⟩:=h
  obtain ⟨hpos,-⟩:=hpkt
  obtain ⟨hpos',-⟩:=hp
  rintro (hsecure | hafter | hbefore)
  · exact hsecure rfl
  · omega
  · omega

theorem offer_read (hread : pkt.isRead=true) (hpkt : Fits pkt.addr pkt.size) (hp : Fits p.addr p.data.length)
    (hvalid : pkt.valid.length=pkt.size) (h : Meets pkt p) :
    ∃ func_offset val_offset overlap_size,Overlap pkt p func_offset val_offset overlap_size ∧
      pkt.offer p pkt.isSecure = .ok ((pkt.fill func_offset val_offset overlap_size p.data).bytesValid.all id,
        pkt.fill func_offset val_offset overlap_size p.data,some p.data) := by
  have hoverlap:=overlap_of_meets h
  refine ⟨_,_,_,hoverlap,?_⟩
  rw [Packet.offer,Packet.trySatisfyFunctional]
  dsimp only
  rw [last_eq hpkt,last_eq hp,if_neg (not_disjoint hpkt hp h),isPrint_of_isRead hread,hread,if_neg Bool.false_ne_true,
    if_pos rfl,← Packet.valid,all_valid (hvalid ▸ hoverlap.func_le)]
  rfl

theorem offer_write (hread : pkt.isRead=false) (hwrite : pkt.isWrite=true) (hpkt : Fits pkt.addr pkt.size)
    (hp : Fits p.addr p.data.length) (h : Meets pkt p) :
    ∃ func_offset val_offset overlap_size,Overlap pkt p func_offset val_offset overlap_size ∧
      pkt.offer p pkt.isSecure =
        .ok (false,pkt,some (Packet.memcpy p.data val_offset pkt.data func_offset overlap_size)) := by
  have hoverlap:=overlap_of_meets h
  refine ⟨_,_,_,hoverlap,?_⟩
  rw [Packet.offer,Packet.trySatisfyFunctional]
  dsimp only
  rw [last_eq hpkt,last_eq hp,if_neg (not_disjoint hpkt hp h),isPrint_of_isWrite hwrite,hread,hwrite,
    if_neg Bool.false_ne_true,if_neg Bool.false_ne_true,if_pos rfl]

structure Assembled (pkt0 pkt : Packet) (sources : List (Piece Byte)) : Prop where
  addr : pkt.addr=pkt0.addr
  size : pkt.size=pkt0.size
  cmd : pkt.cmd=pkt0.cmd
  isSecure : pkt.isSecure=pkt0.isSecure
  data_length : pkt.data.length=pkt.size
  valid_length : pkt.valid.length=pkt.size
  valid : ∀ i<pkt.size,pkt.valid[i]?=some (latest sources (pkt.addr+i)).isSome
  data : ∀ i<pkt.size,pkt.data[i]?=(latest sources (pkt.addr+i)).or pkt0.data[i]?

variable {pkt0 : Packet}

theorem Assembled.start (hdata : pkt.data.length=pkt.size) (hvalid : pkt.bytesValid=[]) : Assembled pkt pkt [] := by
  have hmarks : pkt.valid=replicate pkt.size false := if_pos (by rw [hvalid]; rfl)
  refine ⟨rfl,rfl,rfl,rfl,hdata,by rw [hmarks,length_replicate],fun i hi => ?_,fun i _ => ?_⟩
  · rw [hmarks,getElem?_replicate_of_lt hi]
    rfl
  · rfl

theorem at?_of_not_meets (h : ¬Meets pkt p) {i : ℕ} (hi : i<pkt.size) : p.at? (pkt.addr+i)=none := by
  rw [← Option.not_isSome_iff_eq_none,Piece.at?_isSome]
  rw [Meets] at h
  omega

theorem Assembled.skip (h : Assembled pkt0 pkt sources) (hmeets : ¬Meets pkt p) : Assembled pkt0 pkt (sources++[p]) := by
  refine ⟨h.addr,h.size,h.cmd,h.isSecure,h.data_length,h.valid_length,fun i hi => ?_,fun i hi => ?_⟩
  · rw [latest_append,at?_of_not_meets hmeets hi,Option.none_or,h.valid i hi]
  · rw [latest_append,at?_of_not_meets hmeets hi,Option.none_or,h.data i hi]

theorem fill_valid (hsize : 0<pkt.size) (hlength : pkt.valid.length=pkt.size)
    (hmarks : func_offset+(List.replicate overlap_size true).length≤pkt.valid.length) (data : List Byte) :
    (pkt.fill func_offset val_offset overlap_size data).valid =
      overlay pkt.valid func_offset (List.replicate overlap_size true) := by
  refine if_neg fun hempty => ?_
  have hnil : overlay pkt.valid func_offset (replicate overlap_size true)=[] := isEmpty_iff.mp hempty
  rw [← hlength,← length_overlay hmarks,hnil] at hsize
  exact absurd hsize (Nat.lt_irrefl 0)

theorem Assembled.fill (h : Assembled pkt0 pkt sources) (hsize : 0<pkt.size)
    (hoverlap : Overlap pkt p func_offset val_offset overlap_size) :
    Assembled pkt0 (pkt.fill func_offset val_offset overlap_size p.data) (sources++[p]) := by
  have hmarks : func_offset+(replicate overlap_size true).length≤pkt.valid.length := by
    rw [length_replicate,h.valid_length]
    exact hoverlap.func_le
  have hlength:=(length_overlay hmarks).trans h.valid_length
  have hvalid : (pkt.fill func_offset val_offset overlap_size p.data).valid=_ :=
    fill_valid hsize h.valid_length hmarks p.data
  refine ⟨h.addr,h.size,h.cmd,h.isSecure,?_,by rw [hvalid]; exact hlength,fun i hi => ?_,fun i hi => ?_⟩
  · exact (length_memcpy (h.data_length ▸ hoverlap.func_le) hoverlap.val_le).trans h.data_length
  · rw [fill_size] at hi
    rw [hvalid,fill_addr,latest_append,getElem?_overlay hmarks,length_replicate]
    by_cases hin : func_offset ≤ i ∧ i<func_offset+overlap_size
    · have hsome:=(p.at?_isSome (pkt.addr+i)).mpr ((hoverlap.func_iff i hi).mp hin)
      rw [if_pos hin,getElem?_replicate_of_lt (by omega),Option.isSome_or,hsome,Bool.true_or]
    · have hnone : (p.at? (pkt.addr+i)).isSome=false := by
        rw [Bool.eq_false_iff,ne_eq,Piece.at?_isSome,← hoverlap.func_iff i hi]
        exact hin
      rw [if_neg hin,Option.isSome_or,hnone,Bool.false_or,h.valid i hi]
  · rw [fill_size] at hi
    rw [fill_addr,latest_append,Option.or_assoc,← h.data i hi]
    exact hoverlap.read_byte h.data_length hi

theorem Assembled.all_iff (h : Assembled pkt0 pkt sources) :
    pkt.valid.all id=true ↔ ∀ i<pkt0.size,(latest sources (pkt0.addr+i)).isSome=true := by
  rw [← h.addr,← h.size,all_eq_true]
  constructor
  · intro hall i hi
    exact hall _ (mem_of_getElem? (h.valid i hi))
  · intro hall b hb
    obtain ⟨i,hi,rfl⟩:=mem_iff_getElem.mp hb
    have hvalid:=h.valid i (h.valid_length ▸ hi)
    rw [getElem?_eq_getElem hi,Option.some_inj] at hvalid
    rw [id,hvalid]
    exact hall i (h.valid_length ▸ hi)

theorem Assembled.offer (h : Assembled pkt0 pkt sources) (hread : pkt0.isRead=true) (hpkt : Fits pkt0.addr pkt0.size)
    (hsize : 0<pkt0.size) (hp : Fits p.addr p.data.length) :
    ∃ answer pkt',pkt.offer p pkt0.isSecure = .ok (answer,pkt',some p.data) ∧ Assembled pkt0 pkt' (sources++[p]) ∧
      (answer=true ↔ Meets pkt0 p ∧ ∀ i<pkt0.size,(latest (sources++[p]) (pkt0.addr+i)).isSome=true) := by
  have hread' : pkt.isRead=true := by rwa [Packet.isRead,h.cmd]
  have hmeets_iff : Meets pkt p ↔ Meets pkt0 p := by rw [Meets,Meets,h.addr,h.size]
  rw [← h.addr,← h.size] at hpkt
  rw [← h.isSecure]
  by_cases hmeets : Meets pkt p
  · obtain ⟨func_offset,val_offset,overlap_size,hoverlap,hoffer⟩:=offer_read hread' hpkt hp h.valid_length hmeets
    have hfill:=h.fill (h.size ▸ hsize) hoverlap
    refine ⟨_,_,hoffer,hfill,?_⟩
    rw [← hfill.all_iff,fill_valid (h.size ▸ hsize) h.valid_length
      (by rw [length_replicate,h.valid_length]; exact hoverlap.func_le)]
    exact ⟨fun hall => ⟨hmeets_iff.mp hmeets,hall⟩,And.right⟩
  · refine ⟨false,pkt,offer_of_not_meets hpkt hp hmeets,h.skip hmeets,?_⟩
    exact iff_of_false Bool.false_ne_true fun hcovered => hmeets (hmeets_iff.mpr hcovered.1)

theorem offers_assembled (hdata : pkt0.data.length=pkt0.size) (hvalid : pkt0.bytesValid=[])
    (hread : pkt0.isRead=true) (hpkt : Fits pkt0.addr pkt0.size) (hsize : 0<pkt0.size)
    (hsources : ∀ q∈sources,Fits q.addr q.data.length) :
    ∃ pkt,pkt0.offers sources = .ok pkt ∧ Assembled pkt0 pkt sources := by
  induction sources using reverseRecOn with
  | nil => exact ⟨pkt0,rfl,.start hdata hvalid⟩
  | append_singleton sources p ih =>
    obtain ⟨pkt,hoffers,hassembled⟩:=ih fun q hq => hsources q (mem_append_left _ hq)
    obtain ⟨answer,pkt',hoffer,hassembled',-⟩:=hassembled.offer hread hpkt hsize
      (hsources p (mem_append_right _ (mem_singleton_self p)))
    refine ⟨pkt',?_,hassembled'⟩
    rw [Packet.offers] at hoffers ⊢
    rw [foldlM_append,hoffers]
    change ((pkt.offer p pkt.isSecure).map (·.2.1) >>= pure) = .ok pkt'
    rw [hassembled.isSecure,hoffer]
    rfl

/-- A read is satisfied by a source that meets the packet once every byte of it is covered, and then has the bytes of
the last sources; a write gives the source its bytes and is never satisfied. -/
theorem trySatisfyFunctional_assembles (pkt : Packet) (hsize : 0<pkt.size) (hend : pkt.addr+pkt.size≤2^64)
    (hdata : pkt.data.length=pkt.size) :
    (pkt.isRead=true → pkt.bytesValid=[] → ∀ sources p,(∀ q∈sources++[p],Fits q.addr q.data.length) →
      ∃ pkt1 answer pkt2,pkt.offers sources = .ok pkt1 ∧ pkt1.offer p pkt.isSecure = .ok (answer,pkt2,some p.data) ∧
        (answer=true ↔ Meets pkt p ∧ ∀ i<pkt.size,(latest (sources++[p]) (pkt.addr+i)).isSome=true) ∧
        (answer=true → ∀ i<pkt.size,pkt2.data[i]?=latest (sources++[p]) (pkt.addr+i))) ∧
    (pkt.isRead=false → pkt.isWrite=true → ∀ p,Fits p.addr p.data.length →
      ∃ data,pkt.offer p pkt.isSecure = .ok (false,pkt,some data) ∧ data.length=p.data.length ∧
        ∀ i<p.data.length,data[i]? =
          if pkt.addr≤p.addr+i ∧ p.addr+i<pkt.addr+pkt.size then pkt.data[p.addr+i-pkt.addr]?
          else p.data[i]?) := by
  have hfits : Fits pkt.addr pkt.size := ⟨by omega,hend⟩
  refine ⟨fun hread hvalid sources p hsources => ?_,fun hread hwrite p hp => ?_⟩
  · obtain ⟨pkt1,hoffers,h1⟩:=offers_assembled hdata hvalid hread hfits hsize fun q hq =>
      hsources q (List.mem_append_left _ hq)
    obtain ⟨answer,pkt2,hoffer,h2,hanswer⟩:=h1.offer hread hfits hsize
      (hsources p (List.mem_append_right _ (List.mem_singleton_self p)))
    refine ⟨pkt1,answer,pkt2,hoffers,hoffer,hanswer,fun htrue i hi => ?_⟩
    obtain ⟨-,hcovered⟩:=hanswer.mp htrue
    have hbyte:=h2.data i (h2.size ▸ hi)
    rw [h2.addr] at hbyte
    rw [hbyte,Option.or_of_isSome (hcovered i hi)]
  · by_cases hmeets : Meets pkt p
    · obtain ⟨func_offset,val_offset,overlap_size,hoverlap,hoffer⟩:=offer_write hread hwrite hfits hp hmeets
      exact ⟨_,hoffer,length_memcpy hoverlap.val_le (hdata ▸ hoverlap.func_le),fun i hi => hoverlap.write_byte hdata hi⟩
    · refine ⟨p.data,offer_of_not_meets hfits hp hmeets,rfl,fun i hi => ?_⟩
      rw [Meets] at hmeets
      rw [if_neg (by omega)]

def oneByte : Packet := ⟨.readReq,0,false,1,[0],[],Nat.one_lt_two_pow (Nat.succ_ne_zero 30)⟩

def earlier : Piece Byte := ⟨0,[7]⟩

def later : Piece Byte := ⟨0,[5]⟩

theorem trySatisfyFunctional_assembles_one :
    ∃ pkt1 answer pkt2,oneByte.offers [earlier] = .ok pkt1 ∧
      pkt1.offer later oneByte.isSecure = .ok (answer,pkt2,some later.data) ∧
      (answer=true ↔
        Meets oneByte later ∧ ∀ i<oneByte.size,(latest [earlier,later] (oneByte.addr+i)).isSome=true) ∧
      (answer=true → ∀ i<oneByte.size,pkt2.data[i]?=latest [earlier,later] (oneByte.addr+i)) :=
  (trySatisfyFunctional_assembles oneByte (Nat.lt_succ_self 0) (by decide) rfl).1 rfl rfl [earlier] later
    (by unfold Fits; decide)

def elsewhere : Piece Byte := ⟨1,[9]⟩

/-- Every byte of the packet is covered, yet a call with a source elsewhere answers no. -/
theorem not_satisfied_elsewhere :
    (∀ i<oneByte.size,(latest [earlier,elsewhere] (oneByte.addr+i)).isSome=true) ∧
      ∃ pkt1,oneByte.offers [earlier] = .ok pkt1 ∧
        pkt1.offer elsewhere oneByte.isSecure = .ok (false,pkt1,some elsewhere.data) :=
  ⟨by decide,_,rfl,rfl⟩

end AquaGem5.Memory.Functional
