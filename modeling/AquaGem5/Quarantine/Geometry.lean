import AquaGem5.Address.AddrRange
import AquaGem5.Quarantine.Decoding

/-!
# The geometry behind the quarantine (mem_interface.cc, mem_ctrl.cc)

`DRAMInterface` divides the capacity of its address range into ranks, banks and rows.
`Row_Quarantine` takes 8 KB of the raw address for a row and has the detector decode 16 banks of one
rank, whatever the interface was built with.
-/

namespace AquaGem5.Quarantine
open Checked Detector Address Nat

inductive GeometryFault where
  | panic
  | fatal
  | divByZero
  | shift
  deriving DecidableEq

def isPowerOf2 (n : UInt32) : Prop := n≠0 ∧ n &&& (n-1)=0

instance (n : UInt32) : Decidable (isPowerOf2 n) := inferInstanceAs (Decidable (_ ∧ _))

def floorLog2 (x : ℕ) : ℕ := Nat.log 2 x

def ceilLog2 (n : ℕ) : ℕ := if n=1 then 0 else floorLog2 (n-1)+1

structure DRAMParams where
  range : AddrRange
  devicesPerRank : UInt32
  burstLength : UInt32
  deviceBusWidth : UInt32
  deviceRowBufferSize : UInt32
  ranksPerChannel : UInt32
  banksPerRank : UInt32
  bankGroupsPerRank : UInt32

/-- The interface, with what the checks of its constructors leave true. -/
structure DRAMInterface where
  range : AddrRange
  burstSize : UInt32
  rowBufferSize : UInt32
  ranksPerChannel : UInt32
  banksPerRank : UInt32
  bankGroupsPerRank : UInt32
  range_valid : range._start≤range._end ∧ range.size≠0
  stripes : range.interleaved=true → range.granularity ≠ .error .shift
  burst_pow : isPowerOf2 burstSize
  ranks_pow : isPowerOf2 ranksPerChannel
  /-- The shift of the capacity is within its 64 bits. -/
  capacity_fits : ceilLog2 range.size.toNat<64
  divides : rowBufferSize*banksPerRank*ranksPerChannel≠0
  groups : 0<bankGroupsPerRank →
    bankGroupsPerRank≤banksPerRank ∧ banksPerRank%bankGroupsPerRank=0

namespace DRAMInterface

/-- `ULL(1) << ceilLog2(AbstractMemory::size())`. -/
def capacity (d : DRAMInterface) : ℕ := 2^ceilLog2 d.range.size.toNat

/-- The product is one of `uint32_t`, and so is the member the quotient is assigned to. -/
def rowsPerBank (d : DRAMInterface) : ℕ :=
  d.capacity/(d.rowBufferSize*d.banksPerRank*d.ranksPerChannel).toNat%2^32

/-- `AbstractMemory`, `MemInterface` and `DRAMInterface` in their order. -/
def construct (p : DRAMParams) : Except GeometryFault DRAMInterface :=
  let burstSize := p.devicesPerRank*p.burstLength*p.deviceBusWidth/8
  let rowBufferSize := p.devicesPerRank*p.deviceRowBufferSize
  if hrange : ¬(p.range._start≤p.range._end ∧ p.range.size≠0) then .error .panic
  else if burstSize=0 then .error .divByZero
  else if hstripes : ¬(p.range.interleaved=true → p.range.granularity ≠ .error .shift) then .error .shift
  else if hburst : ¬isPowerOf2 burstSize then .error .fatal
  else if hranks : ¬isPowerOf2 p.ranksPerChannel then .error .fatal
  else if hcapacity : ¬ceilLog2 p.range.size.toNat<64 then .error .shift
  else if hdivides : rowBufferSize*p.banksPerRank*p.ranksPerChannel=0 then .error .divByZero
  else if hgroups : ¬(0<p.bankGroupsPerRank →
      p.bankGroupsPerRank≤p.banksPerRank ∧ p.banksPerRank%p.bankGroupsPerRank=0) then .error .fatal
  else .ok {
    range := p.range
    burstSize := burstSize
    rowBufferSize := rowBufferSize
    ranksPerChannel := p.ranksPerChannel
    banksPerRank := p.banksPerRank
    bankGroupsPerRank := p.bankGroupsPerRank
    range_valid := not_not.mp hrange
    stripes := not_not.mp hstripes
    burst_pow := not_not.mp hburst
    ranks_pow := not_not.mp hranks
    capacity_fits := not_not.mp hcapacity
    divides := hdivides
    groups := not_not.mp hgroups}

/-- `dram->getAddrRange().contains(pkt->getAddr())`. -/
def Accepts (d : DRAMInterface) (addr : Addr) : Prop := d.range.contains addr = .ok true

/-- What the controller passes on to the defence. -/
def params (d : DRAMInterface) (p : MemCtrlParams) : MemCtrlParams :=
  {p with
    rowsPerBank := d.rowsPerBank
    banksPerRank := d.banksPerRank.toNat
    ranksPerChannel := d.ranksPerChannel.toNat}

def numRows (d : DRAMInterface) : ℕ :=
  d.rowsPerBank*(d.banksPerRank.toNat%256)*(d.ranksPerChannel.toNat%256)*1%2^32

end DRAMInterface

namespace RowQuarantine

variable {s s' u : RowQuarantine} {currTick : UInt64} {addr : ℕ}

/-- The indices of an access: its row is counted, and the detector has the bank and the row it decodes. -/
def InBounds (s : RowQuarantine) (addr : ℕ) : Prop :=
  addr/8192<s.numRows ∧ ∃ t m, s.decodeAddr addr = .ok (t,m) ∧
    m.bank.bankID<s.detector.numBanks ∧ m.rowID<s.detector.numRows

structure SameLayout (s s' : RowQuarantine) : Prop where
  randRowID : s'.randRowID=s.randRowID
  numRows : s'.numRows=s.numRows
  counters : s'.numAccessesToRow.size=s.numAccessesToRow.size
  banks : s'.detector.numBanks=s.detector.numBanks
  rows : s'.detector.numRows=s.detector.numRows

theorem SameLayout.trans (h : SameLayout s s') (h' : SameLayout s' u) : SameLayout s u :=
  ⟨h'.randRowID.trans h.randRowID,h'.numRows.trans h.numRows,h'.counters.trans h.counters,
    h'.banks.trans h.banks,h'.rows.trans h.rows⟩

theorem Updated.layout {t : IndirectionTables} {k : Counters} (h : Updated s t k s') : SameLayout s s' := by
  obtain ⟨f,c,d,st,_,_,_,rfl⟩:=h
  exact ⟨rfl,rfl,rfl,rfl,rfl⟩

theorem reset_layout (hu : SameLayout s u) : Post u.reset (SameLayout s) := by
  unfold reset
  refine (sweepRows_frame _ u.numRows 0).forget ?_
  rintro v ⟨acc,rows,residency,hsize,rfl⟩
  exact hu.trans ⟨rfl,rfl,hsize,rfl,rfl⟩

theorem startAccess_layout (s : RowQuarantine) (currTick : UInt64) :
    Post (s.startAccess currTick) (SameLayout s) := by
  unfold startAccess
  rw [post_ite]
  exact ⟨fun _ => reset_layout ⟨rfl,rfl,rfl,rfl,rfl⟩,fun _ => ⟨rfl,rfl,rfl,rfl,rfl⟩⟩

theorem answer_layout {det : MisraGries} {flag : Bool} {row : ℕ} {b : Bank}
    (h : u.detector.access row b false = .ok (det,flag)) :
    SameLayout u {u with detector := det, decision := {u.decision with mitigate := flag} } := by
  have hsame : Post (u.detector.access row b false) (fun r => r.1.numBanks=u.detector.numBanks ∧
      r.1.numRows=u.detector.numRows) := by
    unfold MisraGries.access
    exact (post_true _).bind fun _ _ => (post_true _).bind fun _ _ => ⟨rfl,rfl⟩
  exact ⟨rfl,rfl,rfl,(hsame.of_ok h).1,(hsame.of_ok h).2⟩

theorem detect_layout (s : RowQuarantine) (currTick : UInt64) (addr : ℕ) :
    Post (s.detect currTick addr) (SameLayout s) :=
  detect_of (startAccess_layout s currTick)
    (fun u rowID hu => (addQCheckDelay_frame u rowID).forget fun _ hv => hu.trans hv.2.layout)
    (fun _ _ _ hu => hu.trans ⟨rfl,rfl,rfl,rfl,rfl⟩) fun _ _ _ _ _ hu hdet => hu.trans (answer_layout hdet)

theorem access_layout {rows n : ℕ} (hs : s.Mapped rows n) (h : s.access currTick addr = .ok s') :
    SameLayout s s' := by
  obtain ⟨m,hdetect,hcases⟩:=access_cases h
  have hm:=(detect_mapped hs currTick addr).of_ok hdetect
  have hlayout:=(detect_layout s currTick addr).of_ok hdetect
  obtain ⟨f,hf⟩:=hm.2.2.inverse
  rcases hcases with ⟨_,hq⟩ | ⟨_,misses,hd⟩ | ⟨_,rfl⟩
  · exact hlayout.trans ((quarantineRow_frame hf _).of_ok hq).2.2.layout
  · have hsame : SameLayout m {m with prevDrainCacheMissVal := misses} := ⟨rfl,rfl,rfl,rfl,rfl⟩
    rcases (drainRow_frame (s := {m with prevDrainCacheMissVal := misses}) hf).of_ok hd with
      ⟨_,hlook⟩ | ⟨_,hu⟩
    · exact hlayout.trans (hsame.trans hlook.layout)
    · exact hlayout.trans (hsame.trans hu.layout)
  · exact hlayout

theorem accessAll_layout {rows n : ℕ} {as : List (UInt64 × ℕ)} {log : List Event} (hs : s.Mapped rows n)
    (h : s.accessAll as = .ok (s',log)) : SameLayout s s' := by
  induction as generalizing s log with
  | nil =>
    cases h
    exact ⟨rfl,rfl,rfl,rfl,rfl⟩
  | cons a as ih =>
    obtain ⟨s1,rest,haccess,hrest,rfl⟩:=accessAll_cons h
    exact (access_layout hs haccess).trans (ih (access_kept hs haccess).mapped hrest)

structure Built (d : DRAMInterface) (ids : Cells ℕ) (s : RowQuarantine) : Prop where
  randRowID : s.randRowID=ids
  numRows : s.numRows=d.numRows
  counters : s.numAccessesToRow.size=d.numRows
  banks : s.detector.numBanks=d.banksPerRank.toNat%256
  rows : s.detector.numRows=d.rowsPerBank

variable {d : DRAMInterface} {p : MemCtrlParams} {draws : ℕ → ℕ} {trackers : Bank → Tracker}
  {memory : RowQuarantine} {ids : Cells ℕ}

theorem Built.layout (h : Built d ids s) (hl : SameLayout s s') : Built d ids s' :=
  ⟨hl.randRowID.trans h.randRowID,hl.numRows.trans h.numRows,hl.counters.trans h.counters,
    hl.banks.trans h.banks,hl.rows.trans h.rows⟩

theorem buildRQ_built (hbuild : buildRQ (d.params p) draws trackers memory = .ok s) :
    Built d (shuffle draws d.numRows d.numRows 0 ⟨d.numRows,id⟩) s ∧ s.Mapped d.numRows p.rhRqQrSize := by
  obtain ⟨_,_,_,_,_,_,_,_,_,_,_,rfl⟩:=(buildRQ_post (d.params p) draws trackers memory).of_ok hbuild
  exact ⟨⟨rfl,rfl,rfl,rfl,rfl⟩,construct_mapped p.rhRqQrSize d.rowsPerBank (p.rhActualThreshold/2)
    (d.banksPerRank.toNat%256) (d.ranksPerChannel.toNat%256) 1 draws memory⟩

theorem accessAll_built {as : List (UInt64 × ℕ)} {log : List Event}
    (hbuild : buildRQ (d.params p) draws trackers memory = .ok s) (hrun : s.accessAll as = .ok (s',log)) :
    Built d (shuffle draws d.numRows d.numRows 0 ⟨d.numRows,id⟩) s' := by
  obtain ⟨hbuilt,hmapped⟩:=buildRQ_built hbuild
  exact hbuilt.layout (accessAll_layout hmapped hrun)

theorem numRows_lt (d : DRAMInterface) : d.numRows<2^32 := Nat.mod_lt _ (by decide)

theorem inBounds_iff (h : Built d ids s) (hsize : ids.size=d.numRows) : s.InBounds addr ↔
    addr/8192<d.numRows ∧ d.numRows/16≠0 ∧ ids.get (addr/8192)%16<d.banksPerRank.toNat%256 ∧
      ids.get (addr/8192)/16%(d.numRows/16)<d.rowsPerBank := by
  unfold InBounds
  rw [h.numRows,h.banks,h.rows]
  refine and_congr_right fun haddr => ?_
  have hcount : (s.numAccessesToRow.read (addr/8192) : Except Fault ℕ) =
      .ok (s.numAccessesToRow.get (addr/8192)) := Cells.read_of_lt _ (by rwa [h.counters])
  have hrow : (s.randRowID.read (addr/8192) : Except Fault ℕ) = .ok (ids.get (addr/8192)) := by
    rw [h.randRowID]
    exact Cells.read_of_lt _ (by rwa [hsize])
  unfold decodeAddr
  simp only [Nat.mod_eq_of_lt (haddr.trans (numRows_lt d)),hcount,hrow,h.numRows,bind,Except.bind,umod]
  by_cases hzero : d.numRows/16=0
  · rw [if_pos hzero]
    constructor
    · rintro ⟨t,m,hno,_⟩
      cases hno
    · exact fun hno => absurd hzero hno.1
  · rw [if_neg hzero]
    constructor
    · rintro ⟨t,m,hdecode,hbank,hrowID⟩
      cases hdecode
      exact ⟨hzero,hbank,hrowID⟩
    · rintro ⟨_,hbank,hrowID⟩
      exact ⟨_,_,rfl,hbank,hrowID⟩

def placing (r v : ℕ) (ii : ℕ) : ℕ := if ii=r then v else ii

theorem shuffle_placing {n r v fuel ii : ℕ} (hv : v<n) (hfuel : ii+fuel=n) (hr : r<n) :
    (shuffle (placing r v) n fuel ii ids).get r=if ii≤r then ids.get v else ids.get r := by
  induction fuel generalizing ii ids with
  | zero =>
    rw [if_neg (by omega)]
    rfl
  | succ fuel ih =>
    rw [shuffle,ih (by omega)]
    by_cases hii : ii=r
    · have hjj : placing r v ii%n=v := by
        rw [placing,if_pos hii,Nat.mod_eq_of_lt hv]
      rw [hjj,if_neg (by omega),if_pos (by omega),hii]
      by_cases hrv : r=v
      · rw [hrv,Cells.get_set_self]
      · rw [Cells.get_set_ne _ _ hrv,Cells.get_set_self]
    · have hjj : placing r v ii%n=ii := by
        rw [placing,if_neg hii,Nat.mod_eq_of_lt (by omega)]
      have hsame : ((ids.set ii (ids.get ii)).set ii (ids.get ii)).get=ids.get := by
        funext x
        rw [Cells.get_set,Cells.get_set]
        grind
      rw [hjj,hsame]
      exact if_congr (by omega) rfl rfl

end RowQuarantine

namespace DRAMInterface
open RowQuarantine

/-- Whatever `rand()` returns, the loops of the constructor end, and in every run of the quarantine that
`MemCtrl` builds for the interface the next access to an address of the range stays within the tables. -/
def Bounded (d : DRAMInterface) : Prop := ∀ draws addr,d.Accepts addr → (∃ ids,randomRows draws d.numRows = .ok ids) ∧
  ∀ p trackers memory s as s' log,buildRQ (d.params p) draws trackers memory = .ok s →
    s.accessAll as = .ok (s',log) → s'.InBounds addr.toNat

/-- The sixteen banks of `decodeAddr` are banks of the detector, and so are its rows. -/
structure Decodes (d : DRAMInterface) : Prop where
  rows_lt : d.numRows<2^31
  banks : 16≤d.banksPerRank.toNat%256
  rows_pos : 0<d.numRows/16
  rows_le : d.numRows/16≤d.rowsPerBank

variable {d : DRAMInterface} {addr : Addr}

theorem bounded_of_decodes (h : d.Decodes) (hreach : ∀ addr,d.Accepts addr → addr.toNat<8192*d.numRows) :
    d.Bounded := by
  intro draws addr haddr
  refine ⟨(randomRows_post draws h.rows_lt).exists_ok,fun p trackers memory s as s' log hbuild hrun => ?_⟩
  have hrow : addr.toNat/8192<d.numRows := Nat.div_lt_of_lt_mul (hreach addr haddr)
  refine (inBounds_iff (accessAll_built hbuild hrun) (shuffle_size ..)).mpr ⟨hrow,h.rows_pos.ne',?_,?_⟩
  · exact (mod_lt _ (by decide)).trans_le h.banks
  · exact (mod_lt _ h.rows_pos).trans_le h.rows_le

theorem buildRQ_small (d : DRAMInterface) (draws : ℕ → ℕ) :
    ∃ s,buildRQ (d.params smallParams) draws (fun _ => .zeroed) zeroed = .ok s := by
  have htotal : Post (buildRQ (d.params smallParams) draws (fun _ => .zeroed) zeroed) (fun _ => True)
      fun _ => False := by
    have hthreshold : ¬4/2=0 := by decide
    have hcache : 1/256<delayPsCacti.size := by decide
    have hgroup : ¬1=0 := one_ne_zero
    have hlines : 32/1≠0 := by decide
    have hfilter : Nat.log 2 (32/1)<delayPsCacti.size := by decide +kernel
    unfold buildRQ
    simp only [post_bind,post_udiv,Cells.post_read,post_check,post_pure]
    exact ⟨hthreshold,fun _ => ⟨fun _ => ⟨hgroup,fun _ => ⟨fun _ => ⟨fun _ => trivial,fun h => h hfilter⟩,
      fun h => h hlines⟩⟩,fun h => h hcache⟩⟩
  exact htotal.exists_ok

theorem decodes_to (h : d.Bounded) (haddr : d.Accepts addr) {v : ℕ} (hv : v<d.numRows) :
    d.numRows/16≠0 ∧ v%16<d.banksPerRank.toNat%256 ∧ v/16%(d.numRows/16)<d.rowsPerBank := by
  have hin : ∀ draws,addr.toNat/8192<d.numRows ∧ d.numRows/16≠0 ∧
      (shuffle draws d.numRows d.numRows 0 ⟨d.numRows,id⟩).get (addr.toNat/8192)%16 <
        d.banksPerRank.toNat%256 ∧
      (shuffle draws d.numRows d.numRows 0 ⟨d.numRows,id⟩).get (addr.toNat/8192)/16 %
        (d.numRows/16)<d.rowsPerBank := by
    intro draws
    obtain ⟨s,hs⟩:=buildRQ_small d draws
    exact (inBounds_iff (buildRQ_built hs).1 (shuffle_size ..)).mp
      ((h draws addr haddr).2 smallParams _ _ s [] s [] hs rfl)
  have hr:=(hin id).1
  have hplaced:=hin (placing (addr.toNat/8192) v)
  rw [shuffle_placing hv (zero_add _) hr,if_pos (zero_le _)] at hplaced
  exact hplaced.2

theorem reach_of_bounded (h : d.Bounded) (haddr : d.Accepts addr) : addr.toNat<8192*d.numRows := by
  obtain ⟨s,hs⟩:=buildRQ_small d id
  have hin:=((h id addr haddr).2 smallParams _ _ s [] s [] hs rfl).1
  rw [(buildRQ_built hs).1.numRows] at hin
  omega

theorem decodes_of_bounded (h : d.Bounded) (haddr : d.Accepts addr) : d.Decodes := by
  have hreach:=reach_of_bounded h haddr
  have hpos:=(decodes_to h haddr (show 0<d.numRows by omega)).1
  refine ⟨?_,?_,pos_of_ne_zero hpos,?_⟩
  · obtain ⟨ids,hids⟩:=(h id addr haddr).1
    by_contra hn
    rw [randomRows_overflow id (Nat.not_lt.mp hn)] at hids
    cases hids
  · have hbank:=(decodes_to h haddr (show 15<d.numRows by omega)).2.1
    omega
  · have hlast:=(decodes_to h haddr (show 16*(d.numRows/16-1)<d.numRows by omega)).2.2
    rw [Nat.mul_div_cancel_left _ (by decide),Nat.mod_eq_of_lt (by omega)] at hlast
    omega

theorem bounded_iff_reach (d : DRAMInterface) : d.Bounded ↔
    (∀ addr,¬d.Accepts addr) ∨ d.Decodes ∧ ∀ addr,d.Accepts addr → addr.toNat<8192*d.numRows := by
  constructor
  · intro h
    by_cases hsome : ∃ addr,d.Accepts addr
    · obtain ⟨addr,haddr⟩:=hsome
      exact .inr ⟨decodes_of_bounded h haddr,fun _ => reach_of_bounded h⟩
    · exact .inl (not_exists.mp hsome)
  · rintro (hnone | ⟨hdecodes,hreach⟩)
    · exact fun _ addr haddr => absurd haddr (hnone addr)
    · exact bounded_of_decodes hdecodes hreach

theorem accepts_plain (hmasks : d.range.masks=[]) (hmatch : d.range.intlvMatch=0) :
    d.Accepts addr ↔ d.range._start≤addr ∧ addr<d.range._end := by
  unfold Accepts AddrRange.contains AddrRange.sel
  rw [hmasks,hmatch]
  by_cases hin : d.range._start≤addr ∧ addr<d.range._end
  · rw [if_pos hin]
    exact ⟨fun _ => hin,fun _ => rfl⟩
  · rw [if_neg hin]
    exact ⟨fun hno => absurd hno (by decide),fun hno => absurd hno hin⟩

theorem start_lt (d : DRAMInterface) : d.range._start.toNat<d.range._end.toNat := by
  obtain ⟨hle,hsize⟩:=d.range_valid
  refine lt_of_le_of_ne (BitVec.le_def.mp hle) fun heq => hsize ?_
  unfold AddrRange.size
  rw [BitVec.eq_of_toNat_eq heq,BitVec.sub_self,BitVec.zero_ushiftRight]
  rfl

theorem bounded_iff_plain (hmasks : d.range.masks=[]) (hmatch : d.range.intlvMatch=0) :
    d.Bounded ↔ d.Decodes ∧ d.range._end.toNat≤8192*d.numRows := by
  have hlt:=start_lt d
  have haccepts : ∀ addr,d.Accepts addr ↔ d.range._start.toNat≤addr.toNat ∧
      addr.toNat<d.range._end.toNat := fun addr => by
    rw [accepts_plain hmasks hmatch,BitVec.le_def,BitVec.lt_def]
  -- the last address of the range
  have hlast : (d.range._end-1).toNat=d.range._end.toNat-1 := by
    have hend:=d.range._end.isLt
    rw [BitVec.toNat_sub,show (1 : Addr).toNat=1 from rfl]
    omega
  rw [bounded_iff_reach]
  constructor
  · rintro (hnone | ⟨hdecodes,hreach⟩)
    · exact absurd ((haccepts d.range._start).mpr ⟨le_refl _,hlt⟩) (hnone _)
    · have hend:=hreach (d.range._end-1) ((haccepts _).mpr (by omega))
      exact ⟨hdecodes,by omega⟩
  · rintro ⟨hdecodes,hend⟩
    exact .inr ⟨hdecodes,fun addr haddr => ((haccepts addr).mp haddr).2.trans_le hend⟩

/-- The tables bound every access exactly when the index of the constructor's loops does not overflow and the
interface has the sixteen banks of a rank that `decodeAddr` takes for granted, no fewer rows in each than it decodes, and a range below the rows
counted, 8 KB each; a range without interleaving has to end there. -/
theorem bounded_iff (d : DRAMInterface) :
    (d.Bounded ↔ (∀ addr,¬d.Accepts addr) ∨
      d.Decodes ∧ ∀ addr,d.Accepts addr → addr.toNat<8192*d.numRows) ∧
    (d.range.masks=[] → d.range.intlvMatch=0 →
      (d.Bounded ↔ d.Decodes ∧ d.range._end.toNat≤8192*d.numRows)) :=
  ⟨bounded_iff_reach d,bounded_iff_plain⟩

def gigabyte (ranks : UInt32) : DRAMParams :=
  ⟨⟨0,0x40000000,[],0⟩,8,8,8,1024,ranks,16,4⟩

theorem one_rank_bounded : ∃ d,construct (gigabyte 1) = .ok d ∧ d.Bounded := by
  have hbuild : Post (construct (gigabyte 1)) (fun d => (d.range.masks=[] ∧ d.range.intlvMatch=0) ∧
      (d.numRows<2^31 ∧ 16≤d.banksPerRank.toNat%256 ∧ 0<d.numRows/16 ∧ d.numRows/16≤d.rowsPerBank) ∧
        d.range._end.toNat≤8192*d.numRows) fun _ => False := by
    decide +kernel
  obtain ⟨d,hd,⟨hmasks,hmatch⟩,⟨hlt,hbanks,hpos,hrows⟩,hend⟩:=hbuild.returns
  exact ⟨d,hd,((bounded_iff d).2 hmasks hmatch).mpr ⟨⟨hlt,hbanks,hpos,hrows⟩,hend⟩⟩

/-- With two ranks the detector has half the rows that are decoded. -/
theorem two_ranks_overrun : ∃ d,construct (gigabyte 2) = .ok d ∧ ¬d.Bounded := by
  have hbuild : Post (construct (gigabyte 2)) (fun d => (d.range.masks=[] ∧ d.range.intlvMatch=0) ∧
      d.rowsPerBank<d.numRows/16) fun _ => False := by
    decide +kernel
  obtain ⟨d,hd,⟨hmasks,hmatch⟩,hrows⟩:=hbuild.returns
  refine ⟨d,hd,fun h => ?_⟩
  exact absurd ((bounded_iff_plain hmasks hmatch).mp h).1.rows_le (Nat.not_le.mpr hrows)

end DRAMInterface

end AquaGem5.Quarantine
