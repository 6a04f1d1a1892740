import AquaGem5.Lib.Checked
import AquaGem5.Lib.Significand
import Mathlib.Data.List.Nodup

/-!
# Flits between links of different widths (garnet/NetworkBridge.cc, garnet/flit.cc)

The bridge converts widths (`enSerDes`) and the flits are those of packets, not credits.
-/

namespace AquaGem5.Ruby
open Checked Significand Function List Nat

namespace NetworkBridge

inductive FlitType where
  | HEAD_
  | BODY_
  | TAIL_
  | HEAD_TAIL_
  deriving DecidableEq

inductive BridgeType where
  | LINK_OBJECT
  | OBJECT_LINK
  deriving DecidableEq

inductive Fault where
  | assertion

structure Flit where
  m_id : ℕ
  m_vc : ℕ
  m_size : ℕ
  msgSize : ℕ
  m_width : ℕ
  m_type : FlitType

def Flit.new (id vc size MsgSize bWidth : ℕ) : Flit :=
  { m_id := id
    m_vc := vc
    m_size := size
    msgSize := MsgSize
    m_width := bWidth
    m_type := if size=1 then .HEAD_TAIL_ else if id=0 then .HEAD_ else if id=size-1 then .TAIL_ else .BODY_}

/-- A value of type `float`. -/
def single (x : ℚ) : ℚ := rounded 24 x

/-- `(float)a / (float)b`. -/
def quotient (a b : ℕ) : ℚ := single (single a/single b)

/-- `(int)divCeil((float)a, (float)b)`. -/
def divCeilFloat (a b : ℕ) : ℕ := ⌊single (single (single (single a+single b)-1)/single b)⌋₊

/-- `divCeil` on `uint32_t`. -/
def divCeil (a b : ℕ) : ℕ := (a+b-1)%2^32/b

def Flit.serialize (f : Flit) (ser_id bWidth : ℕ) : Except Fault Flit := do
  check (f.m_width>bWidth) .assertion
  let ratio := divCeil f.m_width bWidth
  let new_id := f.m_id*ratio+ser_id
  let new_size := divCeilFloat f.msgSize bWidth
  check (new_id<new_size) .assertion
  return .new new_id f.m_vc new_size f.msgSize bWidth

def Flit.deserialize (f : Flit) (bWidth : ℕ) : Except Fault Flit := do
  let ratio := divCeilFloat bWidth f.m_width
  let new_id := divCeilFloat (f.m_id+1) ratio-1
  let new_size := divCeilFloat f.msgSize bWidth
  check (new_id<new_size) .assertion
  return .new new_id f.m_vc new_size f.msgSize bWidth

structure Params where
  mType : BridgeType
  bitWidth : ℕ
  linkWidth : ℕ

def Params.target_width (c : Params) : ℕ := if c.mType = .OBJECT_LINK then c.linkWidth else c.bitWidth

def Params.cur_width (c : Params) : ℕ := if c.mType = .OBJECT_LINK then c.bitWidth else c.linkWidth

end NetworkBridge

open NetworkBridge

/-- The flits are scheduled at rising times, in the order of the list. -/
structure NetworkBridge where
  lenBuffer : ℕ → ℕ
  sizeSent : ℕ → ℕ
  flitsSent : ℕ → ℕ
  scheduled : List Flit

namespace NetworkBridge

def sendDeserialized (target_width : ℕ) (t_flit : Flit) (flitPossible : ℕ) (s : NetworkBridge) :
    Except Fault NetworkBridge := do
  check (flitPossible<2) .assertion
  if flitPossible=0 then return s
  else
    let fl ← t_flit.deserialize target_width
    return {s with lenBuffer := Function.update s.lenBuffer t_flit.m_vc 0, scheduled := s.scheduled++[fl]}

def stopTracking (s : NetworkBridge) (vc : ℕ) : NetworkBridge :=
  {s with flitsSent := Function.update s.flitsSent vc 0, sizeSent := Function.update s.sizeSent vc 0}

def deserialize (cur_width target_width : ℕ) (s : NetworkBridge) (t_flit : Flit) : Except Fault NetworkBridge :=
  let vc := t_flit.m_vc
  if t_flit.m_type = .TAIL_ ∨ t_flit.m_type = .HEAD_TAIL_ then
    sendDeserialized target_width t_flit ⌈quotient (t_flit.msgSize-s.sizeSent vc) target_width⌉₊ (s.stopTracking vc)
  else
    let flitPossible := ⌊quotient ((t_flit.m_id+1)*cur_width-s.sizeSent vc) target_width⌋₊
    sendDeserialized target_width t_flit flitPossible <|
      if flitPossible≠0 then
        {s with
          sizeSent := Function.update s.sizeSent vc (s.sizeSent vc+target_width)
          flitsSent := Function.update s.flitsSent vc (t_flit.m_id+1)}
      else s

def serializeParts (t_flit : Flit) (target_width : ℕ) : List ℕ → Except Fault (List Flit)
  | [] => .ok []
  | i::is => do
    let fl ← t_flit.serialize i target_width
    let fls ← serializeParts t_flit target_width is
    return fl::fls

def sendSerialized (target_width : ℕ) (t_flit : Flit) (flitPossible : ℕ) (s : NetworkBridge) :
    Except Fault NetworkBridge := do
  check (flitPossible>0) .assertion
  let fls ← serializeParts t_flit target_width (List.range flitPossible)
  return {s with scheduled := s.scheduled++fls}

def serialize (cur_width target_width : ℕ) (s : NetworkBridge) (t_flit : Flit) : Except Fault NetworkBridge :=
  let vc := t_flit.m_vc
  if t_flit.m_type = .HEAD_ ∨ t_flit.m_type = .BODY_ then
    let flitPossible := ⌊quotient ((t_flit.m_id+1)*cur_width-s.sizeSent vc) target_width⌋₊
    sendSerialized target_width t_flit flitPossible <|
      if flitPossible≠0 then
        {s with
          sizeSent := Function.update s.sizeSent vc (s.sizeSent vc+flitPossible*target_width)
          flitsSent := Function.update s.flitsSent vc (s.flitsSent vc+flitPossible)}
      else s
  else
    sendSerialized target_width t_flit ⌈quotient (t_flit.msgSize-s.sizeSent vc) target_width⌉₊ (s.stopTracking vc)

def flitisizeAndSend (c : Params) (s : NetworkBridge) (t_flit : Flit) : Except Fault NetworkBridge := do
  check (c.target_width≠c.cur_width) .assertion
  if c.target_width>c.cur_width then s.deserialize c.cur_width c.target_width t_flit
  else s.serialize c.cur_width c.target_width t_flit

def flits (MsgSize width : ℕ) : ℕ := (MsgSize+width-1)/width

def packet (vc MsgSize width : ℕ) : List Flit :=
  (List.range (flits MsgSize width)).map fun id => .new id vc (flits MsgSize width) MsgSize width

structure Idle (vc : ℕ) (s : NetworkBridge) : Prop where
  lenBuffer : s.lenBuffer vc=0
  sizeSent : s.sizeSent vc=0
  flitsSent : s.flitsSent vc=0

/-- The bridge after the first `k` flits of a packet, with flits of other channels in between. -/
inductive Run (c : Params) (vc MsgSize : ℕ) : ℕ → NetworkBridge → Prop
  | start (s : NetworkBridge) : Idle vc s → s.scheduled.filter (·.m_vc=vc)=[] → Run c vc MsgSize 0 s
  | own (k : ℕ) (s s' : NetworkBridge) : Run c vc MsgSize k s → k<flits MsgSize c.cur_width →
      s.flitisizeAndSend c (.new k vc (flits MsgSize c.cur_width) MsgSize c.cur_width) = .ok s' → Run c vc MsgSize (k+1) s'
  | other (k : ℕ) (s s' : NetworkBridge) (f : Flit) : Run c vc MsgSize k s → f.m_vc≠vc →
      s.flitisizeAndSend c f = .ok s' → Run c vc MsgSize k s'

/-- Each flit of the packet is taken, and after the last one the packet has left at the other width, with one head and
one tail. -/
def Converts (c : Params) (vc MsgSize : ℕ) : Prop :=
  ∀ k s,Run c vc MsgSize k s →
    (k<flits MsgSize c.cur_width →
      ∃ s',s.flitisizeAndSend c (.new k vc (flits MsgSize c.cur_width) MsgSize c.cur_width) = .ok s') ∧
    (k=flits MsgSize c.cur_width →
      s.scheduled.filter (·.m_vc=vc)=packet vc MsgSize c.target_width ∧ Idle vc s ∧
        (s.scheduled.filter (·.m_vc=vc)).countP (fun f => f.m_type = .HEAD_ ∨ f.m_type = .HEAD_TAIL_)=1 ∧
        (s.scheduled.filter (·.m_vc=vc)).countP (fun f => f.m_type = .TAIL_ ∨ f.m_type = .HEAD_TAIL_)=1)

/-- Widths and sizes for which the flits fit together. -/
def Fits (cur_width target_width MsgSize : ℕ) : Prop :=
  if target_width<cur_width then target_width∣cur_width ∨ MsgSize≤cur_width
  else (flits MsgSize target_width-1)*((target_width+cur_width-1)/cur_width)<flits MsgSize cur_width

variable {c : Params} {C T M a b vc k n : ℕ} {s s' : NetworkBridge} {f : Flit}

theorem single_natCast (h : a<2^24) : single a=a := rounded_natCast h

theorem floor_quotient (hb : 0<b) (ha : a<2^24) (hb' : b<2^24) : ⌊quotient a b⌋₊ = a/b := by
  rw [quotient,single_natCast ha,single_natCast hb']
  exact floor_rounded hb ha

theorem ceil_quotient (hb : 0<b) (ha : a<2^24) (hb' : b<2^24) : ⌈quotient a b⌉₊ = flits a b := by
  rw [quotient,single_natCast ha,single_natCast hb']
  exact ceil_rounded hb ha

theorem divCeilFloat_eq (hb : 0<b) (h : a+b<2^24) : divCeilFloat a b=flits a b := by
  have hsum : single a+single b=((a+b : ℕ) : ℚ) := by
    rw [single_natCast (by omega),single_natCast (by omega)]
    exact (cast_add a b).symm
  have hsub : ((a+b : ℕ) : ℚ)-1=((a+b-1 : ℕ) : ℚ) := (Nat.cast_pred (Nat.add_pos_right a hb)).symm
  rw [divCeilFloat,hsum,single_natCast h,hsub,single_natCast (by omega),single_natCast (by omega : b<2^24)]
  exact floor_rounded hb (by omega)

theorem divCeil_eq (h : a+b<2^32) : divCeil a b=flits a b := by
  rw [divCeil,mod_eq_of_lt (by omega)]
  rfl

theorem lt_flits (hb : 0<b) : k<flits a b ↔ k*b<a := by
  rw [flits,← succ_le_iff,le_div_iff_mul_le hb,succ_mul]
  omega

theorem flits_le (hb : 0<b) : flits a b≤k ↔ a≤k*b := by
  rw [← not_lt,lt_flits hb,not_lt]

theorem flits_sub (hb : 0<b) (h : k*b<a) : flits (a-b*k) b=flits a b-k := by
  rw [flits,flits,show a-b*k+b-1=a+b-1-b*k by rw [mul_comm]; omega,sub_mul_div]

def emitted (C T M k : ℕ) : ℕ := if k<flits M C then k*C/T else flits M T

def parts (C T M k : ℕ) : List ℕ :=
  if C<T then if emitted C T M (k+1)-emitted C T M k=0 then [] else [k/flits T C]
  else List.range' (k*flits C T) (emitted C T M (k+1)-emitted C T M k)

structure Next (C T M vc k : ℕ) (s s' : NetworkBridge) : Prop where
  scheduled : s'.scheduled=s.scheduled++(parts C T M k).map fun id => .new id vc (flits M T) M T
  sizeSent : s'.sizeSent vc=if k+1<flits M C then T*emitted C T M (k+1) else 0
  flitsSent : k+1=flits M C → s'.flitsSent vc=0
  lenBuffer : s.lenBuffer vc=0 → s'.lenBuffer vc=0

def Accepted (C T M k : ℕ) : Prop :=
  (∀ id∈parts C T M k,id<flits M T) ∧ (C<T → emitted C T M (k+1)-emitted C T M k<2)

theorem emitted_of_lt (h : k<flits M C) : emitted C T M k=k*C/T := if_pos h

theorem emitted_flits : emitted C T M (flits M C)=flits M T := if_neg (Nat.lt_irrefl _)

theorem new_type (hk : k<n) (vc M C : ℕ) :
    ((Flit.new k vc n M C).m_type = .TAIL_ ∨ (Flit.new k vc n M C).m_type = .HEAD_TAIL_ ↔ k+1=n) ∧
      ((Flit.new k vc n M C).m_type = .HEAD_ ∨ (Flit.new k vc n M C).m_type = .BODY_ ↔ k+1≠n) := by
  unfold Flit.new
  simp only
  split_ifs <;> simp <;> omega

/-- No sum of the arithmetic is rounded: those of the sizes and, for a wider target, of its ratio are in single
precision, and that of the ratio for a narrower one is a `uint32_t`. -/
abbrev Exact (C T M : ℕ) : Prop := M+T<2^24 ∧ (C<T → C+T<2^24) ∧ C+T<2^32

theorem deserializeFlit_spec (hC : 0<C) (hlt : C<T) (hrange : Exact C T M) (hk : k<flits M C) :
    Post ((Flit.new k vc n M C).deserialize T)
      (fun fl => fl = .new (k/flits T C) vc (flits M T) M T ∧ k/flits T C<flits M T)
      fun _ => ¬k/flits T C<flits M T := by
  have hR : 0<flits T C := (lt_flits hC).mpr (by omega)
  have hRle : flits T C≤T := (flits_le hC).mpr (Nat.le_mul_of_pos_right T hC)
  have hkM : k*C<M := (lt_flits hC).mp hk
  have hkle : k≤k*C := Nat.le_mul_of_pos_right k hC
  have hid : divCeilFloat (k+1) (divCeilFloat T C)-1=k/flits T C := by
    rw [divCeilFloat_eq hC (by omega),divCeilFloat_eq hR (by omega),flits]
    rw [show k+1+flits T C-1=k+flits T C by omega,add_div_right _ hR,succ_sub_one]
  have hsize : divCeilFloat M T=flits M T := divCeilFloat_eq (hC.trans hlt) (by omega)
  show Post (check (divCeilFloat (k+1) (divCeilFloat T C)-1<divCeilFloat M T) Fault.assertion >>= fun _ =>
    pure (Flit.new (divCeilFloat (k+1) (divCeilFloat T C)-1) vc (divCeilFloat M T) M T)) _ _
  rw [hid,hsize,post_bind,post_check]
  exact ⟨fun h => ⟨rfl,h⟩,fun h => h⟩

theorem serializeFlit_spec (hT : 0<T) (hlt : T<C) (hrange : Exact C T M) (i : ℕ) :
    Post ((Flit.new k vc n M C).serialize i T)
      (fun fl => fl = .new (k*flits C T+i) vc (flits M T) M T ∧ k*flits C T+i<flits M T)
      fun _ => ¬k*flits C T+i<flits M T := by
  have hsize : divCeilFloat M T=flits M T := divCeilFloat_eq hT (by omega)
  rw [Flit.serialize,post_bind,post_check]
  refine ⟨fun _ => ?_,fun h => absurd hlt h⟩
  show Post (check (k*divCeil C T+i<divCeilFloat M T) Fault.assertion >>= fun _ =>
    pure (Flit.new (k*divCeil C T+i) vc (divCeilFloat M T) M T)) _ _
  rw [divCeil_eq hrange.2.2,hsize,post_bind,post_check]
  exact ⟨fun h => ⟨rfl,h⟩,fun h => h⟩

theorem serializeParts_spec (hT : 0<T) (hlt : T<C) (hrange : Exact C T M) (l : List ℕ) :
    Post (serializeParts (.new k vc n M C) T l)
      (fun fls => fls=l.map (fun i => Flit.new (k*flits C T+i) vc (flits M T) M T) ∧ ∀ i∈l,k*flits C T+i<flits M T)
      fun _ => ¬∀ i∈l,k*flits C T+i<flits M T := by
  induction l with
  | nil => exact ⟨rfl,fun _ hi => absurd hi not_mem_nil⟩
  | cons i l ih =>
    rw [serializeParts,post_bind]
    refine (serializeFlit_spec hT hlt hrange i).mono ?_ fun _ h hall => h (hall i (mem_cons_self ..))
    rintro fl ⟨rfl,hi⟩
    rw [post_bind]
    refine ih.mono ?_ fun _ h hall => h fun j hj => hall j (mem_cons_of_mem _ hj)
    rintro fls ⟨rfl,hl⟩
    exact ⟨rfl,forall_mem_cons.mpr ⟨hi,hl⟩⟩

theorem floor_step (hC : 0<C) (hT : 0<T) (hrange : Exact C T M) (hk : k+1<flits M C) :
    ⌊quotient ((k+1)*C-T*emitted C T M k) T⌋₊ = emitted C T M (k+1)-emitted C T M k := by
  have hkM : (k+1)*C<M := (lt_flits hC).mp hk
  rw [floor_quotient hT (by omega) (by omega),emitted_of_lt hk,emitted_of_lt (by omega : k<flits M C),sub_mul_div]

theorem ceil_step (hC : 0<C) (hT : 0<T) (hrange : Exact C T M) (hk : k+1=flits M C) :
    ⌈quotient (M-T*emitted C T M k) T⌉₊ = emitted C T M (k+1)-emitted C T M k := by
  have hlt : k<flits M C := by omega
  have hkM : k*C<M := (lt_flits hC).mp hlt
  have hle : k*C/T*T<M := (div_mul_le_self ..).trans_lt hkM
  rw [ceil_quotient hT (by omega) (by omega),emitted_of_lt hlt,hk,emitted_flits,flits_sub hT hle]

theorem emitted_le (hC : 0<C) (hT : 0<T) (hk : k<flits M C) : emitted C T M k≤emitted C T M (k+1) := by
  rw [emitted_of_lt hk,emitted]
  split
  · exact Nat.div_le_div_right (Nat.mul_le_mul_right C (Nat.le_succ k))
  · have hle : k*C/T*T<M := (div_mul_le_self ..).trans_lt ((lt_flits hC).mp hk)
    exact ((lt_flits hT).mpr hle).le

theorem sendDeserialized_spec (hC : 0<C) (hlt : C<T) (hrange : Exact C T M) (hk : k<flits M C)
    (hscheduled : s'.scheduled=s.scheduled) (hlen : s'.lenBuffer=s.lenBuffer)
    (hsize : s'.sizeSent vc=if k+1<flits M C then T*emitted C T M (k+1) else 0)
    (hflits : k+1=flits M C → s'.flitsSent vc=0) :
    Post (sendDeserialized T (.new k vc (flits M C) M C) (emitted C T M (k+1)-emitted C T M k) s')
      (fun s' => Next C T M vc k s s' ∧ Accepted C T M k) fun _ => ¬Accepted C T M k := by
  rw [sendDeserialized,post_bind,post_check]
  refine ⟨fun hone => ?_,fun hmany h => hmany (h.2 hlt)⟩
  by_cases hzero : emitted C T M (k+1)-emitted C T M k=0
  · have hparts : parts C T M k=[] := by rw [parts,if_pos hlt,if_pos hzero]
    rw [if_pos hzero]
    refine ⟨⟨?_,hsize,hflits,fun h => hlen ▸ h⟩,fun id hid => ?_,fun _ => hone⟩
    · rw [hscheduled,hparts,map_nil,append_nil]
    · rw [hparts] at hid
      cases hid
  · have hparts : parts C T M k=[k/flits T C] := by rw [parts,if_pos hlt,if_neg hzero]
    rw [if_neg hzero,post_bind]
    refine (deserializeFlit_spec hC hlt hrange hk).mono ?_ fun _ h hall => h (hall.1 _ ?_)
    · rintro fl ⟨rfl,hid⟩
      refine ⟨⟨?_,hsize,hflits,fun _ => update_self ..⟩,?_,fun _ => hone⟩
      · rw [hparts,← hscheduled]
        rfl
      · rw [hparts]
        exact fun id hin => mem_singleton.mp hin ▸ hid
    · rw [hparts]
      exact mem_singleton_self _

theorem emitted_le_succ (hT : 0<T) (hlt : C<T) (hk : k+1<flits M C) : emitted C T M (k+1)≤emitted C T M k+1 := by
  rw [emitted_of_lt hk,emitted_of_lt (lt_of_succ_lt hk),← add_div_right _ hT,succ_mul]
  exact Nat.div_le_div_right (Nat.add_le_add_left hlt.le _)

theorem deserialize_step (hC : 0<C) (hlt : C<T) (hrange : Exact C T M) (hk : k<flits M C)
    (hsize : s.sizeSent vc=T*emitted C T M k) : Post (s.deserialize C T (.new k vc (flits M C) M C))
      (fun s' => Next C T M vc k s s' ∧ Accepted C T M k) fun _ => ¬Accepted C T M k := by
  have hT : 0<T := hC.trans hlt
  have htype:=(new_type hk vc M C).1
  unfold deserialize
  by_cases hlast : k+1=flits M C
  · have hceil : ⌈quotient (M-s.sizeSent vc) T⌉₊ = _ := hsize ▸ ceil_step hC hT hrange hlast
    rw [if_pos (htype.mpr hlast)]
    show Post (sendDeserialized T _ ⌈quotient (M-s.sizeSent vc) T⌉₊ _) _ _
    rw [hceil]
    refine sendDeserialized_spec hC hlt hrange hk rfl rfl ?_ fun _ => update_self ..
    rw [if_neg (by omega)]
    exact update_self ..
  · have hmid : k+1<flits M C := by omega
    have hfloor : ⌊quotient ((k+1)*C-s.sizeSent vc) T⌋₊ = _ := hsize ▸ floor_step hC hT hrange hmid
    have hmono:=emitted_le hC hT hk
    have hone:=emitted_le_succ hT hlt hmid
    have hsend : ∀ d,d=emitted C T M (k+1)-emitted C T M k → Post (sendDeserialized T (.new k vc (flits M C) M C) d
        (if d≠0 then
          {s with
            sizeSent := update s.sizeSent vc (s.sizeSent vc+T)
            flitsSent := update s.flitsSent vc (k+1)}
        else s)) (fun s' => Next C T M vc k s s' ∧ Accepted C T M k) fun _ => ¬Accepted C T M k := by
      rintro d rfl
      split
      next hne =>
        refine sendDeserialized_spec hC hlt hrange hk rfl rfl ?_ fun hend => absurd hend hlast
        rw [if_pos hmid,show emitted C T M (k+1)=emitted C T M k+1 by omega,mul_succ,← hsize]
        exact update_self ..
      next hzero =>
        refine sendDeserialized_spec hC hlt hrange hk rfl rfl ?_ fun hend => absurd hend hlast
        rw [if_pos hmid,hsize,show emitted C T M (k+1)=emitted C T M k by omega]
    rw [if_neg (htype.not.mpr hlast)]
    exact hsend _ hfloor

theorem sendSerialized_spec (hT : 0<T) (hlt : T<C) (hrange : Exact C T M)
    (hpos : emitted C T M k<emitted C T M (k+1)) (hscheduled : s'.scheduled=s.scheduled)
    (hlen : s'.lenBuffer=s.lenBuffer) (hsize : s'.sizeSent vc=if k+1<flits M C then T*emitted C T M (k+1) else 0)
    (hflits : k+1=flits M C → s'.flitsSent vc=0) :
    Post (sendSerialized T (.new k vc (flits M C) M C) (emitted C T M (k+1)-emitted C T M k) s')
      (fun s' => Next C T M vc k s s' ∧ Accepted C T M k) fun _ => ¬Accepted C T M k := by
  have hparts : parts C T M k=(List.range (emitted C T M (k+1)-emitted C T M k)).map (k*flits C T+·) := by
    rw [parts,if_neg hlt.asymm,range'_eq_map_range]
  rw [sendSerialized,post_bind,post_check]
  refine ⟨fun _ => ?_,fun h => absurd (Nat.sub_pos_of_lt hpos) h⟩
  rw [post_bind]
  refine (serializeParts_spec hT hlt hrange _).mono ?_ fun _ h hall => h fun i hi => hall.1 _ ?_
  · rintro fls ⟨rfl,hids⟩
    refine ⟨⟨?_,hsize,hflits,fun h => hlen ▸ h⟩,fun id hid => ?_,fun h => absurd h hlt.asymm⟩
    · rw [hparts,map_map,← hscheduled]
      rfl
    · rw [hparts] at hid
      obtain ⟨i,hi,rfl⟩:=mem_map.mp hid
      exact hids i hi
  · rw [hparts]
    exact mem_map_of_mem hi

theorem emitted_lt (hT : 0<T) (hlt : T<C) (hk : k<flits M C) : emitted C T M k<emitted C T M (k+1) := by
  have hC : 0<C := hT.trans hlt
  rw [emitted_of_lt hk,emitted]
  split
  · rw [← succ_le_iff,succ_eq_add_one,← add_div_right _ hT,succ_mul]
    exact Nat.div_le_div_right (Nat.add_le_add_left hlt.le _)
  · exact (lt_flits hT).mpr ((div_mul_le_self ..).trans_lt ((lt_flits hC).mp hk))

theorem serialize_step (hT : 0<T) (hlt : T<C) (hrange : Exact C T M) (hk : k<flits M C)
    (hsize : s.sizeSent vc=T*emitted C T M k) : Post (s.serialize C T (.new k vc (flits M C) M C))
      (fun s' => Next C T M vc k s s' ∧ Accepted C T M k) fun _ => ¬Accepted C T M k := by
  have hC : 0<C := hT.trans hlt
  have htype:=(new_type hk vc M C).2
  have hpos:=emitted_lt hT hlt hk
  unfold serialize
  by_cases hlast : k+1=flits M C
  · have hceil : ⌈quotient (M-s.sizeSent vc) T⌉₊ = _ := hsize ▸ ceil_step hC hT hrange hlast
    rw [if_neg (htype.not.mpr (not_not.mpr hlast))]
    show Post (sendSerialized T _ ⌈quotient (M-s.sizeSent vc) T⌉₊ _) _ _
    rw [hceil]
    refine sendSerialized_spec hT hlt hrange hpos rfl rfl ?_ fun _ => update_self ..
    rw [if_neg (by omega)]
    exact update_self ..
  · have hmid : k+1<flits M C := by omega
    have hfloor : ⌊quotient ((k+1)*C-s.sizeSent vc) T⌋₊ = _ := hsize ▸ floor_step hC hT hrange hmid
    have hsend : ∀ d,d=emitted C T M (k+1)-emitted C T M k → Post (sendSerialized T (.new k vc (flits M C) M C) d
        (if d≠0 then
          {s with
            sizeSent := update s.sizeSent vc (s.sizeSent vc+d*T)
            flitsSent := update s.flitsSent vc (s.flitsSent vc+d)}
        else s)) (fun s' => Next C T M vc k s s' ∧ Accepted C T M k) fun _ => ¬Accepted C T M k := by
      rintro d rfl
      rw [if_pos (Nat.sub_pos_of_lt hpos).ne']
      refine sendSerialized_spec hT hlt hrange hpos rfl rfl ?_ fun hend => absurd hend hlast
      have hsum : T*emitted C T M k+(emitted C T M (k+1)-emitted C T M k)*T=T*emitted C T M (k+1) := by
        rw [mul_comm _ T,← mul_add,add_sub_of_le hpos.le]
      rw [if_pos hmid,← hsum,← hsize]
      exact update_self ..
    rw [if_pos (htype.mpr hlast)]
    exact hsend _ hfloor

theorem step_spec (hC : 0<c.cur_width) (hT : 0<c.target_width) (hne : c.target_width≠c.cur_width)
    (hrange : Exact c.cur_width c.target_width M) (hk : k<flits M c.cur_width)
    (hsize : s.sizeSent vc=c.target_width*emitted c.cur_width c.target_width M k) :
    Post (s.flitisizeAndSend c (.new k vc (flits M c.cur_width) M c.cur_width))
      (fun s' => Next c.cur_width c.target_width M vc k s s' ∧ Accepted c.cur_width c.target_width M k)
      fun _ => ¬Accepted c.cur_width c.target_width M k := by
  rw [flitisizeAndSend,post_bind,post_check]
  refine ⟨fun _ => ?_,fun h => absurd hne h⟩
  by_cases hlt : c.target_width>c.cur_width
  · rw [if_pos hlt]
    exact deserialize_step hC hlt hrange hk hsize
  · rw [if_neg hlt]
    exact serialize_step hT (by omega) hrange hk hsize

structure Same (vc : ℕ) (s s' : NetworkBridge) : Prop where
  scheduled : s'.scheduled.filter (·.m_vc=vc)=s.scheduled.filter (·.m_vc=vc)
  sizeSent : s'.sizeSent vc=s.sizeSent vc
  flitsSent : s'.flitsSent vc=s.flitsSent vc
  lenBuffer : s'.lenBuffer vc=s.lenBuffer vc

theorem filter_append_others {l fls : List Flit} (h : ∀ fl∈fls,fl.m_vc≠vc) :
    (l++fls).filter (·.m_vc=vc)=l.filter (·.m_vc=vc) := by
  have hnil : fls.filter (·.m_vc=vc)=[] := filter_eq_nil_iff.mpr fun fl hfl => by simpa using h fl hfl
  rw [filter_append,hnil,append_nil]

theorem stopTracking_same (hf : f.m_vc≠vc) (s : NetworkBridge) : Same vc s (s.stopTracking f.m_vc) :=
  ⟨rfl,update_of_ne hf.symm ..,update_of_ne hf.symm ..,rfl⟩

theorem sendDeserialized_same (hf : f.m_vc≠vc) (h : Same vc s s') (n : ℕ) :
    Post (sendDeserialized T f n s') (Same vc s) := by
  rw [sendDeserialized,post_bind,partly_check]
  intro _
  split
  · exact h
  · rw [post_bind,Flit.deserialize,post_bind,partly_check]
    refine fun _ => ⟨(filter_append_others ?_).trans h.scheduled,h.sizeSent,h.flitsSent,?_⟩
    · exact fun fl hfl => mem_singleton.mp hfl ▸ hf
    · exact (update_of_ne hf.symm ..).trans h.lenBuffer

theorem serializeParts_vc (f : Flit) (T : ℕ) (l : List ℕ) :
    Post (serializeParts f T l) (fun fls => ∀ fl∈fls,fl.m_vc=f.m_vc) := by
  induction l with
  | nil => exact fun _ hfl => absurd hfl not_mem_nil
  | cons i l ih =>
    rw [serializeParts,post_bind,Flit.serialize,post_bind,partly_check]
    intro _
    rw [post_bind,partly_check]
    intro _
    rw [post_pure,post_bind]
    exact ih.imp fun fls hfls => forall_mem_cons.mpr ⟨rfl,hfls⟩

theorem sendSerialized_same (hf : f.m_vc≠vc) (h : Same vc s s') (n : ℕ) :
    Post (sendSerialized T f n s') (Same vc s) := by
  rw [sendSerialized,post_bind,partly_check]
  intro _
  rw [post_bind]
  refine (serializeParts_vc f T _).imp fun fls hfls => ?_
  exact ⟨(filter_append_others fun fl hfl => (hfls fl hfl).symm ▸ hf).trans h.scheduled,h.sizeSent,h.flitsSent,h.lenBuffer⟩

theorem other_spec (hf : f.m_vc≠vc) (c : Params) (s : NetworkBridge) :
    Post (s.flitisizeAndSend c f) (Same vc s) := by
  have hrefl : Same vc s s := ⟨rfl,rfl,rfl,rfl⟩
  rw [flitisizeAndSend,post_bind,partly_check]
  intro _
  split
  · unfold deserialize
    split
    · exact sendDeserialized_same hf (stopTracking_same hf s) _
    · refine sendDeserialized_same hf ?_ _
      split
      · exact ⟨rfl,update_of_ne hf.symm ..,update_of_ne hf.symm ..,rfl⟩
      · exact hrefl
  · unfold serialize
    split
    · refine sendSerialized_same hf ?_ _
      split
      · exact ⟨rfl,update_of_ne hf.symm ..,update_of_ne hf.symm ..,rfl⟩
      · exact hrefl
    · exact sendSerialized_same hf (stopTracking_same hf s) _

structure InRange (c : Params) (M : ℕ) : Prop where
  cur : 0<c.cur_width
  target : 0<c.target_width
  ne : c.target_width≠c.cur_width
  size : 0<M
  range : Exact c.cur_width c.target_width M

structure Passed (c : Params) (vc M k : ℕ) (s : NetworkBridge) : Prop where
  le : k≤flits M c.cur_width
  scheduled : s.scheduled.filter (·.m_vc=vc)=((List.range k).flatMap (parts c.cur_width c.target_width M)).map
    fun id => .new id vc (flits M c.target_width) M c.target_width
  sizeSent : s.sizeSent vc=if k<flits M c.cur_width then c.target_width*emitted c.cur_width c.target_width M k else 0
  flitsSent : k=flits M c.cur_width → s.flitsSent vc=0
  lenBuffer : s.lenBuffer vc=0
  accepted : ∀ i<k,Accepted c.cur_width c.target_width M i

theorem run_passed (hr : InRange c M) (h : Run c vc M k s) : Passed c vc M k s := by
  have hpos : 0<flits M c.cur_width := (lt_flits hr.cur).mpr (by rw [Nat.zero_mul]; exact hr.size)
  induction h with
  | start s hidle hnil =>
    refine ⟨zero_le _,hnil,?_,fun _ => hidle.flitsSent,hidle.lenBuffer,fun i hi => absurd hi (not_lt_zero i)⟩
    rw [if_pos hpos,emitted_of_lt hpos,Nat.zero_mul,Nat.zero_div]
    exact hidle.sizeSent
  | own k s s' _ hk hcall ih =>
    obtain ⟨hnext,haccepted⟩ :=
      (step_spec hr.cur hr.target hr.ne hr.range hk (ih.sizeSent.trans (if_pos hk))).of_ok hcall
    refine ⟨hk,?_,hnext.sizeSent,hnext.flitsSent,hnext.lenBuffer ih.lenBuffer,fun i hi => ?_⟩
    · have hvc : ∀ fl∈(parts c.cur_width c.target_width M k).map
          fun id => Flit.new id vc (flits M c.target_width) M c.target_width,decide (fl.m_vc=vc)=true := by
        intro fl hfl
        obtain ⟨id,_,rfl⟩:=mem_map.mp hfl
        exact decide_eq_true rfl
      rw [hnext.scheduled,filter_append,ih.scheduled,filter_eq_self.mpr hvc,range_succ,flatMap_append,
        map_append,flatMap_singleton]
    · rcases Nat.lt_succ_iff_lt_or_eq.mp hi with hlt | rfl
      · exact ih.accepted i hlt
      · exact haccepted
  | other k s s' f _ hf hcall ih =>
    have hsame:=(other_spec hf c s).of_ok hcall
    exact ⟨ih.le,hsame.scheduled.trans ih.scheduled,hsame.sizeSent.trans ih.sizeSent,
      fun hend => hsame.flitsSent.trans (ih.flitsSent hend),hsame.lenBuffer.trans ih.lenBuffer,ih.accepted⟩

theorem packet_types (hpos : 0<flits M T) :
    (packet vc M T).countP (fun f => f.m_type = .HEAD_ ∨ f.m_type = .HEAD_TAIL_)=1 ∧
      (packet vc M T).countP (fun f => f.m_type = .TAIL_ ∨ f.m_type = .HEAD_TAIL_)=1 := by
  have hcount : ∀ i<flits M T,(List.range (flits M T)).countP (· == i)=1 := fun i hi =>
    count_eq_one_of_mem nodup_range (mem_range.mpr hi)
  constructor
  · rw [packet,countP_map,← hcount 0 hpos]
    refine countP_congr fun id hid => ?_
    have hlt:=mem_range.mp hid
    simp only [Function.comp,Flit.new,beq_iff_eq]
    split_ifs <;> simp <;> omega
  · rw [packet,countP_map,← hcount (flits M T-1) (by omega)]
    refine countP_congr fun id hid => ?_
    have hlt:=mem_range.mp hid
    simp only [Function.comp,decide_eq_true_eq,(new_type hlt vc M T).1,beq_iff_eq]
    omega

theorem converts_iff_parts (hr : InRange c M) : Converts c vc M ↔
    (∀ k<flits M c.cur_width,Accepted c.cur_width c.target_width M k) ∧
      (List.range (flits M c.cur_width)).flatMap (parts c.cur_width c.target_width M)=List.range (flits M c.target_width) := by
  constructor
  · intro h
    -- The packet passes without a flit of another channel.
    have hrun : ∀ k≤flits M c.cur_width,∃ s,Run c vc M k s := by
      intro k hk
      induction k with
      | zero => exact ⟨⟨fun _ => 0,fun _ => 0,fun _ => 0,[]⟩,.start _ ⟨rfl,rfl,rfl⟩ rfl⟩
      | succ k ih =>
        obtain ⟨s,hs⟩:=ih (le_of_succ_le hk)
        obtain ⟨s',hs'⟩:=(h k s hs).1 hk
        exact ⟨s',.own k s s' hs hk hs'⟩
    obtain ⟨s,hs⟩:=hrun _ le_rfl
    have hpassed:=run_passed hr hs
    refine ⟨hpassed.accepted,?_⟩
    have hids:=congrArg (map Flit.m_id) (hpassed.scheduled.symm.trans ((h _ s hs).2 rfl).1)
    simpa only [packet,map_map,Function.comp_def,Flit.new,map_id'] using hids
  · rintro ⟨haccepted,hparts⟩ k s hs
    have hpassed:=run_passed hr hs
    constructor
    · intro hk
      have hstep:=step_spec hr.cur hr.target hr.ne hr.range hk (hpassed.sizeSent.trans (if_pos hk))
      exact (hstep.mono (fun _ _ => trivial) fun _ hno => hno (haccepted k hk)).returns.imp fun _ h => h.1
    · rintro rfl
      have hsent : s.scheduled.filter (·.m_vc=vc)=packet vc M c.target_width := by
        rw [hpassed.scheduled,hparts]
        rfl
      have hpos : 0<flits M c.target_width := (lt_flits hr.target).mpr (by rw [Nat.zero_mul]; exact hr.size)
      have htypes : (packet vc M c.target_width).countP _=1 ∧ _ := packet_types hpos
      exact ⟨hsent,⟨hpassed.lenBuffer,hpassed.sizeSent.trans (if_neg (lt_irrefl _)),hpassed.flitsSent rfl⟩,
        hsent ▸ htypes.1,hsent ▸ htypes.2⟩

theorem emitted_zero (hpos : 0<flits M C) : emitted C T M 0=0 := by
  rw [emitted_of_lt hpos,Nat.zero_mul,Nat.zero_div]

theorem emitted_le_flits (hC : 0<C) (hT : 0<T) (k : ℕ) : emitted C T M k≤flits M T := by
  unfold emitted
  split
  next hk => exact ((lt_flits hT).mpr ((div_mul_le_self ..).trans_lt ((lt_flits hC).mp hk))).le
  next => exact le_rfl

theorem flatMap_parts (hC : 0<C) (hT : 0<T)
    (hlen : ∀ k<flits M C,(parts C T M k).length=emitted C T M (k+1)-emitted C T M k) (n : ℕ) (hn : n≤flits M C)
    (hpos : 0<flits M C) : ((List.range n).flatMap (parts C T M)).length=emitted C T M n ∧
      ((List.range n).flatMap (parts C T M)=List.range (emitted C T M n) ↔
        ∀ k<n,parts C T M k=List.range' (emitted C T M k) (emitted C T M (k+1)-emitted C T M k)) := by
  induction n with
  | zero =>
    rw [emitted_zero hpos]
    exact ⟨rfl,iff_of_true rfl fun k hk => absurd hk (not_lt_zero k)⟩
  | succ n ih =>
    obtain ⟨hsum,hiff⟩:=ih (le_of_succ_le hn)
    have hle:=emitted_le hC hT (lt_of_succ_le hn)
    have hsplit : List.range (emitted C T M (n+1))=List.range (emitted C T M n) ++
        range' (emitted C T M n) (emitted C T M (n+1)-emitted C T M n) := by
      rw [range'_eq_map_range,← range_add,add_sub_of_le hle]
    rw [range_succ,flatMap_append,flatMap_singleton,hsplit]
    constructor
    · rw [length_append,hsum,hlen n (lt_of_succ_le hn)]
      exact add_sub_of_le hle
    · constructor
      · intro heq k hk
        obtain ⟨hfirst,hlast⟩:=append_inj heq (hsum.trans length_range.symm)
        rcases Nat.lt_succ_iff_lt_or_eq.mp hk with hlt | rfl
        · exact hiff.mp hfirst k hlt
        · exact hlast
      · intro hall
        rw [hiff.mpr fun k hk => hall k (lt_succ_of_lt hk),hall n (lt_succ_self n)]

theorem serialize_iff (hT : 0<T) (hlt : T<C) :
    (∀ k<flits M C,parts C T M k=List.range' (emitted C T M k) (emitted C T M (k+1)-emitted C T M k)) ↔
      T∣C ∨ M≤C := by
  have hC : 0<C := hT.trans hlt
  have hparts : ∀ k,parts C T M k=range' (k*flits C T) (emitted C T M (k+1)-emitted C T M k) := fun k => by
    rw [parts,if_neg hlt.asymm]
  constructor
  · intro hall
    by_contra hnot
    rw [not_or] at hnot
    have hone : 1<flits M C := (lt_flits hC).mpr (by omega)
    have heq:=hall 1 hone
    rw [hparts,range'_inj] at heq
    have hdiff:=Nat.sub_pos_of_lt (emitted_lt hT hlt hone)
    have hratio:=heq.2.resolve_left (by omega)
    rw [emitted_of_lt hone,one_mul,one_mul] at hratio
    -- A rounded ratio is the ratio only when nothing is rounded.
    have hwhole : C/T*T=C := le_antisymm (div_mul_le_self ..) (hratio ▸ (flits_le hT).mp le_rfl)
    exact hnot.1 (Dvd.intro_left _ hwhole)
  · intro h k hk
    rw [hparts,emitted_of_lt hk]
    congr 1
    rcases h with ⟨q,rfl⟩ | hle
    · have hratio : flits (T*q) T=q :=
        le_antisymm ((flits_le hT).mpr (mul_comm q T).ge)
          (le_of_mul_le_mul_right ((mul_comm q T).trans_le ((flits_le hT).mp le_rfl)) hT)
      rw [hratio,Nat.mul_left_comm,Nat.mul_div_cancel_left _ hT]
    · have hzero : k=0 := by
        have hkM:=(lt_flits hC).mp hk
        by_contra hne
        have hCk : C≤k*C := Nat.le_mul_of_pos_left C (Nat.pos_of_ne_zero hne)
        omega
      rw [hzero,Nat.zero_mul,Nat.zero_mul,Nat.zero_div]

theorem deserialize_parts (hC : 0<C) (hlt : C<T) (hfits : (flits M T-1)*flits T C<flits M C) (hk : k<flits M C) :
    emitted C T M (k+1)-emitted C T M k<2 ∧
      (emitted C T M (k+1)-emitted C T M k≠0 → k/flits T C=emitted C T M k) := by
  have hT : 0<T := hC.trans hlt
  have hkM : k*C<M := (lt_flits hC).mp hk
  have hMT : M≤flits M T*T := (flits_le hT).mp le_rfl
  have hTR : T≤flits T C*C := (flits_le hC).mp le_rfl
  have hlow : emitted C T M k*T≤k*C := by rw [emitted_of_lt hk]; exact div_mul_le_self ..
  have hhigh : k<(emitted C T M k+1)*flits T C := by
    have hlt' : k*C<(emitted C T M k+1)*T := by
      rw [emitted_of_lt hk]
      exact lt_mul_of_div_lt (lt_succ_self _) hT
    refine Nat.lt_of_mul_lt_mul_right (a := C) (hlt'.trans_le ?_)
    rw [mul_assoc]
    exact mul_le_mul_left _ hTR
  have hbelow : emitted C T M k<flits M T := (lt_flits hT).mpr (hlow.trans_lt hkM)
  rcases lt_or_eq_of_le (succ_le_of_lt hk) with hmid | hlast
  · have hone:=emitted_le_succ hT hlt hmid
    refine ⟨by omega,fun hne => Nat.div_eq_of_lt_le ?_ hhigh⟩
    have hnext : (emitted C T M k+1)*T≤(k+1)*C := by
      have heq : emitted C T M (k+1)=emitted C T M k+1 := by omega
      rw [← heq,emitted_of_lt hmid]
      exact div_mul_le_self ..
    -- What the ratio is rounded up by adds up to less than a flit over the whole packet.
    obtain ⟨δ,hδ⟩:=Nat.exists_eq_add_of_le hTR
    obtain ⟨q,hq⟩:=Nat.exists_eq_add_of_le' (Nat.zero_lt_of_lt hbelow)
    have hround : q*δ<T := by
      have hlast : q*flits T C*C<M := (lt_flits hC).mp (by rwa [hq] at hfits)
      rw [mul_assoc,hδ,mul_add] at hlast
      rw [hq,succ_mul] at hMT
      omega
    by_contra hless
    have hcover : (k+1)*C≤emitted C T M k*(flits T C*C) := by
      rw [← mul_assoc]
      exact Nat.mul_le_mul_right C (by omega)
    have hδle : emitted C T M k*δ≤q*δ := Nat.mul_le_mul_right δ (by omega)
    rw [hδ,mul_add] at hcover
    rw [succ_mul] at hnext
    omega
  · have hlast' : k+1=flits M C := hlast
    have hstart : (flits M T-1)*flits T C≤k := by omega
    have hfull : flits M T-1≤emitted C T M k := by
      rw [emitted_of_lt hk,le_div_iff_mul_le hT]
      calc
        _≤(flits M T-1)*(flits T C*C) := mul_le_mul_left _ hTR
        _=(flits M T-1)*flits T C*C := (mul_assoc ..).symm
        _≤k*C := Nat.mul_le_mul_right C hstart
    have heq : emitted C T M k=flits M T-1 := by omega
    rw [hlast',emitted_flits]
    exact ⟨by omega,fun _ => Nat.div_eq_of_lt_le (heq ▸ hstart) hhigh⟩

theorem deserialize_iff (hC : 0<C) (hlt : C<T) (hM : 0<M) : (∀ k<flits M C,emitted C T M (k+1)-emitted C T M k<2 ∧
        parts C T M k=List.range' (emitted C T M k) (emitted C T M (k+1)-emitted C T M k)) ↔
      (flits M T-1)*flits T C<flits M C := by
  have hT : 0<T := hC.trans hlt
  have hpos : 0<flits M C := (lt_flits hC).mpr (by rw [Nat.zero_mul]; exact hM)
  constructor
  · intro hall
    -- The last flit always leaves as one, which has to be the last one.
    have hlast : flits M C-1<flits M C := by omega
    have hend : emitted C T M (flits M C-1+1)=flits M T := by rw [Nat.sub_add_cancel hpos,emitted_flits]
    obtain ⟨hone,hparts⟩:=hall _ hlast
    have hbelow : emitted C T M (flits M C-1)<flits M T := by
      rw [emitted_of_lt hlast]
      exact (lt_flits hT).mpr ((div_mul_le_self ..).trans_lt ((lt_flits hC).mp hlast))
    rw [hend] at hone hparts
    rw [parts,if_pos hlt,hend,if_neg (by omega),show flits M T-emitted C T M (flits M C-1)=1 by omega] at hparts
    have hid : (flits M C-1)/flits T C=flits M T-1 := by
      have hhead : (flits M C-1)/flits T C=emitted C T M (flits M C-1) := head_eq_of_cons_eq hparts
      omega
    have hle:=div_mul_le_self (flits M C-1) (flits T C)
    rw [hid] at hle
    omega
  · intro hfits k hk
    obtain ⟨hone,hid⟩:=deserialize_parts hC hlt hfits hk
    refine ⟨hone,?_⟩
    rw [parts,if_pos hlt]
    split
    next hzero => rw [hzero]; rfl
    next hne => rw [show emitted C T M (k+1)-emitted C T M k=1 by omega,hid hne]; rfl

theorem parts_length (h : C<T → emitted C T M (k+1)-emitted C T M k<2) :
    (parts C T M k).length=emitted C T M (k+1)-emitted C T M k := by
  unfold parts
  split
  next hlt =>
    have hone:=h hlt
    split
    next hzero => rw [hzero]; rfl
    next hne => rw [length_singleton]; omega
  next => exact length_range'

theorem accepted_iff (hC : 0<C) (hT : 0<T) (hM : 0<M) :
    ((∀ k<flits M C,Accepted C T M k) ∧ (List.range (flits M C)).flatMap (parts C T M)=List.range (flits M T)) ↔
      ∀ k<flits M C,(C<T → emitted C T M (k+1)-emitted C T M k<2) ∧
        parts C T M k=List.range' (emitted C T M k) (emitted C T M (k+1)-emitted C T M k) := by
  have hpos : 0<flits M C := (lt_flits hC).mpr (by rw [Nat.zero_mul]; exact hM)
  have hjoin : (∀ k<flits M C,C<T → emitted C T M (k+1)-emitted C T M k<2) →
      ((List.range (flits M C)).flatMap (parts C T M)=List.range (flits M T) ↔ ∀ k<flits M C,
        parts C T M k=range' (emitted C T M k) (emitted C T M (k+1)-emitted C T M k)) := fun hone => by
    have hiff:=(flatMap_parts hC hT (fun k hk => parts_length (hone k hk)) _ le_rfl hpos).2
    rwa [emitted_flits] at hiff
  constructor
  · rintro ⟨hacc,hflat⟩ k hk
    exact ⟨(hacc k hk).2,(hjoin fun k hk => (hacc k hk).2).mp hflat k hk⟩
  · intro hall
    refine ⟨fun k hk => ⟨fun id hid => ?_,(hall k hk).1⟩,(hjoin fun k hk => (hall k hk).1).mpr fun k hk => (hall k hk).2⟩
    rw [(hall k hk).2,mem_range'_1,add_sub_of_le (emitted_le hC hT hk)] at hid
    exact hid.2.trans_le (emitted_le_flits hC hT _)

def idle : NetworkBridge := ⟨fun _ => 0,fun _ => 0,fun _ => 0,[]⟩

/-- The packet passes as a whole, without a flit of another channel. -/
theorem Converts.carries (h : Converts c vc M) : ∃ s,
    (packet vc M c.cur_width).foldlM (flitisizeAndSend c) idle = .ok s ∧
      s.scheduled.filter (·.m_vc=vc)=packet vc M c.target_width := by
  have hrun : ∀ k≤flits M c.cur_width,∃ s,((List.range k).map fun id => Flit.new id vc (flits M c.cur_width) M
      c.cur_width).foldlM (flitisizeAndSend c) idle = .ok s ∧ Run c vc M k s := by
    intro k hk
    induction k with
    | zero => exact ⟨_,rfl,.start _ ⟨rfl,rfl,rfl⟩ rfl⟩
    | succ k ih =>
      obtain ⟨s,hs,hrun⟩:=ih (le_of_succ_le hk)
      obtain ⟨s',hs'⟩:=(h k s hrun).1 hk
      refine ⟨s',?_,.own k s s' hrun hk hs'⟩
      rw [range_succ,map_append,foldlM_append,hs]
      exact (bind_pure _).trans hs'
  obtain ⟨s,hs,hend⟩:=hrun _ le_rfl
  exact ⟨s,hs,((h _ s hend).2 rfl).1⟩

theorem fits_back (hT : 0<T) (hlt : T<C) (hM : 0<M) (h : T∣C ∨ M≤C) : (flits M C-1)*flits C T<flits M T := by
  have hC : 0<C := hT.trans hlt
  rcases h with ⟨q,rfl⟩ | hle
  · have hratio : flits (T*q) T=q :=
      le_antisymm ((flits_le hT).mpr (mul_comm q T).ge)
        (le_of_mul_le_mul_right ((mul_comm q T).trans_le ((flits_le hT).mp le_rfl)) hT)
    have hpos : 0<flits M (T*q) := (lt_flits hC).mpr (by omega)
    have hlast : (flits M (T*q)-1)*(T*q)<M := (lt_flits hC).mp (by omega)
    rw [hratio,lt_flits hT,mul_assoc,mul_comm q]
    exact hlast
  · have hone : flits M C≤1 := (flits_le hC).mpr (by omega)
    rw [show flits M C-1=0 by omega,Nat.zero_mul]
    exact (lt_flits hT).mpr (by omega)

theorem Fits.converts (hr : InRange c M) (h : Fits c.cur_width c.target_width M) : Converts c vc M := by
  rw [converts_iff_parts hr,accepted_iff hr.cur hr.target hr.size]
  have hne:=hr.ne
  unfold Fits at h
  split at h
  next hlt => exact fun k hk => ⟨fun hgt => absurd hgt hlt.asymm,(serialize_iff hr.target hlt).mpr h k hk⟩
  next hge =>
    exact fun k hk => ((deserialize_iff hr.cur (by omega) hr.size).mpr h k hk).imp_left fun hone _ => hone

theorem fits_both (hC : 0<C) (hne : T≠C) (hM : 0<M) (h : min C T∣max C T ∨ M ≤ max C T) : Fits C T M := by
  unfold Fits
  split
  next hlt => rwa [Nat.min_eq_right hlt.le,Nat.max_eq_left hlt.le] at h
  next hge =>
    rw [Nat.min_eq_left (by omega),Nat.max_eq_right (by omega)] at h
    exact fits_back hC (by omega) hM h

/-- Over a link of another width and back a packet is the same again. -/
theorem round_trip (hr : InRange c M) (hr' : InRange c' M) (hcur : c'.cur_width=c.target_width)
    (htarget : c'.target_width=c.cur_width)
    (h : min c.cur_width c.target_width∣max c.cur_width c.target_width ∨ M ≤ max c.cur_width c.target_width) :
    ∃ s s',(packet vc M c.cur_width).foldlM (flitisizeAndSend c) idle = .ok s ∧
      (s.scheduled.filter (·.m_vc=vc)).foldlM (flitisizeAndSend c') idle = .ok s' ∧
      s'.scheduled.filter (·.m_vc=vc)=packet vc M c.cur_width := by
  have hthere : Converts c vc M := (fits_both hr.cur hr.ne hr.size h).converts hr
  have hback : Converts c' vc M := by
    refine (fits_both hr'.cur hr'.ne hr.size ?_).converts hr'
    rwa [hcur,htarget,min_comm,max_comm]
  obtain ⟨s,hs,hsent⟩:=hthere.carries
  obtain ⟨s',hs',hsent'⟩:=hback.carries
  exact ⟨s,s',hs,by rwa [hsent,← hcur],htarget ▸ hsent'⟩

theorem round_trip_half : ∃ s s',(packet 0 6 4).foldlM (flitisizeAndSend ⟨.LINK_OBJECT,2,4⟩)
      idle = .ok s ∧
    (s.scheduled.filter (·.m_vc=0)).foldlM (flitisizeAndSend ⟨.OBJECT_LINK,2,4⟩)
      idle = .ok s' ∧ s'.scheduled.filter (·.m_vc=0)=packet 0 6 4 :=
  round_trip (c := ⟨.LINK_OBJECT,2,4⟩) ⟨by decide,by decide,by decide,by decide,by decide⟩
    ⟨by decide,by decide,by decide,by decide,by decide⟩ rfl rfl (by decide)

end NetworkBridge

end AquaGem5.Ruby
