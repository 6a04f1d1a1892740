import Mathlib.Data.Nat.ModEq
import Mathlib.Data.Set.Insert

/-!
# Positions around a circle

The slot at position `d` from slot `h` of `n` slots is `(h + d) % n`. Positions below `n`
are the circular distances of the slots, and `arc n h k` the first `k` of them.
-/

namespace AquaGem5.Circle
open Nat

def arc (n h k : ℕ) : Set ℕ := {q | ∃ j<k, q=(h+j)%n}

theorem position_inj {n h i j : ℕ} (hi : i<n) (hj : j<n) (heq : (h+i)%n=(h+j)%n) : i=j := by
  have hmod : h+i ≡ h+j [MOD n] := heq
  exact ModEq.eq_of_lt_of_lt (ModEq.add_left_cancel' h hmod) hi hj

theorem exists_position {n q : ℕ} (hq : q<n) (h : ℕ) : ∃ d<n, q=(h+d)%n := by
  have hmod:=mod_lt h (show 0<n by omega)
  by_cases hle : h%n≤q
  · refine ⟨q-h%n,by omega,?_⟩
    rw [← Nat.mod_add_mod,Nat.add_sub_cancel' hle,Nat.mod_eq_of_lt hq]
  · refine ⟨q+n-h%n,by omega,?_⟩
    rw [← Nat.mod_add_mod,Nat.add_sub_cancel' (by omega),Nat.add_mod_right,Nat.mod_eq_of_lt hq]

theorem position_succ {n h d : ℕ} (hd : d<n) : ∃ d'<n, ((h+d)%n+1)%n=(h+d')%n ∧ (d'=0 ∨ d'=d+1) := by
  by_cases hlt : d+1<n
  · exact ⟨d+1,hlt,by rw [Nat.mod_add_mod,add_assoc],.inr rfl⟩
  · refine ⟨0,by omega,?_,.inl rfl⟩
    rw [Nat.mod_add_mod,add_assoc,show d+1=n by omega,Nat.add_mod_right,add_zero]

theorem arc_zero (n h : ℕ) : arc n h 0 = ∅ := by
  ext q
  simp [arc]

theorem arc_succ (n h k : ℕ) : arc n h (k+1)=insert ((h+k)%n) (arc n h k) := by
  ext q
  constructor
  · rintro ⟨j,hj,rfl⟩
    by_cases hjk : j=k
    · exact .inl (by rw [hjk])
    · exact .inr ⟨j,by omega,rfl⟩
  · rintro (rfl | ⟨j,hj,rfl⟩)
    · exact ⟨k,lt_succ_self k,rfl⟩
    · exact ⟨j,by omega,rfl⟩

theorem arc_first (n h k : ℕ) : arc n h (k+1)=insert (h%n) (arc n ((h+1)%n) k) := by
  ext q
  constructor
  · rintro ⟨j,hj,rfl⟩
    cases j with
    | zero => exact .inl rfl
    | succ j => exact .inr ⟨j,by omega,by rw [Nat.mod_add_mod,add_assoc,add_comm 1 j]⟩
  · rintro (rfl | ⟨j,hj,rfl⟩)
    · exact ⟨0,succ_pos k,rfl⟩
    · exact ⟨j+1,by omega,by rw [Nat.mod_add_mod,add_assoc,add_comm 1 j]⟩

def ahead (n h p : ℕ) : ℕ := (p+n-h)%n

theorem ahead_self {n h : ℕ} (hh : h<n) : ahead n h h=0 := by
  unfold ahead
  rw [show h+n-h=n by omega,mod_self]

theorem ahead_succ {n h p : ℕ} (hh : h<n) (hp : p<n) (hne : h≠p) : ahead n h p=ahead n ((h+1)%n) p+1 := by
  have hle : ∀ i,i≤p → ahead n i p=p-i := by
    intro i hi
    unfold ahead
    rw [show p+n-i=p-i+n by omega,Nat.add_mod_right,Nat.mod_eq_of_lt (by omega)]
  have hgt : ∀ i,p < i → i<n → ahead n i p=p+n-i := by
    intro i hi hn
    exact Nat.mod_eq_of_lt (by omega)
  by_cases hlast : h+1=n
  · rw [hlast,mod_self,hle 0 (zero_le p),hgt h (by omega) hh]
    omega
  · rw [Nat.mod_eq_of_lt (show h+1<n by omega)]
    by_cases hlt : h<p
    · rw [hle h hlt.le,hle (h+1) hlt]
      omega
    · rw [hgt h (by omega) hh,hgt (h+1) (by omega) (by omega)]
      omega

theorem not_mem_arc {n h k d : ℕ} (hd : d<n) (hk : k≤d) : (h+d)%n∉arc n h k := by
  rintro ⟨j,hj,heq⟩
  have heq':=position_inj hd (by omega) heq
  omega

end AquaGem5.Circle

/-!
## Windows of a ring, and the last elements of a stream

`window f n h k` lists what the ring `f` of `n` slots holds from position `h` on, `k` elements.
`lastOf n l` is what a buffer of `n` elements keeps of the stream `l`.
-/

namespace AquaGem5.RingWindow
open List Function

variable {α : Type} {f g : ℕ → α} {n h k : ℕ}

def window (f : ℕ → α) (n h k : ℕ) : List α := (List.range k).map fun i => f ((h+i)%n)

@[simp] theorem window_length (f : ℕ → α) (n h k : ℕ) : (window f n h k).length=k := by
  rw [window,length_map,length_range]

@[simp] theorem window_zero (f : ℕ → α) (n h : ℕ) : window f n h 0=[] := rfl

theorem window_snoc (f : ℕ → α) (n h k : ℕ) : window f n h (k+1)=window f n h k++[f ((h+k)%n)] := by
  rw [window,range_succ,map_append]
  rfl

theorem window_cons (f : ℕ → α) (n h k : ℕ) : window f n h (k+1)=f (h%n)::window f n (h+1) k := by
  rw [window,range_succ_eq_map,map_cons,map_map,Nat.add_zero]
  refine congrArg _ (map_congr_left fun i _ => ?_)
  rw [comp_apply,Nat.add_assoc,Nat.add_comm 1 i]

theorem window_append (f : ℕ → α) (n h k m : ℕ) : window f n h (k+m)=window f n h k++window f n (h+k) m := by
  induction m with
  | zero => rw [Nat.add_zero,window_zero,append_nil]
  | succ m ih => rw [← Nat.add_assoc,window_snoc,ih,window_snoc,append_assoc,Nat.add_assoc]

theorem window_drop (f : ℕ → α) {n h k m : ℕ} (hm : m≤k) : (window f n h k).drop m=window f n (h+m) (k-m) := by
  obtain ⟨j,rfl⟩:=Nat.exists_eq_add_of_le hm
  rw [window_append,drop_left' (window_length ..),Nat.add_sub_cancel_left]

theorem window_take (f : ℕ → α) {n h k m : ℕ} (hm : m≤k) : (window f n h k).take m=window f n h m := by
  obtain ⟨j,rfl⟩:=Nat.exists_eq_add_of_le hm
  rw [window_append,take_left' (window_length ..)]

theorem window_congr (hfg : ∀ i<k, f ((h+i)%n)=g ((h+i)%n)) : window f n h k=window g n h k :=
  map_congr_left fun i hi => hfg i (mem_range.mp hi)

theorem window_update (hk : k<n) (v : α) : window (Function.update f ((h+k)%n) v) n h k=window f n h k := by
  refine window_congr fun i hi => update_of_ne (fun he => ?_) v f
  have heq:=Circle.position_inj (by omega) hk he
  omega

def lastOf (n : ℕ) (l : List α) : List α := l.drop (l.length-n)

@[simp] theorem lastOf_nil (n : ℕ) : lastOf n ([] : List α)=[] := List.drop_nil

theorem lastOf_of_le {l : List α} (hl : l.length≤n) : lastOf n l=l := by
  rw [lastOf,Nat.sub_eq_zero_of_le hl,drop_zero]

theorem lastOf_length (n : ℕ) (l : List α) : (lastOf n l).length=min l.length n := by
  rw [lastOf,length_drop]
  omega

theorem lastOf_append_lastOf (n : ℕ) (l m : List α) : lastOf n (lastOf n l++m)=lastOf n (l++m) := by
  have hd : lastOf n l++m=(l++m).drop (l.length-n) := by
    rw [lastOf,drop_append_of_le_length (Nat.sub_le ..)]
  rw [hd,lastOf,lastOf,drop_drop,length_drop,length_append]
  by_cases hl : l.length≤n
  · rw [Nat.sub_eq_zero_of_le hl,Nat.zero_add,Nat.sub_zero]
  · rw [show l.length-n+(l.length+m.length-(l.length-n)-n)=l.length+m.length-n by omega]

theorem lastOf_append_of_le (l : List α) {m : List α} (hm : n ≤ m.length) : lastOf n (l++m)=lastOf n m := by
  rw [lastOf,lastOf,length_append,show l.length+m.length-n=l.length+(m.length-n) by omega,
    drop_append,drop_eq_nil_of_le (Nat.le_add_right ..),Nat.add_sub_cancel_left,nil_append]

theorem lastOf_snoc {l : List α} (hl : l.length≤n) (v : α) :
    lastOf n (l++[v])=if l.length=n then (l++[v]).tail else l++[v] := by
  rw [lastOf,length_append,length_singleton]
  split_ifs with he
  · rw [he,Nat.add_sub_cancel_left,drop_one]
  · rw [Nat.sub_eq_zero_of_le (by omega),drop_zero]

theorem window_push (hk : k≤n) (hn : 0<n) (v : α) : lastOf n (window f n h k++[v]) =
      if k=n then window (Function.update f ((h+k)%n) v) n (h+1) k
      else window (Function.update f ((h+k)%n) v) n h (k+1) := by
  rw [lastOf_snoc (by rwa [window_length]),window_length]
  split_ifs with he
  · obtain ⟨j,rfl⟩:=Nat.exists_eq_add_of_le' (he ▸ hn)
    rw [window_cons,cons_append,tail_cons,window_snoc,show h+1+j=h+(j+1) by omega,
      update_self]
    have hw:=window_update (f := f) (h := h+1) (show j<n by omega) v
    rw [show h+1+j=h+(j+1) by omega] at hw
    rw [hw]
  · rw [window_snoc,update_self,window_update (by omega)]

end AquaGem5.RingWindow
