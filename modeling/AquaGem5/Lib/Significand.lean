import Mathlib.Data.Int.Log
import Mathlib.Data.Nat.Cast.Field
import Mathlib.Data.Rat.Floor

/-!
# Rational values rounded to a significand

`rounded p x` is the value with a significand of `p` bits that is nearest to `x`, the even one of two. The exponent is
not bounded.
-/

namespace Significand
open Nat

def nearestEven (x : ℚ) : ℤ :=
  if Int.fract x<1/2 then ⌊x⌋ else if 1/2<Int.fract x then ⌊x⌋+1 else if Even ⌊x⌋ then ⌊x⌋ else ⌊x⌋+1

def rounded (p : ℕ) (x : ℚ) : ℚ := nearestEven (x/2^(Int.log 2 |x| + 1-p))*2^(Int.log 2 |x| + 1-p)

variable {p a b n : ℕ} {x : ℚ}

theorem nearestEven_intCast (z : ℤ) : nearestEven z=z := by
  rw [nearestEven,Int.fract_intCast,if_pos (by norm_num),Int.floor_intCast]

theorem abs_nearestEven_sub (x : ℚ) : |nearestEven x-x| ≤ 1/2 := by
  have hx:=Int.floor_add_fract x
  have h0:=Int.fract_nonneg x
  have h1:=Int.fract_lt_one x
  unfold nearestEven
  split_ifs <;> (push_cast; rw [abs_le]; constructor <;> linarith)

theorem rounded_natCast (h : n<2^p) : rounded p n=n := by
  rcases Nat.eq_zero_or_pos n with rfl | hn
  · simp [rounded,nearestEven]
  have hle : log 2 n+1≤p := log_lt_of_lt_pow hn.ne' h
  obtain ⟨k,hk⟩:=Nat.exists_eq_add_of_le hle
  have he : Int.log 2 |(n : ℚ)| + 1-p = -(k : ℤ) := by
    rw [abs_cast,Int.log_natCast,hk]
    push_cast
    ring
  have hscaled : (n : ℚ)/2^(-(k : ℤ))=((n*2^k : ℕ) : ℤ) := by
    rw [zpow_neg,div_inv_eq_mul,zpow_natCast]
    push_cast
    rfl
  rw [rounded,he,hscaled,nearestEven_intCast,zpow_neg,zpow_natCast]
  push_cast
  field_simp

theorem abs_rounded_sub (hx : 0<x) : |rounded p x-x| ≤ x/2^p := by
  have hpow : (0 : ℚ)<2^(Int.log 2 |x| + 1-p) := zpow_pos two_pos _
  have hlog:=Int.zpow_log_le_self (b := 2) one_lt_two hx
  have hhalf : (2 : ℚ)^(Int.log 2 |x| + 1-p)=2*(2^Int.log 2 |x| / 2^p) := by
    rw [zpow_sub₀ two_ne_zero,zpow_add_one₀ two_ne_zero,zpow_natCast]
    ring
  have hscaled : rounded p x-x=(nearestEven (x/2^(Int.log 2 |x| + 1-p))-x/2^(Int.log 2 |x| + 1-p)) *
      2^(Int.log 2 |x| + 1-p) := by
    rw [rounded,sub_mul,div_mul_cancel₀ _ hpow.ne']
  rw [hscaled,abs_mul,abs_of_pos hpow]
  calc
    _≤1/2*(2 : ℚ)^(Int.log 2 |x| + 1-p) := mul_le_mul_of_nonneg_right (abs_nearestEven_sub _) hpow.le
    _=2^Int.log 2 x/2^p := by rw [hhalf,abs_of_pos hx]; ring
    _≤x/2^p := by gcongr; exact_mod_cast hlog

theorem rounded_between (hb : 0<b) (ha : a<2^p) (hmod : 0<a%b) :
    ((a/b : ℕ) : ℚ)<rounded p ((a : ℚ)/b) ∧ rounded p ((a : ℚ)/b)<(a/b : ℕ)+1 := by
  have hbq : (0 : ℚ)<b := cast_pos.mpr hb
  have hapos : 0<a := pos_of_ne_zero fun hzero => by simp [hzero] at hmod
  have hsplit : (a : ℚ)=b*(a/b : ℕ)+(a%b : ℕ) := by exact_mod_cast (div_add_mod a b).symm
  have hquot : (a : ℚ)/b=(a/b : ℕ)+(a%b : ℕ)/b := by
    rw [div_eq_iff hbq.ne',add_mul,div_mul_cancel₀ _ hbq.ne']
    linarith
  have hlow : (1 : ℚ)/b≤(a%b : ℕ)/b := by
    gcongr
    exact_mod_cast hmod
  have hhigh : ((a%b : ℕ) : ℚ)/b≤1-1/b := by
    rw [div_le_iff₀ hbq,sub_mul,one_mul,div_mul_cancel₀ _ hbq.ne']
    have hlt : a%b+1≤b := mod_lt a hb
    have hcast : ((a%b : ℕ) : ℚ)+1≤b := by exact_mod_cast hlt
    linarith
  -- The error is below the distance of such a quotient from an integer.
  have herror : |rounded p ((a : ℚ)/b)-a/b| < 1/b := by
    refine (abs_rounded_sub (div_pos (cast_pos.mpr hapos) hbq)).trans_lt ?_
    have hlt : (a : ℚ)<2^p := by exact_mod_cast ha
    rw [div_div,mul_comm,← div_div]
    gcongr
    exact (div_lt_one (by positivity)).mpr hlt
  rw [abs_lt] at herror
  constructor
  · linarith
  · linarith

theorem floor_rounded (hb : 0<b) (ha : a<2^p) : ⌊rounded p ((a : ℚ)/b)⌋₊ = a/b := by
  rcases Nat.eq_zero_or_pos (a%b) with hmod | hmod
  · rw [← cast_div (dvd_of_mod_eq_zero hmod) (cast_ne_zero.mpr hb.ne'),
      rounded_natCast ((div_le_self a b).trans_lt ha),floor_natCast]
  · obtain ⟨hlow,hhigh⟩:=rounded_between hb ha hmod
    exact (floor_eq_iff ((cast_nonneg _).trans hlow.le)).mpr ⟨hlow.le,hhigh⟩

theorem ceil_rounded (hb : 0<b) (ha : a<2^p) : ⌈rounded p ((a : ℚ)/b)⌉₊ = (a+b-1)/b := by
  have hsplit:=div_add_mod a b
  rcases Nat.eq_zero_or_pos (a%b) with hmod | hmod
  · have hceil : (a+b-1)/b=a/b := by
      rw [show a+b-1=b-1+b*(a/b) by omega,add_mul_div_left _ _ hb,div_eq_of_lt (by omega),zero_add]
    rw [hceil,← cast_div (dvd_of_mod_eq_zero hmod) (cast_ne_zero.mpr hb.ne'),
      rounded_natCast ((div_le_self a b).trans_lt ha),ceil_natCast]
  · obtain ⟨hlow,hhigh⟩:=rounded_between hb ha hmod
    have hceil : (a+b-1)/b=a/b+1 := by
      have hlt:=mod_lt a hb
      rw [show a+b-1=a%b-1+b*(a/b+1) by rw [mul_add,mul_one]; omega,
        add_mul_div_left _ _ hb,div_eq_of_lt (by omega),zero_add]
    rw [hceil,ceil_eq_iff (succ_ne_zero _)]
    refine ⟨by rwa [succ_sub_one],?_⟩
    push_cast
    exact hhigh.le

end Significand
