import Mathlib.Tactic.Ring

/-!
# Folded bit streams

The first bits of a stream are folded into a word of `c` bits: bit `i` is added at the position `i % c`.
-/

namespace Folding
open BitVec

variable {w c n : ℕ} {h : ℕ → Bool} {b : Bool}

def bit (w : ℕ) (b : Bool) (p : ℕ) : BitVec w := if b then BitVec.twoPow w p else 0#w

def fold (w c : ℕ) (h : ℕ → Bool) : ℕ → BitVec w
  | 0 => 0#w
  | n+1 => fold w c h n ^^^ bit w (h n) (n%c)

def push (b : Bool) (h : ℕ → Bool) : ℕ → Bool
  | 0 => b
  | n+1 => h n

def reduce (c : ℕ) (x : BitVec w) : BitVec w := (x ^^^ x >>> c) &&& BitVec.ofNat w (2^c-1)

theorem getLsbD_bit (w : ℕ) (b : Bool) (p i : ℕ) : (bit w b p).getLsbD i=(b&&decide (i<w)&&decide (p=i)) := by
  rw [bit]
  cases b with
  | true =>
    rw [if_pos rfl,getLsbD_twoPow,Bool.true_and,← Bool.decide_and,← Bool.decide_and]
    exact decide_eq_decide.mpr (by omega)
  | false => rw [if_neg Bool.false_ne_true,Bool.false_and,Bool.false_and]; exact getLsbD_zero

theorem getLsbD_reduce (x : BitVec w) (i : ℕ) :
    (reduce c x).getLsbD i=((x.getLsbD i ^^ x.getLsbD (c+i))&&(decide (i<w)&&decide (i<c))) := by
  rw [reduce,getLsbD_and,getLsbD_xor,getLsbD_ushiftRight,getLsbD_ofNat,
    Nat.testBit_two_pow_sub_one]

theorem reduce_xor (x y : BitVec w) : reduce c (x ^^^ y)=reduce c x ^^^ reduce c y := by
  refine eq_of_getLsbD_eq fun i _ => ?_
  simp only [getLsbD_reduce,getLsbD_xor]
  cases x.getLsbD i <;> cases x.getLsbD (c+i) <;> cases y.getLsbD i <;> cases y.getLsbD (c+i) <;> simp

theorem reduce_bit (w : ℕ) (b : Bool) {p : ℕ} (hp : p<c) : reduce c (bit w b p)=bit w b p := by
  refine eq_of_getLsbD_eq fun i hi => ?_
  simp only [getLsbD_reduce,getLsbD_bit,decide_eq_true hi,decide_eq_false (show ¬p=c+i by omega),Bool.and_false,
    Bool.xor_false,Bool.and_true,Bool.true_and]
  cases b with
  | false => rfl
  | true =>
    rw [Bool.true_and,← Bool.decide_and]
    exact decide_eq_decide.mpr (by omega)

theorem reduce_bit_shiftLeft (b : Bool) {p : ℕ} (hp : p<c) (hc : c<w) :
    reduce c (bit w b p <<< 1)=bit w b ((p+1)%c) := by
  have hshift : bit w b p <<< 1=bit w b (p+1) := by
    refine eq_of_getLsbD_eq fun i hi => ?_
    rw [getLsbD_shiftLeft,getLsbD_bit,getLsbD_bit,decide_eq_true hi]
    by_cases hi1 : i<1
    · rw [decide_eq_true hi1,decide_eq_false (show ¬p+1=i by omega),Bool.not_true,Bool.and_false,Bool.false_and,
        Bool.and_false]
    · rw [decide_eq_false hi1,decide_eq_true (show i-1<w by omega),Bool.not_false,Bool.true_and,Bool.true_and,
        Bool.and_true]
      exact congrArg (b&&·) (decide_eq_decide.mpr (by omega))
  rw [hshift]
  rcases Nat.lt_or_ge (p+1) c with hlt | hge
  · rw [reduce_bit w b hlt,Nat.mod_eq_of_lt hlt]
  have hpc : p+1=c := by omega
  rw [hpc,Nat.mod_self]
  refine eq_of_getLsbD_eq fun i hi => ?_
  rw [getLsbD_reduce,getLsbD_bit,getLsbD_bit,getLsbD_bit,decide_eq_true hi]
  cases b with
  | false => rfl
  | true =>
    rw [Bool.true_and,Bool.true_and,Bool.true_and,Bool.true_and,Bool.true_and]
    by_cases h0 : 0=i
    · subst h0
      rw [decide_eq_false (show ¬c=0 by omega),decide_eq_true (show c+0<w by omega),decide_eq_true (show c=c+0 by omega),
        decide_eq_true (show 0<c by omega)]
      rfl
    · rw [decide_eq_false h0,decide_eq_false (show ¬c=c+i by omega),Bool.and_false,Bool.xor_false]
      by_cases hci : c=i
      · rw [decide_eq_false (show ¬i<c by omega),Bool.and_false]
      · rw [decide_eq_false hci,Bool.false_and]

theorem reduce_fold_shiftLeft (hc0 : 0<c) (hc : c<w) (h : ℕ → Bool) (n : ℕ) :
    reduce c (fold w c h n <<< 1)=fold w c (push false h) (n+1) := by
  induction n with
  | zero =>
    have hbit : bit w (push false h 0) (0%c)=0#w := if_neg Bool.false_ne_true
    rw [fold,fold,fold,hbit,BitVec.xor_zero,zero_shiftLeft]
    refine eq_of_getLsbD_eq fun i _ => ?_
    rw [getLsbD_reduce]
    simp
  | succ n ih =>
    have hlt:=Nat.mod_lt n hc0
    rw [fold,shiftLeft_xor_distrib,reduce_xor,ih,reduce_bit_shiftLeft (h n) hlt hc,Nat.mod_add_mod]
    rfl

theorem fold_push (w c : ℕ) (b : Bool) (h : ℕ → Bool) (n : ℕ) :
    fold w c (push b h) (n+1)=fold w c (push false h) (n+1) ^^^ bit w b 0 := by
  induction n with
  | zero =>
    rw [fold,fold,fold,fold]
    show 0#w ^^^ bit w b (0%c)=0#w ^^^ bit w false (0%c) ^^^ bit w b 0
    rw [Nat.zero_mod,show bit w false 0=0#w from if_neg Bool.false_ne_true,BitVec.xor_zero]
  | succ n ih =>
    rw [fold,ih,fold.eq_2 w c (push false h) (n+1),BitVec.xor_assoc,BitVec.xor_assoc,BitVec.xor_comm (bit w b 0)]
    rfl

theorem fold_update (hc0 : 0<c) (hc : c<w) (b : Bool) (h : ℕ → Bool) (n : ℕ) :
    reduce c ((fold w c h n <<< 1 ||| bit w b 0) ^^^ bit w (push b h n) (n%c))=fold w c (push b h) n := by
  have hor : fold w c h n <<< 1 ||| bit w b 0=fold w c h n <<< 1 ^^^ bit w b 0 := by
    refine eq_of_getLsbD_eq fun i hi => ?_
    rw [getLsbD_or,getLsbD_xor,getLsbD_shiftLeft,getLsbD_bit]
    by_cases h0 : 0=i
    · subst h0
      simp
    · rw [decide_eq_false h0,Bool.and_false,Bool.or_false,Bool.xor_false]
  have hself : ∀ x y : BitVec w, x ^^^ y ^^^ y=x := fun x y => by
    rw [BitVec.xor_assoc,BitVec.xor_self,BitVec.xor_zero]
  rw [hor,reduce_xor,reduce_xor,reduce_fold_shiftLeft hc0 hc,reduce_bit w b hc0,reduce_bit w _ (Nat.mod_lt n hc0),← fold_push,
    fold,hself]

end Folding
