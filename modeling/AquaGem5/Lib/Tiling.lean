import Mathlib.Algebra.Order.Ring.Nat

/-!
# Tilings of an interval

A piece `(a,n)` stands for the `n` numbers from `a` on.
-/

namespace Tiling

def Tiles : ℕ → List (ℕ × ℕ) → ℕ → Prop
  | a,[],b => a=b
  | a,(a',n)::l,b => a'=a ∧ Tiles (a+n) l b

instance decTiles : (a : ℕ) → (l : List (ℕ × ℕ)) → (b : ℕ) → Decidable (Tiles a l b)
  | a,[],b => inferInstanceAs (Decidable (a=b))
  | a,(a',n)::l,b => @instDecidableAnd (a'=a) (Tiles (a+n) l b) _ (decTiles (a+n) l b)

variable {a b x : ℕ} {l : List (ℕ × ℕ)}

def holding (x : ℕ) (l : List (ℕ × ℕ)) : List (ℕ × ℕ) := l.filter fun p => decide (p.1≤x ∧ x<p.1+p.2)

theorem Tiles.le (h : Tiles a l b) : a≤b := by
  induction l generalizing a with
  | nil => exact (show a=b from h).le
  | cons p l ih =>
    obtain ⟨_,hrest⟩:=h
    exact (Nat.le_add_right a p.2).trans (ih hrest)

theorem Tiles.holding_length (h : Tiles a l b) (x : ℕ) : (holding x l).length=if a≤x ∧ x<b then 1 else 0 := by
  induction l generalizing a with
  | nil =>
    have hab : a=b := h
    rw [if_neg (by omega)]
    rfl
  | cons p l ih =>
    obtain ⟨a',n⟩:=p
    obtain ⟨rfl,hrest⟩:=h
    have hle:=hrest.le
    have hcount:=ih hrest
    rw [holding] at hcount ⊢
    rw [List.filter_cons]
    by_cases hin : a'≤x ∧ x<a'+n
    · rw [if_neg (by omega)] at hcount
      rw [if_pos (decide_eq_true hin),List.length_cons,hcount,if_pos (by omega)]
    · rw [if_neg (by simpa using hin),hcount]
      by_cases hrange : a'+n≤x ∧ x<b
      · rw [if_pos hrange,if_pos (by omega)]
      · rw [if_neg hrange,if_neg (by omega)]

def cuts (n a b : ℕ) : ℕ := (b+n-1)/n-a/n

variable {n : ℕ}

theorem div_lt_cut (hn : 0<n) (h : a<b) : a/n<(b+n-1)/n := by
  have hlast : (b-1)/n+1=(b+n-1)/n := by
    rw [← Nat.add_div_right _ hn]
    congr 1
    omega
  have hle : a/n≤(b-1)/n := Nat.div_le_div_right (by omega)
  omega

theorem cut_of_le (hn : 0<n) (h : a<b) (hle : b≤(a/n+1)*n) : (b+n-1)/n=a/n+1 := by
  have hlt:=div_lt_cut hn h
  have hup : (b+n-1)/n<a/n+2 := by
    rw [Nat.div_lt_iff_lt_mul hn,show a/n+2=a/n+1+1 from rfl,Nat.add_mul,Nat.one_mul]
    omega
  omega

theorem cuts_eq (hn : 0<n) (a size : ℕ) : cuts n a (a+size)=(a%n+size+n-1)/n := by
  have hsplit : a+size+n-1=a%n+size+n-1+n*(a/n) := by
    have hdiv:=Nat.mod_add_div a n
    omega
  rw [cuts,hsplit,Nat.add_mul_div_left _ _ hn,Nat.add_sub_cancel]

end Tiling

/-!
## Pieces laid over each other

`latest` reads an address in the last of several pieces that has it.
-/

namespace AquaGem5.Overlay
open List

variable {α : Type}

def overlay (dst : List α) (off : ℕ) (new : List α) : List α := dst.take off++new++dst.drop (off+new.length)

structure Piece (α : Type) where
  addr : ℕ
  data : List α
  deriving DecidableEq

def Piece.at? (p : Piece α) (x : ℕ) : Option α := if p.addr≤x then p.data[x-p.addr]? else none

def latest (pieces : List (Piece α)) (x : ℕ) : Option α := pieces.reverse.findSome? (·.at? x)

variable {dst new : List α} {off : ℕ}

theorem length_overlay (h : off+new.length≤dst.length) : (overlay dst off new).length=dst.length := by
  rw [overlay,length_append,length_append,length_take,length_drop]
  omega

theorem getElem?_overlay (h : off+new.length≤dst.length) (i : ℕ) :
    (overlay dst off new)[i]?=if off ≤ i ∧ i<off+new.length then new[i-off]? else dst[i]? := by
  have htake : (dst.take off).length=off := by
    rw [length_take]
    omega
  rw [overlay,append_assoc]
  by_cases hlow : i<off
  · rw [getElem?_append_left (by omega),getElem?_take_of_lt hlow,if_neg (by omega)]
  · rw [getElem?_append_right (by omega),htake]
    by_cases hhigh : i<off+new.length
    · rw [getElem?_append_left (by omega),if_pos (by omega)]
    · rw [getElem?_append_right (by omega),getElem?_drop,if_neg (by omega)]
      congr 1
      omega

theorem Piece.at?_isSome (p : Piece α) (x : ℕ) : (p.at? x).isSome ↔ p.addr≤x ∧ x<p.addr+p.data.length := by
  rw [at?]
  split
  · rw [Option.isSome_iff_ne_none,ne_eq,getElem?_eq_none_iff]
    omega
  · exact iff_of_false Bool.false_ne_true (by omega)

theorem latest_append (pieces : List (Piece α)) (p : Piece α) (x : ℕ) :
    latest (pieces++[p]) x=(p.at? x).or (latest pieces x) := by
  rw [latest,reverse_append,reverse_singleton,singleton_append,findSome?_cons]
  cases p.at? x <;> rfl

end AquaGem5.Overlay
