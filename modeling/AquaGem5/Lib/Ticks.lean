import Mathlib.Algebra.Group.Nat.Defs
import Mathlib.Data.Multiset.Count
import Mathlib.Data.Multiset.Filter

/-!
# Ticks

Simulated time. A difference of two ticks wraps at 2^64 when it is negative.
-/

namespace AquaGem5.Ticks

/-- `a - b` on unsigned 64-bit ticks. -/
def tickSub (a b : ℕ) : ℕ := if b≤a then a-b else a+2^64-b

theorem tickSub_of_le {a b : ℕ} (h : b≤a) : tickSub a b=a-b := if_pos h

def ahead (s : Multiset ℕ) (t : ℕ) : ℕ := (s.filter (t≤·)).card

theorem ahead_le_card (s : Multiset ℕ) (t : ℕ) : ahead s t ≤ s.card :=
  Multiset.card_le_card (Multiset.filter_le _ s)

theorem ahead_anti (s : Multiset ℕ) {t t' : ℕ} (h : t≤t') : ahead s t'≤ahead s t :=
  Multiset.card_le_card (Multiset.monotone_filter_right s fun _ ht => h.trans ht)

theorem ahead_lt {s : Multiset ℕ} {t t' : ℕ} (hmem : 0<s.count t) (h : t<t') : ahead s t'<ahead s t := by
  have hle : s.filter (t'≤·) ≤ s.filter (t≤·) :=
    Multiset.monotone_filter_right s fun _ ht => h.le.trans ht
  refine Multiset.card_lt_card (lt_of_le_of_ne hle fun heq => ?_)
  have hin : t∈s.filter (t≤·) :=
    Multiset.mem_filter.mpr ⟨Multiset.count_pos.mp hmem,le_refl t⟩
  rw [← heq,Multiset.mem_filter] at hin
  omega

end AquaGem5.Ticks
