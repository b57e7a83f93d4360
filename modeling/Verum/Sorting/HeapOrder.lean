import Mathlib.Logic.Equiv.Basic
import Mathlib.Order.Basic

namespace Sorting

def above (i : Nat) : Nat := (i - 1) / 2

theorem above_lt {i : Nat} (inner : 0 < i) : above i < i := by
  rw [above]
  omega

theorem above_eq_iff {i c : Nat} (inner : 0 < i) : above i = c ↔ i = 2 * c + 1 ∨ i = 2 * c + 2 := by
  rw [above]
  omega

variable {β : Type*} [Preorder β] {v : Nat → β} {k c l : Nat}

/-- From a position on, no value is greater than the one above it. -/
def OrderedFrom (v : Nat → β) (k : Nat) : Prop := ∀ i, 0 < i → k ≤ above i → v i ≤ v (above i)

/-- Ordered but for the value at a position, which may have to go down. -/
structure Sinking (v : Nat → β) (k c : Nat) : Prop where
  except : ∀ i, 0 < i → k ≤ above i → above i ≠ c → v i ≤ v (above i)
  grand : ∀ i, 0 < i → above i = c → 0 < c → k ≤ above c → v i ≤ v (above c)

/-- Ordered but for the value at a position, which may have to go up. -/
structure Rising (v : Nat → β) (c : Nat) : Prop where
  except : ∀ i, 0 < i → i ≠ c → v i ≤ v (above i)
  grand : ∀ i, 0 < i → above i = c → 0 < c → v i ≤ v (above c)

theorem OrderedFrom.le_root (ord : OrderedFrom v 0) (i : Nat) : v i ≤ v 0 := by
  induction i using Nat.strongRecOn with
  | ind i ih =>
    rcases Nat.eq_zero_or_pos i with rfl | inner
    · exact le_rfl
    · exact (ord i inner (Nat.zero_le _)).trans (ih _ (above_lt inner))

theorem OrderedFrom.rising (ord : OrderedFrom v 0) (c : Nat) : Rising v c where
  except i inner _ := ord i inner (Nat.zero_le _)
  grand i inner hlt pos := by
    have fst := ord i inner (Nat.zero_le _)
    rw [hlt] at fst
    exact fst.trans (ord c pos (Nat.zero_le _))

theorem OrderedFrom.sinking (ord : OrderedFrom v (k + 1)) : Sinking v k k where
  except i inner from_k other := ord i inner (by omega)
  grand i _ _ pos from_k := absurd (above_lt pos) (by omega)

theorem Sinking.finish (sinking : Sinking v k c) (stops : ∀ i, 0 < i → above i = c → v i ≤ v c) :
    OrderedFrom v k := by
  intro i inner from_k
  by_cases hlt : above i = c
  · rw [hlt]
    exact stops i inner hlt
  · exact sinking.except i inner from_k hlt

theorem Rising.finish (rising : Rising v c) (stops : 0 < c → v c ≤ v (above c)) : OrderedFrom v 0 := by
  intro i inner _
  by_cases here : i = c
  · subst here
    exact stops inner
  · exact rising.except i inner here

theorem Sinking.swap (sinking : Sinking v k c) (inner : 0 < l) (hlt : above l = c) (from_k : k ≤ c)
    (lt : v c ≤ v l) (greatest : ∀ i, 0 < i → above i = c → v i ≤ v l) : Sinking (v ∘ Equiv.swap c l) k l := by
  have lower : c < l := hlt ▸ above_lt inner
  have atC : (v ∘ Equiv.swap c l) c = v l := by rw [Function.comp_apply, Equiv.swap_apply_left]
  have atL : (v ∘ Equiv.swap c l) l = v c := by rw [Function.comp_apply, Equiv.swap_apply_right]
  have elsewhere : ∀ i, i ≠ c → i ≠ l → (v ∘ Equiv.swap c l) i = v i := by
    intro i notC notL
    rw [Function.comp_apply, Equiv.swap_apply_of_ne_of_ne notC notL]
  constructor
  · intro i pos reached other
    have less_i := above_lt pos
    by_cases isL : i = l
    · subst isL
      rw [hlt, atC, atL]
      exact lt
    · by_cases underC : above i = c
      · rw [underC, atC, elsewhere i (by omega) isL]
        exact greatest i pos underC
      · rw [elsewhere (above i) underC other]
        by_cases isC : i = c
        · subst isC
          rw [atC]
          exact sinking.grand l inner hlt pos reached
        · rw [elsewhere i isC isL]
          exact sinking.except i pos reached underC
  · intro i pos under _ _
    have less_i := above_lt pos
    rw [hlt, atC, elsewhere i (by omega) (by omega), ← under]
    exact sinking.except i pos (by omega) (by omega)

theorem Rising.swap (rising : Rising v c) (inner : 0 < c) (lt : v (above c) ≤ v c) :
    Rising (v ∘ Equiv.swap c (above c)) (above c) := by
  have lower := above_lt inner
  have atC : (v ∘ Equiv.swap c (above c)) c = v (above c) := by rw [Function.comp_apply, Equiv.swap_apply_left]
  have atP : (v ∘ Equiv.swap c (above c)) (above c) = v c := by rw [Function.comp_apply, Equiv.swap_apply_right]
  have elsewhere : ∀ i, i ≠ c → i ≠ above c → (v ∘ Equiv.swap c (above c)) i = v i := by
    intro i notC notP
    rw [Function.comp_apply, Equiv.swap_apply_of_ne_of_ne notC notP]
  constructor
  · intro i pos other
    by_cases isC : i = c
    · subst isC
      rw [atC, atP]
      exact lt
    · rw [elsewhere i isC other]
      by_cases underP : above i = above c
      · rw [underP, atP]
        have old := rising.except i pos isC
        rw [underP] at old
        exact old.trans lt
      · by_cases underC : above i = c
        · rw [underC, atC]
          exact rising.grand i pos underC inner
        · rw [elsewhere (above i) underC underP]
          exact rising.except i pos isC
  · intro i pos under upper
    have less_i := above_lt pos
    have less_p := above_lt upper
    have top := rising.except (above c) upper (by omega)
    rw [elsewhere (above (above c)) (by omega) (by omega)]
    by_cases isC : i = c
    · subst isC
      rw [atC]
      exact top
    · rw [elsewhere i isC (by omega)]
      have old := rising.except i pos isC
      rw [under] at old
      exact old.trans top

end Sorting
