import BoundedMerge.Proofs.Order
import BoundedMerge.Sorting.Split

/-!
Splitting around a pivot. While the two places move towards each other each of them has a record
in front of it that stops it, so neither runs off the run. When they have met, no record of the
lower part is above the pivot and no record of the upper part is below it, and both parts are
shorter than the run.
-/

namespace BoundedMerge.Sorting

variable {τ : Type}

def NotAbove (less : τ → τ → Bool) (pivot : τ) (data : Array τ) (i : Nat) : Prop :=
  ∀ x, data[i]? = some x → less pivot x = false

def NotBelow (less : τ → τ → Bool) (pivot : τ) (data : Array τ) (i : Nat) : Prop :=
  ∀ x, data[i]? = some x → less x pivot = false

variable {less : τ → τ → Bool} {pivot : τ} {data : Array τ}

/-- The way down ends at or above any record that is not above the pivot. -/
theorem descend_stops (hc : Consistent less) {q k : Nat} (hq : q < data.size) (hkq : k ≤ q)
    (hk : NotAbove less pivot data k) :
    ∃ stop, descend less pivot data q = some stop ∧ k ≤ stop ∧ stop ≤ q ∧
      NotAbove less pivot data stop ∧ ∀ i, stop < i → i ≤ q → NotBelow less pivot data i := by
  induction q with
  | zero =>
    have hget := Array.getElem?_eq_getElem hq
    obtain rfl : k = 0 := by omega
    refine ⟨0, ?_, by omega, by omega, hk, fun i _ _ => by omega⟩
    simp only [descend, hget]
    rw [if_neg (by simp [hk _ hget])]
  | succ q ih =>
    have hget := Array.getElem?_eq_getElem hq
    simp only [descend, hget]
    by_cases habove : less pivot data[q + 1] = true
    · have hne : k ≠ q + 1 := by
        rintro rfl
        simp [hk _ hget] at habove
      obtain ⟨stop, hstop, hlow, hhigh, hat, hrest⟩ := ih (by omega) (by omega)
      rw [if_pos habove]
      refine ⟨stop, hstop, hlow, by omega, hat, fun i hi hiq => ?_⟩
      by_cases hlast : i = q + 1
      · intro x hx
        rw [hlast, hget, Option.some.injEq] at hx
        rw [← hx]
        exact hc.asymm _ _ habove
      · exact hrest i hi (by omega)
    · rw [if_neg habove]
      refine ⟨q + 1, rfl, hkq, Nat.le_refl _, fun x hx => ?_, fun i _ _ => by omega⟩
      rw [hget, Option.some.injEq] at hx
      rw [← hx]
      simpa using habove

/-- The way up ends at or below any record that is not below the pivot. -/
theorem ascend_stops (hc : Consistent less) {p k : Nat} (hk : k < data.size) (hpk : p ≤ k)
    (hat : NotBelow less pivot data k) :
    ∃ stop, ascend less pivot data p = some stop ∧ p ≤ stop ∧ stop ≤ k ∧
      NotBelow less pivot data stop ∧ ∀ i, p ≤ i → i < stop → NotAbove less pivot data i := by
  induction p using ascend.induct less pivot data with
  | case1 p hp hbelow ih =>
    have hget := Array.getElem?_eq_getElem hp
    have hne : p ≠ k := by
      rintro rfl
      simp [hat _ hget] at hbelow
    obtain ⟨stop, hstop, hlow, hhigh, hstopAt, hrest⟩ := ih (by omega)
    rw [ascend, dif_pos hp, if_pos hbelow]
    refine ⟨stop, hstop, by omega, hhigh, hstopAt, fun i hi his => ?_⟩
    by_cases hfirst : i = p
    · intro x hx
      rw [hfirst, hget, Option.some.injEq] at hx
      rw [← hx]
      exact hc.asymm _ _ hbelow
    · exact hrest i (by omega) his
  | case2 p hp hbelow =>
    rw [ascend, dif_pos hp, if_neg hbelow]
    refine ⟨p, rfl, Nat.le_refl _, hpk, fun x hx => ?_, fun i _ _ => by omega⟩
    rw [Array.getElem?_eq_getElem hp, Option.some.injEq] at hx
    rw [← hx]
    simpa using hbelow
  | case3 p hp => omega

/-- The places move towards each other: what they have passed is in its part, and each has a
record in front of it that stops it. -/
structure Closing (less : τ → τ → Bool) (pivot : τ) (data : Array τ) (p q : Nat) : Prop where
  inside : q < data.size
  lower : ∀ i, i < p → NotAbove less pivot data i
  upper : ∀ i, q < i → NotBelow less pivot data i
  stopsDown : ∃ k, p ≤ k + 1 ∧ k ≤ q ∧ NotAbove less pivot data k
  stopsUp : ∃ k, p ≤ k ∧ k ≤ q + 1 ∧ k < data.size ∧ NotBelow less pivot data k

theorem swap?_eq {i j : Nat} (hi : i < data.size) (hj : j < data.size) :
    swap? data i j = some (data.swap i j hi hj) := by
  rw [swap?, dif_pos ⟨hi, hj⟩]

/-- After the records at both places changed sides. -/
theorem Closing.swap {p q low high : Nat} (h : Closing less pivot data p q) (hlow : p ≤ low)
    (hlt : low < high) (hatHigh : NotAbove less pivot data high)
    (hatLow : NotBelow less pivot data low)
    (hbetween : ∀ i, p ≤ i → i < low → NotAbove less pivot data i)
    (hbetween' : ∀ i, high < i → i ≤ q → NotBelow less pivot data i)
    (hlowIn : low < data.size) (hhighIn : high < data.size) :
    Closing less pivot (data.swap low high hlowIn hhighIn) (low + 1) (high - 1) := by
  have hget (i : Nat) : (data.swap low high)[i]? = data[exchange low high i]? :=
    getElem?_exchange hlowIn hhighIn i
  have hlow' : NotAbove less pivot (data.swap low high) low := by
    intro x hx
    rw [hget, exchange, if_pos rfl] at hx
    exact hatHigh x hx
  have hhigh' : NotBelow less pivot (data.swap low high) high := by
    intro x hx
    rw [hget, exchange, if_neg (by omega), if_pos rfl] at hx
    exact hatLow x hx
  refine ⟨?_, fun i hi => ?_, fun i hi => ?_, ?_, ?_⟩
  · rw [Array.size_swap]
    omega
  · by_cases hilow : i = low
    · rwa [hilow]
    · intro x hx
      rw [hget, exchange, if_neg hilow, if_neg (by omega)] at hx
      by_cases hip : i < p
      · exact h.lower i hip x hx
      · exact hbetween i (by omega) (by omega) x hx
  · by_cases hihigh : i = high
    · rwa [hihigh]
    · intro x hx
      rw [hget, exchange, if_neg (by omega), if_neg hihigh] at hx
      by_cases hiq : i ≤ q
      · exact hbetween' i (by omega) hiq x hx
      · exact h.upper i (by omega) x hx
  · exact ⟨low, Nat.le_refl _, by omega, hlow'⟩
  · refine ⟨high, by omega, by omega, ?_, hhigh'⟩
    rw [Array.size_swap]
    omega

theorem swap?_perm {i j : Nat} {data' : Array τ} (h : swap? data i j = some data') :
    data'.Perm data := by
  unfold swap? at h
  split at h
  · rw [Option.some.injEq] at h
    rw [← h]
    exact Array.swap_perm _ _
  · contradiction

/-- One round, if the places have not met and if they have. -/
theorem meet_eq {p q low high : Nat} (hhigh : descend less pivot data q = some high)
    (hlow : ascend less pivot data p = some low) :
    meet less pivot data p q =
      if low < high then
        (swap? data low high).bind fun data => meet less pivot data (low + 1) (high - 1)
      else some (high, data) := by
  rw [meet]
  split
  · next upper lower hu hl =>
    rw [hhigh, Option.some.injEq] at hu
    rw [hlow, Option.some.injEq] at hl
    rw [hu, hl]
    split
    · split
      · next hswap => rw [hswap, Option.bind_some]
      · next hswap => rw [hswap, Option.bind_none]
    · rfl
  · next hnone => exact absurd hlow (hnone high low hhigh)

/-- In any order the records are only moved. -/
theorem meet_perm {p q last : Nat} {data' : Array τ}
    (h : meet less pivot data p q = some (last, data')) : data'.Perm data := by
  induction q using Nat.strongRecOn generalizing p data with
  | ind q ih =>
    cases hhigh : descend less pivot data q with
    | none =>
      rw [meet] at h
      split at h
      · next hhigh' _ =>
        rw [hhigh] at hhigh'
        contradiction
      · contradiction
    | some high =>
      cases hlow : ascend less pivot data p with
      | none =>
        rw [meet] at h
        split at h
        · next hlow' =>
          rw [hlow] at hlow'
          contradiction
        · contradiction
      | some low =>
        rw [meet_eq hhigh hlow] at h
        split at h
        · next hlt =>
          obtain ⟨swapped, hswap, hmeet⟩ := Option.bind_eq_some_iff.mp h
          have hhigh' := descend_le hhigh
          exact (ih (high - 1) (by omega) hmeet).trans (swap?_perm hswap)
        · rw [Option.some.injEq, Prod.mk.injEq] at h
          rw [h.2]

theorem partition_perm {pivotAt last : Nat} {data' : Array τ}
    (h : partition less pivotAt data = some (last, data')) : data'.Perm data := by
  unfold partition at h
  split at h
  · contradiction
  · next swapped hswap =>
    split at h
    · contradiction
    · exact (meet_perm h).trans (swap?_perm hswap)

/-- The places meet at or below `q`, and then all records are on their side. -/
theorem meet_splits (hc : Consistent less) {p q : Nat} (h : Closing less pivot data p q) :
    ∃ last data', meet less pivot data p q = some (last, data') ∧ last ≤ q ∧
      (∀ i, i ≤ last → NotAbove less pivot data' i) ∧
      ∀ i, last < i → NotBelow less pivot data' i := by
  induction q using Nat.strongRecOn generalizing p data with
  | ind q ih =>
    obtain ⟨k, hpk, hkq, hk⟩ := h.stopsDown
    obtain ⟨m, hpm, hmq, hm, hmAt⟩ := h.stopsUp
    obtain ⟨high, hhigh, hkhigh, hhighq, hatHigh, habove⟩ := descend_stops hc h.inside hkq hk
    obtain ⟨low, hlow, hplow, hlowm, hatLow, hbelow⟩ := ascend_stops hc hm hpm hmAt
    rw [meet_eq hhigh hlow]
    by_cases hlt : low < high
    · have hhighIn : high < data.size := Nat.lt_of_le_of_lt hhighq h.inside
      have hlowIn : low < data.size := Nat.lt_trans hlt hhighIn
      rw [if_pos hlt, swap?_eq hlowIn hhighIn, Option.bind_some]
      obtain ⟨last, data', hmeet, hlast, hparts⟩ := ih (high - 1) (by omega)
        (h.swap hplow hlt hatHigh hatLow hbelow habove hlowIn hhighIn)
      exact ⟨last, data', hmeet, by omega, hparts⟩
    · rw [if_neg hlt]
      refine ⟨high, data, rfl, hhighq, fun i hi => ?_, fun i hi => ?_⟩
      · by_cases hip : i < p
        · exact h.lower i hip
        · by_cases hihigh : i = high
          · rwa [hihigh]
          · exact hbelow i (by omega) (by omega)
      · by_cases hiq : i ≤ q
        · exact habove i hi hiq
        · exact h.upper i (by omega)

/-- If the way up stops where it starts, the places meet below the start of the way down. -/
theorem meet_lt (hc : Consistent less) {p q last : Nat} {data' : Array τ}
    (h : Closing less pivot data p q) (hp : NotBelow less pivot data p) (hpq : p < q)
    (hmeet : meet less pivot data p q = some (last, data')) : last < q := by
  have hq := h.inside
  obtain ⟨k, hpk, hkq, hk⟩ := h.stopsDown
  obtain ⟨high, hhigh, hkhigh, hhighq, hatHigh, habove⟩ := descend_stops hc h.inside hkq hk
  obtain ⟨low, hlow, hplow, hlowp, hatLow, hbelow⟩ :=
    ascend_stops hc (by omega : p < data.size) (Nat.le_refl p) hp
  rw [meet_eq hhigh hlow] at hmeet
  by_cases hlt : low < high
  · have hhighIn : high < data.size := Nat.lt_of_le_of_lt hhighq hq
    have hlowIn : low < data.size := Nat.lt_trans hlt hhighIn
    rw [if_pos hlt, swap?_eq hlowIn hhighIn, Option.bind_some] at hmeet
    obtain ⟨last', _, hmeet', hlast', -⟩ :=
      meet_splits hc (h.swap hplow hlt hatHigh hatLow hbelow habove hlowIn hhighIn)
    rw [hmeet', Option.some.injEq, Prod.mk.injEq] at hmeet
    omega
  · rw [if_neg hlt, Option.some.injEq, Prod.mk.injEq] at hmeet
    omega

/-- Both parts have a record at least. -/
theorem partition_splits (hc : Consistent less) {pivotAt : Nat} (hpivot : pivotAt < data.size)
    (hsize : 2 ≤ data.size) :
    ∃ last data' pivot, partition less pivotAt data = some (last, data') ∧
      last + 1 < data.size ∧ (∀ i, i ≤ last → NotAbove less pivot data' i) ∧
      ∀ i, last < i → NotBelow less pivot data' i := by
  have hzero : 0 < data.size := by omega
  have hfirst : (data.swap 0 pivotAt)[0]? = some data[pivotAt] := by
    rw [getElem?_exchange hzero hpivot, exchange, if_pos rfl, Array.getElem?_eq_getElem hpivot]
  have hsize' : (data.swap 0 pivotAt).size = data.size := Array.size_swap ..
  simp only [partition, swap?_eq hzero hpivot, hfirst]
  generalize data[pivotAt] = pivot at hfirst ⊢
  generalize data.swap 0 pivotAt = start at *
  have hself : less pivot pivot = false := by
    rw [← Bool.not_eq_true]
    intro h
    rw [hc.asymm _ _ h] at h
    contradiction
  have habove : NotAbove less pivot start 0 := by
    intro x hx
    rw [hfirst, Option.some.injEq] at hx
    rwa [← hx]
  have hbelow : NotBelow less pivot start 0 := by
    intro x hx
    rw [hfirst, Option.some.injEq] at hx
    rwa [← hx]
  have hclosing : Closing less pivot start 0 (start.size - 1) := by
    refine ⟨by omega, fun i hi => by omega, fun i hi x hx => ?_, ⟨0, by omega, by omega, habove⟩,
      ⟨0, by omega, by omega, by omega, hbelow⟩⟩
    rw [Array.getElem?_eq_none (by omega)] at hx
    contradiction
  obtain ⟨last, data', hmeet, hlast, hparts⟩ := meet_splits hc hclosing
  have hlt := meet_lt hc hclosing hbelow (by omega) hmeet
  exact ⟨last, data', pivot, hmeet, by omega, hparts⟩

end BoundedMerge.Sorting
