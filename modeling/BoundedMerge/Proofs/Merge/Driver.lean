import BoundedMerge.Proofs.Layout.Lawful
import BoundedMerge.Proofs.Merge.Follow
import BoundedMerge.Proofs.Strategy.FirstPending
import Mathlib.Data.List.Forall2

/-!
A pass over tapes takes the course that the policy takes over runs held in memory. The runs are
the records from the cursors on; what the policy emits is written behind the cursor of the output,
and what it is shown is what it would be shown if no tape were there.
-/

namespace BoundedMerge

open SiteM

variable {π τ : Type} [FixedWidth τ] {ref : Site}

def Reel.wound (r : Reel τ) : Reel τ where
  records := r.records
  offset := r.records.length
  offset_le := Nat.le_refl _

namespace Bench

variable {b : Bench π τ} {reels : List (Reel τ)} {start : Reel τ}

theorem feeds_of_shows (h : List.Forall₂ Tape.Shows b.inputs.toList reels) :
    b.Feeds (reels.map Reel.records) (reels.map Reel.rest) := by
  have hlength : b.inputs.size = reels.length := h.length_eq
  constructor
  · rw [List.length_map, hlength]
  · rw [List.length_map, List.length_map]
  · intro i t content rest ht hcontent hrest
    rw [← Array.getElem?_toList] at ht
    rw [List.getElem?_map, Option.map_eq_some_iff] at hcontent hrest
    obtain ⟨r, hr, rfl⟩ := hcontent
    obtain ⟨r', hr', rfl⟩ := hrest
    obtain rfl : r = r' := Option.some.inj (hr.symm.trans hr')
    obtain ⟨hi, rfl⟩ := List.getElem?_eq_some_iff.mp ht
    obtain ⟨hi', rfl⟩ := List.getElem?_eq_some_iff.mp hr
    exact ⟨_, h.get hi hi', rfl, rfl⟩

/-- Inputs that have nothing left show their reels wound to the end. -/
theorem Feeds.wound {left : List (List τ)} (h : b.Feeds (reels.map Reel.records) left)
    (hleft : ∀ run ∈ left, run = []) (hblocks : ∀ t ∈ b.inputs, t.block = none) :
    List.Forall₂ (fun t r => t.Shows r.wound ∧ t.block = none) b.inputs.toList reels := by
  have hlength : left.length = reels.length := by
    rw [← h.length_eq, List.length_map]
  rw [List.forall₂_iff_get]
  constructor
  · rw [Array.length_toList, h.size_eq, hlength]
  · intro i hi hi'
    have ht : b.inputs[i]? = some b.inputs.toList[i] := by
      rw [← Array.getElem?_toList, List.getElem?_eq_getElem hi]
    have hcontent : (reels.map Reel.records)[i]? = some reels[i].records := by
      rw [List.getElem?_map, List.getElem?_eq_getElem hi', Option.map_some]
    have hrun : left[i]? = some [] := by
      have hlt : i < left.length := by rw [hlength]; exact hi'
      rw [List.getElem?_eq_getElem hlt, hleft _ (List.getElem_mem hlt)]
    obtain ⟨r, hshows, hrecords, hrest⟩ := h.input i _ _ _ ht hcontent hrun
    constructor
    · have hwound : r = reels[i].wound := by
        have hle := r.offset_le
        have hend := List.drop_eq_nil_iff.mp hrest
        have hoffset : r.offset = reels[i].records.length := by
          rw [← hrecords]
          omega
        exact Reel.ext hrecords hoffset
      rw [List.get_eq_getElem, List.get_eq_getElem, ← hwound]
      exact hshows
    · exact hblocks _ (Array.mem_of_getElem? ht)

/-- What a pass leaves when the policy returns with the runs `left`. -/
structure Performed (reels : List (Reel τ)) (start : Reel τ) (emitted : List τ)
    (outcome : Except MergeError Unit) (p : π) (left : List (List τ))
    (res : Except MergeError Stats × Bench π τ) : Prop where
  result_eq : res.1 = outcome.map fun _ =>
    ⟨1, reels.length, (reels.map fun r => r.rest.length).sum, emitted.length⟩
  strategy_eq : res.2.strategy = p
  output : res.2.output.Shows (start.writeArray emitted)
  /-- The pending record of an input has been read already. -/
  feeds : res.2.Feeds (reels.map Reel.records) (left.map List.tail)
  wound : outcome = .ok () →
    List.Forall₂ (fun t r => t.Shows r.wound ∧ t.block = none) res.2.inputs.toList reels

/-- The pass takes the course: it returns if the policy does, and it halts where the policy does
or when the steps it is allowed are used up. -/
def Performs [Strategy π τ] (ref : Site) (b : Bench π τ) (reels : List (Reel τ))
    (start : Reel τ) (course : Course π τ) : Prop :=
  Meets ref ((mergePass : BenchM π τ Stats) b)
    (fun res => ∃ outcome p left, course.ending = .returned outcome p left ∧
      Performed reels start course.emitted outcome p left res)
    (fun h => course.ending = .halted h ∨ (course.ending = .running ∧ h = .stalled))

variable [LawfulFixedWidth τ] [Strategy π τ] {policy : Policy π τ}

omit [FixedWidth τ] [LawfulFixedWidth τ] in
/-- One step of the strategy is one step of the policy that it plays. -/
theorem leads_drive (hplays : policy.PlayedBy ref) (course : Course π τ) (steps : Nat) (p : π)
    (runs : List (List τ)) (out : List τ)
    (hcourse : (policy.drive (steps + 1) p runs).ending = course.ending ∧
      out ++ (policy.drive (steps + 1) p runs).emitted = course.emitted) :
    Strategy.Leads ref
      (fun p runs out => (policy.drive steps p runs).ending = course.ending ∧
        out ++ (policy.drive steps p runs).emitted = course.emitted)
      (fun outcome p runs out => course.ending = .returned outcome p runs ∧
        out = course.emitted)
      (fun h => course.ending = .halted h ∨ (course.ending = .running ∧ h = .stalled))
      p runs out := by
  have hoperate := hplays.operate (runs.map List.head?) p
  rw [List.length_map] at hoperate
  rw [Policy.drive] at hcourse
  have hhalts := hoperate.mono_halts
    (K := fun h => course.ending = .halted h ∨ (course.ending = .running ∧ h = .stalled))
    fun halt hhalt => by
      rw [hhalt] at hcourse
      exact .inl hcourse.1.symm
  apply hhalts.mono
  intro res hres
  obtain ⟨outcome, p'⟩ := res
  simp only [hres] at hcourse ⊢
  rcases outcome with e | ⟨step, taken⟩
  · exact ⟨hcourse.1.symm, by simpa using hcourse.2⟩
  have hmarks := policy.marks _ p step taken p' hres
  rw [List.length_map] at hmarks
  cases step with
  | done => exact ⟨hcourse.1.symm, by simpa using hcourse.2⟩
  | skip => exact ⟨hmarks.nodup, hmarks.bounded, hcourse⟩
  | emit x =>
    refine ⟨hmarks.nodup, hmarks.bounded, hcourse.1, ?_⟩
    rw [List.append_assoc]
    exact hcourse.2

theorem performs_course (hplays : policy.PlayedBy ref)
    (hinputs : List.Forall₂ Tape.Shows b.inputs.toList reels) (hreels : reels ≠ [])
    (hshows : b.output.Shows start) :
    b.Performs ref reels start
      (policy.course b.stepLimit b.strategy (reels.map Reel.rest)) := by
  have hfeeds := feeds_of_shows hinputs
  have hruns : reels.map Reel.rest ≠ [] := by simpa using hreels
  have hlimit : b.stepLimit =
      Strategy.stepLimit τ b.strategy ((reels.map Reel.rest).map List.length) := by
    rw [stepLimit, hfeeds.lengths_eq]
  have hempty (p : π) (left : List (List τ))
      (h : (policy.course b.stepLimit b.strategy (reels.map Reel.rest)).ending =
        .returned (.ok ()) p left) : ∀ run ∈ left, run = [] := policy.course_left h
  generalize hcourse : policy.course b.stepLimit b.strategy (reels.map Reel.rest) = course
    at hempty
  rw [Policy.course, hlimit] at hcourse
  have hprepare := hplays.prepare ((reels.map Reel.rest).map List.head?) b.strategy
  have hhalts := hprepare.mono_halts
    (K := fun h => course.ending = .halted h ∨ (course.ending = .running ∧ h = .stalled))
    fun halt hhalt => by
      rw [hhalt] at hcourse
      rw [← hcourse]
      exact .inl rfl
  have hpass := meets_mergePass (b := b)
    (I := fun steps p runs out => (policy.drive steps p runs).ending = course.ending ∧
      out ++ (policy.drive steps p runs).emitted = course.emitted)
    (fun steps p runs out h => leads_drive hplays course steps p runs out h)
    (fun p runs out h => .inr ⟨h.1.symm, rfl⟩)
    (hhalts.mono fun res hres => by
      obtain ⟨outcome, p⟩ := res
      rw [hres] at hcourse
      rw [← hcourse]
      rcases outcome with e | ⟨⟩
      · exact ⟨rfl, rfl⟩
      · exact ⟨rfl, rfl⟩)
    hfeeds hruns hshows
  apply hpass.mono
  intro res hres
  obtain ⟨outcome, p, left, out, ⟨hending, rfl⟩, hstands, hok, hblocks⟩ := hres
  refine ⟨outcome, p, left, hending, ?_, hstands.strategy_eq, hstands.shows, hstands.feeds, ?_⟩
  · rw [hok]
    rcases outcome with e | ⟨⟩
    · rfl
    · rw [Except.map, Except.map, tally, Strategy.remaining_of_empty (hempty p left hending),
        List.length_map, Strategy.remaining, List.map_map, Nat.sub_zero]
      rfl
  · intro hdone
    subst hdone
    have hnone : ∀ run ∈ left.map List.tail, run = [] := by
      intro run hrun
      obtain ⟨run', hrun', rfl⟩ := List.mem_map.mp hrun
      rw [hempty p left hending run' hrun', List.tail_nil]
    exact hstands.feeds.wound hnone (hblocks rfl)

def watched (b : Bench π τ) (allowed : Nat) : Bench (Watched π τ) τ where
  output := b.output
  strategy := { strategy := b.strategy, allowed }
  inputs := b.inputs

/-- A pass loses and duplicates nothing, whatever the policy: it takes the course that the policy
takes over the records that follow the cursors, to the same result, with every record that was
emitted behind the cursor of the output. A record of the calls shows the calls of that course, for
every number of steps that the pass is allowed, and more steps than the course has make no
difference to it. -/
theorem mergePass_takes_course (hplays : policy.PlayedBy ref)
    (hinputs : List.Forall₂ Tape.Shows b.inputs.toList reels) (hreels : reels ≠ [])
    (hshows : b.output.Shows start) :
    b.Performs ref reels start
        (policy.course b.stepLimit b.strategy (reels.map Reel.rest)) ∧
      (∀ allowed, (b.watched allowed).Performs ref reels start
        ((policy.course allowed b.strategy (reels.map Reel.rest)).watched
          { strategy := b.strategy, allowed })) ∧
      ∀ steps more, steps ≤ more →
        (policy.course steps b.strategy (reels.map Reel.rest)).ending ≠ .running →
        policy.course more b.strategy (reels.map Reel.rest) =
          policy.course steps b.strategy (reels.map Reel.rest) := by
  refine ⟨performs_course hplays hinputs hreels hshows, ?_, ?_⟩
  · intro allowed
    have hwatched := performs_course (b := b.watched allowed) hplays.watched hinputs hreels hshows
    rw [Policy.course_watched] at hwatched
    exact hwatched
  · intro steps more hmore hended
    exact policy.course_of_le hmore hended

section Bytes

/-- Two inputs of bytes that advance together, the first with its cursor behind a record. -/
def pairOfBytes : Bench (FirstPending Byte) Byte where
  output := Tape.ofDisk (Disk.ofBytes (FixedWidth.encodeAll ([] : List Byte))) none 4
  strategy := { mode := .lockstep, key := fun _ => 0 }
  inputs := #[
    { Tape.ofDisk (Disk.ofBytes (FixedWidth.encodeAll ([7#8, 1#8, 2#8] : List Byte))) none 1 with
      offset := 1 },
    Tape.ofDisk (Disk.ofBytes (FixedWidth.encodeAll ([3#8, 4#8, 5#8] : List Byte))) none 2]

/-- What is emitted is the first pending record of each step. -/
theorem mergePass_takes_course_pair :
    (pairOfBytes.watched 9).Performs { ledger := default }
        [⟨[7#8, 1#8, 2#8], 1, by decide⟩, ⟨[3#8, 4#8, 5#8], 0, by decide⟩] ⟨[], 0, by decide⟩
        ((FirstPending.policy.course 9 pairOfBytes.strategy
          [[1#8, 2#8], [3#8, 4#8, 5#8]]).watched
            { strategy := pairOfBytes.strategy, allowed := 9 }) ∧
      (FirstPending.policy.course 9 pairOfBytes.strategy
        [[1#8, 2#8], [3#8, 4#8, 5#8]]).emitted = [1#8, 2#8, 5#8] := by
  have hfirst := Tape.shows_ofDisk width_byte_pos [7#8, 1#8, 2#8] none 1
  have hsecond := Tape.shows_ofDisk width_byte_pos [3#8, 4#8, 5#8] none 2
  have houtput := Tape.shows_ofDisk width_byte_pos [] none 4
  have hcourse := mergePass_takes_course (b := pairOfBytes)
    (FirstPending.playedBy { ledger := default })
    (.cons (hfirst.move 1 (by decide)) (.cons hsecond .nil)) (List.cons_ne_nil _ _) houtput
  exact ⟨hcourse.2.1 9, rfl⟩

end Bytes

end Bench

end BoundedMerge
