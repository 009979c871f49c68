import BoundedMerge.Proofs.Layout.Lawful
import BoundedMerge.Proofs.Merge.Driver
import BoundedMerge.Proofs.Merge.Forecast
import BoundedMerge.Proofs.Merge.Formation

/-!
Merging and shuffling at random. Whatever words are drawn, a pass writes an interleaving of its
inputs, so does a merge in many passes, and a shuffle writes the records of its input in another
order. Nothing that the strategy takes for granted fails on the way.
-/

namespace BoundedMerge

open SiteM

variable {γ τ : Type} [WordSource γ]

namespace Interleave

/-- A run is shuffled in main memory, unless a draw goes on and on. -/
theorem arranges (ref : Site) (first : γ) : Strategy.Arranges ref
    (fun p : Interleave γ => WordSource.Reaches first p.source)
    (fun (xs ys : List τ) => ys.Perm xs) (fun h => h = .stalled ∧ Draw.Stalls first) where
  arrange := by
    intro p xs hfirst
    change Meets ref ((arrange xs : StrategyM (Interleave γ) (Array τ)) p) _ _
    unfold arrange
    simp only [Work.run_bind, Work.run_get, pure_bind]
    rcases Draw.shuffle_perm xs p.source with hdone | ⟨hnone, hstalls⟩
    · obtain ⟨ys, later, hshuffle, hperm, hlater⟩ := hdone
      simp only [hshuffle]
      exact Meets.pure ⟨ys, rfl, hperm.toList, hfirst.trans hlater⟩
    · simp only [hnone]
      exact Meets.run_liftM (Meets.halt ⟨rfl, hstalls.later hfirst⟩)
  close := by
    intro p _
    obtain ⟨source, selection, arity, lastTaken, seen, emitted⟩ := p
    cases selection with
    | none => exact Meets.pure trivial
    | some s => exact Yields.release s.lease

/-- Pieces of the whole that were shuffled are joined into the whole in another order. -/
theorem assembles {whole out : List τ}
    (h : Merger.Assembles Interleaves (fun xs ys => ys.Perm xs) whole out) : out.Perm whole := by
  obtain ⟨pieces, runs, rfl, harranged, hjoins⟩ := h
  apply hjoins.perm.trans
  clear hjoins
  induction harranged with
  | nil => exact List.Perm.refl _
  | cons hpiece _ ih =>
    rw [List.flatten_cons, List.flatten_cons]
    exact hpiece.append ih

variable [FixedWidth τ] [LawfulFixedWidth τ]

/-- One pass over tapes. -/
theorem ensures_mergePass (site : Site) {b : Bench (Interleave γ) τ} {reels : List (Reel τ)}
    {start : Reel τ} (hinputs : List.Forall₂ Tape.Shows b.inputs.toList reels)
    (hreels : reels ≠ []) (hshows : b.output.Shows start) :
    ((Bench.mergePass : BenchM (Interleave γ) τ Stats) b).Ensures site
      (fun res _ => ∃ out, Conserves (reels.map Reel.rest) out ∧
        res.1 = .ok ⟨1, reels.length, (reels.map fun r => r.rest.length).sum,
          (reels.map fun r => r.rest.length).sum⟩ ∧
        res.2.output.Shows (start.writeArray out))
      (fun halt _ => site.Excuses halt) := by
  have hruns : reels.map Reel.rest ≠ [] := by simpa using hreels
  have hmerges : Strategy.Merges site (fun _ : Interleave γ => True) (Interleaves (τ := τ)) :=
    merges
  have hpass := hmerges.pass (b := b) trivial (Bench.feeds_of_shows hinputs) hruns hshows
  apply (hpass.ensures (Site.Like.refl site)).mono
  · intro res after hres
    obtain ⟨⟨p, out, -, hjoins, hstands, hok⟩, -⟩ := hres
    have htotal : out.length = (reels.map fun r => r.rest.length).sum := by
      rw [hjoins.perm.length_eq, List.length_flatten, List.map_map]
      rfl
    rw [List.length_map, htotal] at hok
    exact ⟨out, hjoins.conserves, hok, hstands.shows⟩
  · intro halt after hhalt
    exact hhalt

end Interleave

namespace Merger

variable [FixedWidth τ] [LawfulFixedWidth τ] {t : Transfer τ} {source start : Reel τ}

/-- What shuffling `source` behind `start` with the strategy `p` comes to. The input still has its
records. The output shows all of them in some order; or less memory was available than it takes to
form a run or to merge two, and the output is as it was. -/
def Shuffles (m : Merger) (p : Interleave γ) (source start : Reel τ)
    (res : Except MergeError Stats × Transfer τ) : Prop :=
  (∃ after, res.2.input.Shows after ∧ after.records = source.records) ∧
    ((∃ e, res.1 = .error e ∧ (e.Lacks (m.runSpace τ p) ∨ e.Lacks (m.mergeSpace τ p)) ∧
        res.2.output.Shows start) ∨
      ∃ stats shuffled, res.1 = .ok stats ∧ shuffled.Perm source.records ∧
        res.2.output.Shows (start.writeArray shuffled))

theorem meets_shuffle {ref : Site} (m : Merger) (first : γ) (hscratch : ref.scratch.Sound)
    (hinput : t.input.Shows source) (houtput : t.output.Shows start) :
    Meets ref (m.shuffle first t) (m.Shuffles { source := first : Interleave γ } source start)
      (fun h => h = .stalled ∧ Draw.Stalls first) := by
  unfold shuffle processWith
  simp only [Work.run_bind, Work.run_get, Work.run_set, Work.run_liftM, bind_assoc, pure_bind]
  have hfeeds : t.input.Feeds source.records source.rest := ⟨source, hinput, rfl, rfl⟩
  have hprocess := m.meets_process (s := ⟨⟨t.output, { source := first : Interleave γ }⟩, t.input⟩)
    (Interleave.merges_from first) (Interleave.arranges ref first) hinput.width_pos hscratch .here
    hfeeds houtput
  apply hprocess.bind
  intro out hout
  obtain ⟨outcome, s⟩ := out
  obtain ⟨hfits, ⟨rest, after, hafter, hrecords, -⟩, hends⟩ := hout
  simp only at hfits hafter hends ⊢
  have hclose := (Interleave.arranges (τ := τ) ref first).close s.strategy hfits
  apply (hclose.meets _).bind
  intro _ _
  rcases hends with ⟨e, rfl, hlacks, hsame⟩ | ⟨stats, out, rfl, hassembles, hout⟩
  · exact Meets.pure ⟨⟨after, hafter, hrecords⟩, .inl ⟨e, rfl, hlacks, hsame⟩⟩
  · have hperm := Interleave.assembles hassembles
    exact Meets.pure ⟨⟨after, hafter, hrecords⟩, .inr ⟨stats, out, rfl, hperm, hout⟩⟩

/-- Whatever words the source gives, a pass over some inputs comes to its end and writes an
interleaving of what follows their cursors. So does a merge in any number of passes, if memory is
enough to plan them, and a shuffle writes all records of its input in some order. None of them
halts on an assertion. -/
theorem interleave_conserves (site : Site) :
    (∀ (b : Bench (Interleave γ) τ) (reels : List (Reel τ)) (start : Reel τ),
      List.Forall₂ Tape.Shows b.inputs.toList reels → reels ≠ [] → b.output.Shows start →
        ((Bench.mergePass : BenchM (Interleave γ) τ Stats) b).Ensures site
          (fun res _ => ∃ out, Conserves (reels.map Reel.rest) out ∧
            res.1 = .ok ⟨1, reels.length, (reels.map fun r => r.rest.length).sum,
              (reels.map fun r => r.rest.length).sum⟩ ∧
            res.2.output.Shows (start.writeArray out))
          (fun halt _ => site.Excuses halt)) ∧
    (∀ (m : Merger) (target : Target (Interleave γ) τ) (tapes : List (Tape τ))
      (reels : List (Reel τ)) (start : Reel τ), site.scratch.Sound →
      List.Forall₂ Tape.Shows tapes reels → target.output.Shows start →
        ((m.merge tapes : MergeM (Interleave γ) τ Stats) target).Ensures site
          (fun res _ =>
            (∃ e, res.1 = .error e ∧ e.Lacks (m.mergeSpace τ target.strategy) ∧
              res.2.output.Shows start) ∨
            ∃ stats out, res.1 = .ok stats ∧ Conserves (reels.map Reel.rest) out ∧
              res.2.output.Shows (start.writeArray out))
          (fun halt _ => site.Excuses halt)) ∧
    (∀ (m : Merger) (first : γ) (t : Transfer τ) (source start : Reel τ), site.scratch.Sound →
      t.input.Shows source → t.output.Shows start →
        (m.shuffle first t).Ensures site
          (fun res _ => m.Shuffles { source := first : Interleave γ } source start res)
          (fun halt _ => site.Excuses halt ∨ halt = .stalled ∧ Draw.Stalls first)) := by
  refine ⟨?_, ?_, ?_⟩
  · intro b reels start hinputs hreels hshows
    exact Interleave.ensures_mergePass site hinputs hreels hshows
  · intro m target tapes reels start hscratch hinputs hshows
    have hleaves : List.Forall₂ Tape.Leaves tapes (reels.map Reel.rest) := by
      rw [List.forall₂_map_right_iff]
      exact hinputs.imp fun _ _ h => ⟨_, h, rfl⟩
    have hmerges : Strategy.Merges site (fun _ : Interleave γ => True) (Interleaves (τ := τ)) :=
      Interleave.merges
    have hmerge := m.yields_merge hmerges hshows.width_pos hscratch trivial hleaves hshows
    apply (hmerge.ensures (Site.Like.refl site)).mono
    · intro res after hres
      obtain ⟨⟨-, hcomes⟩, -⟩ := hres
      apply hcomes.imp_right
      intro hjoined
      obtain ⟨stats, out, hok, hjoins, hout⟩ := hjoined
      exact ⟨stats, out, hok, hjoins.conserves, hout⟩
    · intro halt after hhalt
      exact hhalt
  · intro m first t source start hscratch hinput houtput
    apply (m.meets_shuffle first hscratch hinput houtput site (Site.Like.refl site)).mono
    · intro res after hres
      exact hres.1
    · intro halt after hhalt
      exact hhalt

section Bytes

def threeReels : List (Reel Byte) := [⟨[1#8, 2#8], 0, by decide⟩, Reel.empty, ⟨[3#8], 0, by decide⟩]

def threeRuns : List (Tape Byte) := openRuns { blockSize := 2 } (threeReels.map Reel.records)

theorem shows_threeRuns : List.Forall₂ Tape.Shows threeRuns threeReels :=
  .cons (Tape.shows_ofDisk width_byte_pos [1#8, 2#8] none 2)
    (.cons (Tape.shows_ofDisk width_byte_pos [] none 2)
      (.cons (Tape.shows_ofDisk width_byte_pos [3#8] none 2) .nil))

def targetOfSeed (seed : UInt64) : Target (Interleave KeyStream) Byte where
  output := Tape.ofDisk (Disk.ofBytes (FixedWidth.encodeAll ([] : List Byte))) none 2
  strategy := { source := KeyStream.ofSeed seed }

def fiveBytes : Transfer Byte where
  input := Tape.ofDisk (Disk.ofBytes (FixedWidth.encodeAll
    ([3#8, 1#8, 2#8, 1#8, 0#8] : List Byte))) none 2
  output := Tape.ofDisk (Disk.ofBytes (FixedWidth.encodeAll ([] : List Byte))) none 2

/-- Three runs are merged in one pass, and in as many as memory allows, and five records are
shuffled. -/
theorem interleave_conserves_bytes :
    ((Bench.mergePass : BenchM (Interleave KeyStream) Byte Stats)
        { targetOfSeed 7 with inputs := threeRuns.toArray }).Ensures
      { ledger := { limit := 10, policy := .warn } }
      (fun res _ => ∃ out, Conserves (threeReels.map Reel.rest) out ∧
        res.1 = .ok ⟨1, 3, 3, 3⟩ ∧ res.2.output.Shows (Reel.empty.writeArray out))
      (fun halt _ => Site.Excuses { ledger := { limit := 10, policy := .warn } } halt) ∧
    ((merge { blockSize := 2 } threeRuns : MergeM (Interleave KeyStream) Byte Stats)
        (targetOfSeed 7)).Ensures
      { ledger := { limit := 900, policy := .warn } }
      (fun res _ =>
        (∃ e, res.1 = .error e ∧ e.Lacks (mergeSpace Byte { blockSize := 2 }
            (targetOfSeed 7).strategy) ∧ res.2.output.Shows Reel.empty) ∨
        ∃ stats out, res.1 = .ok stats ∧ Conserves (threeReels.map Reel.rest) out ∧
          res.2.output.Shows (Reel.empty.writeArray out))
      (fun halt _ => Site.Excuses { ledger := { limit := 900, policy := .warn } } halt) ∧
    (shuffle { blockSize := 2 } (KeyStream.ofSeed 7) fiveBytes).Ensures
      { ledger := { limit := 900, policy := .warn } }
      (fun res _ => Shuffles { blockSize := 2 }
        { source := KeyStream.ofSeed 7 : Interleave KeyStream }
        (⟨[3#8, 1#8, 2#8, 1#8, 0#8], 0, by decide⟩ : Reel Byte) Reel.empty res)
      (fun halt _ => Site.Excuses { ledger := { limit := 900, policy := .warn } } halt ∨
        halt = .stalled ∧ Draw.Stalls (KeyStream.ofSeed 7)) := by
  have hempty := Tape.shows_ofDisk width_byte_pos [] none 2
  have hfive := Tape.shows_ofDisk width_byte_pos [3#8, 1#8, 2#8, 1#8, 0#8] none 2
  refine ⟨?_, ?_, ?_⟩
  · exact (interleave_conserves { ledger := { limit := 10, policy := .warn } }).1
      { targetOfSeed 7 with inputs := threeRuns.toArray } threeReels Reel.empty shows_threeRuns
      (List.cons_ne_nil _ _) hempty
  · exact (interleave_conserves { ledger := { limit := 900, policy := .warn } }).2.1
      { blockSize := 2 } (targetOfSeed 7) threeRuns threeReels Reel.empty Scratch.sound_reliable
      shows_threeRuns hempty
  · exact (interleave_conserves { ledger := { limit := 900, policy := .warn } }).2.2
      { blockSize := 2 } (KeyStream.ofSeed 7) fiveBytes ⟨[3#8, 1#8, 2#8, 1#8, 0#8], 0, by decide⟩
      Reel.empty Scratch.sound_reliable hfive hempty

end Bytes

end Merger

end BoundedMerge
