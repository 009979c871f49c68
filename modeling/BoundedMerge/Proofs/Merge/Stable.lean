import BoundedMerge.Proofs.Merge.Sort
import BoundedMerge.Proofs.Merge.Steady

/-!
Merging ordered runs is sorting them stably. Whatever the memory, the block size and the number of
passes, a merge that succeeds writes the stable sort of what the runs hold behind their cursors:
records that are equal under the comparison stay in the order of their runs and, within a run, in
the order they had there. That is so on disks that may refuse any request, too.
-/

namespace BoundedMerge

open SiteM

variable {τ : Type} {cmp : τ → τ → Ordering}

/-- Records that compare equal stand in the order of their runs, and within a run as they stood. -/
theorem likes_stableSort_flatten [Std.TransCmp cmp] (runs : List (List τ)) (x : τ) :
    likes cmp x (stableSort cmp runs.flatten) = (runs.map (likes cmp x)).flatten := by
  rw [likes_stableSort, likes, List.filter_flatten]
  rfl

namespace Merger

variable [FixedWidth τ] [LawfulFixedWidth τ]

/-- The output holds the runs, merged stably, behind the place where its cursor was. -/
def MergesStably (cmp : τ → τ → Ordering) (runs : List (List τ)) (start : Reel τ)
    (output : Tape τ) : Prop :=
  ∃ merged, merged = stableSort cmp runs.flatten ∧
    (∀ x, likes cmp x merged = (runs.map (likes cmp x)).flatten) ∧
    output.Holds (start.writeArray merged)

/-- A merge that succeeds is the stable merge, however much memory there is and however many
passes that takes, and whatever the storage may refuse. On storage that refuses nothing memory is
the one thing that it can be short of: less is available than a pass takes for two runs. -/
theorem merge_sorts_stably (m : Merger) (cmp : τ → τ → Ordering) [Std.TransCmp cmp] (site : Site)
    (hblank : site.scratch.Blank) (target : Target (Ordered τ) τ)
    (hcmp : target.strategy.cmp = cmp) (tapes : List (Tape τ)) (reels : List (Reel τ))
    (start : Reel τ) (hinputs : List.Forall₂ Tape.Holds tapes reels)
    (hsorted : ∀ r ∈ reels, Ascending cmp r.rest) (houtput : target.output.Holds start) :
    ((m.merge tapes : MergeM (Ordered τ) τ Stats) target).Ensures site
      (fun res _ => ∀ stats, res.1 = .ok stats →
        MergesStably cmp (reels.map Reel.rest) start res.2.output)
      (fun _ _ => True) ∧
    (site.scratch.Sound → (∀ t ∈ tapes, t.disk.Reliable) → target.output.disk.Reliable →
      ((m.merge tapes : MergeM (Ordered τ) τ Stats) target).Ensures site
        (fun res _ => (∃ stats, res.1 = .ok stats) ∨
          ∃ e, res.1 = .error e ∧ e.Lacks (m.mergeSpace τ target.strategy))
        (fun halt _ => site.Excuses halt)) := by
  subst hcmp
  have hleaves : List.Forall₂ Tape.Leaves (tapes.map Tape.steady) (reels.map Reel.rest) := by
    rw [List.forall₂_map_left_iff, List.forall₂_map_right_iff]
    exact hinputs.imp fun _ r h => ⟨r, h, rfl⟩
  constructor
  · have hshows : target.steady.output.Shows start := houtput
    have hkin : target.strategy.Kin target.steady.strategy := .refl _
    have hmerge : Yields site.steady
        ((m.merge (tapes.map Tape.steady) : MergeM (Ordered τ) τ Stats) target.steady) _ :=
      m.yields_merge (Ordered.merges target.strategy) hshows.width_pos hblank.sound_steady hkin
        hleaves hshows
    apply ((m.echoes_merge Ordered.blind tapes).ensures target site
      (hmerge.ensures (Site.Like.refl _))).mono
    · intro res _ hres stats hok
      obtain ⟨_, ⟨-, hcomes⟩, -⟩ := hres stats hok
      rcases hcomes with ⟨_, herror, -⟩ | ⟨_, merged, -, ⟨-, hstable⟩, hshows⟩
      · contradiction
      · have hmerged := hstable inferInstance (by
          intro run hrun
          obtain ⟨r, hr, rfl⟩ := List.mem_map.mp hrun
          exact hsorted r hr)
        refine ⟨merged, hmerged, ?_, hshows⟩
        intro x
        rw [hmerged, likes_stableSort_flatten]
    · intro _ _ hh
      exact hh
  · intro hscratch htapes hdisk
    have hsame : tapes.map Tape.steady = tapes :=
      (List.map_congr_left fun t ht => Tape.steady_of_reliable (htapes t ht)).trans
        (List.map_id' tapes)
    have hshows : target.output.Shows start := by
      rw [← Tape.steady_of_reliable hdisk]
      exact houtput
    rw [hsame] at hleaves
    have hmerge : Yields site ((m.merge tapes : MergeM (Ordered τ) τ Stats) target) _ :=
      m.yields_merge (Ordered.merges target.strategy) hshows.width_pos hscratch (.refl _) hleaves
        hshows
    apply (hmerge.ensures (Site.Like.refl site)).mono
    · intro res _ hres
      obtain ⟨⟨hkin, hcomes⟩, -⟩ := hres
      rcases hcomes with ⟨e, herror, hlacks, -⟩ | ⟨stats, _, hok, -⟩
      · exact .inr ⟨e, herror, hkin.mergeSpace_eq m ▸ hlacks⟩
      · exact .inl ⟨stats, hok⟩
    · intro halt _ hhalt
      exact hhalt

def shortFile (records : List Byte) : Tape Byte :=
  Tape.ofDisk (Disk.ofFile 65536 (FixedWidth.encodeAll records)) none 2

def unevenRuns : List (Tape Byte) :=
  [shortFile [0x13#8, 0x21#8, 0x32#8],
    { shortFile [0x77#8, 0x12#8, 0x24#8] with offset := 1 },
    shortFile [0x11#8, 0x31#8]]

/-- The runs are merged by the upper half of a byte, two at first and then all. -/
theorem merge_sorts_stably_bytes :
    ∃ stats target after, ((merge { blockSize := 2 } unevenRuns :
        MergeM (Ordered Byte) Byte Stats)
        { output := shortFile [], strategy := { cmp := compareOn fun x : Byte => x.toNat / 16 } } :
        SiteM _) (Site.real { limit := 600, policy := .warn } (.limited 65536)) =
          (.ok (.ok stats, target), after) ∧
      MergesStably (compareOn fun x : Byte => x.toNat / 16)
        [[0x13#8, 0x21#8, 0x32#8], [0x12#8, 0x24#8], [0x11#8, 0x31#8]] Reel.empty
        target.output := by
  have hout : (((merge { blockSize := 2 } unevenRuns : MergeM (Ordered Byte) Byte Stats)
      { output := shortFile [], strategy := { cmp := compareOn fun x : Byte => x.toNat / 16 } } :
      SiteM _) (Site.real { limit := 600, policy := .warn } (.limited 65536)) :
        Except Halt _ × Site).1.map Prod.fst = .ok (.ok ⟨2, 3, 12, 12⟩) := by
    decide +kernel
  have hblank : (Scratch.limited 65536).Blank := by
    intro n d hd
    cases hd
    exact ⟨Disk.reliable_steady _, SparseBytes.trim_ofList [], rfl⟩
  have hholds (records : List Byte) : (shortFile records).Holds { records } :=
    Tape.shows_ofDisk width_byte_pos records none 2
  have hcut := (hholds [0x77#8, 0x12#8, 0x24#8]).move 1 (by decide)
  have hsorted (r : Reel Byte) (hr : r ∈ [(⟨[0x13#8, 0x21#8, 0x32#8], 0, by decide⟩ : Reel Byte),
      ⟨[0x77#8, 0x12#8, 0x24#8], 1, by decide⟩, ⟨[0x11#8, 0x31#8], 0, by decide⟩]) :
      Ascending (compareOn fun x : Byte => x.toNat / 16) r.rest := by
    simp only [List.mem_cons, List.not_mem_nil, or_false] at hr
    rcases hr with rfl | rfl | rfl
    all_goals
      unfold Ascending
      decide
  have hmerges := (merge_sorts_stably { blockSize := 2 } (compareOn fun x : Byte => x.toNat / 16)
    (Site.real { limit := 600, policy := .warn } (.limited 65536)) hblank
    { output := shortFile [], strategy := { cmp := compareOn fun x : Byte => x.toNat / 16 } } rfl
    unevenRuns _ Reel.empty (.cons (hholds _) (.cons hcut (.cons (hholds _) .nil))) hsorted
    (hholds [])).1
  obtain ⟨target, after, hrun, hmerged⟩ := hmerges.of_outcome hout
  exact ⟨_, target, after, hrun, hmerged _ rfl⟩

end Merger

end BoundedMerge
