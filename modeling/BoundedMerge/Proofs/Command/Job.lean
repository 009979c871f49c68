import BoundedMerge.Proofs.Command.Load
import BoundedMerge.Proofs.Layout.Order
import BoundedMerge.Proofs.Merge.Shuffle
import BoundedMerge.Proofs.Merge.Sort

/-!
The work of a run: the integers of a file are loaded on a tape, arranged on another one and read
back. If it succeeds, whatever the storage may have refused, its result is the integers that the
lines say, in the order that was asked for.
-/

namespace BoundedMerge

def Direction.InOrder : Direction → Int → Int → Prop
  | ascending, m, n => m ≤ n
  | descending, m, n => n ≤ m

namespace Direction

theorem antisymm (d : Direction) {m n : Int} (h : d.InOrder m n) (h' : d.InOrder n m) : m = n := by
  cases d with
  | ascending => exact Int.le_antisymm h h'
  | descending => exact Int.le_antisymm h' h

theorem flip {d d' : Direction} (hne : d' ≠ d) {m n : Int} (h : d.InOrder m n) :
    d'.InOrder n m := by
  cases d with
  | ascending =>
    cases d' with
    | ascending => contradiction
    | descending => exact h
  | descending =>
    cases d' with
    | ascending => exact h
    | descending => contradiction

end Direction

namespace Command

open SiteM

variable {ref : Site} {o : Options}

theorem echoes_arrange (o : Options) (m : Merger) (seed : UInt64) :
    Work.Echoes Transfer.steady id (arrange o m seed) (arrange o m seed) := by
  unfold arrange
  split
  · exact m.echoes_processWith Ordered.blind _
  · exact m.echoes_processWith Ordered.blind _
  · exact m.echoes_processWith Interleave.blind _

/-- The records are arranged as the options say: in any case none is lost or added. -/
def Arranged (o : Options) (records out : List Number.Value) : Prop :=
  out.Perm records ∧
    (o.mode = .sort → (out.map ofRecord).Pairwise o.direction.InOrder)

/-- Records whose comparison is that of their integers. -/
theorem pairwise_of_ascending {cmp : Number.Value → Number.Value → Ordering}
    {order : Int → Int → Prop} (h : ∀ a b, (cmp a b).isLE → order (ofRecord a) (ofRecord b))
    {out : List Number.Value} (hasc : Ascending cmp out) :
    (out.map ofRecord).Pairwise order := by
  rw [List.pairwise_map]
  exact hasc.imp fun hab => h _ _ hab

/-- Records are compared as their integers are. -/
theorem le_of_compare {a b : Number.Value} (h : (Number.compare a b).isLE) :
    ofRecord a ≤ ofRecord b :=
  Int.isLE_compare.mp (show (compare (ofRecord a) (ofRecord b)).isLE from h)

/-- The input tape still shows some records, and the output those of the source, arranged. -/
def Delivered (o : Options) (records : List Number.Value)
    (res : Except MergeError Stats × Transfer Number.Value) : Prop :=
  (∃ r, res.2.input.Shows r) ∧
    ∃ out, Arranged o records out ∧ res.2.output.Shows (Reel.empty.writeArray out)

theorem meets_arrange (m : Merger) (seed : UInt64) {t : Transfer Number.Value}
    {source : Reel Number.Value} (hscratch : ref.scratch.Sound) (hinput : t.input.Shows source)
    (houtput : t.output.Shows Reel.empty) :
    Meets ref (arrange o m seed t)
      (fun res => ∀ stats, res.1 = .ok stats → Delivered o source.records res) fun _ => True := by
  have hsorts (p : Ordered Number.Value) [Std.TransCmp p.cmp] (hmode : o.mode = .sort)
      (horder : ∀ a b, (p.cmp a b).isLE → o.direction.InOrder (ofRecord a) (ofRecord b)) :
      Meets ref (m.processWith p t)
        (fun res => ∀ stats, res.1 = .ok stats → Delivered o source.records res)
        fun _ => True := by
    apply ((m.yields_processWith p hscratch hinput houtput).meets _).mono
    intro res hres stats hok
    obtain ⟨after, hafter, -⟩ := hres.1
    rcases hres.2 with ⟨_, herror, -⟩ | ⟨_, out, -, hperm, hasc, -, hshows⟩
    · rw [hok] at herror
      contradiction
    · have hsorted := pairwise_of_ascending horder hasc
      exact ⟨⟨after, hafter⟩, out, ⟨hperm, fun _ => hsorted⟩, hshows⟩
  unfold arrange
  cases hmode : o.mode with
  | sort =>
    cases hdirection : o.direction with
    | ascending =>
      have htrans : Std.TransCmp Number.compare := inferInstance
      apply hsorts { cmp := Number.compare } hmode
      intro a b hab
      rw [hdirection]
      exact le_of_compare hab
    | descending =>
      have htrans : Std.TransCmp fun a b => Number.compare b a := Std.TransCmp.opposite
      apply hsorts { cmp := fun a b => Number.compare b a, handleSize := 64 } hmode
      intro a b hab
      rw [hdirection]
      exact le_of_compare hab
  | shuffle =>
    apply ((m.meets_shuffle (KeyStream.ofSeed seed) hscratch hinput houtput).mono_halts
      fun _ _ => trivial).mono
    intro res hres stats hok
    obtain ⟨after, hafter, -⟩ := hres.1
    rcases hres.2 with ⟨_, herror, -⟩ | ⟨_, out, -, hperm, hshows⟩
    · rw [hok] at herror
      contradiction
    · refine ⟨⟨after, hafter⟩, out, ⟨hperm, ?_⟩, hshows⟩
      intro hsort
      rw [hmode] at hsort
      contradiction

/-- The integers that the lines of a file say, arranged as the options ask for. -/
structure Arranges (o : Options) (bytes : List UInt8) (numbers : List Int) : Prop where
  tell : ∃ told, Lines.Tell bytes told ∧ numbers.Perm told
  inOrder : o.mode = .sort → numbers.Pairwise o.direction.InOrder

/-- What is read back are the integers that were loaded, arranged. -/
theorem Arranged.arranges {bytes : List UInt8} {found : List (Option Int)}
    (hfound : List.Forall₂ Lines.Says (Lines.split bytes) found) {out : List Number.Value}
    (h : Arranged o (found.reduceOption.map toRecord) out) :
    Arranges o bytes (out.map ofRecord) := by
  obtain ⟨hperm, hsorted⟩ := h
  refine ⟨⟨_, ⟨_, found, Lines.cut_split bytes, hfound, rfl⟩, ?_⟩, hsorted⟩
  have hback : (found.reduceOption.map toRecord).map ofRecord = found.reduceOption := by
    rw [List.map_map]
    exact (List.map_congr_left fun n hn =>
      ofRecord_toRecord (Lines.Says.contains_all hfound n hn)).trans (List.map_id' _)
  rw [← hback]
  exact hperm.map ofRecord

end Command

end BoundedMerge
