import BoundedMerge.Proofs.Command.Job

/-!
What a run of the program leaves. A run that ends well has read nothing but blank lines and
integers, and has written the integers in the order that was asked for: the options that set how
much memory there is, how large a block is and what follows a breach have no say in it. A line that
is neither blank nor an integer is the end of a run, and the log tells which one it was.
-/

namespace BoundedMerge

namespace Command

open SiteM

def Surroundings.Clean (s : Surroundings Id) (o : Options) : Prop :=
  ∀ scratch, s.openScratch o.scratch = .ok scratch → scratch.Blank

variable {o : Options} {s : Surroundings Id}

/-- There is one way to sort integers, and the other direction is its reverse. -/
theorem Arranges.eq {o' : Options} {bytes : List UInt8} {numbers numbers' : List Int}
    (h : Arranges o bytes numbers) (h' : Arranges o' bytes numbers') (hmode : o.mode = .sort)
    (hmode' : o'.mode = .sort) :
    numbers' = if o'.direction = o.direction then numbers else numbers.reverse := by
  obtain ⟨⟨told, htold, hperm⟩, hsorted⟩ := h
  obtain ⟨⟨told', htold', hperm'⟩, hsorted'⟩ := h'
  rw [← htold.unique htold'] at hperm'
  have hsame := hperm'.trans hperm.symm
  split
  · next hdirection =>
    have hasc := hsorted' hmode'
    rw [hdirection] at hasc
    exact hsame.eq_of_pairwise (fun m n _ _ => o.direction.antisymm) hasc (hsorted hmode)
  · next hdirection =>
    have hback : numbers.reverse.Pairwise o'.direction.InOrder := by
      rw [List.pairwise_reverse]
      exact (hsorted hmode).imp fun hmn => Direction.flip hdirection hmn
    exact (hsame.trans (List.reverse_perm numbers).symm).eq_of_pairwise
      (fun m n _ _ => o'.direction.antisymm) (hsorted' hmode') hback

def roomy : Options where
  input := "numbers"
  output := "sorted"
  memory := 67108864
  blockSize := 1048576

end Command

end BoundedMerge
