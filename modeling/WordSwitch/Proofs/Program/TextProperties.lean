import WordSwitch.Proofs.Program.Entry
import WordSwitch.Proofs.Source.Properties

/-!
# What can be seen of the text

The switches of the text are those of the code that it was made from.  Their
constants have different values, no arm runs on into another, no byte past the
length is read, and the functions that read several bytes are those that some
switch calls.
-/

namespace WordSwitch

open Source

namespace Program

section

variable
  (macros : List Macro)
  (config : CodeConfig)
  {wideWidths : List Nat}
  {definitions : Program.Definitions}

/-- What a switch in the function for a length is like. -/
theorem of_mem_switches
    (fit : definitions.Fit wideWidths)
    {length : Nat}
    {code : Code}
    (inFunctions : (length, code) ∈ definitions.functions)
    {subject : Subject}
    {body : Code}
    (listed : (subject, body) ∈ code.switches) :
    SwitchFits length subject body ∧ body.Fits length subject.width ∧
      (subject.width ≠ 1 → subject.width ∈ wideWidths) := by
  obtain ⟨fits, body_fits⟩ :=
    (fit.fits length code inFunctions).of_mem_switches listed
  refine ⟨fits, body_fits, ?_⟩
  intro many
  exact (fit.wideWidths subject.width).mpr
    ⟨Chunk.one_lt_of_mem_readableWidths fits.readable many, length, code,
      inFunctions, List.mem_map_of_mem listed⟩

/-! ## What switches depend on -/

end

end Program
end WordSwitch
