import Deduction.Text.Sha256

/-!
# Seals

A state leaves the program under a seal, a digest of everything in it that
matters for the proof, and is taken back only under the same seal.
-/

namespace Deduction

/-- The seal for a text. -/
def sealFor (text : String) : String := Sha256.digest ("calculi-state-seal|" ++ text)

end Deduction
