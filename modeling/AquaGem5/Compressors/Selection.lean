import AquaGem5.Compressors.Multi

/-!
# The choice among sub-compressors (multi.cc)

The compression factor of a result has eight bits: in blocks of 256 bytes and more the best factors become 0.
-/

namespace AquaGem5.Compressors
open Address Checked Spreading List

namespace Results

def factor (blkSize size : ℕ) : ℕ := if size=0 then blkSize else roundUp (blkSize/size)

section Create

variable {index blkSize decompLat : ℕ} {compData : CompData}

end Create

variable {blkSize : ℕ} {results : List Results} {best r : Results}

end Results

namespace Multi

end Multi

namespace Multi

end Multi

end AquaGem5.Compressors
