/-
  The two ways to the next era: through the transition period, and directly
  (`StartTransitionPeriod` and `EnterNextEra` in `core/blockchain.go`).
-/
import Gwat.Validator.EraHandling
import Gwat.Validator.ValidatorList

namespace Gwat

open List GoLib

/-- The chain of a node, as the storage reads it. -/
def EraNode.chain (node : EraNode) (hs : node.Settled) (stateAt : Era → Option StateDB) :
    EraChain where
  epochToEra := epochToEra node.eras node.cur
  stateAt := stateAt
  getEpoch := fun _ => 0
  unique := by
    intro e e' era era' h h' hnum
    rw [hs.table.epochToEra_eq_find hs.cur_mem] at h h'
    obtain ⟨i, hi⟩ := mem_iff_getElem?.1 (mem_of_find?_eq_some h)
    obtain ⟨j, hj⟩ := mem_iff_getElem?.1 (mem_of_find?_eq_some h')
    have hij : i = j := by rw [← hs.table.number i era hi, ← hs.table.number j era' hj, hnum]
    subst hij
    exact Option.some.inj (hi.symm.trans hj)

namespace EraParams

variable {cfg : EraParams} {node a b : EraNode} {finEpoch number epoch : UInt64} {n n₁ n₂ fuel : ℕ}
variable {count : Era → Except StorageError ℕ}

/-! ## The count of the storage -/

section
variable {env : StorageEnv} {s : ValidatorStorage} (hcfg : env.config = cfg.toChainConfig)
  (hchain : env.bc.epochToEra = epochToEra node.eras node.cur)

include hcfg hchain

end

/-! ## The two ways -/

end EraParams

/-! ## A validator that becomes active in the era 2 -/

end Gwat
