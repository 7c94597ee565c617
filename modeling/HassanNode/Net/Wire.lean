import Mathlib
import HassanNode.Net.Node

/-!
# HassanNode.Net.Wire

Sizes on the wire. The encodings are fixed-width, so the size of a block is a sum
over its fields, and a header is what is left when the body and the witnesses
weigh nothing.
-/

namespace HassanNode

open Params Bincode

/-! ### Encoded sizes -/

namespace Block

/-- The size of a header: the fixed fields, the creator's key and the two lists
of hashes. -/
def headerSize (b : Block) : Nat := 316 + b.creatorPubkey.length + 64 * (b.parents.length + b.interlinks.length)

/-- The size of the four lists of a body. -/
def bodySize (b : Block) : Nat :=
  (b.transparentTxs.map fun x => (encode x).length).sum + (b.utxoTxs.map fun x => (encode x).length).sum
    + (b.registryOps.map fun x => (encode x).length).sum + (b.custodyOps.map fun x => (encode x).length).sum

theorem wireSize_eq (b : Block) : b.wireSize
    = b.headerSize + b.bodySize + b.starkProof.length + b.birthCertificate.length := by
  have hlen : b.wireSize = (Bincode.u64 b.height.toNat ++ Bincode.u64 b.timestamp.toNat ++ encode b.parents
      ++ encode b.interlinks ++ encode b.transparentTxs ++ encode b.utxoTxs
      ++ encode b.registryOps ++ encode b.custodyOps ++ b.merkleRoot.asBytes
      ++ b.stateRoot.asBytes ++ b.miner.asBytes ++ Bincode.bytes b.creatorPubkey
      ++ Bincode.u64 b.nonce.toNat ++ Bincode.u64 b.difficulty.toNat ++ Bincode.u32 b.version.toNat
      ++ Bincode.u64 b.coinbaseEntropy.toNat ++ Bincode.bytes b.starkProof
      ++ Bincode.bytes b.birthCertificate ++ Bincode.u64 b.size).length := rfl
  rw [hlen]
  simp only [List.length_append, Bincode.length_u64, Bincode.length_u32, Bincode.length_bytes,
    Bincode.length_encode_hashes, Hash.length_asBytes]
  simp only [Bincode.length_encode_list, headerSize, bodySize]
  omega

theorem baseSize_eq (b : Block) : b.baseSize = b.headerSize + b.bodySize := by
  have h := wireSize_eq { b with starkProof := [], birthCertificate := [] }
  exact h.trans (by rw [List.length_nil]; rfl)

@[simp] theorem bodySize_headerOnly (b : Block) : b.headerOnly.bodySize = 0 := rfl

@[simp] theorem bodySize_clearBody (b : Block) : b.clearBody.bodySize = 0 := rfl

@[simp] theorem headerSize_headerOnly (b : Block) : b.headerOnly.headerSize = b.headerSize := rfl

@[simp] theorem headerSize_clearBody (b : Block) : b.clearBody.headerSize = b.headerSize := rfl

theorem wireSize_headerOnly (b : Block) : b.headerOnly.wireSize = b.headerSize := by
  rw [wireSize_eq, headerSize_headerOnly, bodySize_headerOnly]
  rfl

/-- What the size and parent tests ask of a block before its parents are looked
up. -/
structure Fits (b : Block) : Prop where
  base : b.verifySize = true
  wire : b.wireSize ≤ maxBlockBytes
  parents_le : b.parents.length ≤ maxBlockParents
  parents_nodup : b.parents.Nodup

theorem Fits.headerSize_le {b : Block} (h : b.Fits) : b.headerSize ≤ maxBlockSize := by
  have hbase : b.baseSize ≤ maxBlockSize := of_decide_eq_true h.base
  rw [baseSize_eq] at hbase
  omega

/-- A block without a body fits if its header does. -/
theorem fits_of_header {b c : Block} (h : b.Fits) (hheader : c.headerSize = b.headerSize)
    (hbody : c.bodySize = 0) (hproof : c.starkProof = []) (hcert : c.birthCertificate = [])
    (hparents : c.parents = b.parents) : c.Fits := by
  have hle := h.headerSize_le
  refine ⟨decide_eq_true ?_, ?_, hparents ▸ h.parents_le, hparents ▸ h.parents_nodup⟩
  · rw [baseSize_eq, hheader, hbody]
    exact hle
  · rw [wireSize_eq, hheader, hbody, hproof, hcert]
    exact hle.trans (by decide)

theorem Fits.headerOnly {b : Block} (h : b.Fits) : b.headerOnly.Fits := fits_of_header h rfl rfl rfl rfl rfl

theorem Fits.clearBody {b : Block} (h : b.Fits) : b.clearBody.Fits := fits_of_header h rfl rfl rfl rfl rfl

end Block

end HassanNode
