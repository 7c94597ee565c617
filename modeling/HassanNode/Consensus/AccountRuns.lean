import Mathlib
import HassanNode.Core.Spelling
import HassanNode.Ledger.AccountKeys
import HassanNode.Consensus.Spending

/-!
# HassanNode.Consensus.AccountRuns

One account for each key, along the runs of a node. Every ledger a node keeps or
replays is kept under addresses that its accepted blocks name (`NamesWithin`), so
an address has one account as long as those blocks spell it one way. Spends may
credit an address in upper case, which is valid and equivalent: two blocks are
enough for two accounts of one key.
-/

namespace HassanNode

open Std (ExtTreeMap)
open Params Bincode

namespace ChainState

section Runs

variable [Crypto] {K K' : Address → Prop} {st : ChainState}

/-! ### The names of a run -/

/-- The run accepts the block. -/
def Accepts (st : ChainState) (calls : List (Env × Block)) (b : Block) : Prop :=
  ∃ pre env, pre ++ [(env, b)] <+: calls ∧ ∃ st', (st.run pre).addBlock env b = .ok st'

/-- An accepted block names the address. -/
def NamedIn (st : ChainState) (calls : List (Env × Block)) (a : Address) : Prop :=
  ∃ b, st.Accepts calls b ∧ b.Names a

theorem Accepts.concat {calls : List (Env × Block)} {b : Block} (h : st.Accepts calls b) (call : Env × Block) :
    st.Accepts (calls ++ [call]) b := by
  obtain ⟨pre, env, hpre, haccept⟩ := h
  exact ⟨pre, env, hpre.trans (List.prefix_append calls [call]), haccept⟩

theorem NamedIn.concat {calls : List (Env × Block)} {a : Address} (h : st.NamedIn calls a) (call : Env × Block) :
    st.NamedIn (calls ++ [call]) a := by
  obtain ⟨b, hb, hname⟩ := h
  exact ⟨b, hb.concat call, hname⟩

/-! ### The ledgers of a node -/

/-- The blocks of the node name these addresses, and its ledgers are kept under
them. -/
structure NamesWithin (K : Address → Prop) (st : ChainState) : Prop where
  blocks : ∀ (h : Hash) (b : Block), st.dag[h]? = some b → ∀ a, b.Names a → K a
  live : st.live.KeyedBy K
  base : st.base.KeyedBy K

namespace NamesWithin

theorem mono (h : st.NamesWithin K) (himp : ∀ a, K a → K' a) : st.NamesWithin K' where
  blocks k b hb a ha := himp a (h.blocks k b hb a ha)
  live := h.live.mono himp
  base := h.base.mono himp

theorem simBase (h : st.NamesWithin K) : st.simBase.KeyedBy K := by
  unfold ChainState.simBase
  split
  · exact h.base
  · exact h.live

/-- A replay of blocks of the node. -/
theorem applyAll {l : Ledger} (hblocks : ∀ (h : Hash) (b : Block), st.dag[h]? = some b → ∀ a, b.Names a → K a)
    (hl : l.KeyedBy K) (hs : List Hash) : (st.applyAll l hs).KeyedBy K := by
  induction hs generalizing l with
  | nil => exact hl
  | cons h hs ih =>
      unfold ChainState.applyAll
      rw [List.foldl_cons]
      refine ih ?_
      split
      · exact hl
      · rename_i b hb
        exact hl.applyBlockEffects _ _ _ (hblocks h b hb)

/-- A replay in a throwaway state. -/
theorem foldl_simStep (h : st.NamesWithin K) (hs : List Hash) {sim : Ledger × GhostdagMap}
    (hsim : sim.1.KeyedBy K) : (hs.foldl st.simStep sim).1.KeyedBy K := by
  induction hs generalizing sim with
  | nil => exact hsim
  | cons k hs ih =>
      rw [List.foldl_cons]
      refine ih ?_
      unfold simStep
      split
      · exact hsim
      · rename_i b hb
        exact hsim.applyBlockEffects _ _ _ (h.blocks k b hb)

theorem virtualStateAt (h : st.NamesWithin K) (tip : Hash) : (st.virtualStateAt tip).1.KeyedBy K :=
  h.foldl_simStep _ h.simBase

/-- **Step.** Accepting a block whose names are among them. -/
theorem accept (h : st.NamesWithin K) (c : st.Consistent) {env : Env} {block : Block} {gd : GhostdagData}
    {sp : Hash} (a : st.Admitted env block gd sp) (hnames : ∀ x, block.Names x → K x) :
    (st.accept env block gd).NamesWithin K := by
  have hblocks : ∀ (k : Hash) (b : Block), (st.accept env block gd).dag[k]? = some b → ∀ x, b.Names x → K x := by
    intro k b hb x hx
    obtain ⟨b₀, hor, hclr⟩ := accept_getElem? hb
    rcases hclr with rfl | rfl
    · rcases hor with ⟨rfl, -⟩ | hb₀
      · exact hnames x hx
      · exact h.blocks k b hb₀ x hx
    · exact absurd hx Block.names_clearBody
  have hinserted : ∀ (k : Hash) (b : Block), (st.inserted env block gd).dag[k]? = some b →
      ∀ x, b.Names x → K x := by
    intro k b hb x hx
    rcases inserted_getElem? hb with ⟨rfl, -⟩ | hb
    · exact hnames x hx
    · exact h.blocks k b hb x hx
  have hbase : (st.inserted env block gd).base.KeyedBy K :=
    (inserted_value st env block gd).2.1 ▸ h.simBase
  have hadvanced : (st.inserted env block gd).advanceFinalizedBase.base.KeyedBy K := by
    rcases (st.inserted env block gd).advanceFinalizedBase_cases with heq | ⟨fp, -, -, -, -, heq⟩
    · rw [heq]
      exact hbase
    · rw [heq]
      exact applyAll hinserted hbase _
  have hlive : (st.inserted env block gd).advanceFinalizedBase.recomputeVirtualState.live.KeyedBy K := by
    refine applyAll (fun k b hb => hinserted k b ?_) hadvanced _
    rwa [← (advanceFinalizedBase_core (st.inserted env block gd)).dag]
  obtain ⟨mid, floor, hcleared, -, -, hpruned⟩ := accept_pruned c a
  obtain ⟨hfullBase, -, -, -, hfullLive⟩ := acceptFull_ledger st env block gd
  refine ⟨hblocks, ?_, ?_⟩
  · rw [hpruned.live, hcleared.live, hfullLive]
    exact hlive
  · rw [hpruned.base, hcleared.base, hfullBase]
    exact hadvanced

/-- **Run.** A node that starts with an empty ledger. -/
theorem run (easy archival : Bool) (calls : List (Env × Block)) :
    ((seeded easy archival {}).run calls).NamesWithin ((seeded easy archival {}).NamedIn calls) := by
  induction calls using List.reverseRecOn with
  | nil =>
      refine ⟨fun h b hb x hx => ?_, .empty, .empty⟩
      rw [(seeded_get easy archival {} hb).2] at hx
      obtain ⟨item, hitem, -⟩ := hx
      cases hitem
  | append_singleton calls call ih =>
      have hbefore := ih.mono fun a ha => ha.concat call
      rw [run_concat]
      rcases ((seeded easy archival {}).run calls).step_cases call with heq | ⟨gd, sp, a, heq⟩
      · rw [heq]
        exact hbefore
      · rw [heq]
        refine hbefore.accept (Consistent.run easy archival {} calls) a fun x hx => ?_
        exact ⟨call.2, ⟨calls, call.1, List.prefix_refl _, _, addBlock_eq_ok.mpr ⟨gd, sp, a, rfl⟩⟩, hx⟩

end NamesWithin

/-- A ledger a node keeps, or replays for one of its blocks. -/
def LedgerOf (st : ChainState) (l : Ledger) : Prop :=
  l = st.live ∨ l = st.base ∨ ∃ tip, l = (st.virtualStateAt tip).1

end Runs

end ChainState

namespace Sample

open RegistryRun

/-! ### Two spellings -/

/-- The upper-case spelling of an address. -/
def upperCase (a : Address) : Address := a.map fun c => if Address.isLower c then c - 32 else c

/-- A spend of a coin of the sample miner that credits one unit to each of two
addresses. -/
def creditBoth (op : OutPoint) (a b : Address) : UtxoTx where
  inputs := [⟨op, 0, .signature⟩]
  outputs := [⟨1, .creditAccount a, 0⟩, ⟨1, .creditAccount b, 0⟩]
  lockBlueScore := 0
  fee := blockReward - 2
  chainId := chainId
  fromPubkey := minerKey
  signature := List.replicate pqSignatureSize 0

/-- The accounts it leaves. -/
def bothAccounts (a b : Address) : Accounts :=
  ((∅ : Accounts).insert a { balance := 1 }).insert b { balance := 1 }

section Credit

variable {op : OutPoint} {a b : Address}

theorem length_creditBoth : (encode (creditBoth op a b)).length = 7431 + a.length + b.length := by
  have hinput : (encode (⟨op, 0, .signature⟩ : TxIn)).length = 76 := by
    change (op.txid.asBytes ++ u32 op.vout.toNat ++ u32 (0 : UInt32).toNat ++ UnlockWitness.signature.toBytes).length = 76
    simp [UnlockWitness.toBytes]
  have houtput : ∀ x : Address, (encode (⟨1, .creditAccount x, 0⟩ : TxOut)).length = 36 + x.length := by
    intro x
    change (u128 1 ++ (u32 7 ++ Bincode.bytes x) ++ u64 0).length = _
    simp only [List.length_append, length_u128, length_u64, length_u32, length_bytes]
    omega
  change (encode [(⟨op, 0, .signature⟩ : TxIn)] ++ encode [(⟨1, .creditAccount a, 0⟩ : TxOut), ⟨1, .creditAccount b, 0⟩]
    ++ u64 0 ++ u128 (blockReward - 2) ++ u64 chainId ++ Bincode.bytes minerKey
    ++ Bincode.bytes (List.replicate pqSignatureSize 0)).length = _
  simp only [List.length_append, length_encode_list, List.map_cons, List.map_nil, List.sum_cons, List.sum_nil,
    hinput, houtput, length_u64, length_u128, length_bytes, minerKey, List.length_replicate, pqPublicKeySize,
    pqSignatureSize]
  omega

theorem creditBoth_form (ha : Address.isBech32m a = true) (hb : Address.isBech32m b = true)
    (hlen : a.length + b.length ≤ 1000) : (creditBoth op a b).validateForm = .ok () := by
  have hcredit : ∀ x : Address, Address.isBech32m x = true →
      UtxoTx.validateOutput ⟨1, .creditAccount x, 0⟩ = .ok () := by
    intro x hx
    have hvalid : Address.isValid x = true := by simp [Address.isValid, hx]
    simp [UtxoTx.validateOutput, Predicate.isAccountCredit, Predicate.lockedAddress, hvalid, hx]
  have hkey : (creditBoth op a b).fromPubkey.length = pqPublicKeySize := List.length_replicate
  have hsig : (creditBoth op a b).signature.length = pqSignatureSize := List.length_replicate
  have hrelay : (creditBoth op a b).relayBytes = 7431 + a.length + b.length := by
    rw [UtxoTx.relayBytes, if_neg (not_not.mpr hsig), length_creditBoth]
  have hfloor : minTxFee ≤ blockReward - 2 ∧ 8431 ≤ blockReward - 2 := by decide
  have hpaid : ¬ (creditBoth op a b).fee < (creditBoth op a b).minFeeRequired := by
    have hprice : satMul128 (creditBoth op a b).relayBytes minFeePerByte ≤ (creditBoth op a b).relayBytes :=
      (min_le_left _ _).trans (Nat.mul_one _).le
    have hfee : (creditBoth op a b).fee = blockReward - 2 := rfl
    rw [UtxoTx.minFeeRequired, hfee]
    refine Nat.not_lt.mpr (max_le (hprice.trans ?_) hfloor.1)
    omega
  have hinputs : (creditBoth op a b).inputs = [⟨op, 0, .signature⟩] := rfl
  have houtputs : (creditBoth op a b).outputs = [⟨1, .creditAccount a, 0⟩, ⟨1, .creditAccount b, 0⟩] := rfl
  simp [UtxoTx.validateForm, hkey, hsig, hpaid, hinputs, houtputs, hcredit a ha, hcredit b hb, bind, Except.bind,
    pure, Except.pure]

theorem creditBoth_verify : (creditBoth op a b).verify = true :=
  verifyPq512_sample _ _ List.length_replicate List.length_replicate

/-- The spend applies once the coin is mature. -/
theorem creditBoth_applies {l : Ledger} {txid : Hash} (h : Unspent (.coinbase txid) l)
    (ha : Address.isBech32m a = true) (hb : Address.isBech32m b = true) (hlen : a.length + b.length ≤ 1000)
    (hne : a ≠ b) : ∃ u, applyUtxoTx l.utxo l.accounts (creditBoth (.coinbase txid) a b) 101
      = ((u, bothAccounts a b), .ok (blockReward - 2)) := by
  have hfee : (creditBoth (.coinbase txid) a b).fee = blockReward - 2 := rfl
  have hopen : evaluateFull (.payToAddress (Address.ofPubkey minerKey)) .signature
      (creditBoth (.coinbase txid) a b).fromAddress 101 1 (some (creditBoth (.coinbase txid) a b).signingBytes)
      = .ok () := by
    have howner : (creditBoth (.coinbase txid) a b).fromAddress = Address.ofPubkey minerKey := rfl
    rw [howner]
    simp [evaluateFull, Predicate.depth, maxPredDepth, evalInner, checkOwner, bind, Except.bind]
  have hbinds : assertExactValueBinds blockReward (.payToAddress (Address.ofPubkey minerKey)) = .ok () := rfl
  have hmature : ¬ 101 < satAdd64 1 coinbaseMaturityBlues := by decide
  have hlock : ¬ (0 : UInt32) < 0 := by decide
  have hinput : checkInput l.utxo (creditBoth (.coinbase txid) a b) 101 ⟨.coinbase txid, 0, .signature⟩
      = .ok blockReward := by
    simp [checkInput, h.coin, hmature, hopen, hbinds, bind, Except.bind]
  have hsums : blockReward ≤ u128Max ∧ blockReward - 2 + 1 + 1 = blockReward ∧ blockReward - 2 + 1 ≤ u128Max := by
    decide
  have hinputs : checkInputs l.utxo (creditBoth (.coinbase txid) a b) 101 (creditBoth (.coinbase txid) a b).inputs 0
      = .ok blockReward := by
    change checkInputs _ _ _ [⟨.coinbase txid, 0, .signature⟩] 0 = _
    simp [checkInputs, hinput, checkedAdd128, hsums.1, bind, Except.bind]
  have houtputs : sumOutputs (creditBoth (.coinbase txid) a b).outputs (creditBoth (.coinbase txid) a b).fee
      = .ok blockReward := by
    change sumOutputs [⟨1, .creditAccount a, 0⟩, ⟨1, .creditAccount b, 0⟩] (blockReward - 2) = _
    simp [sumOutputs, checkedAdd128, hsums]
  have hunlocked : (creditBoth (.coinbase txid) a b).lockBlueScore = 0 := rfl
  have hcheck : checkUtxoTx l.utxo (creditBoth (.coinbase txid) a b) 101 = .ok () := by
    simp [checkUtxoTx, creditBoth_form ha hb hlen, creditBoth_verify, hinputs, houtputs, hunlocked, bind, Except.bind]
  have hspend : l.utxo.spend (.coinbase txid)
      = .ok { entries := l.utxo.entries.erase (.coinbase txid), spent := l.utxo.spent.insert (.coinbase txid) } := by
    simp [UtxoSet.spend, h.unspent, h.coin]
  have heffects : (creditBoth (.coinbase txid) a b).effects 101
      = [.spend (.coinbase txid), .credit (some a) 1, .credit (some b) 1] := rfl
  have hone : checkedAdd128 0 1 = some 1 := by decide
  have hfirst : Accounts.entry ∅ a = {} := by simp [Accounts.entry]
  have hsecond : Accounts.entry ((∅ : Accounts).insert a { balance := 1 }) b = {} := by
    rw [Accounts.entry_insert, if_neg hne]
    simp [Accounts.entry]
  refine ⟨{ entries := l.utxo.entries.erase (.coinbase txid), spent := l.utxo.spent.insert (.coinbase txid) }, ?_⟩
  simp [applyUtxoTx, hcheck, heffects, UtxoEffect.applyAll, UtxoEffect.apply, hspend, h.accounts, hfirst, hsecond,
    hone, hfee, bothAccounts, bind, Except.bind]

end Credit


/-- The two spellings of party 1's address. -/
theorem spellings : Address.isBech32m (partyAddress 1) = true ∧ Address.isBech32m (upperCase (partyAddress 1)) = true ∧
    (partyAddress 1).length + (upperCase (partyAddress 1)).length ≤ 1000 ∧
    partyAddress 1 ≠ upperCase (partyAddress 1) ∧
    Address.equivalent (partyAddress 1) (upperCase (partyAddress 1)) = true := by
  decide +kernel

/-- Apart from these two an archival run names nobody, if its last block names
no other and the blocks before it have no bodies. -/
theorem names_of_spend {calls : List (Env × Block)} {block : Block} {a b : Address}
    (hempty : ∀ (h : Hash) (c : Block), ((ChainState.seeded false true {}).run calls).dag[h]? = some c → c.items = [])
    (hnames : ∀ x, block.Names x → x = a ∨ x = b) (x : Address)
    (hx : (ChainState.seeded false true {}).NamedIn (calls ++ [(env, block)]) x) : x = a ∨ x = b := by
  obtain ⟨c, ⟨pre, env', hpre, st', haccept⟩, hname⟩ := hx
  rcases List.prefix_concat_iff.mp hpre with heq | ⟨rest, hrest⟩
  · obtain ⟨-, hlast⟩ := List.append_inj' heq rfl
    obtain ⟨-, rfl⟩ := Prod.mk.inj (List.singleton_inj.mp hlast)
    exact hnames x hname
  · -- an earlier block is still there at the end
    obtain ⟨gd, sp, ha, -⟩ := ChainState.addBlock_eq_ok.mp haccept
    have inv := ChainState.Archival.run false {} (pre ++ [(env', c)])
    have hthen : ((ChainState.seeded false true {}).run (pre ++ [(env', c)])).dag[c.hash]? = some c := by
      rw [ChainState.run_concat]
      exact ha.getElem?_step (ChainState.Archival.run false {} pre).archival
    have hlater := (inv.later rest).blocks.dag c.hash (DagInv.mem_of_getElem? hthen)
    obtain ⟨item, hitem, -⟩ := hname
    rw [hempty c.hash c ?_] at hitem
    · cases hitem
    · rw [← hrest, ChainState.run, List.foldl_append]
      exact hlater.trans hthen

/-- A node with a chain of one hundred blocks accepts one that credits any two
addresses. -/
theorem exists_credits {a b : Address} (ha : Address.isBech32m a = true) (hb : Address.isBech32m b = true)
    (hlen : a.length + b.length ≤ 1000) (hne : a ≠ b) : ∃ calls : List (Env × Block),
    ((ChainState.seeded false true {}).run calls).live.accounts = bothAccounts a b ∧
      ∀ x, (ChainState.seeded false true {}).NamedIn calls x → x = a ∨ x = b := by
  obtain ⟨calls, hcalls⟩ := built_run true (chain 100)
  have f := followed_chain true (n := 100) (by decide)
  have inv : ChainState.Archival {} (built true (chain 100)) := hcalls ▸ .run false {} calls
  have hchain : (built true (chain 100)).chainId = chainId :=
    hcalls ▸ ChainState.archival_chainId false {} calls
  have hlength : (chain 100).length = 100 := length_chain 100
  have hempty : ∀ (h : Hash) (c : Block), (built true (chain 100)).dag[h]? = some c → c.items = [] :=
    fun h c hc => (built_block hc).1
  obtain ⟨b₁, hb₁⟩ := DagInv.exists_block (f.mem (i := 1) (by omega))
  have hcoin := unspent_chain (by norm_num) hb₁ (i := 100) (by norm_num) (le_refl _)
  have hmem : blockHash 100 0 ∈ (built true (chain 100)).dag := f.mem (by omega)
  have hlow : Numbered.Shallow (built true (chain 100)) := f.numbered.shallow (by decide)
  have hscore : (built true (chain 100)).ghostdag.scoreOf (blockHash 100 0) + 1 = 101 := by
    rw [f.scoreOf_spine (spine_chain 100) (le_refl _)]
  obtain ⟨u, happlies⟩ := creditBoth_applies hcoin ha hb hlen hne
  have hsize : (encode [creditBoth (.coinbase b₁.coinbaseTxid) a b]).length ≤ 10000 := by
    rw [length_encode_list, List.map_cons, List.map_nil, List.sum_cons, List.sum_nil, length_creditBoth]
    omega
  have hnames : ∀ x, BodyItem.Names x (.utxo (creditBoth (.coinbase b₁.coinbaseTxid) a b)) → x = a ∨ x = b := by
    rintro x ⟨out, hout, -, hlocked⟩
    have houtputs : out ∈ [⟨1, .creditAccount a, 0⟩, (⟨1, .creditAccount b, 0⟩ : TxOut)] := hout
    rcases List.mem_cons.mp houtputs with rfl | hout
    · exact Or.inl (Option.some.inj hlocked).symm
    · rw [List.mem_singleton.mp hout] at hlocked
      exact Or.inr (Option.some.inj hlocked).symm
  generalize built true (chain 100) = st at *
  have hvirtual := mergesetVirtual_shallow hlow inv hmem
  have hid : (creditBoth (.coinbase b₁.coinbaseTxid) a b).chainId = chainId := rfl
  have hinputs : (creditBoth (.coinbase b₁.coinbaseTxid) a b).inputs = [⟨.coinbase b₁.coinbaseTxid, 0, .signature⟩] := rfl
  have hform : (creditBoth (.coinbase b₁.coinbaseTxid) a b).validateForm = .ok () := creditBoth_form ha hb hlen
  have hverify : (creditBoth (.coinbase b₁.coinbaseTxid) a b).verify = true := creditBoth_verify
  generalize creditBoth (.coinbase b₁.coinbaseTxid) a b = tx at *
  have hbody : ∀ b' : Block, b'.items = [.utxo tx] →
      (st.mergesetVirtual (blockHash 100 0) []).1.simulateApplyBlockBody
        st.chainId 0 (st.ghostdag.scoreOf (blockHash 100 0) + 1) b' = .ok ({ st.fold {} (st.canonicalOrderAt
        (blockHash 100 0)) with utxo := u, accounts := bothAccounts a b }, satAdd128 0 (blockReward - 2)) := by
    intro b' hitems
    rw [hvirtual, hscore, hchain]
    exact simulate_spend hitems hid happlies
  obtain ⟨block, admitted, hitems, hhash, hparents⟩ := f.numbered.admitted_spend hlow hmem hsize
    (fun b' hb' => validate_spend hchain hb' hform hid hinputs hverify) hbody
  have inv' := inv.accept admitted
  have htip := f.selectedTip_next inv admitted hparents
  obtain ⟨l, fees, hsimulate, hfold, -⟩ := inv.fold_new admitted
  rw [merged_onlyParent, blueScore_onlyParent, List.append_nil, ← hvirtual] at hsimulate
  obtain ⟨rfl, -⟩ := Prod.mk.inj (Except.ok.inj (hsimulate.symm.trans (hbody block hitems)))
  refine ⟨calls ++ [(env, block)], ?_, names_of_spend (hcalls ▸ hempty) fun x hx => ?_⟩
  · rw [ChainState.run_concat, ← hcalls, admitted.step, inv'.live htip,
      ChainState.accept_archival st env block _ inv.archival, ChainState.fold_core (st.acceptFull_core env block _),
      (st.acceptFull_core env block _).canonicalOrderAt, hfold, (Ledger.applyBlockReward_keeps _ _ _ _).1]
  · obtain ⟨item, hitem, hname⟩ := hx
    rw [hitems, List.mem_singleton] at hitem
    exact hnames x (hitem ▸ hname)

/-- The addresses of two parties. -/
theorem two_parties : Address.isBech32m (partyAddress 1) = true ∧ Address.isBech32m (partyAddress 2) = true ∧
    (partyAddress 1).length + (partyAddress 2).length ≤ 1000 ∧
    Address.equivalent (partyAddress 1) (partyAddress 2) = false := by
  decide +kernel

end Sample

end HassanNode
